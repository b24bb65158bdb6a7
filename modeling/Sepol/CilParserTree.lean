import Sepol.CilParserRound

/-!
# The tree of the parentheses

The parser accepts exactly the texts whose tokens are events that balance, parentheses and line marks apart.  The
tree, with the nodes for marks left out, is the tree of the parentheses exactly when no word and no opening
parenthesis comes where the open nodes and the open parentheses disagree.
-/

namespace Sepol

open NestedText Outcome

/-- The piece of an event in the text without line marks. -/
def ParseEvent.piece : ParseEvent → Option (Piece CString)
  | .opening => some .opening
  | .closing => some .closing
  | .word value => some (.word value)
  | .start => none
  | .stop => none

/-- The forest that the parentheses and words of the events denote. -/
def denotedForest (es : List ParseEvent) : Option (List (Nested CString)) := read (es.filterMap ParseEvent.piece)

/-- At each word and each opening parenthesis as many nodes of parentheses are open as parentheses are. -/
def NodesAgree : List CilNodeMade → Nat → List ParseEvent → Prop
  | _, _, [] => True
  | frames, parens, .opening :: es => frames.count .text = parens ∧ NodesAgree (.text :: frames) (parens + 1) es
  | frames, parens, .word _ :: es => frames.count .text = parens ∧ NodesAgree frames parens es
  | frames, parens, .closing :: es => NodesAgree frames.tail (parens - 1) es
  | frames, parens, .start :: es => NodesAgree (.mark :: frames) parens es
  | frames, parens, .stop :: es => NodesAgree frames.tail parens es

/-! ### The whole parse -/

/-- The result of the loop: the tokens denote events that balance, and the tree has the text that they build. -/
def LoopResult (before : List CilParseNode) (counts : OpenCounts) (frames : List CilNodeMade)
    (text : List (Piece CString)) (tokens : List CilToken) (s' : CilParserState) : Prop :=
  ∃ es, CilDenotes tokens es ∧ Balanced counts es ∧ s'.Holds before ⟨0, 0⟩ [] (text ++ builtText frames es)

/-- The rounds of the loop, by induction on their bound: each reads the tokens of at most one event, and there are
rounds left for the tokens after it. -/
private theorem ensures_cilParserLoop {before : List CilParseNode} {rounds : Nat} {s : CilParserState}
    {counts : OpenCounts} {frames : List CilNodeMade} {text : List (Piece CString)} {tokens : List CilToken}
    (h : s.Holds before counts frames text) (hrounds : tokens.length < rounds) :
    Ensures CilParserError.Reported (LoopResult before counts frames text tokens)
      (cilParserLoop rounds s tokens) := by
  induction rounds generalizing s counts frames text tokens with
  | zero => omega
  | succ rounds ih =>
    simp only [cilParserLoop]
    refine Ensures.bind (ensures_round h tokens) ?_
    rintro ⟨s', last, rest⟩ (⟨hlast, hend, rfl, hholds⟩ | ⟨hlast, hlength, e, hround, hadvances⟩)
    · have hframes : frames = [] := List.eq_nil_of_length_eq_zero hholds.length
      subst hframes
      simp only at hlast
      simp only [hlast, ↓reduceIte]
      have hresult : LoopResult before ⟨0, 0⟩ [] text tokens s' :=
        ⟨[], .finish hend, rfl, by simpa [builtText] using hholds⟩
      exact hresult
    · simp only at hlast hlength
      simp only [hlast, ↓reduceIte]
      cases e with
      | none =>
        refine Ensures.mono (ih hadvances (by omega)) ?_
        rintro s'' ⟨es, hdenotes, hbalanced, hholds⟩
        exact ⟨es, .round hround hdenotes, hbalanced, hholds⟩
      | some e =>
        obtain ⟨counts', hcounts, hholds'⟩ := hadvances
        refine Ensures.mono (ih hholds' (by omega)) ?_
        rintro s'' ⟨es, hdenotes, hbalanced, hholds⟩
        refine ⟨e :: es, .round hround hdenotes, ?_, ?_⟩
        · simpa [Balanced, hcounts] using hbalanced
        · simpa [builtText] using hholds

/-- A text whose events balance is accepted, by induction on how its tokens denote them. -/
private theorem cilParserLoop_of_denotes {before : List CilParseNode} {rounds : Nat} {s : CilParserState}
    {counts : OpenCounts}
    {frames : List CilNodeMade} {text : List (Piece CString)} {tokens : List CilToken} {es : List ParseEvent}
    (h : s.Holds before counts frames text) (hrounds : tokens.length < rounds) (hdenotes : CilDenotes tokens es)
    (hbalanced : Balanced counts es) : ∃ s', cilParserLoop rounds s tokens = .ok s' := by
  induction hdenotes generalizing rounds s counts frames text with
  | finish hend =>
    obtain ⟨rounds, rfl⟩ := Nat.exists_eq_add_of_lt hrounds
    have hcounts : counts = ⟨0, 0⟩ := by simpa [Balanced] using hbalanced
    subst hcounts
    obtain ⟨s', last, rest, hswitch, hlast⟩ := cilParserSwitch_of_end h hend
    exact ⟨s', by simp [cilParserLoop, hswitch, hlast, bind, Except.bind, pure, Except.pure]⟩
  | @round tokens rest e es hround hrest ih =>
    obtain ⟨rounds, rfl⟩ := Nat.exists_eq_add_of_lt hrounds
    have hround' := hround
    cases tokens with
    | nil => cases hround
    | cons tok tokens =>
      have hafter : ∀ e' ∈ e, (counts.after e').isSome := by
        rintro e' rfl
        cases hcounts : counts.after e' with
        | none => simp [Balanced, hcounts] at hbalanced
        | some counts' => rfl
      obtain ⟨s', last, hswitch, hlast⟩ := cilParserSwitch_of_round h hround hafter
      have hspec := ensures_cilParserSwitch h tok tokens
      rw [hswitch] at hspec
      rcases hspec with ⟨hlast', -⟩ | ⟨-, hlength, e', hround'', hadvances⟩
      · exact absurd hlast' hlast
      obtain ⟨rfl, -⟩ := hround''.unique hround'
      simp only at hlength
      have hloop : ∃ s'', cilParserLoop (tokens.length + 1 + rounds) s' rest = .ok s'' := by
        cases e' with
        | none => exact ih hadvances (by simp only [List.length_cons] at hlength; omega) hbalanced
        | some e' =>
          obtain ⟨counts', hcounts, hholds'⟩ := hadvances
          refine ih hholds' (by simp only [List.length_cons] at hlength; omega) ?_
          simpa [Balanced, hcounts] using hbalanced
      obtain ⟨s'', hs''⟩ := hloop
      refine ⟨s'', ?_⟩
      simpa [cilParserLoop, cilLexerNext, hswitch, hlast, bind, Except.bind] using hs''

private theorem closings_append_eq_iff {a b : Nat} {piece piece' : Piece CString} {text text' : List (Piece CString)}
    (hpiece : piece ≠ .closing) (hpiece' : piece' ≠ .closing) :
    List.replicate a Piece.closing ++ piece :: text = List.replicate b Piece.closing ++ piece' :: text' ↔
      a = b ∧ piece = piece' ∧ text = text' := by
  induction a generalizing b with
  | zero =>
    cases b with
    | zero => simp
    | succ b => simp [List.replicate_succ, hpiece]
  | succ a ih =>
    cases b with
    | zero => simpa [List.replicate_succ] using fun h => absurd h.symm hpiece'
    | succ b => simp [List.replicate_succ, ih]

/-- A piece that is no closing parenthesis stands at the same place in both texts exactly when as many nodes are open.
-/
private theorem piece_eq_iff {a b opened parens : Nat} {piece : Piece CString} {text text' : List (Piece CString)}
    {agree : Prop} (hpiece : piece ≠ .closing) (hclosed : opened + a = parens + b)
    (hrest : opened = parens →
      (List.replicate 0 Piece.closing ++ text = List.replicate 0 Piece.closing ++ text' ↔ agree)) :
    List.replicate a Piece.closing ++ piece :: text = List.replicate b Piece.closing ++ piece :: text' ↔
      opened = parens ∧ agree := by
  rw [closings_append_eq_iff hpiece hpiece]
  constructor
  · rintro ⟨rfl, -, htext⟩
    have hopened : opened = parens := by omega
    exact ⟨hopened, (hrest hopened).mp (by simpa using htext)⟩
  · rintro ⟨hopened, hagree⟩
    have htext := (hrest hopened).mpr hagree
    exact ⟨by omega, rfl, by simpa using htext⟩

private theorem closings_append_closing (a : Nat) (made : CilNodeMade) (text : List (Piece CString)) :
    List.replicate a Piece.closing ++ (made.closing ++ text) =
      List.replicate (a + made.closing.length) Piece.closing ++ text := by
  cases made with
  | text =>
    simp only [CilNodeMade.closing, List.length_singleton]
    rw [List.replicate_succ', List.append_assoc]
  | mark => simp [CilNodeMade.closing]

private theorem count_cons_text (made : CilNodeMade) (frames : List CilNodeMade) :
    (made :: frames).count .text = frames.count .text + made.closing.length := by
  cases made <;> simp [CilNodeMade.closing]

/-- The text that the events build against their own text, by induction on the events.  Up to the last word or opening
parenthesis both are the same; since then `a` and `b` parentheses were closed in them. -/
private theorem builtText_eq_iff (es : List ParseEvent) (frames : List CilNodeMade) (counts : OpenCounts) (a b : Nat)
    (hbalanced : Balanced counts es) (hlength : frames.length = counts.parens + counts.marks)
    (hclosed : frames.count .text + a = counts.parens + b) :
    List.replicate a Piece.closing ++ builtText frames es =
        List.replicate b Piece.closing ++ es.filterMap ParseEvent.piece ↔
      NodesAgree frames counts.parens es := by
  induction es generalizing frames counts a b with
  | nil =>
    have hcounts : counts = ⟨0, 0⟩ := by simpa [Balanced] using hbalanced
    subst hcounts
    have hframes : frames = [] := List.eq_nil_of_length_eq_zero hlength
    subst hframes
    have hab : a = b := by simpa using hclosed
    simp [builtText, NodesAgree, hab]
  | cons e es ih =>
    obtain ⟨counts', hafter, hbalanced'⟩ : ∃ counts', counts.after e = some counts' ∧ Balanced counts' es := by
      cases hafter : counts.after e with
      | none => simp [Balanced, hafter] at hbalanced
      | some counts' => exact ⟨counts', rfl, by simpa [Balanced, hafter] using hbalanced⟩
    cases e with
    | opening =>
      simp only [OpenCounts.after, Option.ite_none_right_eq_some, Option.some.injEq] at hafter
      obtain ⟨-, rfl⟩ := hafter
      have hrest := ih (.text :: frames) ⟨counts.parens + 1, counts.marks⟩ 0 0 hbalanced'
        (by simp only [List.length_cons]; omega)
      simp only [builtText, ParseEvent.built, ParseEvent.frames, List.filterMap_cons, ParseEvent.piece, NodesAgree,
        List.singleton_append]
      exact piece_eq_iff (by simp) hclosed fun hcount => hrest (by simp [hcount])
    | word value =>
      simp only [OpenCounts.after, Option.ite_none_right_eq_some, Option.some.injEq] at hafter
      obtain ⟨-, rfl⟩ := hafter
      have hrest := ih frames counts 0 0 hbalanced' hlength
      simp only [builtText, ParseEvent.built, ParseEvent.frames, List.filterMap_cons, ParseEvent.piece, NodesAgree,
        List.singleton_append]
      exact piece_eq_iff (by simp) hclosed fun hcount => hrest (by simp [hcount])
    | start =>
      simp only [OpenCounts.after, Option.ite_none_right_eq_some, Option.some.injEq] at hafter
      obtain ⟨-, rfl⟩ := hafter
      have hrest := ih (.mark :: frames) ⟨counts.parens, counts.marks + 1⟩ a b hbalanced'
        (by simp only [List.length_cons]; omega) (by simpa using hclosed)
      exact hrest
    | closing =>
      simp only [OpenCounts.after, Option.ite_none_right_eq_some, Option.some.injEq] at hafter
      obtain ⟨hpos, rfl⟩ := hafter
      cases frames with
      | nil => simp only [List.length_nil] at hlength; omega
      | cons made frames =>
        simp only [List.length_cons] at hlength
        rw [count_cons_text] at hclosed
        have hone : CilNodeMade.text.closing.length = 1 := rfl
        have hrest := ih frames ⟨counts.parens - 1, counts.marks⟩ (a + made.closing.length)
          (b + CilNodeMade.text.closing.length) hbalanced' (by simp only; omega) (by simp only; omega)
        simp only [← closings_append_closing] at hrest
        exact hrest
    | stop =>
      simp only [OpenCounts.after, Option.ite_none_right_eq_some, Option.some.injEq] at hafter
      obtain ⟨hpos, rfl⟩ := hafter
      cases frames with
      | nil => simp only [List.length_nil] at hlength; omega
      | cons made frames =>
        simp only [List.length_cons] at hlength
        rw [count_cons_text] at hclosed
        have hrest := ih frames ⟨counts.parens, counts.marks - 1⟩ (a + made.closing.length) b hbalanced'
          (by simp only; omega) (by simp only; omega)
        rw [← closings_append_closing] at hrest
        exact hrest

/-- What the parse of one file is to do, for any bound on the rounds that the tokens do not reach. -/
structure CilParserCorrect (before : List CilParseNode) (path : CString) (tokens : List CilToken) : Prop where
  /-- It comes to an end, and never moves above the root. -/
  ends : ∀ rounds, tokens.length < rounds → cilParser rounds before path tokens ≠ .error .outOfRounds ∧
    cilParser rounds before path tokens ≠ .error .aboveRoot
  /-- What it accepts balances. -/
  balanced : ∀ rounds root, tokens.length < rounds → cilParser rounds before path tokens = .ok root →
    ∃ es, CilDenotes tokens es ∧ Balanced ⟨0, 0⟩ es
  /-- The root gets the tree of the file, which without the nodes for marks is the forest of the parentheses. -/
  tree : ∀ rounds root, tokens.length < rounds → cilParser rounds before path tokens = .ok root →
    ∃ file, root = (cilParseRoot before).addChild file ∧
      ∀ es, CilDenotes tokens es → denotedForest es = some file.lift

section Parser

variable {before : List CilParseNode} {path : CString} {tokens : List CilToken} {rounds : Nat}

private theorem holds_cilParserStart (before : List CilParseNode) (path : CString) :
    (cilParserStart before path).Holds before ⟨0, 0⟩ [] [] :=
  ⟨rfl, rfl, rfl, holds_addCilPath before path⟩

private theorem ensures_cilParser (before : List CilParseNode) (path : CString) (hrounds : tokens.length < rounds) :
    Ensures CilParserError.Reported
      (fun root => ∃ es, CilDenotes tokens es ∧ Balanced ⟨0, 0⟩ es ∧
        ∃ file, root = (cilParseRoot before).addChild file ∧ printAll file.lift = builtText [] es)
      (cilParser rounds before path tokens) := by
  unfold cilParser
  refine Ensures.bind (ensures_cilParserLoop (holds_cilParserStart before path) hrounds) ?_
  rintro s ⟨es, hdenotes, hbalanced, hholds⟩
  obtain ⟨file, hroot, htext⟩ := hholds.cursor.root
  exact ⟨es, hdenotes, hbalanced, file, hroot, by simpa using htext⟩

private theorem cilParser_accepts_iff (hrounds : tokens.length < rounds) :
    (∃ root, cilParser rounds before path tokens = .ok root) ↔
      ∃ es, CilDenotes tokens es ∧ Balanced ⟨0, 0⟩ es := by
  constructor
  · rintro ⟨root, hroot⟩
    have hspec := ensures_cilParser before path hrounds
    rw [hroot] at hspec
    obtain ⟨es, hdenotes, hbalanced, -⟩ := hspec
    exact ⟨es, hdenotes, hbalanced⟩
  · rintro ⟨es, hdenotes, hbalanced⟩
    obtain ⟨s, hs⟩ := cilParserLoop_of_denotes (holds_cilParserStart before path) hrounds hdenotes hbalanced
    exact ⟨s.cursor.root, by simp [cilParser, hs]⟩

private theorem builtText_eq_text_iff {es : List ParseEvent} (hbalanced : Balanced ⟨0, 0⟩ es) :
    builtText [] es = es.filterMap ParseEvent.piece ↔ NodesAgree [] 0 es := by
  simpa using builtText_eq_iff es [] ⟨0, 0⟩ 0 0 hbalanced rfl rfl

end Parser

/-- The parser is correct on a text exactly when, at each word and opening parenthesis of it, the open nodes agree
with the open parentheses. -/
theorem cilParserCorrect_iff (before : List CilParseNode) (path : CString) (tokens : List CilToken) :
    CilParserCorrect before path tokens ↔
      ∀ es, CilDenotes tokens es → Balanced ⟨0, 0⟩ es → NodesAgree [] 0 es := by
  constructor
  · intro hcorrect es hdenotes hbalanced
    have hrounds : tokens.length < tokens.length + 1 := Nat.lt_succ_self _
    obtain ⟨root, hroot⟩ := (cilParser_accepts_iff hrounds).mpr ⟨es, hdenotes, hbalanced⟩
    obtain ⟨file, hfile, hforest⟩ := hcorrect.tree _ root hrounds hroot
    have hspec := ensures_cilParser before path hrounds
    rw [hroot] at hspec
    obtain ⟨es', hdenotes', -, file', hfile', htext⟩ := hspec
    obtain rfl := hdenotes.unique hdenotes'
    have hsame : file = file' := by
      rw [hfile] at hfile'
      simpa [CilOpenNode.addChild, cilParseRoot] using hfile'
    have hprint : printAll file.lift = es.filterMap ParseEvent.piece := read_eq_some_iff.mp (hforest es hdenotes)
    rw [← builtText_eq_text_iff hbalanced, ← htext, ← hsame]
    exact hprint
  · intro hagree
    refine ⟨?_, ?_, ?_⟩
    · intro rounds hrounds
      have hspec := ensures_cilParser before path hrounds
      exact ⟨hspec.ne_error fun h => h.2 rfl, hspec.ne_error fun h => h.1 rfl⟩
    · intro rounds root hrounds hroot
      exact (cilParser_accepts_iff hrounds).mp ⟨root, hroot⟩
    · intro rounds root hrounds hroot
      have hspec := ensures_cilParser before path hrounds
      rw [hroot] at hspec
      obtain ⟨es, hdenotes, hbalanced, file, hfile, htext⟩ := hspec
      refine ⟨file, hfile, fun es' hdenotes' => ?_⟩
      obtain rfl := hdenotes.unique hdenotes'
      refine read_eq_some_iff.mpr ?_
      rw [htext, builtText_eq_text_iff hbalanced]
      exact hagree es hdenotes hbalanced

/-- A line mark starts inside the parentheses that end before it: `(a`, `;;* lms 1 f`, `)(b)`, `;;* lme`. -/
def crossingTokens : List CilToken :=
  [⟨.oparen, ['('], 1⟩, ⟨.symbol, ['a'], 1⟩, ⟨.newline, [], 2⟩,
    ⟨.hllLinemark, [';', ';', '*'], 2⟩, ⟨.symbol, cilKeySrcHllLms, 2⟩, ⟨.symbol, ['1'], 2⟩, ⟨.symbol, ['f'], 2⟩,
    ⟨.newline, [], 3⟩,
    ⟨.cparen, [')'], 3⟩, ⟨.oparen, ['('], 3⟩, ⟨.symbol, ['b'], 3⟩, ⟨.cparen, [')'], 3⟩, ⟨.newline, [], 4⟩,
    ⟨.hllLinemark, [';', ';', '*'], 4⟩, ⟨.symbol, cilKeySrcHllLme, 4⟩, ⟨.newline, [], 5⟩, ⟨.endOfFile, [], 5⟩]

/-- The tree of the text has `(b)` inside `(a)`, not after it. -/
theorem not_cilParserCorrect_crossing : ¬ CilParserCorrect [] ['p'] crossingTokens := by
  intro hcorrect
  have hdenotes : CilDenotes crossingTokens
      [.opening, .word ['a'], .start, .closing, .opening, .word ['b'], .closing, .stop] := by
    refine .round (.opening rfl) (.round (.word (.inl rfl)) (.round (.newline rfl) ?_))
    refine .round (.start rfl rfl (.inl rfl) rfl (.inl rfl) rfl) (.round (.closing rfl) ?_)
    refine .round (.opening rfl) (.round (.word (.inl rfl)) (.round (.closing rfl) (.round (.newline rfl) ?_)))
    exact .round (.stop rfl rfl rfl rfl) (.finish (.endOfFile rfl))
  have hparser : (cilParser 18 [] ['p'] crossingTokens).toOption.map
      (fun root => root.children.map fun file => printAll file.lift) =
        some [[.opening, .word ['a'], .opening, .word ['b'], .closing, .closing]] := by decide +kernel
  cases hroot : cilParser 18 [] ['p'] crossingTokens with
  | error e => simp [hroot, Except.toOption] at hparser
  | ok root =>
    obtain ⟨file, hfile, hforest⟩ := hcorrect.tree 18 root (by decide) hroot
    have hprint := read_eq_some_iff.mp (hforest _ hdenotes)
    have hchildren : printAll file.lift = [.opening, .word ['a'], .opening, .word ['b'], .closing, .closing] := by
      simpa [hroot, hfile, Except.toOption, CilOpenNode.addChild, cilParseRoot] using hparser
    rw [hchildren] at hprint
    exact absurd hprint (by decide)

end Sepol
