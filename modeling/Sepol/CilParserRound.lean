import Sepol.CilParserGrammar
import Sepol.Lib.NestedText
import Sepol.Lib.Outcome

/-!
# One round of the CIL parser

A round reads the tokens of at most one event.  Each end takes away the innermost open node, of whichever kind it is:
the open nodes are as many as the open parentheses and line marks together, so that there is always a node to take
away below the root, but they need not be the same.  The text of the open nodes grows by what the event builds.
-/

namespace Sepol

open NestedText Outcome

mutual

/-- A node without the nodes made for marks, whose children take their place. -/
def CilParseNode.lift : CilParseNode → List (Nested CString)
  | .node .mark _ _ _ children => liftAll children
  | .node .text _ _ none children => [.list (liftAll children)]
  | .node .text _ _ (some value) _ => [.word value]

def liftAll : List CilParseNode → List (Nested CString)
  | [] => []
  | n :: nodes => n.lift ++ liftAll nodes

end

/-- The kinds of the open nodes after an event, innermost first: an end takes away the innermost one. -/
def ParseEvent.frames : ParseEvent → List CilNodeMade → List CilNodeMade
  | .opening, frames => .text :: frames
  | .start, frames => .mark :: frames
  | .closing, frames => frames.tail
  | .stop, frames => frames.tail
  | .word _, frames => frames

/-! ### The text that the open nodes hold -/

@[simp] theorem liftAll_append (nodes₁ nodes₂ : List CilParseNode) :
    liftAll (nodes₁ ++ nodes₂) = liftAll nodes₁ ++ liftAll nodes₂ := by
  induction nodes₁ with
  | nil => simp [liftAll]
  | cons n nodes ih => simp [liftAll, ih]

/-- What a node of the kind starts with. -/
def CilNodeMade.opening : CilNodeMade → List (Piece CString)
  | .text => [.opening]
  | .mark => []

/-- What ends with a node of the kind. -/
def CilNodeMade.closing : CilNodeMade → List (Piece CString)
  | .text => [.closing]
  | .mark => []

/-- The text of an open node: a node of the text has its parenthesis before it. -/
def CilOpenNode.openText (n : CilOpenNode) : List (Piece CString) :=
  n.made.opening ++ printAll (liftAll n.children)

/-- The text of open nodes, innermost first. -/
def openNodesText : List CilOpenNode → List (Piece CString)
  | [] => []
  | n :: nodes => openNodesText nodes ++ n.openText

private theorem CilOpenNode.openText_addChild (n : CilOpenNode) (child : CilParseNode) :
    (n.addChild child).openText = n.openText ++ printAll child.lift := by
  simp [CilOpenNode.openText, CilOpenNode.addChild, liftAll]

private theorem CilOpenNode.print_close (n : CilOpenNode) :
    printAll n.close.lift = n.openText ++ n.made.closing := by
  obtain ⟨made, line, hllOffset, children⟩ := n
  cases made with
  | text =>
    simp [CilOpenNode.close, CilParseNode.lift, CilOpenNode.openText, CilNodeMade.opening, CilNodeMade.closing,
      printAll_list]
  | mark =>
    simp [CilOpenNode.close, CilParseNode.lift, CilOpenNode.openText, CilNodeMade.opening, CilNodeMade.closing]

/-- The open nodes inside the node of the file are of the kinds `frames`, and they hold the text `text`.  Around the
node of the file is the root, with the trees of the files before. -/
structure CilCursor.Holds (cursor : CilCursor) (before : List CilParseNode) (frames : List CilNodeMade)
    (text : List (Piece CString)) : Prop where
  nodes : ∃ (inner : List CilOpenNode) (file : CilOpenNode),
    cursor.current :: cursor.parents = inner ++ [file, cilParseRoot before] ∧ inner.map (·.made) = frames ∧
      file.made = .mark ∧ openNodesText (inner ++ [file]) = text

section Holds

variable {cursor : CilCursor} {before : List CilParseNode} {frames : List CilNodeMade} {text : List (Piece CString)}

theorem CilCursor.Holds.insertNode (h : cursor.Holds before frames text) (node : CilParseNode) :
    (cursor.insertNode node).Holds before frames (text ++ printAll node.lift) := by
  obtain ⟨inner, file, hnodes, hframes, hfile, htext⟩ := h.nodes
  cases inner with
  | nil =>
    simp only [List.nil_append, List.cons.injEq] at hnodes
    obtain ⟨hcurrent, hparents⟩ := hnodes
    refine ⟨[], file.addChild node, by simp [CilCursor.insertNode, hcurrent, hparents], hframes, hfile, ?_⟩
    simp [← htext, openNodesText, CilOpenNode.openText_addChild]
  | cons n inner =>
    simp only [List.cons_append, List.cons.injEq] at hnodes
    obtain ⟨hcurrent, hparents⟩ := hnodes
    refine ⟨n.addChild node :: inner, file, by simp [CilCursor.insertNode, hcurrent, hparents], hframes, hfile, ?_⟩
    simp [← htext, openNodesText, CilOpenNode.openText_addChild]

private theorem CilCursor.Holds.insertMark (h : cursor.Holds before frames text) (line : Nat) (hllOffset : BitVec 32)
    (value : CString) : (cursor.insertNode (createNode .mark line hllOffset value)).Holds before frames text := by
  have hinsert := h.insertNode (createNode .mark line hllOffset value)
  simpa [createNode, CilParseNode.lift, liftAll] using hinsert

theorem CilCursor.Holds.insertCurrent (h : cursor.Holds before frames text) (made : CilNodeMade) (line : Nat)
    (hllOffset : BitVec 32) :
    (cursor.insertCurrent made line hllOffset).Holds before (made :: frames) (text ++ made.opening) := by
  obtain ⟨inner, file, hnodes, hframes, hfile, htext⟩ := h.nodes
  refine ⟨⟨made, line, hllOffset, []⟩ :: inner, file, by simp [CilCursor.insertCurrent, hnodes], by simp [hframes],
    hfile, ?_⟩
  rw [List.cons_append, openNodesText, htext]
  simp [CilOpenNode.openText, liftAll]

/-- Inside the node of the file the current node has a parent that is not the root. -/
theorem CilCursor.Holds.parent {made : CilNodeMade} (h : cursor.Holds before (made :: frames) text) :
    ∃ cursor', cursor.parent = some cursor' ∧ cursor'.Holds before frames (text ++ made.closing) := by
  obtain ⟨inner, file, hnodes, hframes, hfile, htext⟩ := h.nodes
  cases inner with
  | nil => simp at hframes
  | cons n inner =>
    simp only [List.cons_append, List.cons.injEq] at hnodes
    simp only [List.map_cons, List.cons.injEq] at hframes
    obtain ⟨hcurrent, hparents⟩ := hnodes
    obtain ⟨hmade, hframes⟩ := hframes
    rw [List.cons_append, openNodesText] at htext
    cases inner with
    | nil =>
      have hparent : cursor.parent = some ⟨file.addChild n.close, [cilParseRoot before]⟩ := by
        simp [CilCursor.parent, hparents, hcurrent]
      refine ⟨_, hparent, [], file.addChild n.close, rfl, hframes, hfile, ?_⟩
      rw [← htext, ← hmade]
      simp [openNodesText, CilOpenNode.openText_addChild, CilOpenNode.print_close]
    | cons m inner =>
      have hparent : cursor.parent = some ⟨m.addChild n.close, inner ++ [file, cilParseRoot before]⟩ := by
        simp [CilCursor.parent, hparents, hcurrent]
      refine ⟨_, hparent, m.addChild n.close :: inner, file, rfl, hframes, hfile, ?_⟩
      rw [← htext, ← hmade]
      simp [openNodesText, CilOpenNode.openText_addChild, CilOpenNode.print_close]

/-- When nothing is open but the node of the file, the root has one more child, with the text. -/
theorem CilCursor.Holds.root (h : cursor.Holds before [] text) :
    ∃ file, cursor.root = (cilParseRoot before).addChild file ∧ printAll file.lift = text := by
  obtain ⟨inner, file, hnodes, hframes, hfile, htext⟩ := h.nodes
  obtain rfl := List.map_eq_nil_iff.mp hframes
  simp only [List.nil_append, List.cons.injEq] at hnodes
  obtain ⟨hcurrent, hparents⟩ := hnodes
  refine ⟨file.close, by simp [CilCursor.root, hparents, hcurrent], ?_⟩
  rw [CilOpenNode.print_close, hfile, ← htext]
  simp [openNodesText, CilNodeMade.closing]

end Holds

theorem holds_addCilPath (before : List CilParseNode) (path : CString) :
    (addCilPath ⟨cilParseRoot before, []⟩ path).Holds before [] [] := by
  have hfile : (CilCursor.insertCurrent ⟨cilParseRoot before, []⟩ .mark 0 0).Holds before [] [] := by
    refine ⟨[], ⟨.mark, 0, 0, []⟩, rfl, rfl, rfl, ?_⟩
    simp [openNodesText, CilOpenNode.openText, CilNodeMade.opening, liftAll]
  exact (((hfile.insertMark _ _ _).insertMark _ _ _).insertMark _ _ _).insertMark _ _ _

/-! ### What one round does -/

/-- The piece of an event in the text of the tree: an end ends the innermost open node. -/
def ParseEvent.built : ParseEvent → List CilNodeMade → List (Piece CString)
  | .opening, _ => [.opening]
  | .word value, _ => [.word value]
  | .closing, made :: _ => made.closing
  | .stop, made :: _ => made.closing
  | _, _ => []

/-- The text of the tree that the events build. -/
def builtText : List CilNodeMade → List ParseEvent → List (Piece CString)
  | _, [] => []
  | frames, e :: es => e.built frames ++ builtText (e.frames frames) es

/-- The counts of the state are `counts`, and each counted parenthesis and line mark has an open node. -/
structure CilParserState.Holds (s : CilParserState) (before : List CilParseNode) (counts : OpenCounts)
    (frames : List CilNodeMade) (text : List (Piece CString)) : Prop where
  parens : s.parenCount = counts.parens
  marks : s.hllStack.length = counts.marks
  length : frames.length = counts.parens + counts.marks
  cursor : s.cursor.Holds before frames text

/-- The state `s'` after an event, or after none. -/
def Advances (before : List CilParseNode) (counts : OpenCounts) (frames : List CilNodeMade)
    (text : List (Piece CString)) (e : Option ParseEvent) (s' : CilParserState) : Prop :=
  match e with
  | none => s'.Holds before counts frames text
  | some e =>
    ∃ counts', counts.after e = some counts' ∧ s'.Holds before counts' (e.frames frames) (text ++ e.built frames)

/-- The messages that the source has. -/
def CilParserError.Reported (e : CilParserError) : Prop := e ≠ .aboveRoot ∧ e ≠ .outOfRounds

section Round

variable {s : CilParserState} {before : List CilParseNode} {counts : OpenCounts} {frames : List CilNodeMade}
  {text : List (Piece CString)}

theorem CilParserState.Holds.countNewline (h : s.Holds before counts frames text) :
    (countNewline s).Holds before counts frames text := by
  unfold Sepol.countNewline
  split
  · exact h
  · exact ⟨h.parens, h.marks, h.length, h.cursor⟩

private theorem ensures_currentParent {made : CilNodeMade} (h : s.cursor.Holds before (made :: frames) text) :
    Ensures CilParserError.Reported
      (fun s' => s'.parenCount = s.parenCount ∧ s'.hllStack = s.hllStack ∧
        s'.cursor.Holds before frames (text ++ made.closing)) (currentParent s) := by
  obtain ⟨cursor, hparent, hcursor⟩ := h.parent
  simp [currentParent, hparent, hcursor]

private theorem ensures_newlineHllLinemark (s : CilParserState) (tokens : List CilToken) :
    Ensures CilParserError.Reported
      (fun r => r.1 = countNewline s ∧ r.2.1.type = .newline ∧ tokens = r.2.1 :: r.2.2)
      (newlineHllLinemark s tokens) := by
  unfold newlineHllLinemark
  cases tokens with
  | nil => simp [cilLexerNext, CilParserError.Reported]
  | cons tok tokens =>
    by_cases htok : tok.type = .newline
    · simp [cilLexerNext, htok]
    · simp [cilLexerNext, htok, CilParserError.Reported]

private theorem ensures_endHllLinemark (h : s.Holds before counts frames text) (line : Nat) :
    Ensures CilParserError.Reported (Advances before counts frames text (some .stop)) (endHllLinemark s line) := by
  unfold endHllLinemark
  cases hstack : s.hllStack with
  | nil => simp [CilParserError.Reported]
  | cons info hllStack =>
    have hmarks : counts.marks = hllStack.length + 1 := by rw [← h.marks, hstack, List.length_cons]
    have hlength := h.length
    cases frames with
    | nil => simp only [List.length_nil] at hlength; omega
    | cons made frames =>
      simp only [List.length_cons] at hlength
      simp only [List.isEmpty_cons, Bool.false_eq_true, ↓reduceIte, popHllInfo, hstack]
      refine Ensures.mono (ensures_currentParent h.cursor) ?_
      rintro s' ⟨hparens, hstack', hcursor⟩
      refine ⟨⟨counts.parens, counts.marks - 1⟩, by simp [OpenCounts.after, hmarks], ?_⟩
      refine ⟨by rw [hparens]; exact h.parens, ?_, ?_, hcursor⟩
      · rw [hstack', hmarks]
        simp
      · simp only [ParseEvent.frames, List.tail_cons]
        omega

private theorem ensures_startHllLinemark (h : s.Holds before counts frames text) (tok : CilToken)
    (tokens : List CilToken) :
    Ensures CilParserError.Reported
      (fun r => Advances before counts frames text (some .start) r.1 ∧ ∃ line file : CilToken,
        tokens = line :: file :: r.2 ∧ line.type = .symbol ∧ (file.type = .symbol ∨ file.type = .qstring))
      (startHllLinemark s tok tokens) := by
  unfold startHllLinemark
  by_cases hmany : (pushHllInfo s).hllStack.length > cilParserMaxExprDepth
  · simp [hmany, CilParserError.Reported]
  have hmarks : counts.marks < 4096 := by
    have hmarks := h.marks
    simp only [pushHllInfo, cilParserMaxExprDepth, List.length_cons] at hmany
    omega
  simp only [hmany, ↓reduceIte]
  match tokens with
  | [] => simp [cilLexerNext, CilParserError.Reported]
  | [line] =>
    by_cases hline : line.type = .symbol <;> simp [cilLexerNext, hline, CilParserError.Reported]
  | line :: file :: rest =>
    by_cases hline : line.type = .symbol
    · by_cases hfile : file.type = .symbol ∨ file.type = .qstring
      · have hnot : ¬ (file.type ≠ .symbol ∧ file.type ≠ .qstring) := by tauto
        simp only [cilLexerNext, hline, hnot, ne_eq, not_true_eq_false, ↓reduceIte, ensures_ok]
        refine ⟨⟨⟨counts.parens, counts.marks + 1⟩, by simp [OpenCounts.after, hmarks], ?_⟩, line, file, rfl, hline,
          hfile⟩
        have hcurrent := h.cursor.insertCurrent .mark tok.line s.hllOffset
        refine ⟨h.parens, by simp [pushHllInfo, h.marks], ?_, ?_⟩
        · simp only [ParseEvent.frames, List.length_cons, h.length]
          omega
        · exact (((hcurrent.insertMark _ _ _).insertMark _ _ _).insertMark _ _ _).insertMark _ _ _
      · have hnot : file.type ≠ .symbol ∧ file.type ≠ .qstring := by tauto
        simp [cilLexerNext, hline, hnot, CilParserError.Reported]
    · simp [cilLexerNext, hline, CilParserError.Reported]

/-- The results of a round that starts with the tokens `tokens`. -/
def RoundResult (before : List CilParseNode) (counts : OpenCounts) (frames : List CilNodeMade)
    (text : List (Piece CString)) (tokens : List CilToken) (r : CilParserState × CilToken × List CilToken) : Prop :=
  (r.2.1.type = .endOfFile ∧ CilEndsFile tokens ∧ counts = ⟨0, 0⟩ ∧ r.1.Holds before counts frames text) ∨
    (r.2.1.type ≠ .endOfFile ∧ r.2.2.length < tokens.length ∧
      ∃ e, CilRound tokens e r.2.2 ∧ Advances before counts frames text e r.1)

private theorem ensures_addHllLinemark (h : s.Holds before counts frames text) {mark : CilToken}
    (hmark : mark.type = .hllLinemark) (tokens : List CilToken) :
    Ensures CilParserError.Reported (RoundResult before counts frames text (mark :: tokens))
      (addHllLinemark s tokens) := by
  unfold addHllLinemark
  cases tokens with
  | nil => simp [cilLexerNext, CilParserError.Reported]
  | cons kind tokens =>
    by_cases hkind : kind.type = .symbol
    · by_cases hend : kind.value = cilKeySrcHllLme
      · simp only [cilLexerNext, hkind, hend, ne_eq, not_true_eq_false, false_and, ↓reduceIte]
        refine Ensures.bind (ensures_endHllLinemark h kind.line) fun s' hs' => ?_
        refine Ensures.mono (ensures_newlineHllLinemark s' tokens) ?_
        rintro ⟨s'', last, rest⟩ ⟨rfl, hlast, rfl⟩
        obtain ⟨counts', hcounts, hholds⟩ := hs'
        simp only at hlast
        refine .inr ⟨by simp [hlast], by simp; omega, some .stop, .stop hmark hkind hend hlast, counts', hcounts, ?_⟩
        exact hholds.countNewline
      · by_cases hstart : kind.value = cilKeySrcHllLms ∨ kind.value = cilKeySrcHllLmx
        · have hnot : ¬ (¬ kind.value = cilKeySrcHllLms ∧ ¬ kind.value = cilKeySrcHllLmx) := by tauto
          simp only [cilLexerNext, hkind, hend, hnot, ne_eq, not_true_eq_false, not_false_eq_true, true_and,
            ↓reduceIte]
          refine Ensures.bind (ensures_startHllLinemark h kind tokens) ?_
          rintro ⟨s', rest⟩ ⟨⟨counts', hcounts, hholds⟩, line, file, rfl, hline, hfile⟩
          refine Ensures.mono (ensures_newlineHllLinemark s' rest) ?_
          rintro ⟨s'', last, rest⟩ ⟨rfl, hlast, rfl⟩
          simp only at hlast
          refine .inr ⟨by simp [hlast], by simp; omega, some .start,
            .start hmark hkind hstart hline hfile hlast, counts', hcounts, hholds.countNewline⟩
        · have hnot : kind.value ≠ cilKeySrcHllLme ∧ kind.value ≠ cilKeySrcHllLms ∧
              kind.value ≠ cilKeySrcHllLmx := by tauto
          simp [cilLexerNext, hkind, hnot, CilParserError.Reported]
    · simp [cilLexerNext, hkind, CilParserError.Reported]

private theorem ensures_cilParserEnd (h : s.Holds before counts frames text) (tok : CilToken) :
    Ensures CilParserError.Reported (fun r => r = (s, tok) ∧ counts = ⟨0, 0⟩) (cilParserEnd s tok) := by
  unfold cilParserEnd
  by_cases hparens : s.parenCount > 0
  · simp [hparens, CilParserError.Reported]
  · cases hstack : s.hllStack with
    | nil =>
      have hcounts : counts = ⟨0, 0⟩ := by
        obtain ⟨parens, marks⟩ := counts
        have hparensEq := h.parens
        have hmarksEq := h.marks
        simp only [hstack, List.length_nil] at hparensEq hmarksEq
        simp only [OpenCounts.mk.injEq]
        omega
      simp [hparens, hcounts]
    | cons info hllStack => simp [hparens, CilParserError.Reported]

private theorem ensures_word (h : s.Holds before counts frames text) {tok : CilToken}
    (htok : tok.type = .symbol ∨ tok.type = .qstring) (tokens : List CilToken) :
    Ensures CilParserError.Reported (RoundResult before counts frames text (tok :: tokens))
      (if s.parenCount = 0 then .error (.symbolNotInside tok.line)
        else .ok ({ s with cursor := s.cursor.insertNode (createNode .text tok.line s.hllOffset tok.text) }, tok,
          tokens)) := by
  by_cases hzero : s.parenCount = 0
  · simp [hzero, CilParserError.Reported]
  · have hpos : 0 < counts.parens := by
      have hparens := h.parens
      omega
    have hinsert := h.cursor.insertNode (createNode .text tok.line s.hllOffset tok.text)
    simp only [hzero, ↓reduceIte, ensures_ok]
    refine .inr ⟨?_, by simp, some (.word tok.text), .word htok, counts, by simp [OpenCounts.after, hpos], h.parens,
      h.marks, h.length, ?_⟩
    · rcases htok with htok | htok <;> simp [htok]
    · simpa [createNode, CilParseNode.lift, printAll_word, ParseEvent.built, ParseEvent.frames] using hinsert

/-- One round reads the tokens of one event, or it ends the parse. -/
theorem ensures_cilParserSwitch (h : s.Holds before counts frames text) (tok : CilToken) (tokens : List CilToken) :
    Ensures CilParserError.Reported (RoundResult before counts frames text (tok :: tokens))
      (cilParserSwitch s tok tokens) := by
  unfold cilParserSwitch
  split
  case h_1 htok => exact ensures_addHllLinemark h htok tokens
  case h_2 htok =>
    by_cases hmany : s.parenCount + 1 > cilParserMaxExprDepth
    · simp [hmany, CilParserError.Reported]
    · have hparens : counts.parens < 4096 := by
        rw [h.parens] at hmany
        simp only [cilParserMaxExprDepth] at hmany
        omega
      simp only [hmany, ↓reduceIte, ensures_ok]
      refine .inr ⟨by simp [htok], by simp, some .opening, .opening htok, ⟨counts.parens + 1, counts.marks⟩,
        by simp [OpenCounts.after, hparens], by simp [h.parens], h.marks, ?_, h.cursor.insertCurrent _ _ _⟩
      simp only [ParseEvent.frames, List.length_cons, h.length]
      omega
  case h_3 htok =>
    by_cases hzero : s.parenCount = 0
    · simp [hzero, CilParserError.Reported]
    · have hparens := h.parens
      have hlength := h.length
      cases frames with
      | nil => simp only [List.length_nil] at hlength; omega
      | cons made frames =>
        simp only [List.length_cons] at hlength
        simp only [hzero, ↓reduceIte]
        have hcursor : ({ s with parenCount := s.parenCount - 1 } : CilParserState).cursor.Holds before
          (made :: frames)
          text := h.cursor
        refine Ensures.bind (ensures_currentParent hcursor) ?_
        rintro s' ⟨hparens', hstack', hcursor'⟩
        refine .inr ⟨by simp [htok], by simp, some .closing, .closing htok, ⟨counts.parens - 1, counts.marks⟩, ?_,
          ?_, ?_, ?_, hcursor'⟩
        · have hpos : 0 < counts.parens := by omega
          simp [OpenCounts.after, hpos]
        · simp [hparens', hparens]
        · rw [hstack']
          exact h.marks
        · simp only [ParseEvent.frames, List.tail_cons]
          omega
  case h_4 htok => exact ensures_word h (.inr htok) tokens
  case h_5 htok => exact ensures_word h (.inl htok) tokens
  case h_6 htok =>
    exact .inr ⟨by simp [htok], by simp, none, .newline htok, h.countNewline⟩
  case h_7 htok =>
    rcases skipComment_cases htok tokens with ⟨hlast, hround, hlength⟩ | ⟨hlast, hend⟩
    · simp only [hlast, ne_eq, reduceCtorEq, not_false_eq_true, ↓reduceIte, ensures_ok]
      refine .inr ⟨by simp [hlast], ?_, none, hround, h.countNewline⟩
      simp only [List.length_cons]
      omega
    · simp only [hlast, ne_eq, not_true_eq_false, ↓reduceIte]
      refine Ensures.bind (ensures_cilParserEnd h.countNewline _) ?_
      rintro r ⟨rfl, hcounts⟩
      exact .inl ⟨hlast, hend, hcounts, h.countNewline⟩
  case h_8 htok =>
    refine Ensures.bind (ensures_cilParserEnd h tok) ?_
    rintro r ⟨rfl, hcounts⟩
    exact .inl ⟨htok, .endOfFile htok, hcounts, h⟩
  case h_9 htok => simp [CilParserError.Reported]
  case h_10 htok => simp [CilParserError.Reported]

/-- The parser goes on where the grammar and the counts allow it. -/
theorem cilParserSwitch_of_round (h : s.Holds before counts frames text) {tok : CilToken}
    {tokens rest : List CilToken} {e : Option ParseEvent} (hround : CilRound (tok :: tokens) e rest)
    (hafter : ∀ e' ∈ e, (counts.after e').isSome) :
    ∃ s' last, cilParserSwitch s tok tokens = .ok (s', last, rest) ∧ last.type ≠ .endOfFile := by
  have hparens := h.parens
  have hmarks := h.marks
  have hlength := h.length
  cases hround with
  | newline htok => exact ⟨countNewline s, tok, by simp [cilParserSwitch, htok], by simp [htok]⟩
  | @comment _ newline _ skipped _ htok hskipped hnewline htokens =>
    have hskip : skipComment tokens = (newline, rest) := by
      rw [htokens, skipComment_append hskipped]
      simp [skipComment, hnewline]
    exact ⟨countNewline s, newline, by simp [cilParserSwitch, htok, hskip, hnewline], by simp [hnewline]⟩
  | opening htok =>
    have hless : counts.parens < 4096 := by simpa [OpenCounts.after] using hafter _ rfl
    have hnot : ¬ s.parenCount + 1 > cilParserMaxExprDepth := by
      simp only [cilParserMaxExprDepth]
      omega
    exact ⟨_, tok, by simp [cilParserSwitch, htok, hnot]; rfl, by simp [htok]⟩
  | closing htok =>
    have hpos : 0 < counts.parens := by simpa [OpenCounts.after] using hafter _ rfl
    have hnot : ¬ s.parenCount = 0 := by omega
    cases frames with
    | nil => simp only [List.length_nil] at hlength; omega
    | cons made frames =>
      obtain ⟨cursor, hcursor, -⟩ := h.cursor.parent
      exact ⟨_, tok, by simp [cilParserSwitch, htok, hnot, currentParent, hcursor]; rfl, by simp [htok]⟩
  | word htok =>
    have hpos : 0 < counts.parens := by simpa [OpenCounts.after] using hafter _ rfl
    have hnot : ¬ s.parenCount = 0 := by omega
    rcases htok with htok | htok
    · exact ⟨_, tok, by simp [cilParserSwitch, htok, hnot]; rfl, by simp [htok]⟩
    · exact ⟨_, tok, by simp [cilParserSwitch, htok, hnot]; rfl, by simp [htok]⟩
  | @start _ kind line file newline _ hmark hkind hvalue hline hfile hnewline =>
    have hless : counts.marks < 4096 := by simpa [OpenCounts.after] using hafter _ rfl
    have hnotMany : ¬ (pushHllInfo s).hllStack.length > cilParserMaxExprDepth := by
      simp only [pushHllInfo, List.length_cons, cilParserMaxExprDepth]
      omega
    have hnotEnd : ¬ kind.value = cilKeySrcHllLme := by
      intro hend
      rw [hend] at hvalue
      exact absurd hvalue (by decide)
    have hnotBad : ¬ (¬ kind.value = cilKeySrcHllLms ∧ ¬ kind.value = cilKeySrcHllLmx) := by tauto
    have hnotFile : ¬ (¬ file.type = .symbol ∧ ¬ file.type = .qstring) := by tauto
    obtain ⟨s', hs'⟩ : ∃ s', startHllLinemark s kind (line :: file :: newline :: rest) =
      .ok (s', newline :: rest) := by
      simp only [startHllLinemark, hnotMany, cilLexerNext, hline, hnotFile, ne_eq, not_true_eq_false, ↓reduceIte]
      exact ⟨_, rfl⟩
    refine ⟨countNewline s', newline, ?_, by simp [hnewline]⟩
    simp [cilParserSwitch, hmark, addHllLinemark, cilLexerNext, hkind, hnotEnd, hnotBad, hs', newlineHllLinemark,
      hnewline, Except.bind, bind]
  | @stop _ kind newline _ hmark hkind hvalue hnewline =>
    have hpos : 0 < counts.marks := by simpa [OpenCounts.after] using hafter _ rfl
    cases hstack : s.hllStack with
    | nil =>
      rw [hstack, List.length_nil] at hmarks
      omega
    | cons info hllStack =>
      cases frames with
      | nil => simp only [List.length_nil] at hlength; omega
      | cons made frames =>
        obtain ⟨cursor, hcursor, -⟩ := h.cursor.parent
        obtain ⟨s', hs'⟩ : ∃ s', endHllLinemark s kind.line = .ok s' := by
          simp [endHllLinemark, hstack, popHllInfo, currentParent, hcursor]
        refine ⟨countNewline s', newline, ?_, by simp [hnewline]⟩
        simp [cilParserSwitch, hmark, addHllLinemark, cilLexerNext, hkind, hvalue, hs', newlineHllLinemark, hnewline,
          Except.bind, bind]

/-- The parser accepts the end of the file where nothing is open. -/
theorem cilParserSwitch_of_end (h : s.Holds before ⟨0, 0⟩ frames text) {tokens : List CilToken}
    (hend : CilEndsFile tokens) :
    ∃ s' last rest, cilParserSwitch s (cilLexerNext tokens).1 (cilLexerNext tokens).2 = .ok (s', last, rest) ∧
      last.type = .endOfFile := by
  have hparens : s.parenCount = 0 := h.parens
  have hmarks : s.hllStack = [] := List.eq_nil_of_length_eq_zero h.marks
  have hcheck : ∀ tok, cilParserEnd s tok = .ok (s, tok) := by
    intro tok
    simp [cilParserEnd, hparens, hmarks]
  have hcheckNewline : ∀ tok, cilParserEnd (countNewline s) tok = .ok (countNewline s, tok) := by
    have hnewline := h.countNewline
    intro tok
    simp [cilParserEnd, hnewline.parens, List.eq_nil_of_length_eq_zero hnewline.marks]
  cases hend with
  | nil => exact ⟨s, ⟨.endOfFile, [], 0⟩, [], by simp [cilParserSwitch, cilLexerNext, hcheck], rfl⟩
  | @endOfFile tok rest htok =>
    exact ⟨s, tok, rest, by simp [cilParserSwitch, cilLexerNext, htok, hcheck], htok⟩
  | @comment tok tokens skipped rest htok hskipped hrest htokens =>
    have hlast : (skipComment tokens).1.type = .endOfFile := by
      rw [htokens, skipComment_append hskipped]
      cases rest with
      | nil => simp [skipComment, cilLexerNext]
      | cons t after => simp [skipComment, hrest t (by simp)]
    exact ⟨countNewline s, (skipComment tokens).1, (skipComment tokens).2,
      by simp [cilParserSwitch, cilLexerNext, htok, hlast, hcheckNewline], hlast⟩

/-- The same with the first token of the sequence, or the end of the file where there is none. -/
theorem ensures_round (h : s.Holds before counts frames text) (tokens : List CilToken) :
    Ensures CilParserError.Reported (RoundResult before counts frames text tokens)
      (cilParserSwitch s (cilLexerNext tokens).1 (cilLexerNext tokens).2) := by
  cases tokens with
  | nil =>
    have hswitch : cilParserSwitch s (cilLexerNext []).1 (cilLexerNext []).2 =
        (cilParserEnd s (cilLexerNext []).1).map fun r => (r.1, r.2, []) := by
      simp only [cilParserSwitch, cilLexerNext]
      rfl
    rw [hswitch]
    refine Ensures.map (Ensures.mono (ensures_cilParserEnd h _) ?_)
    rintro r ⟨rfl, hcounts⟩
    exact .inl ⟨rfl, .nil, hcounts, h⟩
  | cons tok tokens => exact ensures_cilParserSwitch h tok tokens

end Round

end Sepol
