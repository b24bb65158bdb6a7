import Sepol.CondPrint

/-!
# Conditions in policy.conf

The conditions of the policy language: a negation binds tighter than the binary operators, and how these group in a
chain without parentheses is left open, because the printer writes each of them in parentheses.
-/

namespace Sepol

open Postfix Lexing

/-! ### Tokens -/

/-- The letters of an identifier. -/
def isConfNameChar (c : Char) : Bool := c.isDigit || c.isAlpha || c ∈ ['_', '-', '.']

inductive ConfPiece where
  | name (s : CString)
  | symbol (c : Char)
  | blank
deriving DecidableEq

def confSeparator (c : Char) : Option (List ConfPiece) :=
  if c ∈ ['(', ')', '|', '&', '^', '=', '!'] then some [.symbol c]
  else if c ∈ [' ', '\t', '\n'] then some [.blank]
  else none

/-- The identifiers, the blanks and the other characters of a text. -/
def confLexer : Lexer ConfPiece where
  isWord := isConfNameChar
  word := .name
  separator := confSeparator

inductive ConfToken where
  | name (s : CString)
  | not
  | op (op : CondOp)
  | opening
  | closing

/-- Neighbouring characters are one operator where they can be. -/
def confTokens : List ConfPiece → Option (List ConfToken)
  | [] => some []
  | .blank :: ps => confTokens ps
  | .name s :: ps => (confTokens ps).map (.name s :: ·)
  | .symbol '|' :: .symbol '|' :: ps => (confTokens ps).map (.op .or :: ·)
  | .symbol '&' :: .symbol '&' :: ps => (confTokens ps).map (.op .and :: ·)
  | .symbol '=' :: .symbol '=' :: ps => (confTokens ps).map (.op .eq :: ·)
  | .symbol '!' :: .symbol '=' :: ps => (confTokens ps).map (.op .neq :: ·)
  | .symbol '!' :: ps => (confTokens ps).map (.not :: ·)
  | .symbol '^' :: ps => (confTokens ps).map (.op .xor :: ·)
  | .symbol '(' :: ps => (confTokens ps).map (.opening :: ·)
  | .symbol ')' :: ps => (confTokens ps).map (.closing :: ·)
  | .symbol _ :: _ => none

/-! ### Conditions -/

/-- Conditions over the names of booleans. -/
abbrev ConfCond : Type := Tree CString Unit CondOp

def ConfCond.value (τ : CString → Bool) (c : ConfCond) : Bool := c.eval ⟨τ, fun _ a => !a, CondOp.apply⟩

/-- How a chain of binary operators groups. -/
structure ConfGrouping where
  group : ConfCond → List (CondOp × ConfCond) → ConfCond
  group_nil : ∀ c, group c [] = c
  group_single : ∀ c op c', group c [(op, c')] = .binary op c c'

mutual

/-- A name, a negation or a condition in parentheses, and the tokens behind it. -/
def confUnary (g : ConfGrouping) : Nat → List ConfToken → Option (ConfCond × List ConfToken)
  | 0, _ => none
  | _ + 1, .name s :: ts => some (.leaf s, ts)
  | fuel + 1, .not :: ts => (confUnary g fuel ts).map fun r => (.unary () r.1, r.2)
  | fuel + 1, .opening :: ts =>
    (confCond g fuel ts).bind fun r =>
      match r.2 with
      | .closing :: ts => some (r.1, ts)
      | _ => none
  | _ + 1, _ => none

/-- A chain of binary operators. -/
def confCond (g : ConfGrouping) : Nat → List ConfToken → Option (ConfCond × List ConfToken)
  | 0, _ => none
  | fuel + 1, ts =>
    (confUnary g fuel ts).bind fun r => (confChain g fuel r.2).map fun r' => (g.group r.1 r'.1, r'.2)

/-- The operators of a chain with their second operands. -/
def confChain (g : ConfGrouping) : Nat → List ConfToken → Option (List (CondOp × ConfCond) × List ConfToken)
  | 0, _ => none
  | fuel + 1, .op op :: ts =>
    (confUnary g fuel ts).bind fun r => (confChain g fuel r.2).map fun r' => ((op, r.1) :: r'.1, r'.2)
  | _ + 1, ts => some ([], ts)

end

/-- The condition that a text is read as; each call takes a token or is the first of a chain, so that this fuel is
never used up. -/
def confParse (g : ConfGrouping) (text : CString) : Option ConfCond := do
  let pieces ← confLexer.lex text
  let ts ← confTokens pieces
  match confCond g (2 * ts.length + 2) ts with
  | some (c, []) => some c
  | _ => none

/-! ### Reading the text of a tree -/

variable {g : ConfGrouping} {pBoolValToName : Nat → Option CString} {ok : CString → Prop} {t : CondTree}

/-- The tokens of a condition. -/
def condTreeTokens (name : Nat → CString) (t : CondTree) : List ConfToken :=
  t.eval ⟨fun boolean => [.name (name (boolean - 1))], fun _ ts => .not :: ts,
    fun op ts ts' => .opening :: ts ++ .op op :: ts' ++ [.closing]⟩

/-- The condition over the names. -/
def condTreeConf (name : Nat → CString) (t : CondTree) : ConfCond :=
  t.eval ⟨fun boolean => .leaf (name (boolean - 1)), .unary, .binary⟩

private theorem confUnary_tokens (name : Nat → CString) (t : CondTree) (fuel : Nat) (rest : List ConfToken)
    (hfuel : (condTreeTokens name t).length ≤ fuel) :
    confUnary g fuel (condTreeTokens name t ++ rest) = some (condTreeConf name t, rest) := by
  induction t generalizing fuel rest with
  | leaf boolean =>
    obtain ⟨fuel, rfl⟩ : ∃ k, fuel = k + 1 := ⟨fuel - 1, by simp [condTreeTokens, Tree.eval] at hfuel; omega⟩
    rfl
  | unary u t ih =>
    have htokens : condTreeTokens name (.unary u t) = .not :: condTreeTokens name t := rfl
    rw [htokens, List.length_cons] at hfuel
    obtain ⟨fuel, rfl⟩ : ∃ k, fuel = k + 1 := ⟨fuel - 1, by omega⟩
    rw [htokens, List.cons_append, confUnary, ih fuel rest (by omega)]
    rfl
  | binary op l r ihl ihr =>
    have htokens : condTreeTokens name (.binary op l r) =
        .opening :: condTreeTokens name l ++ .op op :: condTreeTokens name r ++ [.closing] := rfl
    rw [htokens] at hfuel
    simp only [List.length_append, List.length_cons, List.length_nil] at hfuel
    have hpos : 0 < (condTreeTokens name r).length := by
      cases r <;> simp [condTreeTokens, Tree.eval]
    obtain ⟨fuel, rfl⟩ : ∃ k, fuel = k + 4 := ⟨fuel - 4, by omega⟩
    have hsecond := ihr (fuel + 1) (.closing :: rest) (by omega)
    have hfirst := ihl (fuel + 2) (.op op :: (condTreeTokens name r ++ .closing :: rest)) (by omega)
    have happend : condTreeTokens name (.binary op l r) ++ rest = .opening ::
        (condTreeTokens name l ++ .op op :: (condTreeTokens name r ++ .closing :: rest)) := by
      rw [htokens]
      simp
    rw [happend, confUnary, confCond, hfirst, Option.bind_some, confChain, hsecond, Option.bind_some, confChain]
    · simp only [Option.map_some, Option.bind_some, g.group_single]
      rfl
    · simp

/-- The pieces stand for the tokens whatever follows. -/
def ConfChunk (ps : List ConfPiece) (ts : List ConfToken) : Prop :=
  ∀ rest, confTokens (ps ++ rest) = (confTokens rest).map (ts ++ ·)

theorem ConfChunk.append {ps ps' : List ConfPiece} {ts ts' : List ConfToken} (h : ConfChunk ps ts)
    (h' : ConfChunk ps' ts') : ConfChunk (ps ++ ps') (ts ++ ts') := by
  intro rest
  rw [List.append_assoc, h, h', Option.map_map]
  congr 1
  funext r
  exact (List.append_assoc ts ts' r).symm

/-- The pieces of a condition. -/
def condTreePieces (name : Nat → CString) (t : CondTree) : List ConfPiece :=
  t.eval ⟨fun boolean => [.name (name (boolean - 1))], fun _ ps => [.symbol '!', .blank] ++ ps,
    fun op ps ps' => [.symbol '('] ++ ps ++ [.blank] ++ (op.confStr.map .symbol ++ [.blank]) ++ ps' ++ [.symbol ')']⟩

private theorem confChunk_op (op : CondOp) : ConfChunk (op.confStr.map .symbol ++ [.blank]) [.op op] := by
  intro rest
  cases op <;> simp [CondOp.confStr, confTokens]

private theorem confChunk_condTreePieces (name : Nat → CString) (t : CondTree) :
    ConfChunk (condTreePieces name t) (condTreeTokens name t) := by
  have hblank : ConfChunk [.blank] [] := by
    intro rest
    simp [confTokens]
  induction t with
  | leaf boolean =>
    intro rest
    simp [condTreePieces, condTreeTokens, Tree.eval, confTokens]
  | unary u t ih =>
    have hnot : ConfChunk [.symbol '!', .blank] [.not] := by
      intro rest
      simp [confTokens]
    exact hnot.append ih
  | binary op l r ihl ihr =>
    have hopening : ConfChunk [.symbol '('] [.opening] := by
      intro rest
      simp [confTokens]
    have hclosing : ConfChunk [.symbol ')'] [.closing] := by
      intro rest
      simp [confTokens]
    have hall := ((((hopening.append ihl).append hblank).append (confChunk_op op)).append ihr).append hclosing
    have htokens : condTreeTokens name (.binary op l r) =
        [.opening] ++ condTreeTokens name l ++ [] ++ [.op op] ++ condTreeTokens name r ++ [.closing] := by
      simp [condTreeTokens, Tree.eval]
    rw [htokens]
    exact hall

/-- An identifier of the policy language. -/
def ConfName (name : CString) : Prop := name ≠ [] ∧ ∀ c ∈ name, isConfNameChar c = true

private theorem cuts_confStr (op : CondOp) : Cuts confLexer op.confStr (op.confStr.map .symbol) := by
  apply Cuts.separators
  intro c hc
  have hmem : c = '|' ∨ c = '&' ∨ c = '^' ∨ c = '=' ∨ c = '!' := by
    cases op <;> simp only [CondOp.confStr, List.mem_cons, List.not_mem_nil, or_false, or_self] at hc <;> tauto
  rcases hmem with rfl | rfl | rfl | rfl | rfl <;> exact ⟨by decide, rfl⟩

private theorem lexes_condTreePieces (hok : ∀ name, ok name → ConfName name)
    (hnames : CondNames pBoolValToName ok t.toExpr) :
    Lexes confLexer (condTreeStr confCondFormat (condName pBoolValToName) t)
      (condTreePieces (condName pBoolValToName) t) := by
  have hblank : Cuts confLexer [' '] [.blank] := Cuts.separator (by decide) rfl
  induction t with
  | leaf boolean =>
    obtain ⟨hne, hchars⟩ := hok _ hnames.leaf.2
    exact Lexes.word hne hchars
  | unary u t ih =>
    have hnot : Cuts confLexer ['!'] [.symbol '!'] := Cuts.separator (by decide) rfl
    exact (hnot.append hblank).append_lexes (ih hnames.unary)
  | binary op l r ihl ihr =>
    have hopening : Cuts confLexer ['('] [.symbol '('] := by
      exact Cuts.separator (by decide) rfl
    have hleft := (hopening.append_lexes (ihl hnames.left)).append_separator (c := ' ') (by decide) rfl
    have hop := (hleft.append ((cuts_confStr op).append hblank)).append_lexes (ihr hnames.right)
    have hall := (hop.append_separator (c := ')') (by decide) rfl).lexes
    simpa [condTreeStr, condTreePieces, Tree.eval, confCondFormat, confLexer, confSeparator] using hall

private theorem value_condTreeConf (τ : CString → Bool) (name : Nat → CString) (t : CondTree) :
    (condTreeConf name t).value τ = t.value fun i => τ (name i) := by
  induction t with
  | leaf boolean => rfl
  | unary u t ih => exact congrArg (!·) ih
  | binary op l r ihl ihr => exact congrArg₂ op.apply ihl ihr

private theorem confParse_condTreeStr (hok : ∀ name, ok name → ConfName name)
    (hnames : CondNames pBoolValToName ok t.toExpr) :
    confParse g (condTreeStr confCondFormat (condName pBoolValToName) t) =
      some (condTreeConf (condName pBoolValToName) t) := by
  have htokens : confTokens (condTreePieces (condName pBoolValToName) t) =
      some (condTreeTokens (condName pBoolValToName) t) := by
    have hchunk := confChunk_condTreePieces (condName pBoolValToName) t []
    simpa [confTokens] using hchunk
  have hunary := confUnary_tokens (g := g) (condName pBoolValToName) t
    (2 * (condTreeTokens (condName pBoolValToName) t).length + 1) [] (by omega)
  rw [List.append_nil] at hunary
  simp only [confParse, (lexes_condTreePieces hok hnames).lex_eq, htokens, Option.bind_eq_bind, Option.bind_some]
  rw [confCond, hunary, Option.bind_some, confChain, Option.map_some, g.group_nil]
  simp

/-! ### All three texts -/

/-- A text is read as a condition that has the value of the list for all values of the booleans. -/
def ConfCondAgrees (g : ConfGrouping) (pBoolValToName : Nat → Option CString) (expr : List CondExpr)
    (text : CString) : Prop :=
  ∃ c, confParse g text = some c ∧
    ∀ τ σ, CondAssigns pBoolValToName τ σ → some (c.value τ) = condEvaluateExpr σ expr

/-- A name that can stand for a boolean in both languages. -/
structure CondName (name : CString) : Prop extends CilBoolName name where
  conf : ConfName name

/-- The texts of a condition: the one of a kernel policy in CIL, the one in policy.conf, and the line of a module. -/
structure CondTextsAgree (pBoolValToName : Nat → Option CString) (expr : List CondExpr) : Prop where
  cil : ∃ text, cilCondExprToStr pBoolValToName expr = (if text.length ≤ intMax then some text else none) ∧
    ∃ n, cilParseText text = some [n] ∧ ∀ flavor, CilCondAgrees pBoolValToName expr flavor n
  conf : ∃ text, confCondExprToStr pBoolValToName expr = (if text.length ≤ intMax then some text else none) ∧
    ∀ g, ConfCondAgrees g pBoolValToName expr text
  module : ∃ text n, ∀ indent tunable, condExprToCil indent pBoolValToName expr tunable =
      (if text.length ≤ intMax - 1 then some (cilCondLine indent tunable text) else none) ∧
    cilParseText (cilCondLine indent tunable text ++ [')']) = some [.list [.string (cilCondKeyword tunable), n]] ∧
    ∀ flavor, CilCondAgrees pBoolValToName expr flavor n

/-- Every accepted condition whose booleans have names of both languages is printed faithfully, up to the length that
an `int` can hold. -/
theorem condTexts_agree (pBoolValToName : Nat → Option CString) (expr : List CondExpr) (boolean : Validate)
    (hvalid : validateCondExpr expr boolean = true) (hnames : CondNames pBoolValToName CondName expr) :
    CondTextsAgree pBoolValToName expr := by
  obtain ⟨t, rfl, hdepth⟩ := exists_tree_of_validateCondExpr hvalid
  have hexpr : ∀ σ, condEvaluateExpr σ t.toExpr = some (t.value σ) := condEvaluateExpr_toExpr hdepth
  refine ⟨⟨_, condToStr_toExpr (cilCondFormat_grows id intMax) hnames, ?_⟩,
    ⟨_, condToStr_toExpr confCondFormat_grows hnames, fun g => ?_⟩,
    condTreeStr (cilCondFormat (fun val1 => '(' :: val1 ++ [')']) (intMax - 1)) (condName pBoolValToName) t,
    cilParseOfNested (condTreeNested (fun name => .list [.word name]) (condName pBoolValToName) t),
    fun indent tunable => ⟨?_, ?_, fun flavor => ?_⟩⟩
  · have hlexes : Lexes cilLexer (condTreeStr (cilCondFormat id intMax) (condName pBoolValToName) t)
        (condTreeNested .word (condName pBoolValToName) t).print :=
      lexes_condTreeStr (fun name hname => hname.symbol.lexes) hnames
    refine ⟨_, cilParseText_node hlexes, fun flavor => ?_⟩
    exact (reads_condTreeNested (fun name hname => CilCondReads.string hname.noOperator) hnames).agrees hexpr hnames
  · refine ⟨_, confParse_condTreeStr (fun name hname => hname.conf) hnames, fun τ σ hassigns => ?_⟩
    rw [value_condTreeConf, hexpr, value_condName hnames hassigns]
  · rw [condExprToCil, condToStr_toExpr (cilCondFormat_grows _ _) hnames]
    exact apply_ite (Option.map fun text => cilCondLine indent tunable text) _ _ _
  · refine cilParseText_cilCondLine indent tunable (lexes_condTreeStr (fun name hname => ?_) hnames)
    exact lexes_single hname.symbol
  · exact (reads_condTreeNested (fun name hname => CilCondReads.single hname.noOperator) hnames).agrees hexpr hnames

/-- Two booleans. -/
def twoBoolNames (i : Nat) : Option CString := [['a'], ['b']][i]?

/-- The list of `!(a && !b)`. -/
theorem condTexts_agree_nand :
    validateCondExpr [⟨condBool, 1⟩, ⟨condBool, 2⟩, ⟨condNot, 0⟩, ⟨condAnd, 0⟩, ⟨condNot, 0⟩]
      ⟨2, ebitmapInit⟩ = true ∧
      CondTextsAgree twoBoolNames [⟨condBool, 1⟩, ⟨condBool, 2⟩, ⟨condNot, 0⟩, ⟨condAnd, 0⟩, ⟨condNot, 0⟩] := by
  refine ⟨by decide, condTexts_agree twoBoolNames _ ⟨2, ebitmapInit⟩ (by decide) ?_⟩
  intro curr hcurr hbool
  have hname : ∀ c, isConfNameChar c = true → c.isAlpha = true → cilGetExprOperatorFlavor [c] = none →
    CondName [c] := by
    intro c hc halpha hop
    exact ⟨⟨cilSymbol_of_all (by simp) (by simp [halpha]), hop⟩, by simp, by simpa using hc⟩
  simp only [List.mem_cons, List.not_mem_nil, or_false] at hcurr
  rcases hcurr with rfl | rfl | rfl | rfl | rfl
  · exact ⟨['a'], rfl, hname 'a' (by decide) (by decide) (by decide)⟩
  · exact ⟨['b'], rfl, hname 'b' (by decide) (by decide) (by decide)⟩
  all_goals cases hbool

end Sepol
