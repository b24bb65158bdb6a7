import Sepol.Lib.Lexing
import Sepol.Lib.NestedText
import Sepol.CilExpr
import Sepol.CilTunable

/-!
# Expressions from CIL texts

A text becomes the tokens of `cil_lexer.l`, these become nodes of the parse tree, and `cil_gen_expr` makes the list of
a set expression from a node: an operator may only stand at the start of a list, with the operands that it takes.
-/

namespace Sepol

open Lexing NestedText

/-! ### Texts -/

/-- The characters of a symbol other than digits and letters. -/
def cilSpecChars : List Char :=
  ['[', ']', '.', '@', '=', '/', '*', '-', '_', '$', '%', '+', '!', '|', '&', '^', ':', '~', Char.ofNat 96, '#', '{',
    '}', Char.ofNat 39, '<', '>', '?', ',']

def isCilSymbolChar (c : Char) : Bool := c.isDigit || c.isAlpha || c ∈ cilSpecChars

/-- Parentheses are tokens; blanks and ends of lines make no nodes. -/
def cilSeparator (c : Char) : Option (List (Piece CString)) :=
  if c = '(' then some [.opening]
  else if c = ')' then some [.closing]
  else if c ∈ [' ', '\t', '\n', '\r'] then some []
  else none

/-- The tokens of `cil_lexer.l` in a text without comments and quoted strings. -/
def cilLexer : Lexer (Piece CString) where
  isWord := isCilSymbolChar
  word := .word
  separator := cilSeparator

mutual

def cilParseOfNested : Nested CString → CilParse
  | .word a => .string a
  | .list children => .list (cilParsesOfNested children)

def cilParsesOfNested : List (Nested CString) → List CilParse
  | [] => []
  | n :: forest => cilParseOfNested n :: cilParsesOfNested forest

end

/-- The nodes at the root of the parse tree of a text. -/
def cilParseText (text : CString) : Option (List CilParse) :=
  (cilLexer.lex text).bind fun tokens => (NestedText.read tokens).map cilParsesOfNested

theorem cilParseText_eq {text : CString} {forest : List (Nested CString)}
    (h : Lexes cilLexer text (printAll forest)) :
    cilParseText text = some (cilParsesOfNested forest) := by
  rw [cilParseText, h.lex_eq, Option.bind_some, read_eq_some_iff.2 rfl]
  rfl

/-- A string of symbol characters. -/
def CilSymbol (name : CString) : Prop := name ≠ [] ∧ ∀ c ∈ name, isCilSymbolChar c = true

theorem CilSymbol.lexes {name : CString} (h : CilSymbol name) : Lexes cilLexer name [.word name] :=
  Lexes.word h.1 h.2

theorem cilSymbol_of_all {name : CString} (hne : name ≠ [])
    (h : name.all (fun c => c.isDigit || c.isAlpha) = true) : CilSymbol name := by
  refine ⟨hne, fun c hc => ?_⟩
  have hchar := List.all_eq_true.1 h c hc
  simp [isCilSymbolChar, hchar]

theorem cuts_opening : Cuts cilLexer ['('] [.opening] := Cuts.separator (by decide) rfl

theorem cuts_closing : Cuts cilLexer [')'] [.closing] := Cuts.separator (by decide) rfl

theorem cuts_blank : Cuts cilLexer [' '] [] := Cuts.separator (by decide) rfl

theorem cuts_append_blank {s : CString} {ts : List (Piece CString)} (h : Lexes cilLexer s ts) :
    Cuts cilLexer (s ++ [' ']) ts := by
  have hcuts := h.append_separator (c := ' ') (by decide) rfl
  rwa [List.append_nil] at hcuts

theorem cuts_append_closing {s : CString} {ts : List (Piece CString)} (h : Lexes cilLexer s ts) :
    Cuts cilLexer (s ++ [')']) (ts ++ [.closing]) :=
  h.append_separator (by decide) rfl

/-! ### Set expressions -/

namespace CilSet

/-- The kinds of set expressions. -/
inductive CilSetFlavor where
  | cat
  | permissionx
  | type
  | role
  | user
  | perm
deriving DecidableEq

/-- `cil_verify_expr_syntax` for the flavors of sets. -/
def cilVerifyExprSyntax (current : List CilParse) (op : Option CilExprOp) (flavor : CilSetFlavor) : Bool :=
  let operand := cilSynString ||| cilSynList
  match op with
  | some .not => cilVerifySyntax [cilSynString, operand, cilSynEnd] current
  | some .and | some .or | some .xor => cilVerifySyntax [cilSynString, operand, operand, cilSynEnd] current
  | some .eq | some .neq => false
  | some .all => cilVerifySyntax [cilSynString, cilSynEnd] current
  | some .range =>
    (flavor = .cat || flavor = .permissionx) &&
      cilVerifySyntax [cilSynString, cilSynString, cilSynString, cilSynEnd] current
  | none => cilVerifySyntax [cilSynNStrings ||| cilSynNLists, cilSynEnd] current

/-- An item of the list that is made of an expression. -/
inductive CilSetItem where
  | op (op : CilExprOp)
  | string (data : CString)
  | list (items : List CilSetItem)

mutual

/-- `__cil_fill_expr`, with `__cil_fill_expr_helper` for a list.  The checks let no empty list through. -/
def cilFillExpr (flavor : CilSetFlavor) : CilParse → Option CilSetItem
  | .string data => if (cilGetExprOperatorFlavor data).isSome then none else some (.string data)
  | .list [] => none
  | .list (current :: next) =>
    let op := current.data.bind cilGetExprOperatorFlavor
    if !cilVerifyExprSyntax (current :: next) op flavor then none
    else
      match op with
      | some op => (cilFillExprs flavor next).map fun items => .list (.op op :: items)
      | none => (cilFillExprs flavor (current :: next)).map .list

/-- The loop over the nodes of a list. -/
def cilFillExprs (flavor : CilSetFlavor) : List CilParse → Option (List CilSetItem)
  | [] => some []
  | current :: next => do
    let item ← cilFillExpr flavor current
    let items ← cilFillExprs flavor next
    some (item :: items)

end

/-- `cil_gen_expr`: the list of an expression; a string is the only item of its list. -/
def cilGenExpr (flavor : CilSetFlavor) (current : CilParse) : Option (List CilSetItem) :=
  match cilFillExpr flavor current with
  | some (.list items) => some items
  | some item => some [item]
  | none => none

/-- The set expression of a list, whose items are the operands; an operator is none. -/
def cilSetExprFrom : List CilSetItem → List (Option (CilOperand CString)) → Option (CilExpr CString)
  | [.op .all], _ => some .all
  | [.op .range, .string d1, .string d2], _ => some (.range d1 d2)
  | [.op .not, _], [_, some x] => some (.not x)
  | [.op .and, _, _], [_, some x, some y] => some (.binary .and x y)
  | [.op .or, _, _], [_, some x, some y] => some (.binary .or x y)
  | [.op .xor, _, _], [_, some x, some y] => some (.binary .xor x y)
  | _, operands => (operands.mapM id).map .list

mutual

/-- An item with the names for the datums that they are resolved to. -/
def CilSetItem.toOperand : CilSetItem → Option (CilOperand CString)
  | .op _ => none
  | .string data => some (.datum data)
  | .list items => (cilSetExprFrom items (cilOperandsOf items)).map .list

def cilOperandsOf : List CilSetItem → List (Option (CilOperand CString))
  | [] => []
  | x :: items => x.toOperand :: cilOperandsOf items

end

/-- The set expression of a list with the names for the datums. -/
def cilSetExprOf (items : List CilSetItem) : Option (CilExpr CString) := cilSetExprFrom items (cilOperandsOf items)

/-! ### Words -/

/-- A string that is no operator. -/
def NoOperator (name : CString) : Prop := cilGetExprOperatorFlavor name = none

theorem operator_string (name : CString) :
    (CilParse.string name).data.bind cilGetExprOperatorFlavor = cilGetExprOperatorFlavor name := rfl

theorem cilFillExprs_words {flavor : CilSetFlavor} {words : List CString} (h : ∀ w ∈ words, NoOperator w) :
    cilFillExprs flavor (words.map .string) = some (words.map .string) := by
  induction words with
  | nil => rfl
  | cons w words ih =>
    have hw : cilFillExpr flavor (.string w) = some (.string w) := by
      rw [cilFillExpr, h w (by simp)]
      rfl
    rw [List.map_cons, cilFillExprs, hw, ih fun v hv => h v (List.mem_cons_of_mem _ hv)]
    rfl

/-- An operator that is not at the start of a list is an error. -/
theorem cilFillExprs_operator {flavor : CilSetFlavor} {words : List CString} {w : CString} (hw : w ∈ words)
    (hop : ¬ NoOperator w) : cilFillExprs flavor (words.map .string) = none := by
  induction words with
  | nil => cases hw
  | cons v words ih =>
    rw [List.map_cons, cilFillExprs]
    rcases List.mem_cons.1 hw with rfl | hw
    · have hnone : cilFillExpr flavor (.string w) = none := by
        rw [cilFillExpr, if_pos (Option.isSome_iff_ne_none.2 hop)]
      rw [hnone]
      rfl
    · rw [ih hw]
      cases cilFillExpr flavor (.string v) <;> rfl

/-- The nodes of a list of words. -/
def wordNodes (words : List CString) : List (Nested CString) := words.map .word

theorem printAll_wordNodes (words : List CString) : printAll (wordNodes words) = words.map Piece.word := by
  induction words with
  | nil => exact printAll_nil
  | cons w words ih =>
    rw [wordNodes, List.map_cons, printAll, Nested.print, List.map_cons, ← ih]
    rfl

theorem cilParsesOfNested_wordNodes (words : List CString) :
    cilParsesOfNested (wordNodes words) = words.map .string := by
  induction words with
  | nil => rfl
  | cons w words ih =>
    rw [wordNodes, List.map_cons, cilParsesOfNested, cilParseOfNested, List.map_cons, ← ih]
    rfl

theorem cilVerifyExprSyntax_words {flavor : CilSetFlavor} (w : CString) (words : List CString) :
    cilVerifyExprSyntax (.string w :: words.map .string) none flavor = true := by
  simp [cilVerifyExprSyntax, cilVerifySyntax, cilVerifyRest, CilSyntax.has, CilParse.isString, CilParse.isList,
    CilParse.isEmptyList]

/-- A list of words without operators is a list of operands. -/
theorem cilGenExpr_words {flavor : CilSetFlavor} {words : List CString} (hne : words ≠ [])
    (h : ∀ w ∈ words, NoOperator w) : cilGenExpr flavor (.list (words.map .string)) = some (words.map .string) := by
  cases words with
  | nil => exact absurd rfl hne
  | cons w words =>
    have hall : cilFillExprs flavor ((w :: words).map .string) = some ((w :: words).map .string) :=
      cilFillExprs_words h
    rw [List.map_cons] at hall
    rw [cilGenExpr, List.map_cons, cilFillExpr, operator_string, h w (by simp), cilVerifyExprSyntax_words,
      Bool.not_true, if_neg (by simp), hall]
    rfl

private theorem cilOperandsOf_words (words : List CString) :
    cilOperandsOf (words.map .string) = words.map fun w => some (.datum w) := by
  induction words with
  | nil => rfl
  | cons w words ih =>
    rw [List.map_cons, cilOperandsOf, ih]
    rfl

private theorem mapM_id_some {α : Type} (l : List α) : (l.map some).mapM id = some l := by
  induction l with
  | nil => rfl
  | cons a l ih =>
    rw [List.map_cons, List.mapM_cons, ih]
    rfl

theorem cilSetExprOf_words (words : List CString) :
    cilSetExprOf (words.map .string) = some (.list (words.map .datum)) := by
  have hall := mapM_id_some (words.map fun w => (.datum w : CilOperand CString))
  rw [List.map_map] at hall
  rw [cilSetExprOf, cilOperandsOf_words]
  cases words with
  | nil => rfl
  | cons w words =>
    rw [List.map_cons, cilSetExprFrom]
    · exact congrArg (Option.map CilExpr.list) hall
    all_goals simp

theorem denote_words (D : CString → Set Nat) (R : CString → CString → Set Nat) (max : Nat) (words : List CString) :
    (CilExpr.list (words.map .datum)).denote D R max = {i | ∃ w ∈ words, i ∈ D w} := by
  rw [CilExpr.denote]
  induction words with
  | nil => simp [denoteOperands]
  | cons w words ih =>
    rw [List.map_cons, denoteOperands, ih, CilOperand.denote]
    ext i
    simp

theorem datums_words (words : List CString) : (CilExpr.list (words.map CilOperand.datum)).datums = words := by
  rw [CilExpr.datums]
  induction words with
  | nil => rfl
  | cons w words ih =>
    rw [List.map_cons, datumsOfOperands, ih, CilOperand.datums]
    rfl

end CilSet

end Sepol
