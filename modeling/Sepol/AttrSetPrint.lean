import Sepol.CilGenExpr
import Sepol.ModuleToCilRoles

/-!
# Attributes for type sets as texts

`cil_print_attr_strs` writes an attribute for a type set with one condition for each part of it, and `process_typeset`
gives the names of the types or the attribute of an equal set.  The text is read as the two statements of the
attribute, whatever its parts are; whether the second one is a `typeattributeset` of CIL is decided when its syntax is
checked.
-/

namespace Sepol

open Lexing NestedText

/-! ### The printer -/

/-- `cil_indent`. -/
def cilIndent (indent : Nat) : CString := List.replicate (4 * indent) ' '

def cilKeyTypeattribute : CString := ['t', 'y', 'p', 'e', 'a', 't', 't', 'r', 'i', 'b', 'u', 't', 'e']

def cilKeyTypeattributeset : CString := cilKeyTypeattribute ++ ['s', 'e', 't']

/-- The loops over the names of a set. -/
def cilPrintNames (names : List CString) : CString := names.flatMap fun name => name ++ [' ']

/-- `cil_print_attr_strs` for types. -/
def cilPrintAttrStrs (p : ModulePolicydb) (indent : Nat) (set : LinkTypeSet) (attrName : CString) :
    Except ConvertError CString := do
  let pos ← ebitmapToCil set.types p.typeValToName
  let neg ← ebitmapToCil set.negset p.typeValToName
  let hasPositive := !ebitmapIsEmpty set.types
  let hasNegative := !ebitmapIsEmpty set.negset
  return cilIndent indent ++ '(' :: cilKeyTypeattribute ++ ' ' :: attrName ++ [')', '\n'] ++
    cilIndent indent ++ '(' :: cilKeyTypeattributeset ++ ' ' :: attrName ++ [' '] ++
    (if set.flags &&& typeStar ≠ 0 then ['(', 'a', 'l', 'l', ')'] else []) ++
    (if set.flags &&& typeComp ≠ 0 then ['(', 'n', 'o', 't', ' '] else []) ++
    (if hasPositive && hasNegative then ['(', 'a', 'n', 'd', ' '] else []) ++
    (if hasPositive then '(' :: cilPrintNames pos ++ [')', ' '] else []) ++
    (if hasNegative then ['(', 'n', 'o', 't', ' ', '('] ++ cilPrintNames neg ++ [')', ')'] else []) ++
    (if hasPositive && hasNegative then [')'] else []) ++
    (if set.flags &&& typeComp ≠ 0 then [')'] else []) ++ [')', '\n']

/-- `cil_print_attr_list` for types. -/
def cilPrintAttrList (p : ModulePolicydb) (indent : Nat) : List (CString × LinkTypeSet) → Except ConvertError CString
  | [] => .ok []
  | (attrName, set) :: attrList => do
    let text ← cilPrintAttrStrs p indent set attrName
    let rest ← cilPrintAttrList p indent attrList
    return text ++ rest

/-- Sets that are processed one after the other with one list of attributes.  The number in front of a set is the
number of attributes that are made for other lists before it. -/
def processTypesets (p : ModulePolicydb) : List (Nat × LinkTypeSet) → AttrState →
    Except ConvertError (List (List CString) × AttrState)
  | [], attrs => .ok ([], attrs)
  | (others, set) :: sets, attrs => do
    let (names, attrs) ← processTypeset p set ⟨attrs.attrList, attrs.numAttrs + others⟩
    let (rest, attrs) ← processTypesets p sets attrs
    return (names :: rest, attrs)

/-! ### The text as nodes -/

/-- The nodes that an expression is read as. -/
def CilNameExpr.node : CilNameExpr → Nested CString
  | .all => .list [.word ['a', 'l', 'l']]
  | .names l => .list (CilSet.wordNodes l)
  | .not e => .list [.word ['n', 'o', 't'], e.node]
  | .notNothing => .list [.word ['n', 'o', 't']]
  | .and e₁ e₂ => .list [.word ['a', 'n', 'd'], e₁.node, e₂.node]

/-- The nodes of the two statements of an attribute. -/
def attrNodes (attrName : CString) (es : List CilNameExpr) : List (Nested CString) :=
  [.list [.word cilKeyTypeattribute, .word attrName],
    .list (.word cilKeyTypeattributeset :: .word attrName :: es.map CilNameExpr.node)]

variable {p : ModulePolicydb} {set : LinkTypeSet} {attrName text : CString} {indent : Nat} {names : List CString}

private theorem cuts_cilIndent (indent : Nat) : Cuts cilLexer (cilIndent indent) [] := by
  rw [cilIndent]
  induction 4 * indent with
  | zero => exact .nil
  | succ n ih =>
    rw [List.replicate_succ]
    exact cuts_blank.append ih

private theorem cuts_cilPrintNames (hnames : ∀ w ∈ names, CilSymbol w) :
    Cuts cilLexer (cilPrintNames names) (names.map .word) := by
  induction names with
  | nil => exact .nil
  | cons w names ih =>
    have hrest := ih fun v hv => hnames v (List.mem_cons_of_mem _ hv)
    exact (cuts_append_blank (hnames w (List.mem_cons_self ..)).lexes).append hrest

private theorem cuts_ite {c : Prop} [Decidable c] {s : CString} {ts : List (Piece CString)} (h : Cuts cilLexer s ts) :
    Cuts cilLexer (if c then s else []) (if c then ts else []) := by
  split
  · exact h
  · exact .nil

/-- The keywords of the statements of an attribute. -/
def attrKeywords : List CString :=
  [cilKeyTypeattribute, cilKeyTypeattributeset, ['a', 'l', 'l'], ['n', 'o', 't'], ['a', 'n', 'd']]

private theorem cilSymbol_of_attrKeyword (w : CString) (hw : w ∈ attrKeywords) : CilSymbol w := by
  have hall : ∀ v ∈ attrKeywords, v ≠ [] ∧ v.all (fun c => c.isDigit || c.isAlpha) = true := by decide
  exact cilSymbol_of_all (hall w hw).1 (hall w hw).2

private theorem cuts_keyword (w : CString) (hw : w ∈ attrKeywords) :
    Cuts cilLexer ('(' :: w ++ [' ']) [.opening, .word w] :=
  cuts_opening.append (cuts_append_blank (cilSymbol_of_attrKeyword w hw).lexes)

private theorem cuts_lineEnd : Cuts cilLexer ['\n'] [] := Cuts.separator (by decide) rfl

/-- The pieces of the statements of an attribute: what is there for each part of the set. -/
private theorem printAll_attrNodes (set : LinkTypeSet) (attrName : CString) (pos neg : List CString) :
    printAll (attrNodes attrName (attrStrs set pos neg)) =
      [.opening, .word cilKeyTypeattribute, .word attrName, .closing, .opening, .word cilKeyTypeattributeset,
        .word attrName] ++
      (if set.flags &&& typeStar ≠ 0 then [.opening, .word ['a', 'l', 'l'], .closing] else []) ++
      (if set.flags &&& typeComp ≠ 0 then [.opening, .word ['n', 'o', 't']] else []) ++
      (if !ebitmapIsEmpty set.types && !ebitmapIsEmpty set.negset then [.opening, .word ['a', 'n', 'd']] else []) ++
      (if !ebitmapIsEmpty set.types then [.opening] ++ pos.map .word ++ [.closing] else []) ++
      (if !ebitmapIsEmpty set.negset then
        [.opening, .word ['n', 'o', 't'], .opening] ++ neg.map .word ++ [.closing, .closing] else []) ++
      (if !ebitmapIsEmpty set.types && !ebitmapIsEmpty set.negset then [.closing] else []) ++
      (if set.flags &&& typeComp ≠ 0 then [.closing] else []) ++ [.closing] := by
  unfold attrStrs
  dsimp only
  by_cases hstar : set.flags &&& typeStar = 0 <;> by_cases hcomp : set.flags &&& typeComp = 0 <;>
    rcases Bool.eq_false_or_eq_true (ebitmapIsEmpty set.types) with htypes | htypes <;>
    rcases Bool.eq_false_or_eq_true (ebitmapIsEmpty set.negset) with hnegset | hnegset <;>
    simp only [hstar, hcomp, htypes, hnegset, ne_eq, not_true_eq_false, not_false_eq_true, if_true, if_false,
      Bool.not_true, Bool.not_false, Bool.and_true, Bool.and_false, Bool.false_eq_true, Option.elim, Option.toList,
      attrNodes,
      CilNameExpr.node, printAll, Nested.print, CilSet.printAll_wordNodes, List.map_cons, List.map_nil,
      List.cons_append, List.nil_append, List.append_nil, List.append_assoc]

/-- The text of an attribute is lexed part by part. -/
private theorem cuts_cilPrintAttrStrs (hattr : CilSymbol attrName)
    (hpos : ∀ w ∈ namesOf p.typeValToName set.types, CilSymbol w)
    (hneg : ∀ w ∈ namesOf p.typeValToName set.negset, CilSymbol w)
    (h : cilPrintAttrStrs p indent set attrName = .ok text) :
    Cuts cilLexer text (printAll (attrNodes attrName
      (attrStrs set (namesOf p.typeValToName set.types) (namesOf p.typeValToName set.negset)))) := by
  simp only [cilPrintAttrStrs, Outcome.bind_eq_ok_iff] at h
  obtain ⟨pos, hposNames, neg, hnegNames, htext⟩ := h
  simp only [pure, Except.pure, Except.ok.injEq] at htext
  rw [← ebitmapToCil_eq hposNames] at hpos ⊢
  rw [← ebitmapToCil_eq hnegNames] at hneg ⊢
  have hall : Cuts cilLexer ['(', 'a', 'l', 'l', ')'] [.opening, .word ['a', 'l', 'l'], .closing] :=
    cuts_opening.append (cuts_append_closing (cilSymbol_of_attrKeyword ['a', 'l', 'l'] (by decide)).lexes)
  have hnot : Cuts cilLexer ['(', 'n', 'o', 't', ' '] [.opening, .word ['n', 'o', 't']] :=
    cuts_keyword ['n', 'o', 't'] (by decide)
  have hand : Cuts cilLexer ['(', 'a', 'n', 'd', ' '] [.opening, .word ['a', 'n', 'd']] :=
    cuts_keyword ['a', 'n', 'd'] (by decide)
  have hposText : Cuts cilLexer ('(' :: cilPrintNames pos ++ [')', ' '])
    ([.opening] ++ pos.map .word ++ [.closing]) :=
    (cuts_opening.append (cuts_cilPrintNames hpos)).append (cuts_closing.append cuts_blank)
  have hnegText : Cuts cilLexer (['(', 'n', 'o', 't', ' ', '('] ++ cilPrintNames neg ++ [')', ')'])
      ([.opening, .word ['n', 'o', 't'], .opening] ++ neg.map .word ++ [.closing, .closing]) :=
    ((hnot.append cuts_opening).append (cuts_cilPrintNames hneg)).append (cuts_closing.append cuts_closing)
  have hkey := cuts_keyword cilKeyTypeattribute (by decide)
  have hkeySet := cuts_keyword cilKeyTypeattributeset (by decide)
  have hdecl := (cuts_cilIndent indent).append (hkey.append ((cuts_append_closing hattr.lexes).append cuts_lineEnd))
  have hset := (cuts_cilIndent indent).append (hkeySet.append (cuts_append_blank hattr.lexes))
  have hparts := (((((((hdecl.append hset).append (cuts_ite (c := set.flags &&& typeStar ≠ 0) hall)).append
    (cuts_ite (c := set.flags &&& typeComp ≠ 0) hnot)).append
    (cuts_ite (c := (!ebitmapIsEmpty set.types && !ebitmapIsEmpty set.negset) = true) hand)).append
    (cuts_ite (c := (!ebitmapIsEmpty set.types) = true) hposText)).append
    (cuts_ite (c := (!ebitmapIsEmpty set.negset) = true) hnegText)).append
    (cuts_ite (c := (!ebitmapIsEmpty set.types && !ebitmapIsEmpty set.negset) = true) cuts_closing)).append
    (cuts_ite (c := set.flags &&& typeComp ≠ 0) cuts_closing)
  have hwhole := hparts.append (cuts_closing.append cuts_lineEnd)
  refine hwhole.congr ?_ ?_
  · rw [← htext]
    simp only [List.append_assoc, List.cons_append, List.nil_append]
  · rw [printAll_attrNodes]
    simp only [List.append_assoc, List.cons_append, List.nil_append]

/-- The names of the expressions of a set. -/
def attrExprs (p : ModulePolicydb) (set : LinkTypeSet) : List CilNameExpr :=
  attrStrs set (namesOf p.typeValToName set.types) (namesOf p.typeValToName set.negset)

/-- The nodes of the statements of a list of attributes. -/
def attrListNodes (p : ModulePolicydb) (attrList : List (CString × LinkTypeSet)) : List (Nested CString) :=
  attrList.flatMap fun e => attrNodes e.1 (attrExprs p e.2)

/-- The names of the values of a set are symbols of CIL. -/
def SymbolNames (p : ModulePolicydb) (set : LinkTypeSet) : Prop :=
  (∀ w ∈ namesOf p.typeValToName set.types, CilSymbol w) ∧ ∀ w ∈ namesOf p.typeValToName set.negset, CilSymbol w

/-- The text of a list of attributes is read as the statements of each of them. -/
theorem cilParseText_cilPrintAttrList {attrList : List (CString × LinkTypeSet)}
    (hattrs : ∀ e ∈ attrList, CilSymbol e.1 ∧ SymbolNames p e.2)
    (h : cilPrintAttrList p indent attrList = .ok text) :
    cilParseText text = some (cilParsesOfNested (attrListNodes p attrList)) := by
  refine cilParseText_eq (Cuts.lexes ?_)
  induction attrList generalizing text with
  | nil =>
    rw [cilPrintAttrList, Except.ok.injEq] at h
    subst h
    exact .nil
  | cons e attrList ih =>
    obtain ⟨attrName, set⟩ := e
    simp only [cilPrintAttrList, Outcome.bind_eq_ok_iff] at h
    obtain ⟨first, hfirst, rest, hrest, htext⟩ := h
    simp only [pure, Except.pure, Except.ok.injEq] at htext
    obtain ⟨hattr, hpos, hneg⟩ := hattrs _ (List.mem_cons_self ..)
    rw [← htext, attrListNodes, List.flatMap_cons, printAll_append]
    refine (cuts_cilPrintAttrStrs hattr hpos hneg hfirst).append (ih (fun e he => ?_) hrest)
    exact hattrs e (List.mem_cons_of_mem _ he)

end Sepol
