import Sepol.AttrSetPrint

/-!
# What the attributes of type sets denote

The attribute of a set is a `typeattributeset` with the types of the set exactly when its parts combine to one
expression: `(all)` stands beside the other parts instead of around them, `not` needs an operand, and a set with a
negative part only is printed as its complement.  A list of attributes has one attribute for each set, so an attribute
that is used again is that of the same set.
-/

namespace Sepol

/-! ### Modules -/

/-- The values that have a type. -/
def TypeTable.present (p : TypeTable) : Set Nat :=
  {i | i < p.nprim.toNat ∧ ∃ type, p.typeValToStruct i = some type ∧ type.flavor ≠ .attrib}

/-- The numbers that the compiler of CIL gives the types of a module. -/
structure CilTypeNumbers (p : TypeTable) where
  count : Nat
  number : Nat → Nat
  bijOn : Set.BijOn number p.present {j | j < count}

/-- The types and attributes of a module, as `policydb_index_others` leaves them, with names for CIL. -/
structure ModulePolicydb.TypesNamed (p : ModulePolicydb) : Prop where
  canonical : p.typeTable.Canonical
  flat : p.typeTable.Flat
  module : CilSymbol p.name
  name : ∀ i < p.typeTable.nprim.toNat, (p.typeTable.typeValToStruct i).isSome →
    ∃ name, p.typeValToName i = some name ∧ CilSymbol name ∧ CilSet.NoOperator name
  unique : ∀ i j name, p.typeValToName i = some name → p.typeValToName j = some name → i = j

/-- The values of a set are those of types and attributes. -/
structure LinkTypeSet.Known (p : TypeTable) (set : LinkTypeSet) : Prop where
  types_canonical : set.types.Canonical
  negset_canonical : set.negset.Canonical
  types : ∀ i ∈ set.types, i < p.nprim.toNat ∧ (p.typeValToStruct i).isSome
  negset : ∀ i ∈ set.negset, i < p.nprim.toNat ∧ (p.typeValToStruct i).isSome

/-- The parts of a set combine to one expression with its types: it is a plain list, or all types without other parts,
or it has positive parts, or its negative part takes all types away. -/
def LinkTypeSet.Expressible (p : TypeTable) (set : LinkTypeSet) : Prop :=
  set.isPlain = true ∨
    (set.flags &&& typeStar ≠ 0 ∧ set.flags &&& typeComp = 0 ∧ ebitmapIsEmpty set.types = true ∧
      ebitmapIsEmpty set.negset = true) ∨
    (set.flags &&& typeStar = 0 ∧
      (ebitmapIsEmpty set.types = false ∨ ebitmapIsEmpty set.negset = false ∧ p.present ⊆ set.negated p))

end Sepol

namespace Sepol.CilSet

open NestedText

/-! ### Attributes of CIL -/

/-- The numbers of the types of a name. -/
def typesOfName {p : ModulePolicydb} (nums : CilTypeNumbers p.typeTable) (name : CString) : Set Nat :=
  nums.number '' (p.nameTypes name ∩ p.typeTable.present)

/-- `cil_gen_typeattributeset`: the expression of the statement. -/
def cilGenTypeattributeset (nodes : List CilParse) : Option (List CilSetItem) :=
  if !cilVerifySyntax [cilSynString, cilSynString, cilSynString ||| cilSynList, cilSynEnd] nodes then none
  else
    match nodes with
    | _ :: _ :: expr :: _ => cilGenExpr .type expr
    | _ => none

/-- The nodes of a `typeattributeset` statement for the attribute. -/
def typeattributesetOf (attrName : CString) : CilParse → Option (List CilParse)
  | .list (.string keyword :: .string name :: rest) =>
    if keyword = cilKeyTypeattributeset ∧ name = attrName then some (.string keyword :: .string name :: rest)
      else none
  | _ => none

section

variable {p : ModulePolicydb} (nums : CilTypeNumbers p.typeTable)

/-- The expression has the types of the set, and its names are those of the module. -/
def TypeExprDenotes (items : List CilSetItem) (S : Set Nat) : Prop :=
  ∃ e, cilSetExprOf items = some e ∧ (∀ name ∈ e.datums, ∃ i, p.typeValToName i = some name) ∧
    e.denote (typesOfName nums) (fun _ _ => ∅) nums.count = nums.number '' S

/-- The text defines the attribute by one statement, which is well formed and has the types of the set. -/
def AttributeDenotes (text attrName : CString) (S : Set Nat) : Prop :=
  ∃ nodes statement items, cilParseText text = some nodes ∧
    nodes.filterMap (typeattributesetOf attrName) = [statement] ∧ cilGenTypeattributeset statement = some items ∧
    TypeExprDenotes nums items S

/-- The names are those of the module and have the types of the set. -/
def NamesDenote (names : List CString) (S : Set Nat) : Prop :=
  (∀ name ∈ names, ∃ i, p.typeValToName i = some name) ∧
    {j | ∃ name ∈ names, j ∈ typesOfName nums name} = nums.number '' S

/-- What `process_typeset` gives for a set stands for the types of the set: the names of a plain list, or one
attribute that the text defines. -/
def TypesetAgrees (text : CString) (set : LinkTypeSet) (names : List CString) (S : Set Nat) : Prop :=
  if set.isPlain then NamesDenote nums names S
  else ∃ attrName, names = [attrName] ∧ AttributeDenotes nums text attrName S

end

variable {p : ModulePolicydb} {nums : CilTypeNumbers p.typeTable} {X Y S : Set Nat}

/-! ### The nodes of expressions -/

/-- A list that is read as an expression with the types of the set. -/
def NodeDenotes (nums : CilTypeNumbers p.typeTable) (children : List CilParse) (X : Set Nat) : Prop :=
  children ≠ [] ∧ ∃ items, cilFillExpr .type (.list children) = some (.list items) ∧ TypeExprDenotes nums items X

private theorem image_present : nums.number '' p.typeTable.present = {j | j < nums.count} := nums.bijOn.image_eq

private theorem image_inj (hX : X ⊆ p.typeTable.present) (hY : Y ⊆ p.typeTable.present) :
    nums.number '' X = nums.number '' Y ↔ X = Y :=
  nums.bijOn.injOn.image_eq_image_iff hX hY

private theorem nodeDenotes_all : NodeDenotes nums [.string ['a', 'l', 'l']] p.typeTable.present := by
  refine ⟨by simp, [.op .all], ?_, .all, rfl, fun name hname => ?_, ?_⟩
  · have hop : cilGetExprOperatorFlavor ['a', 'l', 'l'] = some .all := by decide
    have hverify : cilVerifyExprSyntax [.string ['a', 'l', 'l']] (some .all) .type = true := by decide
    rw [cilFillExpr, operator_string, hop, hverify]
    rfl
  · cases hname
  · rw [CilExpr.denote, image_present]

/-- A list of names. -/
private theorem nodeDenotes_names (nums : CilTypeNumbers p.typeTable) {names : List CString} (hne : names ≠ [])
    (hop : ∀ name ∈ names, NoOperator name) (hknown : ∀ name ∈ names, ∃ i, p.typeValToName i = some name) :
    NodeDenotes nums (names.map .string) ({j | ∃ name ∈ names, j ∈ p.nameTypes name} ∩ p.typeTable.present) := by
  refine ⟨by simpa using hne, names.map .string, ?_, _, cilSetExprOf_words names, ?_, ?_⟩
  · cases names with
    | nil => exact absurd rfl hne
    | cons w names =>
      have hall : cilFillExprs .type ((w :: names).map .string) = some ((w :: names).map .string) :=
        cilFillExprs_words hop
      rw [List.map_cons] at hall
      rw [List.map_cons, cilFillExpr, operator_string, hop w (by simp), cilVerifyExprSyntax_words, Bool.not_true,
        if_neg (by simp), hall]
      rfl
  · rw [datums_words]
    exact hknown
  · rw [denote_words]
    ext j
    simp only [typesOfName, Set.mem_ofPred_eq, Set.mem_image, Set.mem_inter_iff]
    constructor
    · rintro ⟨name, hname, i, ⟨hi, hpresent⟩, rfl⟩
      exact ⟨i, ⟨⟨name, hname, hi⟩, hpresent⟩, rfl⟩
    · rintro ⟨i, ⟨⟨name, hname, hi⟩, hpresent⟩, rfl⟩
      exact ⟨name, hname, i, ⟨hi, hpresent⟩, rfl⟩

private theorem nodeDenotes_not {children : List CilParse} (hX : X ⊆ p.typeTable.present)
    (h : NodeDenotes nums children X) :
    NodeDenotes nums [.string ['n', 'o', 't'], .list children] (p.typeTable.present \ X) := by
  obtain ⟨hne, items, hfill, e, he, hknown, hdenote⟩ := h
  refine ⟨by simp, [.op .not, .list items], ?_, .not (.list e), ?_, hknown, ?_⟩
  · have hop : cilGetExprOperatorFlavor ['n', 'o', 't'] = some .not := by decide
    have hverify : cilVerifyExprSyntax [.string ['n', 'o', 't'], .list children] (some .not) .type = true := by
      cases children with
      | nil => exact absurd rfl hne
      | cons c children =>
        simp [cilVerifyExprSyntax, cilVerifySyntax, CilSyntax.has, CilParse.isString, CilParse.isList]
    rw [cilFillExpr, operator_string, hop, hverify, Bool.not_true, if_neg (by simp)]
    simp [cilFillExprs, hfill]
  · rw [cilSetExprOf] at he ⊢
    rw [cilOperandsOf, cilOperandsOf, cilOperandsOf, CilSetItem.toOperand, CilSetItem.toOperand, he]
    rfl
  · rw [CilExpr.denote, CilOperand.denote, hdenote, nums.bijOn.injOn.image_sdiff_subset hX, image_present]
    rfl

/-- The intersection. -/
private theorem nodeDenotes_and {children children' : List CilParse} (hX : X ⊆ p.typeTable.present)
    (hY : Y ⊆ p.typeTable.present) (h : NodeDenotes nums children X) (h' : NodeDenotes nums children' Y) :
    NodeDenotes nums [.string ['a', 'n', 'd'], .list children, .list children'] (X ∩ Y) := by
  obtain ⟨hne, items, hfill, e, he, hknown, hdenote⟩ := h
  obtain ⟨hne', items', hfill', e', he', hknown', hdenote'⟩ := h'
  refine ⟨by simp, [.op .and, .list items, .list items'], ?_, .binary .and (.list e) (.list e'), ?_, ?_, ?_⟩
  · have hop : cilGetExprOperatorFlavor ['a', 'n', 'd'] = some .and := by decide
    have hverify : cilVerifyExprSyntax [.string ['a', 'n', 'd'], .list children, .list children'] (some .and) .type =
        true := by
      cases children with
      | nil => exact absurd rfl hne
      | cons c children =>
        cases children' with
        | nil => exact absurd rfl hne'
        | cons c' children' =>
          simp [cilVerifyExprSyntax, cilVerifySyntax, CilSyntax.has, CilParse.isString, CilParse.isList]
    rw [cilFillExpr, operator_string, hop, hverify, Bool.not_true, if_neg (by simp)]
    simp [cilFillExprs, hfill, hfill']
  · rw [cilSetExprOf] at he he' ⊢
    rw [cilOperandsOf, cilOperandsOf, cilOperandsOf, cilOperandsOf, CilSetItem.toOperand, CilSetItem.toOperand,
      CilSetItem.toOperand, he, he']
    rfl
  · intro name hname
    rw [CilExpr.datums, List.mem_append] at hname
    rcases hname with hname | hname
    · exact hknown name hname
    · exact hknown' name hname
  · rw [CilExpr.denote, CilOperand.denote, CilOperand.denote, hdenote, hdenote', nums.bijOn.injOn.image_inter hX hY]

/-! ### The names of a set -/

variable {set : LinkTypeSet}

theorem exists_name_of_mem_namesOf (hp : p.TypesNamed) {e : Ebitmap} (he : e.Canonical)
    (hknown : ∀ i ∈ e, i < p.typeTable.nprim.toNat ∧ (p.typeTable.typeValToStruct i).isSome) {name : CString}
    (hname : name ∈ namesOf p.typeValToName e) :
    (∃ i, p.typeValToName i = some name) ∧ CilSymbol name ∧ NoOperator name := by
  obtain ⟨i, hi, hname⟩ := mem_namesOf.1 hname
  obtain ⟨hlt, hsome⟩ := hknown i ((mem_ebitmapPositiveBits he).1 hi)
  obtain ⟨name', hname', hsymbol, hop⟩ := hp.name i hlt hsome
  obtain rfl : name = name' := Option.some.inj (hname.symm.trans hname')
  exact ⟨⟨i, hname⟩, hsymbol, hop⟩

/-- The types of the names are the members of the values. -/
theorem types_namesOf (hp : p.TypesNamed) {e : Ebitmap} (he : e.Canonical)
    (hknown : ∀ i ∈ e, i < p.typeTable.nprim.toNat ∧ (p.typeTable.typeValToStruct i).isSome) :
    {j | ∃ name ∈ namesOf p.typeValToName e, j ∈ p.nameTypes name} =
    {j | ∃ i ∈ e, j ∈ p.typeTable.members true i} := by
  ext j
  constructor
  · rintro ⟨name, hname, i', hi', hj⟩
    obtain ⟨i, hi, hname⟩ := mem_namesOf.1 hname
    obtain rfl := hp.unique i i' name hname hi'
    exact ⟨i, (mem_ebitmapPositiveBits he).1 hi, hj⟩
  · rintro ⟨i, hi, hj⟩
    obtain ⟨hlt, hsome⟩ := hknown i hi
    obtain ⟨name, hname, -⟩ := hp.name i hlt hsome
    exact ⟨name, mem_namesOf.2 ⟨i, (mem_ebitmapPositiveBits he).2 hi, hname⟩, i, hname, hj⟩

private theorem namesOf_ne_nil (hp : p.TypesNamed) {e : Ebitmap} (he : e.Canonical)
    (hknown : ∀ i ∈ e, i < p.typeTable.nprim.toNat ∧ (p.typeTable.typeValToStruct i).isSome)
    (hne : ebitmapIsEmpty e = false) : namesOf p.typeValToName e ≠ [] := by
  intro hnil
  have hempty : ∀ i, i ∉ e := fun i hi => by
    obtain ⟨hlt, hsome⟩ := hknown i hi
    obtain ⟨name, hname, -⟩ := hp.name i hlt hsome
    have hmem := mem_namesOf.2 ⟨i, (mem_ebitmapPositiveBits he).2 hi, hname⟩
    rw [hnil] at hmem
    cases hmem
  rw [(ebitmapIsEmpty_iff he).2 hempty] at hne
  cases hne

private theorem nodeDenotes_namesOf (nums : CilTypeNumbers p.typeTable) (hp : p.TypesNamed) {e : Ebitmap}
    (he : e.Canonical) (hknown : ∀ i ∈ e, i < p.typeTable.nprim.toNat ∧ (p.typeTable.typeValToStruct i).isSome)
    (hne : ebitmapIsEmpty e = false) :
    NodeDenotes nums ((namesOf p.typeValToName e).map .string)
      ({j | ∃ i ∈ e, j ∈ p.typeTable.members true i} ∩ p.typeTable.present) := by
  have hnode := nodeDenotes_names nums (namesOf_ne_nil hp he hknown hne)
    (fun name hname => (exists_name_of_mem_namesOf hp he hknown hname).2.2)
    fun name hname => (exists_name_of_mem_namesOf hp he hknown hname).1
  rwa [types_namesOf hp he hknown] at hnode

/-! ### Statements -/

/-- The statement of a set is well formed and has the types. -/
def StatementAgrees (nums : CilTypeNumbers p.typeTable) (attrName : CString) (es : List CilNameExpr) (S : Set Nat) :
    Prop :=
  ∃ items, cilGenTypeattributeset (.string cilKeyTypeattributeset :: .string attrName ::
    es.map fun e => cilParseOfNested e.node) = some items ∧ TypeExprDenotes nums items S

private theorem statementAgrees_iff_of_node {attrName : CString} {e : CilNameExpr} {children : List CilParse}
    (hparse : cilParseOfNested e.node = .list children) (hnode : NodeDenotes nums children X)
    (hX : X ⊆ p.typeTable.present) (hS : S ⊆ p.typeTable.present) : StatementAgrees nums attrName [e] S ↔ X = S := by
  obtain ⟨hne, items, hfill, hdenotes⟩ := hnode
  have hgen : cilGenTypeattributeset [.string cilKeyTypeattributeset, .string attrName, .list children] =
      some items := by
    cases children with
    | nil => exact absurd rfl hne
    | cons c children =>
      have hcheck : cilVerifySyntax [cilSynString, cilSynString, cilSynString ||| cilSynList, cilSynEnd]
          [.string cilKeyTypeattributeset, .string attrName, .list (c :: children)] = true := by
        simp [cilVerifySyntax, CilSyntax.has, CilParse.isString, CilParse.isList]
      rw [cilGenTypeattributeset, hcheck, Bool.not_true, if_neg (by simp), cilGenExpr, hfill]
  rw [StatementAgrees, List.map_singleton, hparse, hgen]
  constructor
  · rintro ⟨items', hitems, e', he', -, hdenote'⟩
    obtain rfl := Option.some.inj hitems
    obtain ⟨e'', he'', -, hdenote⟩ := hdenotes
    obtain rfl : e' = e'' := Option.some.inj (he'.symm.trans he'')
    exact (image_inj hX hS).1 (hdenote.symm.trans hdenote')
  · rintro rfl
    exact ⟨items, rfl, hdenotes⟩

/-- A statement with nothing behind the name, or with more than one expression, is not well formed. -/
theorem not_statementAgrees_of_length {attrName : CString} {es : List CilNameExpr} (hlength : es.length ≠ 1) :
    ¬ StatementAgrees nums attrName es S := by
  rintro ⟨items, hgen, -⟩
  match es, hlength with
  | [], _ =>
    have hcheck : cilVerifySyntax [cilSynString, cilSynString, cilSynString ||| cilSynList, cilSynEnd]
        [.string cilKeyTypeattributeset, .string attrName] = false := by
      simp [cilVerifySyntax, CilSyntax.has, CilParse.isString]
    rw [List.map_nil] at hgen
    unfold cilGenTypeattributeset at hgen
    rw [hcheck] at hgen
    cases hgen
  | e :: e' :: es, _ =>
    rw [List.map_cons, List.map_cons, cilGenTypeattributeset] at hgen
    have hcheck : ∀ x y : CilParse, ∀ rest,
        cilVerifySyntax [cilSynString, cilSynString, cilSynString ||| cilSynList, cilSynEnd]
          (.string cilKeyTypeattributeset :: .string attrName :: x :: y :: rest) = false := by
      intro x y rest
      simp [cilVerifySyntax, CilSyntax.has, CilParse.isString]
    rw [hcheck] at hgen
    cases hgen

private theorem not_statementAgrees_notNothing {attrName : CString} :
    ¬ StatementAgrees nums attrName [.notNothing] S := by
  rintro ⟨items, hgen, -⟩
  have hop : cilGetExprOperatorFlavor ['n', 'o', 't'] = some .not := by decide
  have hverify : cilVerifyExprSyntax [.string ['n', 'o', 't']] (some .not) .type = false := by decide
  have hnone : cilGenExpr .type (.list [.string ['n', 'o', 't']]) = none := by
    rw [cilGenExpr, cilFillExpr, operator_string, hop, hverify]
    rfl
  have hgen' : cilGenTypeattributeset [.string cilKeyTypeattributeset, .string attrName,
      .list [.string ['n', 'o', 't']]] = none := by
    rw [cilGenTypeattributeset]
    simp [cilVerifySyntax, CilSyntax.has, CilParse.isString, CilParse.isList, hnone]
  exact absurd (hgen'.symm.trans hgen) (by simp)

/-! ### The parts of a set -/

private theorem present_subset_types (p : TypeTable) : p.present ⊆ p.types := by
  rintro i ⟨hlt, type, htype, hflavor⟩
  refine ⟨hlt, ?_⟩
  rw [TypeTable.isAttrib, htype]
  exact decide_eq_false hflavor

/-- The types that a set lists and does not take away. -/
def partTypes (p : TypeTable) (set : LinkTypeSet) : Set Nat := (set.listed p true \ set.negated p) ∩ p.present

private theorem denote_inter_present {p : TypeTable} (hstar : set.flags &&& typeStar = 0) :
    set.denote p true ∩ p.present =
      if set.flags &&& typeComp = 0 then partTypes p set else p.present \ partTypes p set := by
  rw [LinkTypeSet.denote, if_neg (not_not_intro hstar)]
  by_cases hcomp : set.flags &&& typeComp = 0
  · rw [if_neg (not_not_intro hcomp), if_pos hcomp, partTypes]
  · rw [if_pos hcomp, if_neg hcomp, partTypes]
    ext i
    have htypes := @present_subset_types p i
    simp only [Set.mem_inter_iff, Set.mem_symmDiff, Set.mem_sdiff]
    tauto

/-- The parts of a set under a complement or not: they come out right when they do by themselves. -/
private theorem statementAgrees_parts_iff {attrName : CString} {e : CilNameExpr} {children : List CilParse}
    (hparse : cilParseOfNested e.node = .list children) (hnode : NodeDenotes nums children X)
    (hX : X ⊆ p.typeTable.present) (hstar : set.flags &&& typeStar = 0) :
    StatementAgrees nums attrName (if set.flags &&& typeComp ≠ 0 then [.not e] else [e])
      (set.denote p.typeTable true ∩ p.typeTable.present) ↔ X = partTypes p.typeTable set := by
  have hparts : partTypes p.typeTable set ⊆ p.typeTable.present := Set.inter_subset_right
  rw [denote_inter_present hstar]
  by_cases hcomp : set.flags &&& typeComp = 0
  · rw [if_neg (not_not_intro hcomp), if_pos hcomp, statementAgrees_iff_of_node hparse hnode hX hparts]
  · have hparse' : cilParseOfNested (CilNameExpr.not e).node = .list [.string ['n', 'o', 't'], .list children] := by
      rw [CilNameExpr.node, cilParseOfNested, cilParsesOfNested, cilParsesOfNested, cilParsesOfNested, hparse,
        cilParseOfNested]
    rw [if_pos hcomp, if_neg hcomp, statementAgrees_iff_of_node hparse' (nodeDenotes_not hX hnode) Set.sdiff_subset
      Set.sdiff_subset]
    constructor
    · intro h
      rw [← Set.sdiff_sdiff_cancel_left hX, h, Set.sdiff_sdiff_cancel_left hparts]
    · rintro rfl
      rfl

theorem listed_eq (p : TypeTable) (set : LinkTypeSet) :
    set.listed p true = {j | ∃ i ∈ set.types, j ∈ p.members true i} := by
  rw [LinkTypeSet.listed, LinkTypeSet.Expands, Bool.true_or, Bool.true_or]

private theorem parse_names (l : List CString) :
    cilParseOfNested (CilNameExpr.names l).node = .list (l.map .string) := by
  rw [CilNameExpr.node, cilParseOfNested, cilParsesOfNested_wordNodes]

private theorem parse_not_names (l : List CString) :
    cilParseOfNested (CilNameExpr.not (.names l)).node = .list [.string ['n', 'o', 't'], .list (l.map .string)] := by
  rw [CilNameExpr.node, cilParseOfNested, cilParsesOfNested, cilParsesOfNested, cilParsesOfNested, parse_names,
    cilParseOfNested]

private theorem attrExprs_of_noStar (hstar : set.flags &&& typeStar = 0) :
    attrExprs p set =
      if ebitmapIsEmpty set.types = true ∧ ebitmapIsEmpty set.negset = true then
        if set.flags &&& typeComp ≠ 0 then [.notNothing] else []
      else
        let pos := CilNameExpr.names (namesOf p.typeValToName set.types)
        let neg := CilNameExpr.not (.names (namesOf p.typeValToName set.negset))
        let e := if ebitmapIsEmpty set.negset = true then pos
          else if ebitmapIsEmpty set.types = true then neg else .and pos neg
        if set.flags &&& typeComp ≠ 0 then [.not e] else [e] := by
  unfold attrExprs attrStrs
  by_cases hcomp : set.flags &&& typeComp = 0 <;>
    rcases Bool.eq_false_or_eq_true (ebitmapIsEmpty set.types) with htypes | htypes <;>
    rcases Bool.eq_false_or_eq_true (ebitmapIsEmpty set.negset) with hnegset | hnegset <;>
    simp only [hstar, hcomp, htypes, hnegset, ne_eq, not_true_eq_false, not_false_eq_true, if_true, if_false,
      Bool.not_true, Bool.not_false, Bool.and_true, Bool.and_false, Bool.false_eq_true, and_self, and_true, and_false,
      Option.elim, Option.toList, List.nil_append]

theorem length_attrExprs_of_star (hstar : set.flags &&& typeStar ≠ 0) (hparts : ¬ (set.flags &&& typeComp = 0 ∧
    ebitmapIsEmpty set.types = true ∧ ebitmapIsEmpty set.negset = true)) : (attrExprs p set).length ≠ 1 := by
  unfold attrExprs attrStrs
  by_cases hcomp : set.flags &&& typeComp = 0 <;>
    rcases Bool.eq_false_or_eq_true (ebitmapIsEmpty set.types) with htypes | htypes <;>
    rcases Bool.eq_false_or_eq_true (ebitmapIsEmpty set.negset) with hnegset | hnegset <;>
    simp_all

private theorem listed_eq_empty (hset : set.Known p.typeTable) (hempty : ebitmapIsEmpty set.types = true) :
    set.listed p.typeTable true = ∅ := by
  rw [listed_eq]
  ext j
  simp [(ebitmapIsEmpty_iff hset.types_canonical).1 hempty]

theorem negated_eq_empty (hset : set.Known p.typeTable) (hempty : ebitmapIsEmpty set.negset = true) :
    set.negated p.typeTable = ∅ := by
  rw [LinkTypeSet.negated]
  ext j
  simp [(ebitmapIsEmpty_iff hset.negset_canonical).1 hempty]

/-- Without a star the parts are one expression, which `not` may stand around. -/
private theorem statementAgrees_noStar_iff (hp : p.TypesNamed) (hset : set.Known p.typeTable)
    (hstar : set.flags &&& typeStar = 0) (nums : CilTypeNumbers p.typeTable) (attrName : CString) :
    StatementAgrees nums attrName (attrExprs p set) (set.denote p.typeTable true ∩ p.typeTable.present) ↔
      ebitmapIsEmpty set.types = false ∨
        ebitmapIsEmpty set.negset = false ∧ p.typeTable.present ⊆ set.negated p.typeTable := by
  have hpos := fun hne => nodeDenotes_namesOf nums hp hset.types_canonical hset.types hne
  have hneg := fun hne => nodeDenotes_namesOf nums hp hset.negset_canonical hset.negset hne
  rw [← listed_eq] at hpos
  rw [attrExprs_of_noStar hstar]
  by_cases hnegset : ebitmapIsEmpty set.negset = true
  · by_cases htypes : ebitmapIsEmpty set.types = true
    · -- nothing is there that could be printed
      rw [if_pos ⟨htypes, hnegset⟩]
      refine iff_of_false ?_ (by simp [htypes, hnegset])
      split
      · exact not_statementAgrees_notNothing
      · exact not_statementAgrees_of_length (by simp)
    · have htypes' := Bool.eq_false_iff.2 htypes
      rw [if_neg fun h => htypes h.1]
      dsimp only
      rw [if_pos hnegset, statementAgrees_parts_iff (parse_names _) (hpos htypes') Set.inter_subset_right hstar,
        partTypes, negated_eq_empty hset hnegset, Set.sdiff_empty]
      exact iff_of_true rfl (Or.inl htypes')
  · have hnegset' := Bool.eq_false_iff.2 hnegset
    have hnot := nodeDenotes_not Set.inter_subset_right (hneg hnegset')
    rw [if_neg fun h => hnegset h.2]
    dsimp only
    rw [if_neg hnegset]
    by_cases htypes : ebitmapIsEmpty set.types = true
    · -- what is left of all types, where nothing is listed
      rw [if_pos htypes, statementAgrees_parts_iff (parse_not_names _) hnot Set.sdiff_subset hstar, partTypes,
        listed_eq_empty hset htypes, Set.empty_sdiff, Set.empty_inter, Set.sdiff_eq_empty]
      simp only [htypes, hnegset', Bool.true_eq_false, false_or, true_and, Set.subset_inter_iff, subset_refl,
        and_true]
      rfl
    · have htypes' := Bool.eq_false_iff.2 htypes
      have hand := nodeDenotes_and Set.inter_subset_right Set.sdiff_subset (hpos htypes') hnot
      rw [if_neg htypes, statementAgrees_parts_iff ?_ hand (Set.inter_subset_left.trans Set.inter_subset_right) hstar]
      · refine iff_of_true ?_ (Or.inl htypes')
        rw [partTypes, LinkTypeSet.negated]
        ext j
        simp only [Set.mem_inter_iff, Set.mem_sdiff]
        tauto
      · rw [CilNameExpr.node, cilParseOfNested, cilParsesOfNested, cilParsesOfNested, cilParsesOfNested,
          cilParsesOfNested, parse_names, parse_not_names, cilParseOfNested]

private theorem statementAgrees_star_iff (hset : set.Known p.typeTable) (hstar : set.flags &&& typeStar ≠ 0)
    (nums : CilTypeNumbers p.typeTable) (attrName : CString) :
    StatementAgrees nums attrName (attrExprs p set) (set.denote p.typeTable true ∩ p.typeTable.present) ↔
      set.flags &&& typeComp = 0 ∧ ebitmapIsEmpty set.types = true ∧ ebitmapIsEmpty set.negset = true := by
  by_cases hparts : set.flags &&& typeComp = 0 ∧ ebitmapIsEmpty set.types = true ∧ ebitmapIsEmpty set.negset = true
  · obtain ⟨hcomp, htypes, hnegset⟩ := hparts
    have hes : attrExprs p set = [.all] := by
      unfold attrExprs attrStrs
      simp only [hstar, hcomp, htypes, hnegset, ne_eq, not_true_eq_false, not_false_eq_true, if_true, if_false,
        Bool.not_true, Bool.and_self, Bool.false_eq_true, Option.toList, List.append_nil]
    have hparse : cilParseOfNested CilNameExpr.all.node = .list [.string ['a', 'l', 'l']] := by
      rw [CilNameExpr.node, cilParseOfNested, cilParsesOfNested, cilParsesOfNested, cilParseOfNested]
    rw [hes, statementAgrees_iff_of_node hparse nodeDenotes_all subset_rfl Set.inter_subset_right]
    refine iff_of_true ?_ ⟨hcomp, htypes, hnegset⟩
    rw [LinkTypeSet.denote, if_pos hstar, negated_eq_empty hset hnegset, Set.sdiff_empty]
    exact (Set.inter_eq_right.2 (present_subset_types p.typeTable)).symm
  · exact iff_of_false (not_statementAgrees_of_length (length_attrExprs_of_star hstar hparts)) hparts

/-- The statement of a set that is more than a list is right exactly when its parts combine. -/
theorem statementAgrees_iff (hp : p.TypesNamed) (hset : set.Known p.typeTable) (hplain : set.isPlain = false)
    (nums : CilTypeNumbers p.typeTable) (attrName : CString) :
    StatementAgrees nums attrName (attrExprs p set) (set.denote p.typeTable true ∩ p.typeTable.present) ↔
      set.Expressible p.typeTable := by
  rw [LinkTypeSet.Expressible, hplain]
  by_cases hstar : set.flags &&& typeStar = 0
  · rw [statementAgrees_noStar_iff hp hset hstar]
    simp only [hstar, Bool.false_eq_true, ne_eq, not_true_eq_false, false_and, false_or, true_and]
  · rw [statementAgrees_star_iff hset hstar]
    simp only [hstar, Bool.false_eq_true, ne_eq, not_false_eq_true, true_and, false_or, false_and, or_false]

end Sepol.CilSet
