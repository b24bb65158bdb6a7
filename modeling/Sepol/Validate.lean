import Sepol.CopyAvrule
import Sepol.EbitmapPredicates

/-!
# Validation of expressions

The parts of `policydb_validate.c` that check values, sets of values, and the expressions of conditionals and of
constraints.  A function returns `true` where the code returns 0.
-/

namespace Sepol

/-- `validate_t`: the number of values of a kind of symbols, and the values below it that have no symbol. -/
structure Validate where
  nprim : Nat
  gaps : Ebitmap

def validateValue (value : Nat) (flavor : Validate) : Bool :=
  if value = 0 ∨ value > flavor.nprim then false else !ebitmapGetBit flavor.gaps (value - 1)

def validateEbitmap (map : Ebitmap) (flavor : Validate) : Bool :=
  if ebitmapLength map > 0 ∧ ebitmapHighestSetBit map ≥ flavor.nprim then false
  else !ebitmapMatchAny map flavor.gaps

abbrev typeStar : BitVec 32 := 1
abbrev typeComp : BitVec 32 := 2

def validateTypeSet (typeSet : LinkTypeSet) (type : Validate) : Bool :=
  validateEbitmap typeSet.types type && validateEbitmap typeSet.negset type &&
    (typeSet.flags = 0 || typeSet.flags = typeStar || typeSet.flags = typeComp)

def validateEmptyTypeSet (typeSet : LinkTypeSet) : Bool :=
  ebitmapIsEmpty typeSet.types && ebitmapIsEmpty typeSet.negset && typeSet.flags = 0

/-- `create_gap_ebitmap`. -/
def createGapEbitmap (valToName : Nat → Option CString) (nprim : Nat) : Option Ebitmap :=
  (List.range nprim).foldlM
    (fun gaps i => if (valToName i).isNone then ebitmapSetBit gaps i true else some gaps) ebitmapInit

def validateInit (valToName : Nat → Option CString) (nprim : Nat) : Option Validate :=
  (createGapEbitmap valToName nprim).map fun gaps => ⟨nprim, gaps⟩

private theorem le_ebitmapHighestSetBit {e : Ebitmap} (h : e.Canonical) {i : Nat} (hi : i ∈ e) :
    i ≤ ebitmapHighestSetBit e :=
  ((ebitmapHighestSetBit_spec h).2 ⟨i, hi⟩).2 hi

/-- The members of an accepted set are below the number of values. -/
theorem lt_of_validateEbitmap {map : Ebitmap} {flavor : Validate} (hmap : map.Canonical)
    (h : validateEbitmap map flavor = true) {i : Nat} (hi : i ∈ map) : i < flavor.nprim := by
  have hle := le_ebitmapHighestSetBit hmap hi
  have hlt := hmap.lt_of_mem hi
  unfold validateEbitmap at h
  by_cases hhigh : ebitmapLength map > 0 ∧ ebitmapHighestSetBit map ≥ flavor.nprim
  · rw [if_pos hhigh] at h
    cases h
  · have hlength : ebitmapLength map > 0 := by
      obtain ⟨n, hn, _⟩ := (hmap.mem_iff_node i).1 hi
      rw [ebitmapLength, if_neg (by rw [List.isEmpty_iff]; exact List.ne_nil_of_mem hn)]
      omega
    omega

/-! ### Conditional expressions -/

/-- The loop of `validate_cond_expr`, with the index of the top of a stack. -/
def validateCondExprFrom (boolean : Validate) : Int → List CondExpr → Bool
  | depth, [] => depth = 0
  | depth, expr :: next =>
    match expr.exprType with
    | condBool =>
      if !validateValue expr.boolean boolean then false
      else if depth ≥ condExprMaxdepth - 1 then false
      else validateCondExprFrom boolean (depth + 1) next
    | condNot =>
      if depth < 0 then false
      else if expr.boolean ≠ 0 then false
      else validateCondExprFrom boolean depth next
    | condOr | condAnd | condXor | condEq | condNeq =>
      if depth < 1 then false
      else if expr.boolean ≠ 0 then false
      else validateCondExprFrom boolean (depth - 1) next
    | _ => false

def validateCondExpr (expr : List CondExpr) (boolean : Validate) : Bool :=
  if expr = [] then false else validateCondExprFrom boolean (-1) expr

/-! ### Constraints -/

abbrev cexprMaxdepth : Nat := 5

@[match_pattern] abbrev cexprNot : Nat := 1
@[match_pattern] abbrev cexprAnd : Nat := 2
@[match_pattern] abbrev cexprOr : Nat := 3
@[match_pattern] abbrev cexprAttr : Nat := 4
@[match_pattern] abbrev cexprNames : Nat := 5

abbrev cexprUser : BitVec 32 := 1
abbrev cexprRole : BitVec 32 := 2
abbrev cexprType : BitVec 32 := 4
abbrev cexprTarget : BitVec 32 := 8
abbrev cexprXtarget : BitVec 32 := 16
abbrev cexprL1L2 : BitVec 32 := 32
abbrev cexprL1H2 : BitVec 32 := 64
abbrev cexprH1L2 : BitVec 32 := 128
abbrev cexprH1H2 : BitVec 32 := 256
abbrev cexprL1H1 : BitVec 32 := 512
abbrev cexprL2H2 : BitVec 32 := 1024

@[match_pattern] abbrev cexprOpEq : Nat := 1
@[match_pattern] abbrev cexprOpNeq : Nat := 2
@[match_pattern] abbrev cexprOpDom : Nat := 3
@[match_pattern] abbrev cexprOpDomby : Nat := 4
@[match_pattern] abbrev cexprOpIncomp : Nat := 5

structure ConstraintExpr where
  exprType : Nat
  attr : BitVec 32
  op : Nat
  names : Ebitmap
  typeNames : LinkTypeSet

structure ConstraintNode where
  permissions : BitVec 32
  expr : List ConstraintExpr

abbrev permSymtabSize : Nat := 32

/-- The kinds of symbols that constraints name. -/
structure ConstraintFlavors where
  users : Validate
  roles : Validate
  types : Validate

/-- The kind of types in `validate_array_init`; in the versions 20 to 23 attributes have no names. -/
def validateTypesInit (p : Policydb) : Option Validate :=
  if p.policyType ≠ policyKern ∨ p.policyvers < policydbVersionAvtab ∨ p.policyvers > policydbVersionPermissive then
    validateInit p.pTypeValToName p.pTypes.nprim
  else some ⟨p.pTypes.nprim, ebitmapInit⟩

/-- The part of `validate_array_init` for these kinds. -/
def validateArrayInit (p : Policydb) : Option ConstraintFlavors := do
  let roles ← validateInit p.pRoleValToName p.pRoles.nprim
  let types ← validateTypesInit p
  let users ← validateInit p.pUserValToName p.pUsers.nprim
  some ⟨users, roles, types⟩

private theorem validateInit_nprim {valToName : Nat → Option CString} {nprim : Nat} {flavor : Validate}
    (h : validateInit valToName nprim = some flavor) : flavor.nprim = nprim := by
  obtain ⟨gaps, _, rfl⟩ := Option.map_eq_some_iff.1 h
  rfl

theorem validateArrayInit_nprim {p : Policydb} {flavors : ConstraintFlavors}
    (h : validateArrayInit p = some flavors) :
    flavors.users.nprim = p.pUsers.nprim ∧ flavors.roles.nprim = p.pRoles.nprim ∧
      flavors.types.nprim = p.pTypes.nprim := by
  unfold validateArrayInit at h
  obtain ⟨roles, hroles, h⟩ := Option.bind_eq_some_iff.1 h
  obtain ⟨types, htypes, h⟩ := Option.bind_eq_some_iff.1 h
  obtain ⟨users, husers, h⟩ := Option.bind_eq_some_iff.1 h
  obtain rfl := Option.some.inj h
  refine ⟨validateInit_nprim husers, validateInit_nprim hroles, ?_⟩
  unfold validateTypesInit at htypes
  split at htypes
  · exact validateInit_nprim htypes
  · obtain rfl := Option.some.inj htypes
    rfl

/-- What is checked of an entry with a set of names. -/
def validateCexprNames (isValidatetrans : Bool) (flavors : ConstraintFlavors) (cexp : ConstraintExpr) : Bool :=
  if cexp.attr &&& cexprXtarget ≠ 0 ∧ !isValidatetrans then false
  else if cexp.attr &&& cexprType = 0 ∧ !validateEmptyTypeSet cexp.typeNames then false
  else if cexp.op ≠ cexprOpEq ∧ cexp.op ≠ cexprOpNeq then false
  else if cexp.attr ∈ [cexprUser, cexprUser ||| cexprTarget, cexprUser ||| cexprXtarget] then
    validateEbitmap cexp.names flavors.users
  else if cexp.attr ∈ [cexprRole, cexprRole ||| cexprTarget, cexprRole ||| cexprXtarget] then
    validateEbitmap cexp.names flavors.roles
  else if cexp.attr ∈ [cexprType, cexprType ||| cexprTarget, cexprType ||| cexprXtarget] then
    validateEbitmap cexp.names flavors.types && validateTypeSet cexp.typeNames flavors.types
  else false

/-- What is checked of an entry that compares two attributes. -/
def validateCexprAttr (cexp : ConstraintExpr) : Bool :=
  if !ebitmapIsEmpty cexp.names then false
  else if !validateEmptyTypeSet cexp.typeNames then false
  else
    let op := match cexp.op with
      | cexprOpEq | cexprOpNeq => true
      | cexprOpDom | cexprOpDomby | cexprOpIncomp =>
        !(decide (cexp.attr &&& cexprUser ≠ 0) || decide (cexp.attr &&& cexprType ≠ 0))
      | _ => false
    op && decide (cexp.attr ∈ [cexprUser, cexprRole, cexprType, cexprL1L2, cexprL1H2, cexprH1L2, cexprH1H2, cexprL1H1,
      cexprL2H2])

/-- What is checked of an operator. -/
def validateCexprOperator (cexp : ConstraintExpr) : Bool :=
  cexp.op = 0 && cexp.attr = 0 && ebitmapIsEmpty cexp.names && validateEmptyTypeSet cexp.typeNames

/-- The loop of `validate_constraint_nodes` over one expression. -/
def validateConstraintExprFrom (isValidatetrans : Bool) (flavors : ConstraintFlavors) :
    Int → List ConstraintExpr → Bool
  | depth, [] => depth = 0
  | depth, cexp :: next =>
    match cexp.exprType with
    | cexprNames =>
      if depth ≥ cexprMaxdepth - 1 then false
      else validateCexprNames isValidatetrans flavors cexp &&
        validateConstraintExprFrom isValidatetrans flavors (depth + 1) next
    | cexprAttr =>
      if depth ≥ cexprMaxdepth - 1 then false
      else validateCexprAttr cexp && validateConstraintExprFrom isValidatetrans flavors (depth + 1) next
    | cexprNot =>
      if depth < 0 then false
      else validateCexprOperator cexp && validateConstraintExprFrom isValidatetrans flavors depth next
    | cexprAnd | cexprOr =>
      if depth < 1 then false
      else validateCexprOperator cexp && validateConstraintExprFrom isValidatetrans flavors (depth - 1) next
    | _ => false

/-- `validate_constraint_nodes`; the value `UINT32_MAX` of `nperms` is for validatetrans rules. -/
def validateConstraintNodes (nperms : Nat) (cons : List ConstraintNode) (flavors : ConstraintFlavors) : Bool :=
  let isValidatetrans : Bool := nperms = uint32Max
  if cons ≠ [] ∧ nperms = 0 then false
  else cons.all fun cons =>
    if isValidatetrans ∧ cons.permissions ≠ 0 then false
    else if !isValidatetrans ∧ cons.permissions = 0 then false
    else if !isValidatetrans ∧ nperms ≠ permSymtabSize ∧ cons.permissions ≥ 1#32 <<< nperms then false
    else if cons.expr = [] then false
    else validateConstraintExprFrom isValidatetrans flavors (-1) cons.expr

end Sepol
