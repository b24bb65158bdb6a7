import Sepol.Avtab
import Sepol.Sidtab

/-!
# The policy database

The parts of `policydb_t` that the services, the MLS functions, the assertion and bounds checks and the optimizer
read.  An array indexed by value is a function of the index; an entry `none` is a `NULL` pointer.  A symbol table is
the list of its entries in the order in which `hashtab_map` visits them.
-/

namespace Sepol

/-- A string of the C code, without its terminator. -/
abbrev CString : Type := List Char

/-- `INT_MAX`. -/
abbrev intMax : Nat := 2147483647

/-- The conversion of a `size_t` or an `unsigned int` to `int`. -/
def sizeToInt (len : Nat) : Int := (BitVec.ofNat 32 len).toInt

theorem sizeToInt_of_lt {len : Nat} (h : len < 2 ^ 31) : sizeToInt len = len := by
  rw [sizeToInt, BitVec.toInt_eq_toNat_cond, BitVec.toNat_ofNat, Nat.mod_eq_of_lt (by omega), if_pos (by omega)]

theorem sizeToInt_lt (len : Nat) : sizeToInt len < 2 ^ 31 := by
  rw [sizeToInt, BitVec.toInt_eq_toNat_cond]
  have := (BitVec.ofNat 32 len).isLt
  split <;> omega

structure Symtab (α : Type) where
  table : List (CString × α)
  nprim : Nat

def hashtabSearch {α : Type} (table : List (CString × α)) (key : CString) : Option α :=
  (table.find? fun e => e.1 = key).map Prod.snd

theorem mem_of_hashtabSearch {α : Type} {table : List (CString × α)} {key : CString} {d : α}
    (h : hashtabSearch table key = some d) : (key, d) ∈ table := by
  obtain ⟨e, he, rfl⟩ := Option.map_eq_some_iff.1 h
  have hkey : e.1 = key := by simpa using List.find?_some he
  exact hkey ▸ List.mem_of_find?_eq_some he

/-- A search for the name in an entry of a `val_to_name` array; no table has an entry for a `NULL` name. -/
def hashtabSearchName {α : Type} (table : List (CString × α)) (key : Option CString) : Option α :=
  key.bind (hashtabSearch table)

structure PermDatum where
  value : Nat

structure CommonDatum where
  permissions : Symtab PermDatum

structure ClassDatum where
  value : Nat
  comdatum : Option CommonDatum
  permissions : Symtab PermDatum

structure RoleDatum where
  value : Nat
  cache : Ebitmap

structure UserDatum where
  value : Nat
  cache : Ebitmap
  expRange : MlsRange

inductive TypeFlavor where
  | type
  | attrib
  | alias
deriving DecidableEq

structure TypeDatum where
  value : Nat
  flavor : TypeFlavor
  bounds : Nat

structure LevelDatum where
  level : MlsLevel

structure CatDatum where
  value : Nat

/-! ### Conditionals -/

@[match_pattern] abbrev condBool : Nat := 1
@[match_pattern] abbrev condNot : Nat := 2
@[match_pattern] abbrev condOr : Nat := 3
@[match_pattern] abbrev condAnd : Nat := 4
@[match_pattern] abbrev condXor : Nat := 5
@[match_pattern] abbrev condEq : Nat := 6
@[match_pattern] abbrev condNeq : Nat := 7

abbrev condExprMaxdepth : Nat := 10

/-- An operator or operand of an expression in reverse Polish notation. -/
structure CondExpr where
  exprType : Nat
  boolean : Nat
deriving DecidableEq

/-- The lists of a conditional hold the addresses of nodes of `te_cond_avtab`. -/
structure CondNode where
  expr : List CondExpr
  trueList : List Nat
  falseList : List Nat

/-- One step of `cond_evaluate_expr` on the stack, top first; `none` where the code returns -1. -/
def condEvaluateStep (state : Nat → Bool) (cur : CondExpr) (s : List Bool) : Option (List Bool) :=
  match cur.exprType, s with
  | condBool, s => if s.length = condExprMaxdepth then none else some (state (cur.boolean - 1) :: s)
  | condNot, a :: s => some ((!a) :: s)
  | condOr, b :: a :: s => some ((a || b) :: s)
  | condAnd, b :: a :: s => some ((a && b) :: s)
  | condXor, b :: a :: s => some ((a ^^ b) :: s)
  | condEq, b :: a :: s => some ((a == b) :: s)
  | condNeq, b :: a :: s => some ((a != b) :: s)
  | _, _ => none

/-- `cond_evaluate_expr` under an assignment of the booleans; the result is the bottom of the stack. -/
def condEvaluateExpr (state : Nat → Bool) (expr : List CondExpr) : Option Bool :=
  (expr.foldlM (fun s cur => condEvaluateStep state cur s) []).bind List.getLast?

/-- A boolean of an expression. -/
def exprHasBool (expr : List CondExpr) (id : Nat) : Prop := ∃ e ∈ expr, e.exprType = condBool ∧ e.boolean = id

/-- The booleans of an expression have an entry in `bool_val_to_struct`, whose index is one below their value. -/
def BoolsValid (expr : List CondExpr) : Prop := ∀ id, exprHasBool expr id → 1 ≤ id

/-! ### The database -/

abbrev policyKern : Nat := 0

abbrev policydbVersionAvtab : Nat := 20
abbrev policydbVersionPermissive : Nat := 23

structure Policydb where
  policyType : Nat
  policyvers : Nat
  mls : Bool
  pClasses : Symtab ClassDatum
  pRoles : Symtab RoleDatum
  pTypes : Symtab TypeDatum
  pUsers : Symtab UserDatum
  pLevels : Symtab LevelDatum
  pCats : Symtab CatDatum
  pRoleValToName : Nat → Option CString
  pTypeValToName : Nat → Option CString
  pUserValToName : Nat → Option CString
  pSensValToName : Nat → Option CString
  pCatValToName : Nat → Option CString
  roleValToStruct : Nat → Option RoleDatum
  userValToStruct : Nat → Option UserDatum
  typeValToStruct : Nat → Option TypeDatum
  teAvtab : Avtab
  teCondAvtab : Avtab
  condList : List CondNode
  typeAttrMap : Nat → Ebitmap
  attrTypeMap : Nat → Ebitmap

def symtabInit {α : Type} : Symtab α := ⟨[], 0⟩

abbrev objectR : CString := ['o', 'b', 'j', 'e', 'c', 't', '_', 'r']
abbrev objectRVal : Nat := 1

/-- `policydb_init`: the only entry is the role `object_r`. -/
def policydbInit : Policydb where
  policyType := 0
  policyvers := 0
  mls := false
  pClasses := symtabInit
  pRoles := ⟨[(objectR, ⟨objectRVal, ebitmapInit⟩)], 1⟩
  pTypes := symtabInit
  pUsers := symtabInit
  pLevels := symtabInit
  pCats := symtabInit
  pRoleValToName := fun _ => none
  pTypeValToName := fun _ => none
  pUserValToName := fun _ => none
  pSensValToName := fun _ => none
  pCatValToName := fun _ => none
  roleValToStruct := fun _ => none
  userValToStruct := fun _ => none
  typeValToStruct := fun _ => none
  teAvtab := avtabAlloc 0
  teCondAvtab := avtabAlloc 0
  condList := []
  typeAttrMap := fun _ => ebitmapInit
  attrTypeMap := fun _ => ebitmapInit

/-- The node of `te_cond_avtab` that a pointer of a conditional's list points to. -/
def condNodeAt (p : Policydb) (addr : Nat) : Option AvtabNode := avtabNodeAt p.teCondAvtab addr

/-! ### Types, attributes and active lists -/

/-- Index `i` is that of a type, not of an attribute. -/
def IsType (p : Policydb) (i : Nat) : Prop := ∃ d, p.typeValToStruct i = some d ∧ d.flavor ≠ .attrib

/-- Index `i` is that of an attribute. -/
def IsAttr (p : Policydb) (i : Nat) : Prop := ∃ d, p.typeValToStruct i = some d ∧ d.flavor = .attrib

/-- The list of a conditional that a truth value makes active. -/
def CondNode.branch (cl : CondNode) (b : Bool) : List Nat := if b then cl.trueList else cl.falseList

/-- The nodes of the list that a truth value makes active. -/
def branchNodes (p : Policydb) (cl : CondNode) (b : Bool) : List (Option AvtabNode) :=
  (cl.branch b).map (condNodeAt p)

/-- The maps between types and attributes are inverse to each other on the types. -/
def DualMaps (p : Policydb) : Prop := ∀ i, IsType p i → ∀ a, a ∈ p.typeAttrMap i ↔ i ∈ p.attrTypeMap a

/-- The values of all types and attributes fit in a key. -/
def TypesFit (p : Policydb) : Prop := p.pTypes.nprim ≤ 65535

instance (p : Policydb) : Decidable (TypesFit p) := inferInstanceAs (Decidable (_ ≤ _))

/-- A key is for the types `s` and `t`. -/
structure Covers (p : Policydb) (k : AvtabKey) (s t : Nat) : Prop where
  source : s ∈ p.attrTypeMap (k.sourceType.toNat - 1)
  target : t ∈ p.attrTypeMap (k.targetType.toNat - 1)

/-- The rule is unconditional, or in the list of a conditional that the assignment makes active. -/
def ActiveNode (p : Policydb) (σ : Nat → Bool) (n : AvtabNode) : Prop :=
  n ∈ avtabNodes p.teAvtab ∨ ∃ (i : Nat) (cl : CondNode), p.condList[i]? = some cl ∧ some n ∈ branchNodes p cl (σ i)

/-- The rule is active for two types and a class. -/
structure AppliesTo (p : Policydb) (σ : Nat → Bool) (n : AvtabNode) (s t c : Nat) : Prop where
  active : ActiveNode p σ n
  covers : Covers p n.key s t
  tclass : n.key.targetClass.toNat = c

end Sepol
