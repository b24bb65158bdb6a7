import Sepol.ConstraintEval

/-!
# Kernel policies

The tables of a kernel policy with all the data that `policydb_validate` and the computation of access vectors read.
The arrays `val_to_name` and `val_to_struct` are those that the functions `*_index` make of the tables.  The parts of
a policy for object contexts, transitions and capabilities are left out.
-/

namespace Sepol

structure KernelCommon extends CommonDatum where
  value : Nat

structure KernelClass where
  value : Nat
  comdatum : Option KernelCommon
  permissions : Symtab PermDatum
  constraints : List ConstraintNode
  validatetrans : List ConstraintNode
  defaultUser : Nat
  defaultRole : Nat
  defaultType : Nat
  defaultRange : Nat

structure KernelRole extends RoleDatum where
  dominates : Ebitmap
  types : LinkTypeSet
  bounds : Nat
  flavor : Nat
  roles : Ebitmap

structure KernelType extends TypeDatum where
  primary : Nat
  types : Ebitmap
  flags : Nat

structure KernelRoleSet where
  roles : Ebitmap
  flags : Nat

structure MlsSemanticCat where
  low : Nat
  high : Nat

structure MlsSemanticLevel where
  sens : Nat
  cat : List MlsSemanticCat

structure MlsSemanticRange where
  level0 : MlsSemanticLevel
  level1 : MlsSemanticLevel

structure KernelUser extends UserDatum where
  roles : KernelRoleSet
  range : MlsSemanticRange
  dfltlevel : MlsSemanticLevel
  expDfltlevel : MlsLevel
  bounds : Nat

structure KernelBool where
  value : Nat
  state : Int
  flags : Nat

structure KernelLevel extends LevelDatum where
  isalias : Bool
  notdefined : Bool

structure KernelCat extends CatDatum where
  isalias : Bool

/-- The lists of rules of modules, which a kernel policy does not have, are left out. -/
structure KernelCond extends CondNode where
  curState : Int
  nbools : Nat
  boolIds : List Nat
  flags : Nat

structure KernelPolicydb where
  policyvers : Nat
  mls : Bool
  targetPlatform : Nat
  pCommons : Symtab KernelCommon
  pClasses : Symtab KernelClass
  pRoles : Symtab KernelRole
  pTypes : Symtab KernelType
  pUsers : Symtab KernelUser
  pBools : Symtab KernelBool
  pLevels : Symtab KernelLevel
  pCats : Symtab KernelCat
  teAvtab : Avtab
  teCondAvtab : Avtab
  condList : List KernelCond
  roleAllow : List (Nat × Nat)
  permissiveMap : Ebitmap
  processClass : Nat
  processTransDyntrans : BitVec 32
  typeAttrMap : Nat → Ebitmap
  attrTypeMap : Nat → Ebitmap

def Symtab.map {α β : Type} (f : α → β) (symtab : Symtab α) : Symtab β :=
  ⟨symtab.table.map fun e => (e.1, f e.2), symtab.nprim⟩

/-! ### Arrays -/

/-- The entry of a table that is indexed under a value. -/
def indexEntry {α : Type} (symtab : Symtab α) (indexed : α → Bool) (value : α → Nat) (i : Nat) :
    Option (CString × α) :=
  symtab.table.find? fun e => indexed e.2 && value e.2 = i + 1

theorem mem_of_indexEntry {α : Type} {symtab : Symtab α} {indexed : α → Bool} {value : α → Nat} {i : Nat}
    {e : CString × α} (h : indexEntry symtab indexed value i = some e) : e ∈ symtab.table ∧ value e.2 = i + 1 := by
  have hfound := List.find?_some h
  rw [Bool.and_eq_true, decide_eq_true_iff] at hfound
  exact ⟨List.mem_of_find?_eq_some h, hfound.2⟩

namespace KernelPolicydb

variable (p : KernelPolicydb)

def commonEntry : Nat → Option (CString × KernelCommon) := indexEntry p.pCommons (fun _ => true) (·.value)

def classEntry : Nat → Option (CString × KernelClass) := indexEntry p.pClasses (fun _ => true) (·.value)

def roleEntry : Nat → Option (CString × KernelRole) := indexEntry p.pRoles (fun _ => true) (·.value)

def typeEntry : Nat → Option (CString × KernelType) := indexEntry p.pTypes (fun type => type.primary ≠ 0) (·.value)

def userEntry : Nat → Option (CString × KernelUser) := indexEntry p.pUsers (fun _ => true) (·.value)

def boolEntry : Nat → Option (CString × KernelBool) := indexEntry p.pBools (fun _ => true) (·.value)

def sensEntry : Nat → Option (CString × KernelLevel) :=
  indexEntry p.pLevels (fun level => !level.isalias) (·.level.sens)

def catEntry : Nat → Option (CString × KernelCat) := indexEntry p.pCats (fun cat => !cat.isalias) (·.value)

def classValToStruct (i : Nat) : Option KernelClass := (p.classEntry i).map Prod.snd

def typeValToStruct (i : Nat) : Option KernelType := (p.typeEntry i).map Prod.snd

/-- The policy as the services see it. -/
def toConstraintPolicydb : ConstraintPolicydb where
  policyType := policyKern
  policyvers := p.policyvers
  mls := p.mls
  pClasses := p.pClasses.map fun c => ⟨c.value, c.comdatum.map (·.toCommonDatum), c.permissions⟩
  pRoles := p.pRoles.map (·.toRoleDatum)
  pTypes := p.pTypes.map (·.toTypeDatum)
  pUsers := p.pUsers.map (·.toUserDatum)
  pLevels := p.pLevels.map (·.toLevelDatum)
  pCats := p.pCats.map (·.toCatDatum)
  pRoleValToName i := (p.roleEntry i).map Prod.fst
  pTypeValToName i := (p.typeEntry i).map Prod.fst
  pUserValToName i := (p.userEntry i).map Prod.fst
  pSensValToName i := (p.sensEntry i).map Prod.fst
  pCatValToName i := (p.catEntry i).map Prod.fst
  roleValToStruct i := (p.roleEntry i).map fun e => e.2.toRoleDatum
  userValToStruct i := (p.userEntry i).map fun e => e.2.toUserDatum
  typeValToStruct i := (p.typeEntry i).map fun e => e.2.toTypeDatum
  teAvtab := p.teAvtab
  teCondAvtab := p.teCondAvtab
  condList := p.condList.map (·.toCondNode)
  typeAttrMap := p.typeAttrMap
  attrTypeMap := p.attrTypeMap
  dominates i := ((p.roleEntry i).map fun e => e.2.dominates).getD ebitmapInit

end KernelPolicydb

end Sepol
