import Sepol.AvtabWrite
import Sepol.Conditional
import Sepol.KernelPolicydb

/-!
# Validation of kernel policies

`policydb_validate` for a kernel policy, with the checks of all the data that the model of a kernel policy has.  The
checks of properties, capabilities, transitions, object contexts, `genfs` entries and scopes, which read other data,
are left out.
-/

namespace Sepol

structure KernelFlavors extends ConstraintFlavors where
  commons : Validate
  classes : Validate
  bools : Validate
  levels : Validate
  cats : Validate

def KernelPolicydb.validateArrayInit (p : KernelPolicydb) : Option KernelFlavors := do
  let commons ← validateInit (fun i => (p.commonEntry i).map Prod.fst) p.pCommons.nprim
  let classes ← validateInit (fun i => (p.classEntry i).map Prod.fst) p.pClasses.nprim
  let flavors ← Sepol.validateArrayInit p.toConstraintPolicydb.toPolicydb
  let bools ← validateInit (fun i => (p.boolEntry i).map Prod.fst) p.pBools.nprim
  let levels ← validateInit (fun i => (p.sensEntry i).map Prod.fst) p.pLevels.nprim
  let cats ← validateInit (fun i => (p.catEntry i).map Prod.fst) p.pCats.nprim
  some ⟨flavors, commons, classes, bools, levels, cats⟩

def valueIsvalid (value nprim : Nat) : Bool := !(value = 0 || value > nprim)

variable (p : KernelPolicydb) (flavors : KernelFlavors)

/-! ### Symbols -/

/-- `perm_visit` over a table, with the bits that were visited. -/
def permVisit (nprim inheritedNprim : Nat) : List (CString × PermDatum) → BitVec 32 → Bool
  | [], _ => true
  | e :: table, visited =>
    let bit := 1#32 <<< (e.2.value - 1)
    if !valueIsvalid e.2.value nprim then false
    else if inheritedNprim ≠ 0 ∧ valueIsvalid e.2.value inheritedNprim then false
    else if bit &&& visited ≠ 0 then false
    else permVisit nprim inheritedNprim table (visited ||| bit)

def validatePermissionSymtab (permissions : Symtab PermDatum) (inheritedNprim : Nat) : Bool :=
  permVisit permissions.nprim inheritedNprim permissions.table 0

def validateCommonDatum (common : KernelCommon) : Bool :=
  validateValue common.value flavors.commons &&
    !(common.permissions.nprim = 0 || common.permissions.nprim > permSymtabSize) &&
    common.permissions.nprim = common.permissions.table.length &&
    validatePermissionSymtab common.permissions 0

def validateClassDatum (cladatum : KernelClass) : Bool :=
  !(cladatum.value > 2 ^ 16 - 1) && validateValue cladatum.value flavors.classes &&
    (cladatum.comdatum.all fun common => validateCommonDatum flavors common) &&
    !(cladatum.permissions.nprim > permSymtabSize || cladatum.permissions.table.length > permSymtabSize) &&
    cladatum.permissions.nprim = cladatum.permissions.table.length +
      (cladatum.comdatum.map fun common => common.permissions.table.length).getD 0 &&
    validatePermissionSymtab cladatum.permissions
      ((cladatum.comdatum.map fun common => common.permissions.nprim).getD 0) &&
    validateConstraintNodes cladatum.permissions.nprim cladatum.constraints flavors.toConstraintFlavors &&
    validateConstraintNodes uint32Max cladatum.validatetrans flavors.toConstraintFlavors &&
    cladatum.defaultUser ≤ 2 && cladatum.defaultRole ≤ 2 && cladatum.defaultType ≤ 2 && cladatum.defaultRange ≤ 7

def validateRoleDatum (role : KernelRole) : Bool :=
  validateValue role.value flavors.roles && validateEbitmap role.dominates flavors.roles &&
    validateTypeSet role.types flavors.types && (role.bounds = 0 || validateValue role.bounds flavors.roles) &&
    validateEbitmap role.roles flavors.roles && role.flavor ≤ 1

def validateSimpletype (value : Nat) : Bool :=
  if !validateValue value flavors.types then false
  else
    match p.typeValToStruct (value - 1) with
    | none => false
    | some type => type.flavor ≠ .attrib

def validateTypeDatum (type : KernelType) : Bool :=
  if !validateValue type.value flavors.types then false
  else if type.primary ≠ 0 ∧ !validateValue type.primary flavors.types then false
  else
    (match type.flavor with
      | .type | .alias =>
        ebitmapIsEmpty type.types && (type.bounds = 0 || validateSimpletype p flavors type.bounds)
      | .attrib => validateEbitmap type.types flavors.types && type.bounds = 0) &&
      decide (type.flags ∈ [0, 1, 2, 4, 6])

def validateRoleSet (roleSet : KernelRoleSet) (role : Validate) : Bool :=
  validateEbitmap roleSet.roles role && roleSet.flags ≤ 2

def validateMlsSemanticCat (cat : List MlsSemanticCat) (cats : Validate) : Bool :=
  cat.all fun cat => validateValue cat.low cats && validateValue cat.high cats && cat.low ≤ cat.high

def validateMlsSemanticLevel (level : MlsSemanticLevel) (sens cats : Validate) : Bool :=
  if level.sens = 0 then true else validateValue level.sens sens && validateMlsSemanticCat level.cat cats

def validateMlsSemanticRange (range : MlsSemanticRange) (sens cats : Validate) : Bool :=
  validateMlsSemanticLevel range.level0 sens cats && validateMlsSemanticLevel range.level1 sens cats

def validateMlsLevel (level : MlsLevel) (sens cats : Validate) : Bool :=
  validateValue level.sens sens && validateEbitmap level.cat cats

def validateMlsRange (range : MlsRange) (sens cats : Validate) : Bool :=
  validateMlsLevel range.level0 sens cats && validateMlsLevel range.level1 sens cats

def validateLevelDatum (level : KernelLevel) : Bool :=
  if level.notdefined then false
  else if !validateMlsLevel level.level flavors.levels flavors.cats then false
  else if level.isalias then
    match hashtabSearchName p.pLevels.table ((p.sensEntry (level.level.sens - 1)).map Prod.fst) with
    | none => false
    | some actual => ebitmapCmp level.level.cat actual.level.cat
  else true

def validateUserDatum (user : KernelUser) : Bool :=
  validateValue user.value flavors.users && validateRoleSet user.roles flavors.roles &&
    validateMlsSemanticRange user.range flavors.levels flavors.cats &&
    validateMlsSemanticLevel user.dfltlevel flavors.levels flavors.cats &&
    (!p.mls || validateMlsRange user.expRange flavors.levels flavors.cats) &&
    (!p.mls || validateMlsLevel user.expDfltlevel flavors.levels flavors.cats) &&
    (user.bounds = 0 || validateValue user.bounds flavors.users)

def validateBoolDatum (boolean : KernelBool) : Bool :=
  validateValue boolean.value flavors.bools && decide (boolean.state ∈ [0, 1]) && boolean.flags ≤ 1

/-- One loop of `validate_datum_array_gaps`. -/
def validateGaps (flavor : Validate) (present : Nat → Bool) (nprim : Nat) : Bool :=
  (List.range nprim).all fun i => present i != ebitmapGetBit flavor.gaps i

def validateDatumArrayGaps : Bool :=
  validateGaps flavors.classes (fun i => (p.classEntry i).isSome) p.pClasses.nprim &&
    validateGaps flavors.roles (fun i => (p.roleEntry i).isSome) p.pRoles.nprim &&
    (!(p.policyvers < policydbVersionAvtab || p.policyvers > policydbVersionPermissive) ||
      validateGaps flavors.types (fun i => (p.typeEntry i).isSome) p.pTypes.nprim) &&
    validateGaps flavors.users (fun i => (p.userEntry i).isSome) p.pUsers.nprim &&
    validateGaps flavors.bools (fun i => (p.boolEntry i).isSome) p.pBools.nprim

def validateDatumArrayEntries : Bool :=
  (p.pCommons.table.all fun e => validateCommonDatum flavors e.2) &&
    (p.pClasses.table.all fun e => validateClassDatum flavors e.2) &&
    (p.pRoles.table.all fun e => validateRoleDatum flavors e.2) &&
    (p.pTypes.table.all fun e => validateTypeDatum p flavors e.2) &&
    (p.pUsers.table.all fun e => validateUserDatum p flavors e.2) &&
    (!p.mls || p.pLevels.table.all fun e => validateLevelDatum p flavors e.2) &&
    (p.pCats.table.all fun e => valueIsvalid e.2.value flavors.cats.nprim) &&
    (p.pBools.table.all fun e => validateBoolDatum flavors e.2)

/-! ### Rules -/

def validateAvtabKey (key : AvtabKey) (conditional : Bool) : Bool :=
  (if hasSpecified key.specified avtabType then
    validateSimpletype p flavors key.sourceType.toNat && validateSimpletype p flavors key.targetType.toNat
  else
    validateValue key.sourceType.toNat flavors.types && validateValue key.targetType.toNat flavors.types) &&
    validateValue key.targetClass.toNat flavors.classes &&
    let specified := key.specified &&& 0xFFF
    if specified ∈ [avtabAllowed, avtabAuditallow, avtabAuditdeny, avtabTransition, avtabMember,
        avtabChange] then true
    else if specified ∈ [avtabXpermsAllowed, avtabXpermsAuditallow, avtabXpermsDontaudit] then
      p.targetPlatform = sepolTargetSelinux && (!conditional || p.policyvers ≥ policydbVersionCondXperms)
    else false

def validateXperms (xperms : AvtabExtendedPerms) : Bool :=
  decide (xperms.specified ∈ [avtabXpermsIoctldriver, avtabXpermsIoctlfunction, avtabXpermsNlmsg])

/-- The bits of the permissions of a class; the class was checked to have a datum. -/
def validateAccessVector (tclass : Nat) (av : BitVec 32) : Bool :=
  match p.classValToStruct (tclass - 1) with
  | none => false
  | some cladatum =>
    let mask : BitVec 32 :=
      if cladatum.permissions.nprim = permSymtabSize then ~~~0 else 1#32 <<< cladatum.permissions.nprim - 1
    av &&& mask ≠ 0

def validateAvtabKeyAndDatum (conditional : Bool) (k : AvtabKey) (d : AvtabDatum) : Bool :=
  if !validateAvtabKey p flavors k conditional then false
  else if hasSpecified k.specified avtabAv ∧
      !validateAccessVector p k.targetClass.toNat
        (if k.specified &&& 0xFFF = avtabAuditdeny then ~~~d.data else d.data) then false
  else if hasSpecified k.specified avtabType ∧ !validateSimpletype p flavors d.data.toNat then false
  else if hasSpecified k.specified avtabXperms then
    (d.data = 0 || validateAccessVector p k.targetClass.toNat d.data) && validateXperms d.xperms
  else true

def validateAvtab (avtab : Avtab) : Bool :=
  (avtabNodes avtab).all fun n => validateAvtabKeyAndDatum p flavors false n.key n.datum

/-- The nodes from an address to the end of its chain. -/
def avtabChainAt (tab : Avtab) (addr : Nat) : List AvtabNode :=
  ((List.range tab.nslot).map fun i => (tab.htable i).dropWhile fun n => n.addr ≠ addr).flatten

def validateCondAvList (condAv : List Nat) : Bool :=
  condAv.all fun addr => (avtabChainAt p.teCondAvtab addr).all fun n =>
    validateAvtabKeyAndDatum p flavors true n.key n.datum

def validateBoolIdArray (boolIds : List Nat) (nbools : Nat) (boolean : Validate) : Bool :=
  if nbools ≥ condMaxBools then false else (boolIds.take nbools).all fun id => validateValue id boolean

def validateCondList : Bool :=
  p.condList.all fun cond =>
    validateCondExpr cond.expr flavors.bools && validateCondAvList p flavors cond.trueList &&
      validateCondAvList p flavors cond.falseList && validateBoolIdArray cond.boolIds cond.nbools flavors.bools &&
      decide (cond.curState ∈ [0, 1]) && cond.flags ≤ 1

def validateRoleAllows : Bool :=
  p.roleAllow.all fun allow => validateValue allow.1 flavors.roles && validateValue allow.2 flavors.roles

def validatePermissives : Bool :=
  (ebitmapPositiveBits p.permissiveMap).all fun i => validateSimpletype p flavors i

/-- `validate_typeattr_map` and `validate_attrtype_map`. -/
def validateTypeMap (maps : Nat → Ebitmap) : Bool :=
  (List.range p.pTypes.nprim).all fun i => validateEbitmap (maps i) flavors.types

abbrev policydbVersionBool : Nat := 16

def policydbValidate (p : KernelPolicydb) : Bool :=
  match p.validateArrayInit with
  | none => false
  | some flavors =>
    validateAvtab p flavors p.teAvtab && (p.policyvers < policydbVersionBool || validateCondList p flavors) &&
      validateRoleAllows p flavors && validateDatumArrayGaps p flavors && validateDatumArrayEntries p flavors &&
      validatePermissives p flavors && validateTypeMap p flavors p.typeAttrMap &&
      validateTypeMap p flavors p.attrTypeMap

end Sepol
