import Sepol.TypeAttrMap
import Sepol.DiscardTunables

/-!
# Symbol tables under the linker

The symbol tables of the base, of a module and of a declaration, and the state of `link_modules` while identifiers and
scopes are copied: the base with its new symbols, the declarations copied so far, and the maps of the modules.
Symbols and declarations are counted in numbers without a bound.
-/

namespace Sepol

/-- The tables of a policy or of a declaration that `copy_identifiers` goes through. -/
structure LinkSymtabs where
  pClasses : Symtab KernelClass
  pRoles : Symtab KernelRole
  pTypes : Symtab KernelType
  pUsers : Symtab KernelUser
  pBools : Symtab KernelBool
  pLevels : Symtab KernelLevel
  pCats : Symtab KernelCat

def Symtab.empty {α : Type} : Symtab α := ⟨[], 0⟩

def LinkSymtabs.empty : LinkSymtabs := ⟨.empty, .empty, .empty, .empty, .empty, .empty, .empty⟩

/-- The names and the values of a table. -/
def LinkSymtabs.values (tabs : LinkSymtabs) : SymNum → Symtab Nat
  | .commons => .empty
  | .classes => tabs.pClasses.map (·.value)
  | .roles => tabs.pRoles.map (·.value)
  | .types => tabs.pTypes.map (·.value)
  | .users => tabs.pUsers.map (·.value)
  | .bools => tabs.pBools.map (·.value)
  | .levels => tabs.pLevels.map (·.level.sens)
  | .cats => tabs.pCats.map (·.value)

/-- `avrule_decl_t`, with the tables of its symbols. -/
structure LinkDecl extends LinkSymtabs where
  declId : Nat

/-- The base or a module: its own tables, its scope tables, and its declarations in the order of its blocks. -/
structure LinkPolicy extends LinkSymtabs where
  pCommons : Symtab KernelCommon
  mls : Bool
  scope : SymNum → List (CString × ScopeDatum)
  decls : List LinkDecl

/-- The loops of `prepare_module` and `prepare_base` over the declarations; ids are less than this number. -/
def LinkPolicy.numDecls (p : LinkPolicy) : Nat := p.decls.foldl (fun n decl => max n decl.declId) 0 + 1

/-- `p_type_val_to_name`. -/
def LinkPolicy.typeValToName (p : LinkPolicy) (i : Nat) : Option CString :=
  (indexEntry p.pTypes (fun type => type.primary ≠ 0) (·.value) i).map Prod.fst

/-- The maps of `prepare_module`. -/
def LinkPolicy.prepare (p : LinkPolicy) : PolicyModule where
  map k := List.replicate (p.values k).nprim 0
  permMap := List.replicate p.pClasses.nprim []

/-- `link_state_t`: the tables and the scopes of the base, with the declarations that were copied before the current
one and the maps of the modules that were copied before the current one. -/
structure LinkState where
  base : LinkSymtabs
  scope : SymNum → List (CString × ScopeDatum)
  decls : List LinkSymtabs
  destDecl : Option LinkSymtabs
  nextDeclId : Nat
  modules : List (LinkPolicy × PolicyModule)
  cur : LinkPolicy
  mod : PolicyModule
  avdeclMap : List Nat

/-- Before the first module. -/
def LinkState.init (base : LinkPolicy) : LinkState where
  base := base.toLinkSymtabs
  scope := base.scope
  decls := []
  destDecl := none
  nextDeclId := base.numDecls
  modules := []
  cur := ⟨.empty, .empty, false, fun _ => [], []⟩
  mod := ⟨fun _ => [], []⟩
  avdeclMap := []

/-! ### Entries -/

/-- The table after an insertion; the code reports every failure as one. -/
def symtabInsertOr {α : Type} (table : List (CString × α)) (id : CString) (datum : α) :
    Except CopyError (List (CString × α)) :=
  match hashtabInsert table id datum with
  | .error _ => .error .failed
  | .ok table => .ok table

/-- The symbol of a name: the one that is there, or a new one with the next value. -/
def symtabFindOrInsert {α : Type} (symtab : Symtab α) (id : CString) (new : Nat → α) :
    Except CopyError (Symtab α × α) :=
  match hashtabSearch symtab.table id with
  | some datum => .ok (symtab, datum)
  | none => do
    let table ← symtabInsertOr symtab.table id (new (symtab.nprim + 1))
    return (⟨table, symtab.nprim + 1⟩, new (symtab.nprim + 1))

/-- A symbol of a declaration, with the value that it has in the base. -/
def symtabInsertDecl {α : Type} (symtab : Symtab α) (id : CString) (datum : α) : Except CopyError (Symtab α) := do
  let table ← symtabInsertOr symtab.table id datum
  return ⟨table, symtab.nprim + 1⟩

/-- The datum of a name is changed in its place. -/
def Symtab.modify {α : Type} (symtab : Symtab α) (id : CString) (f : α → α) : Symtab α :=
  ⟨hashtabModify symtab.table id f, symtab.nprim⟩

/-- What a lookup finds, or the error for its failure. -/
def orError {α : Type} (err : CopyError) : Option α → Except CopyError α
  | none => .error err
  | some a => .ok a

def require (err : CopyError) (c : Prop) [Decidable c] : Except CopyError Unit := if c then .ok () else .error err

/-- A write to an entry of an array of values; the index of the value 0 wraps around. -/
def setEntry {α : Type} (map : List α) (value : Nat) (a : α) : Except CopyError (List α) := do
  require .undefined (0 < value ∧ value ≤ map.length)
  return map.set (value - 1) a

/-- The map of the current module for a kind of symbols. -/
def LinkState.setMap (st : LinkState) (k : SymNum) (value v : Nat) : Except CopyError LinkState := do
  let map ← setEntry (st.mod.map k) value v
  return { st with mod := ⟨Function.update st.mod.map k map, st.mod.permMap⟩ }

/-- A change of the current declaration, where there is one. -/
def LinkState.insertDecl (st : LinkState) (f : LinkSymtabs → Except CopyError LinkSymtabs) :
    Except CopyError LinkState :=
  match st.destDecl with
  | none => .ok st
  | some decl => do
    let decl ← f decl
    return { st with destDecl := some decl }

/-- The tables that the fix callbacks write to. -/
def LinkState.destTabs (st : LinkState) : LinkSymtabs := st.destDecl.getD st.base

def LinkState.setDestTabs (st : LinkState) (tabs : LinkSymtabs) : LinkState :=
  match st.destDecl with
  | none => { st with base := tabs }
  | some _ => { st with destDecl := some tabs }

end Sepol

/-!
## Copying the identifiers of modules

The callbacks of `copy_identifiers`.  The first ones copy the symbols of a table of a module to the base and write
their values there to the maps of the module; the last ones convert the sets of the symbols with these maps.
-/

namespace Sepol

/-! ### Classes -/

/-- The permission of a name that a class has itself or from its common. -/
def KernelClass.findPerm (cladatum : KernelClass) (id : CString) : Option PermDatum :=
  (hashtabSearch cladatum.permissions.table id).or
    (cladatum.comdatum.bind fun common => hashtabSearch common.permissions.table id)

/-- The map of the permissions of a class grows to the value that is written. -/
def setPermEntry (permMap : List Nat) (value v : Nat) : Except CopyError (List Nat) :=
  setEntry (permMap ++ List.replicate (value - permMap.length) 0) value v

/-- The permission of the class `destId` of the base for a permission of a module.  A new one, which only a class that
is required gets, has the value after the last permission of the class, but is not counted. -/
def linkFindPerm (st : LinkState) (destId : CString) (destClassReq : Bool) (id : CString) :
    Except CopyError (LinkState × PermDatum) := do
  let destClass ← orError .undefined (hashtabSearch st.base.pClasses.table destId)
  match destClass.findPerm id with
  | some destPerm => return (st, destPerm)
  | none =>
    require .failed (destClassReq = true)
    let newPerm : PermDatum := ⟨destClass.permissions.nprim + 1⟩
    let table ← symtabInsertOr destClass.permissions.table id newPerm
    let pClasses := st.base.pClasses.modify destId fun cladatum =>
      { cladatum with permissions := ⟨table, cladatum.permissions.nprim⟩ }
    return ({ st with base := { st.base with pClasses := pClasses } }, newPerm)

/-- `permission_copy_callback` for a class of the module and the class `destId` of the base. -/
def permissionCopyCallback (srcClass : KernelClass) (destId : CString) (destClassReq : Bool) (st : LinkState)
    (e : CString × PermDatum) : Except CopyError LinkState := do
  let found ← linkFindPerm st destId destClassReq e.1
  let permMap ← orError .undefined (mapEntry found.1.mod.permMap srcClass.value)
  let permMap ← setPermEntry permMap e.2.value found.2.value
  return { found.1 with mod := ⟨found.1.mod.map, found.1.mod.permMap.set (srcClass.value - 1) permMap⟩ }

/-- One of the four parts of `class_copy_default_new_object`. -/
def copyDefault (old new : Nat) : Except CopyError Nat :=
  if old = 0 then .ok new else if new ≠ 0 ∧ old ≠ new then .error .failed else .ok old

/-- `class_copy_default_new_object`, which changes the defaults of the class of the base. -/
def classCopyDefaultNewObject (olddatum newdatum : KernelClass) : Except CopyError (KernelClass → KernelClass) := do
  let defaultUser ← copyDefault olddatum.defaultUser newdatum.defaultUser
  let defaultRole ← copyDefault olddatum.defaultRole newdatum.defaultRole
  let defaultType ← copyDefault olddatum.defaultType newdatum.defaultType
  let defaultRange ← copyDefault olddatum.defaultRange newdatum.defaultRange
  return fun cladatum =>
    { cladatum with
      defaultUser := defaultUser
      defaultRole := defaultRole
      defaultType := defaultType
      defaultRange := defaultRange }

def emptyClass (value : Nat) : KernelClass := ⟨value, none, .empty, [], [], 0, 0, 0, 0⟩

/-- The class of the base for a class of the module, and whether it was not there. -/
def linkFindClass (st : LinkState) (id : CString) : Except CopyError (LinkState × KernelClass × Bool) :=
  match hashtabSearch st.base.pClasses.table id with
  | some newClass => .ok (st, newClass, false)
  | none => do
    let scope ← orError .failed (hashtabSearch (st.cur.scope .classes) id)
    require .failed (scope.scope ≠ .decl)
    let found ← symtabFindOrInsert st.base.pClasses id emptyClass
    return ({ st with base := { st.base with pClasses := found.1 } }, found.2, true)

def linkClassCopyCallback (st : LinkState) (e : CString × KernelClass) : Except CopyError LinkState := do
  let found ← linkFindClass st e.1
  let st ← found.1.setMap .classes e.2.value found.2.1.value
  let setDefaults ← classCopyDefaultNewObject e.2 found.2.1
  let st := { st with base := { st.base with pClasses := st.base.pClasses.modify e.1 setDefaults } }
  e.2.permissions.table.foldlM (permissionCopyCallback e.2 e.1 found.2.2) st

/-! ### Roles, types and users -/

def emptyTypeSet : LinkTypeSet := ⟨ebitmapInit, ebitmapInit, 0⟩

def newRole (flavor value : Nat) : KernelRole :=
  ⟨⟨value, ebitmapInit⟩, ebitmapInit, emptyTypeSet, 0, flavor, ebitmapInit⟩

def linkRoleCopyCallback (st : LinkState) (e : CString × KernelRole) : Except CopyError LinkState := do
  let found ← symtabFindOrInsert st.base.pRoles e.1 (newRole e.2.flavor)
  -- neither an attribute where a role was expected nor the other way round
  require .failed (e.2.flavor = 1 ↔ found.2.flavor = 1)
  let st ← { st with base := { st.base with pRoles := found.1 } }.insertDecl fun decl => do
    let pRoles ← symtabInsertDecl decl.pRoles e.1 (newRole found.2.flavor found.2.value)
    return { decl with pRoles := pRoles }
  st.setMap .roles e.2.value found.2.value

def newType (type : KernelType) (value : Nat) : KernelType :=
  ⟨⟨value, type.flavor, 0⟩, type.primary, ebitmapInit, type.flags⟩

/-- Aliases come with the value of their primary type, or with their own and that of the primary type in `primary`. -/
def KernelType.IsAlias (type : KernelType) : Prop := type.flavor = .alias ∨ type.flavor = .type ∧ type.primary = 0

instance (type : KernelType) : Decidable type.IsAlias := inferInstanceAs (Decidable (_ ∨ _))

def linkTypeCopyCallback (st : LinkState) (e : CString × KernelType) : Except CopyError LinkState :=
  -- aliases are copied later
  if e.2.IsAlias then .ok st
  else do
    let found ← symtabFindOrInsert st.base.pTypes e.1 (newType e.2)
    require .failed (e.2.flavor = .attrib ↔ found.2.flavor = .attrib)
    let pTypes := found.1.modify e.1 fun type => { type with flags := type.flags ||| e.2.flags }
    let st ← { st with base := { st.base with pTypes := pTypes } }.insertDecl fun decl => do
      let pTypes ← symtabInsertDecl decl.pTypes e.1 (newType e.2 found.2.value)
      return { decl with pTypes := pTypes }
    st.setMap .types e.2.value found.2.value

def emptyLevel : MlsSemanticLevel := ⟨0, []⟩

def newUser (value : Nat) : KernelUser where
  value := value
  cache := ebitmapInit
  expRange := ⟨⟨0, ebitmapInit⟩, ⟨0, ebitmapInit⟩⟩
  roles := ⟨ebitmapInit, 0⟩
  range := ⟨emptyLevel, emptyLevel⟩
  dfltlevel := emptyLevel
  expDfltlevel := ⟨0, ebitmapInit⟩
  bounds := 0

def linkUserCopyCallback (st : LinkState) (e : CString × KernelUser) : Except CopyError LinkState := do
  let found ← symtabFindOrInsert st.base.pUsers e.1 newUser
  let st ← { st with base := { st.base with pUsers := found.1 } }.insertDecl fun decl => do
    let pUsers ← symtabInsertDecl decl.pUsers e.1 (newUser found.2.value)
    return { decl with pUsers := pUsers }
  st.setMap .users e.2.value found.2.value

/-! ### Booleans, sensitivities and categories -/

def linkBoolCopyCallback (st : LinkState) (e : CString × KernelBool) : Except CopyError LinkState := do
  let found ← symtabFindOrInsert st.base.pBools e.1 fun value => { e.2 with value := value }
  require .failed (e.2.flags &&& condBoolFlagsTunable = found.2.flags &&& condBoolFlagsTunable)
  let scope ← orError .failed (hashtabSearch (st.cur.scope .bools) e.1)
  -- the declaration of the boolean decides
  let declare := fun boolean : KernelBool =>
    if scope.scope = .decl then { boolean with state := e.2.state, flags := e.2.flags } else boolean
  { st with base := { st.base with pBools := found.1.modify e.1 declare } }.setMap .bools e.2.value found.2.value

/-- Modules may neither declare sensitivities nor require some that the base does not have. -/
def linkSensCopyCallback (st : LinkState) (e : CString × KernelLevel) : Except CopyError LinkState := do
  let baseLevel ← orError .failed (hashtabSearch st.base.pLevels.table e.1)
  st.setMap .levels e.2.level.sens baseLevel.level.sens

def linkCatCopyCallback (st : LinkState) (e : CString × KernelCat) : Except CopyError LinkState := do
  let baseCat ← orError .failed (hashtabSearch st.base.pCats.table e.1)
  st.setMap .cats e.2.value baseCat.value

/-! ### Bounds -/

/-- `type_bounds_copy_callback`, `role_bounds_copy_callback` and `user_bounds_copy_callback` on their tables. -/
def boundsCopy {α : Type} (map : List Nat) (getBounds : α → Nat) (setBounds : Nat → α → α) (symtab : Symtab α)
    (id : CString) (bounds : Nat) : Except CopyError (Symtab α) :=
  if bounds = 0 then .ok symtab
  else do
    let boundsVal ← orError .undefined (mapEntry map bounds)
    let dest ← orError .failed (hashtabSearch symtab.table id)
    require .failed (getBounds dest = 0 ∨ getBounds dest = boundsVal)
    return symtab.modify id (setBounds boundsVal)

def linkTypeBoundsCopyCallback (st : LinkState) (e : CString × KernelType) : Except CopyError LinkState := do
  let pTypes ← boundsCopy (st.mod.map .types) (fun type : KernelType => type.bounds)
    (fun v type => { type with bounds := v }) st.base.pTypes e.1 e.2.bounds
  return { st with base := { st.base with pTypes := pTypes } }

def linkRoleBoundsCopyCallback (st : LinkState) (e : CString × KernelRole) : Except CopyError LinkState := do
  let pRoles ← boundsCopy (st.mod.map .roles) (fun role : KernelRole => role.bounds)
    (fun v role => { role with bounds := v }) st.base.pRoles e.1 e.2.bounds
  return { st with base := { st.base with pRoles := pRoles } }

def linkUserBoundsCopyCallback (st : LinkState) (e : CString × KernelUser) : Except CopyError LinkState := do
  let pUsers ← boundsCopy (st.mod.map .users) (fun user : KernelUser => user.bounds)
    (fun v user => { user with bounds := v }) st.base.pUsers e.1 e.2.bounds
  return { st with base := { st.base with pUsers := pUsers } }

/-! ### Aliases -/

/-- The value by which an alias names its primary type. -/
def KernelType.primval (type : KernelType) : Nat := if type.flavor = .alias then type.primary else type.value

/-- The type of the base that an alias of the module is for; the array of names ends with the values of the module. -/
def aliasTarget (st : LinkState) (type : KernelType) : Except CopyError (CString × KernelType) := do
  require .undefined (0 < type.primval ∧ type.primval ≤ st.cur.pTypes.nprim)
  let targetId ← orError .undefined (st.cur.typeValToName (type.primval - 1))
  let targetType ← orError .failed (hashtabSearch st.base.pTypes.table targetId)
  return (targetId, targetType)

/-- An assertion about an entry of a map. -/
def assertEntry (map : List Nat) (value v : Nat) : Except CopyError Unit := do
  let entry ← orError .undefined (mapEntry map value)
  require .aborted (entry = v)

/-- The assertions of `alias_copy_callback` about an alias that the base has already. -/
def assertAlias (map : List Nat) (type baseType : KernelType) (target : Nat) : Except CopyError Unit := do
  require .aborted (baseType.primary = target)
  assertEntry map type.primval baseType.primary
  assertEntry map type.value baseType.primary

def newAlias (flags primary value : Nat) : KernelType := ⟨⟨value, .alias, 0⟩, primary, ebitmapInit, flags⟩

/-- `alias_copy_callback` for an alias of a type of the base, with the flags that this type has now. -/
def linkAlias (st : LinkState) (e : CString × KernelType) (target flags : Nat) : Except CopyError LinkState :=
  match hashtabSearch st.base.pTypes.table e.1 with
  | none => do
    let found ← symtabFindOrInsert st.base.pTypes e.1 (newAlias flags target)
    { st with base := { st.base with pTypes := found.1 } }.setMap .types e.2.value target
  | some baseType =>
    match baseType.flavor with
    | .alias => do
      assertAlias (st.mod.map .types) e.2 baseType target
      return st
    | .attrib => .error .failed
    | .type =>
      -- it was required as a type
      let pTypes := st.base.pTypes.modify e.1 fun type =>
        { type with flavor := .alias, primary := target, flags := type.flags ||| flags }
      { st with base := { st.base with pTypes := pTypes } }.setMap .types e.2.value target

def linkAliasCopyCallback (st : LinkState) (e : CString × KernelType) : Except CopyError LinkState :=
  if ¬ e.2.IsAlias then .ok st
  else do
    let target ← aliasTarget st e.2
    require .failed (e.1 ≠ target.1)
    let flags := target.2.flags ||| e.2.flags
    let pTypes := st.base.pTypes.modify target.1 fun type => { type with flags := flags }
    linkAlias { st with base := { st.base with pTypes := pTypes } } e target.2.value flags

/-! ### Bitmaps -/

/-- `type_set_or`, as it is used by `type_set_or_eq`. -/
def typeSetOr (a b : LinkTypeSet) : LinkTypeSet :=
  ⟨ebitmapOr a.types b.types, ebitmapOr a.negset b.negset, a.flags ||| b.flags⟩

def typeSetOrConvert (types dst : LinkTypeSet) (mod : PolicyModule) : Except CopyError LinkTypeSet := do
  let tsTmp ← typeSetConvert types mod
  return typeSetOr dst tsTmp

/-- `ebitmap_convert` to a new bitmap that is united with another one. -/
def ebitmapConvertUnion (src dst : Ebitmap) (map : List Nat) : Except CopyError Ebitmap := do
  let eTmp ← ebitmapConvert src ebitmapInit map
  return ebitmapUnion dst eTmp

def linkRoleFixCallback (st : LinkState) (e : CString × KernelRole) : Except CopyError LinkState := do
  let destRole ← orError .aborted (hashtabSearch st.destTabs.pRoles.table e.1)
  let dominates ← ebitmapConvertUnion e.2.dominates destRole.dominates (st.mod.map .roles)
  let types ← typeSetOrConvert e.2.types destRole.types st.mod
  let roles ← if e.2.flavor = 1 then ebitmapConvertUnion e.2.roles destRole.roles (st.mod.map .roles)
    else .ok destRole.roles
  let pRoles := st.destTabs.pRoles.modify e.1 fun role =>
    { role with dominates := dominates, types := types, roles := roles }
  return st.setDestTabs { st.destTabs with pRoles := pRoles }

def linkTypeFixCallback (st : LinkState) (e : CString × KernelType) : Except CopyError LinkState :=
  if e.2.flavor ≠ .attrib then .ok st
  else do
    let newType ← orError .aborted (hashtabSearch st.destTabs.pTypes.table e.1)
    require .aborted (newType.flavor = .attrib)
    let types ← ebitmapConvertUnion e.2.types newType.types (st.mod.map .types)
    let pTypes := st.destTabs.pTypes.modify e.1 fun type => { type with types := types }
    return st.setDestTabs { st.destTabs with pTypes := pTypes }

/-- An entry of a map that is asserted not to be zero. -/
def requireEntry (map : List Nat) (value : Nat) : Except CopyError Nat := do
  let entry ← orError .undefined (mapEntry map value)
  require .aborted (entry ≠ 0)
  return entry

/-- The body of the loop of `mls_level_convert`; a new category goes to the front. -/
def mlsCatConvert (map : List Nat) (dst : List MlsSemanticCat) (srcCat : MlsSemanticCat) :
    Except CopyError (List MlsSemanticCat) := do
  let low ← requireEntry map srcCat.low
  let high ← requireEntry map srcCat.high
  return ⟨low, high⟩ :: dst

def mlsLevelConvert (st : LinkState) (src dst : MlsSemanticLevel) : Except CopyError MlsSemanticLevel :=
  if st.cur.mls = false ∨ src.sens = 0 then .ok dst
  else do
    let sens ← requireEntry (st.mod.map .levels) src.sens
    let cat ← src.cat.foldlM (mlsCatConvert (st.mod.map .cats)) dst.cat
    return ⟨sens, cat⟩

def mlsRangeConvert (st : LinkState) (src dst : MlsSemanticRange) : Except CopyError MlsSemanticRange := do
  let level0 ← mlsLevelConvert st src.level0 dst.level0
  let level1 ← mlsLevelConvert st src.level1 dst.level1
  return ⟨level0, level1⟩

def linkUserFixCallback (st : LinkState) (e : CString × KernelUser) : Except CopyError LinkState := do
  let newUser ← orError .aborted (hashtabSearch st.destTabs.pUsers.table e.1)
  let roles ← ebitmapConvertUnion e.2.roles.roles newUser.roles.roles (st.mod.map .roles)
  let range ← mlsRangeConvert st e.2.range newUser.range
  let dfltlevel ← mlsLevelConvert st e.2.dfltlevel newUser.dfltlevel
  let pUsers := st.destTabs.pUsers.modify e.1 fun user =>
    { user with
      roles := ⟨roles, user.roles.flags ||| e.2.roles.flags⟩
      range := range
      dfltlevel := dfltlevel }
  return st.setDestTabs { st.destTabs with pUsers := pUsers }

end Sepol
