import Sepol.AvruleBlock
import Sepol.PolicydbIndex

/-!
# The maps between types and attributes

The loop of `policydb_read` that reads `type_attr_map` and derives `attr_type_map` from it, and the parts of
`expand_module` that copy the types of a base module and make both maps of the copy.
-/

namespace Sepol

structure TypeAttrMaps where
  typeAttrMap : Nat → Ebitmap
  attrTypeMap : Nat → Ebitmap

/-- The two arrays after `calloc`. -/
def typeAttrMapsInit : TypeAttrMaps := ⟨fun _ => ebitmapInit, fun _ => ebitmapInit⟩

/-- Bit `v` is set in the bitmaps at the positions of a list. -/
def setColumn (v : Nat) : List Nat → (Nat → Ebitmap) → Option (Nat → Ebitmap)
  | [], maps => some maps
  | i :: bits, maps => do
    let e ← ebitmapSetBit (maps i) v true
    setColumn v bits (Function.update maps i e)

def setOwnBit (i : Nat) (maps : Nat → Ebitmap) : Option (Nat → Ebitmap) := setColumn i [i] maps

/-! ### Reading a kernel policy -/

/-- The part of the body of the loop of `policydb_read` that reads the bitmap of index `i`; that the bits are in range
is checked before any of them is used. -/
def typeAttrMapReadBits (p : KernelPolicydb) (i : Nat) (maps : TypeAttrMaps) (fp : List Byte) :
    Option (TypeAttrMaps × List Byte) :=
  if p.policyvers < policydbVersionAvtab then some (maps, fp)
  else do
    let (e, fp) ← ebitmapRead fp
    let bits := ebitmapPositiveBits e
    guard (bits.all fun j => decide (j = i) || decide (j < p.pTypes.nprim))
    let attrTypeMap ← setColumn i (bits.filter fun j => j ≠ i) maps.attrTypeMap
    return (⟨Function.update maps.typeAttrMap i e, attrTypeMap⟩, fp)

def setOwnIf (c : Bool) (i : Nat) (maps : Nat → Ebitmap) : Option (Nat → Ebitmap) :=
  if c then setOwnBit i maps else some maps

/-- The body of the loop of `policydb_read` for index `i`. -/
def typeAttrMapRead (p : KernelPolicydb) (i : Nat) (maps : TypeAttrMaps) (fp : List Byte) :
    Option (TypeAttrMaps × List Byte) := do
  let (maps, fp) ← typeAttrMapReadBits p i maps fp
  let typeAttrMap ← setOwnIf (p.typeValToStruct i).isSome i maps.typeAttrMap
  let attrTypeMap ← setOwnIf ((p.typeValToStruct i).any fun type => type.flavor ≠ .attrib) i maps.attrTypeMap
  return (⟨typeAttrMap, attrTypeMap⟩, fp)

/-- The loop over the indices from `i` on. -/
def typeAttrMapsRead (p : KernelPolicydb) : List Nat → TypeAttrMaps → List Byte → Option (TypeAttrMaps × List Byte)
  | [], maps, fp => some (maps, fp)
  | i :: rest, maps, fp => do
    let (maps, fp) ← typeAttrMapRead p i maps fp
    typeAttrMapsRead p rest maps fp

/-- A kernel policy whose number of types is a word. -/
structure KernelTables where
  p : KernelPolicydb
  nprim_lt : p.pTypes.nprim < 2 ^ 32

/-- `policydb_read` for a kernel policy; `readTables` reads what is between the header and the maps. -/
def policydbReadKernel (readTables : PolicydbHeader → List Byte → Option (KernelTables × List Byte))
    (fp : List Byte) :
    Option KernelPolicydb := do
  let (header, fp) ← policydbReadHeader fp
  guard (header.policyType = policyKern)
  let (tables, fp) ← readTables header fp
  let (maps, _) ← typeAttrMapsRead tables.p (List.range tables.p.pTypes.nprim) typeAttrMapsInit fp
  let p := { tables.p with typeAttrMap := maps.typeAttrMap, attrTypeMap := maps.attrTypeMap }
  guard (policydbValidate p)
  return p

/-! ### Expanding a module -/

abbrev typeFlagsPermissive : Nat := 1
abbrev typeFlagsExpandAttrTrue : Nat := 2
abbrev uint16Max : Nat := 2 ^ 16 - 1

/-- The base module: the tables of types, and the tables of types of the enabled declarations of the blocks. -/
structure ExpandBase extends LinkBase where
  enabled : Nat → Bool
  pTypes : Symtab KernelType
  declTypes : List (List (CString × KernelType))

/-- The types of the policy `out` and the map from the values of types in the base module. -/
structure ExpandTypes where
  pTypes : Symtab KernelType
  permissiveMap : Ebitmap
  typemap : Nat → Nat

variable (base : ExpandBase)

/-- `map_ebitmap`. -/
def mapEbitmap (src : Ebitmap) (map : Nat → Nat) : Option Ebitmap :=
  (ebitmapPositiveBits src).foldlM
    (fun dst i => if map i = 0 then some dst else ebitmapSetBit dst (map i - 1) true) ebitmapInit

def typeIsEnabled (id : CString) : Bool := isIdEnabled base.toLinkBase base.enabled id .types

/-- The entry of a name in a table is changed in its place. -/
def hashtabModify {α : Type} (table : List (CString × α)) (key : CString) (f : α → α) : List (CString × α) :=
  table.map fun e => if e.1 = key then (e.1, f e.2) else e

def setPermissive (flags value : Nat) (permissiveMap : Ebitmap) : Option Ebitmap :=
  if flags &&& typeFlagsPermissive ≠ 0 then ebitmapSetBit permissiveMap value true else some permissiveMap

def typeCopyCallback (st : ExpandTypes) (e : CString × KernelType) : Option ExpandTypes :=
  let type := e.2
  if (type.flavor = .type ∧ type.primary = 0) ∨ type.flavor = .alias then some st
  else if !typeIsEnabled base e.1 then some st
  else do
    let value := st.pTypes.nprim + 1
    guard (value ≤ uint16Max)
    let newType : KernelType := ⟨⟨value, type.flavor, 0⟩, 1, ebitmapInit, type.flags⟩
    let table ← (hashtabInsert st.pTypes.table e.1 newType).toOption
    let permissiveMap ← setPermissive type.flags value st.permissiveMap
    return ⟨⟨table, value⟩, permissiveMap, Function.update st.typemap (type.value - 1) value⟩

def attrConvertCallback (st : ExpandTypes) (e : CString × KernelType) : Option ExpandTypes :=
  if e.2.flavor ≠ .attrib then some st
  else if !typeIsEnabled base e.1 then some st
  else
    match hashtabSearch st.pTypes.table e.1 with
    | none => none
    | some _ => (mapEbitmap e.2.types st.typemap).map fun tmpUnion =>
      { st with pTypes.table := hashtabModify st.pTypes.table e.1 fun newType =>
          { newType with types := ebitmapUnion newType.types tmpUnion } }

def typeBoundsCopyCallback (st : ExpandTypes) (e : CString × KernelType) : Option ExpandTypes :=
  if e.2.bounds = 0 then some st
  else if !typeIsEnabled base e.1 then some st
  else
    let boundsVal := st.typemap (e.2.bounds - 1)
    match hashtabSearch st.pTypes.table e.1 with
    | none => none
    | some dest =>
      if dest.bounds ≠ 0 ∧ dest.bounds ≠ boundsVal then none
      else some { st with pTypes.table := hashtabModify st.pTypes.table e.1 fun dest =>
          { dest with bounds := boundsVal } }

/-- `alias_copy_callback`; the name of the type that an alias is for may not be `NULL`. -/
def aliasCopyCallback (st : ExpandTypes) (e : CString × KernelType) : Option ExpandTypes :=
  let datum := e.2
  if datum.flavor = .type ∧ datum.primary ≠ 0 then some st
  else if datum.flavor = .attrib then some st
  else do
    let prival := if datum.flavor = .alias then datum.primary else datum.value
    let name ← base.symValToName .types (prival - 1)
    if !typeIsEnabled base name then some st
    else do
      let value := st.typemap (prival - 1)
      let newAlias : KernelType := ⟨⟨value, .type, 0⟩, 0, ebitmapInit, datum.flags⟩
      let table ← (hashtabInsert st.pTypes.table e.1 newAlias).toOption
      let permissiveMap ← setPermissive datum.flags value st.permissiveMap
      return ⟨⟨table, st.pTypes.nprim⟩, permissiveMap, Function.update st.typemap (datum.value - 1) value⟩

/-- The parts of `expand_module` that make the table of types. -/
def expandTypes : Option ExpandTypes := do
  let st ← base.pTypes.table.foldlM (typeCopyCallback base) ⟨symtabInit, ebitmapInit, fun _ => 0⟩
  let st ← base.pTypes.table.foldlM (attrConvertCallback base) st
  let st ← base.pTypes.table.foldlM (typeBoundsCopyCallback base) st
  let st ← base.pTypes.table.foldlM (aliasCopyCallback base) st
  guard (symtabIndex (fun type : KernelType => type.primary ≠ 0) (·.value) st.pTypes).isSome
  base.declTypes.foldlM (fun st table => table.foldlM (attrConvertCallback base) st) st

/-- `type_attr_map`; the value zero, of which the code would use the bitmap at index `UINT32_MAX`, has no result. -/
def typeAttrMapCallback (maps : TypeAttrMaps) (e : CString × KernelType) : Option TypeAttrMaps :=
  let type := e.2
  let value := type.value
  if value = 0 then none
  else if type.flavor = .attrib then
    if type.flags &&& typeFlagsExpandAttrTrue = 0 then
      let attrTypeMap := Function.update maps.attrTypeMap (value - 1) (ebitmapCpy type.types)
      (setColumn (value - 1) (ebitmapPositiveBits type.types) maps.typeAttrMap).map fun typeAttrMap =>
        ⟨typeAttrMap, attrTypeMap⟩
    else
      (ebitmapSetBit (maps.typeAttrMap (value - 1)) (value - 1) false).map fun e =>
        { maps with typeAttrMap := Function.update maps.typeAttrMap (value - 1) e }
  else (setOwnBit (value - 1) maps.attrTypeMap).map fun attrTypeMap => { maps with attrTypeMap := attrTypeMap }

/-- The end of `expand_module`, with the entries of the table in the order of `hashtab_map`. -/
def expandTypeAttrMaps (nprim : Nat) (entries : List (CString × KernelType)) : Option TypeAttrMaps := do
  let typeAttrMap ← (List.range nprim).foldlM (fun maps i => setOwnBit i maps) fun _ => ebitmapInit
  entries.foldlM typeAttrMapCallback ⟨typeAttrMap, fun _ => ebitmapInit⟩

/-- `expand_module`: `order` gives the order in which `hashtab_map` visits a table, and `others` says whether the
parts that do not change types or maps succeed. -/
def expandModule (order : List (CString × KernelType) → List (CString × KernelType))
    (others : ExpandTypes → TypeAttrMaps → Bool) : Option (ExpandTypes × TypeAttrMaps) := do
  let st ← expandTypes base
  let maps ← expandTypeAttrMaps st.pTypes.nprim (order st.pTypes.table)
  guard (others st maps)
  return (st, maps)

end Sepol
