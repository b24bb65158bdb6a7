import Sepol.Scope
import Sepol.Expand

/-!
# Copying rules of a module

`copy_avrule_list` appends the rules of a module to those of the base, with the values of the base for the symbols of
the module.  The word `data` of a permission node is a permission mask in some kinds of rules and a type in others;
the code takes the mask of an extended permission rule for a type.
-/

namespace Sepol

/-- `type_set_t`. -/
structure LinkTypeSet where
  types : Ebitmap
  negset : Ebitmap
  flags : BitVec 32

/-- `avrule_t` with all that `copy_avrule_list` copies. -/
structure LinkAvrule where
  specified : BitVec 32
  flags : BitVec 32
  stypes : LinkTypeSet
  ttypes : LinkTypeSet
  perms : List ClassPermNode
  xperms : Option AvExtendedPerms
  line : Nat
  sourceFilename : Option CString
  sourceLine : Nat

/-- `policy_module_t`; `perm_map_len` is the length of the lists of `perm_map`. -/
structure PolicyModule where
  map : SymNum → List Nat
  permMap : List (List Nat)

/-- Why there is no copy: the code returns -1, an assertion fails, or an array is read outside its bounds or a shift
is too wide. -/
inductive CopyError where
  | failed
  | aborted
  | undefined
deriving DecidableEq

/-- The entry of a value in an array; the index of the value 0 wraps around to one that no array has. -/
def mapEntry {α : Type} (map : List α) (value : Nat) : Option α := if value = 0 then none else map[value - 1]?

/-! ### Sets of types -/

def ebitmapConvertBits (map : List Nat) : List Nat → Ebitmap → Except CopyError Ebitmap
  | [], dst => .ok dst
  | bit :: bits, dst =>
    match map[bit]? with
    | none => .error .undefined
    | some value =>
      if value = 0 then .error .aborted
      else
        match ebitmapSetBit dst (value - 1) true with
        | none => .error .failed
        | some dst => ebitmapConvertBits map bits dst

def ebitmapConvert (src dst : Ebitmap) (map : List Nat) : Except CopyError Ebitmap :=
  ebitmapConvertBits map (ebitmapPositiveBits src) dst

/-- `type_set_convert` to a new set. -/
def typeSetConvert (types : LinkTypeSet) (mod : PolicyModule) : Except CopyError LinkTypeSet :=
  match ebitmapConvert types.types ebitmapInit (mod.map .types) with
  | .error err => .error err
  | .ok dstTypes =>
    match ebitmapConvert types.negset ebitmapInit (mod.map .types) with
    | .error err => .error err
    | .ok dstNegset => .ok ⟨dstTypes, dstNegset, types.flags⟩

/-! ### Permission nodes -/

/-- The loop over the bits of a permission mask, from bit `i` on. -/
def copyPermBits (data : BitVec 32) : Nat → List Nat → BitVec 32 → Except CopyError (BitVec 32)
  | _, [], newData => .ok newData
  | i, value :: permMap, newData =>
    if 32 ≤ i then .error .undefined
    else if data &&& 1#32 <<< i = 0 then copyPermBits data (i + 1) permMap newData
    else if value = 0 ∨ 32 < value then .error .undefined
    else copyPermBits data (i + 1) permMap (newData ||| 1#32 <<< (value - 1))

def copyClassPerm (mod : PolicyModule) (specified : BitVec 32) (curPerm : ClassPermNode) :
    Except CopyError ClassPermNode :=
  match mapEntry (mod.map .classes) curPerm.tclass with
  | none => .error .undefined
  | some tclass =>
    if tclass = 0 then .error .aborted
    else if specified &&& avruleAv ≠ 0 then
      match mapEntry mod.permMap curPerm.tclass with
      | none => .error .undefined
      | some permMap =>
        match copyPermBits curPerm.data 0 permMap 0 with
        | .error err => .error err
        | .ok data => .ok ⟨tclass, data⟩
    else
      match mapEntry (mod.map .types) curPerm.data.toNat with
      | none => .error .undefined
      | some value => .ok ⟨tclass, BitVec.ofNat 32 value⟩

def copyClassPerms (mod : PolicyModule) (specified : BitVec 32) :
    List ClassPermNode → Except CopyError (List ClassPermNode)
  | [] => .ok []
  | curPerm :: perms =>
    match copyClassPerm mod specified curPerm with
    | .error err => .error err
    | .ok newPerm =>
      match copyClassPerms mod specified perms with
      | .error err => .error err
      | .ok newPerms => .ok (newPerm :: newPerms)

/-! ### Rules -/

def copyAvrule (mod : PolicyModule) (cur : LinkAvrule) : Except CopyError LinkAvrule :=
  match typeSetConvert cur.stypes mod with
  | .error err => .error err
  | .ok stypes =>
    match typeSetConvert cur.ttypes mod with
    | .error err => .error err
    | .ok ttypes =>
      match copyClassPerms mod cur.specified cur.perms with
      | .error err => .error err
      | .ok perms => .ok { cur with stypes := stypes, ttypes := ttypes, perms := perms }

/-- `copy_avrule_list`: each new rule goes to the end of the list `dst`. -/
def copyAvruleList (mod : PolicyModule) : List LinkAvrule → List LinkAvrule → Except CopyError (List LinkAvrule)
  | [], dst => .ok dst
  | cur :: list, dst =>
    match copyAvrule mod cur with
    | .error err => .error err
    | .ok newRule => copyAvruleList mod list (dst ++ [newRule])

/-! ### Images -/

/-- The symbols and permissions of the module have values in the base; permission maps may have holes. -/
structure PolicyModule.Complete (mod : PolicyModule) : Prop where
  types : ∀ value ∈ mod.map .types, 0 < value ∧ value ≤ 2 ^ 32 - 64
  classes : ∀ value ∈ mod.map .classes, 0 < value
  permMap_length : mod.permMap.length = (mod.map .classes).length
  perms : ∀ permMap ∈ mod.permMap, permMap.length ≤ 32 ∧ ∀ value ∈ permMap, value ≤ 32

/-- The elements of a set are types of the module. -/
structure LinkTypeSet.Of (mod : PolicyModule) (set : LinkTypeSet) : Prop where
  types_canonical : set.types.Canonical
  negset_canonical : set.negset.Canonical
  types_lt : ∀ i ∈ set.types, i < (mod.map .types).length
  negset_lt : ∀ i ∈ set.negset, i < (mod.map .types).length

/-- The data of the permission nodes are permission masks. -/
def LinkAvrule.HasPerms (rule : LinkAvrule) : Prop := rule.specified &&& (avruleAv ||| avruleXperms) ≠ 0

/-- A rule of the module: its kind is one of the access vector and extended permission rules or one of the type rules,
and all its symbols are symbols of the module. -/
structure LinkAvrule.Of (mod : PolicyModule) (rule : LinkAvrule) : Prop where
  stypes : rule.stypes.Of mod
  ttypes : rule.ttypes.Of mod
  kind : rule.HasPerms ↔ rule.specified &&& avruleType = 0
  tclass : ∀ node ∈ rule.perms, 0 < node.tclass ∧ node.tclass ≤ (mod.map .classes).length
  perms : rule.HasPerms → ∀ node ∈ rule.perms, ∀ permMap, mapEntry mod.permMap node.tclass = some permMap →
    ∀ i < 32, node.data.getLsbD i → ∃ value, permMap[i]? = some value ∧ 0 < value
  result : ¬ rule.HasPerms → ∀ node ∈ rule.perms,
    0 < node.data.toNat ∧ node.data.toNat ≤ (mod.map .types).length

/-- The set of the values, less one, that the map has for the elements of a set. -/
def SetImage (map : List Nat) (src dst : Ebitmap) : Prop := ∀ j, j ∈ dst ↔ ∃ i ∈ src, map[i]? = some (j + 1)

structure LinkTypeSet.Image (mod : PolicyModule) (src dst : LinkTypeSet) : Prop where
  types : SetImage (mod.map .types) src.types dst.types
  negset : SetImage (mod.map .types) src.negset dst.negset
  flags : dst.flags = src.flags

/-- The mask of the values, less one, that the map has for the bits of a mask. -/
def MaskImage (permMap : List Nat) (src dst : BitVec 32) : Prop :=
  ∀ j < 32, dst.getLsbD j ↔ ∃ i < 32, src.getLsbD i ∧ permMap[i]? = some (j + 1)

/-- The class is the image of the class; the data are the image of a mask or of a type. -/
structure ClassPermNode.Image (mod : PolicyModule) (hasPerms : Prop) (src dst : ClassPermNode) : Prop where
  tclass : mapEntry (mod.map .classes) src.tclass = some dst.tclass
  perms : hasPerms → ∃ permMap, mapEntry mod.permMap src.tclass = some permMap ∧ MaskImage permMap src.data dst.data
  result : ¬ hasPerms → ∃ value, mapEntry (mod.map .types) src.data.toNat = some value ∧
    dst.data = BitVec.ofNat 32 value

structure LinkAvrule.Image (mod : PolicyModule) (src dst : LinkAvrule) : Prop where
  specified : dst.specified = src.specified
  flags : dst.flags = src.flags
  stypes : src.stypes.Image mod dst.stypes
  ttypes : src.ttypes.Image mod dst.ttypes
  perms : List.Forall₂ (ClassPermNode.Image mod src.HasPerms) src.perms dst.perms
  xperms : dst.xperms = src.xperms
  source : dst.line = src.line ∧ dst.sourceFilename = src.sourceFilename ∧ dst.sourceLine = src.sourceLine

end Sepol
