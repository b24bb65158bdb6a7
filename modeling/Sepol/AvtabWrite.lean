import Sepol.AvtabExpand

/-!
# Writing an access vector table

`avtab_write_item` in both formats and `avtab_write`.  The marks `merged` of the nodes are a function of their
address, and a file is the list of the bytes that are put into it; the target platform of the policy is a parameter.
-/

namespace Sepol

abbrev avtabEnabledOld : BitVec 32 := 0x80000000

abbrev policydbVersionCondXperms : Nat := 34
abbrev modPolicydbVersionCondXperms : Nat := 22
abbrev sepolTargetSelinux : Nat := 0

/-- `spec_order` of the writer. -/
def writeSpecOrder : List (BitVec 16) :=
  [avtabAllowed, avtabAuditdeny, avtabAuditallow, avtabTransition, avtabChange, avtabMember]

/-- The marks of the nodes, and the count that `nel` points to unless it is the null pointer. -/
structure AvtabWriteState where
  merged : Nat → Bool
  nel : Option (BitVec 32)

/-- A word of 32 bits has a bit of a specifier. -/
def wordHas (val : BitVec 32) (specified : BitVec 16) : Bool := val &&& specified.setWidth 32 ≠ 0

/-- What a node adds to the word of specifiers. -/
def specWord (n : AvtabNode) : BitVec 32 :=
  let val := (n.key.specified &&& ~~~avtabEnabled).setWidth 32
  if hasSpecified n.key.specified avtabEnabled then val ||| avtabEnabledOld else val

/-- The loop over `spec_order` in `avtab_write_item`; `next` is the chain behind `cur`. -/
def avtabWriteSpecs (cur : AvtabNode) (next : List AvtabNode) (val : BitVec 32) :
    List (BitVec 16) → Int → AvtabWriteState → Option (List Byte × Int × AvtabWriteState)
  | [], set, st => some ([], set, st)
  | spec :: specs, set, st =>
    if wordHas val spec then
      let r : Option AvtabNode × AvtabWriteState :=
        if hasSpecified cur.key.specified spec then (some cur, st)
        else ((avtabSearchNodeNext (cur :: next) spec).head?, { st with nel := st.nel.map fun nel => nel - 1 })
      match r with
      | (none, _) => none
      | (some node, st) =>
        (avtabWriteSpecs cur next val specs (set - 1)
          { st with merged := Function.update st.merged node.addr true }).map fun (bytes, set, st) =>
            (cpuToLe32 node.datum.data.toNat ++ bytes, set, st)
    else avtabWriteSpecs cur next val specs set st

/-- The similar entries with the key of a node that `avtab_write_item` merges, without the node itself. -/
def avtabWriteSimilar (cur : AvtabNode) (next : List AvtabNode) (merge : Bool) : Option (List AvtabNode) :=
  if !merge then some []
  else if wordHas (specWord cur) avtabAv then
    some (avtabForEachNode avtabAv next.length (avtabSearchNodeNext (cur :: next) avtabAv))
  else if wordHas (specWord cur) avtabType then
    some (avtabForEachNode avtabType next.length (avtabSearchNodeNext (cur :: next) avtabType))
  else none

/-- The data of a record, with what is left of `set`. -/
def avtabWriteData (cur : AvtabNode) (next : List AvtabNode) (merge : Bool) (val : BitVec 32) (set : Int)
    (st : AvtabWriteState) : Option (List Byte × Int × AvtabWriteState) :=
  if merge then avtabWriteSpecs cur next val writeSpecOrder set st
  else
    some (cpuToLe32 cur.datum.data.toNat, set - 1, { st with merged := Function.update st.merged cur.addr true })

/-- `avtab_write_item` for kernel policies before `POLICYDB_VERSION_AVTAB`; `next` is the chain behind `cur`. -/
def avtabWriteItemOld (cur : AvtabNode) (next : List AvtabNode) (merge commit : Bool) (st : AvtabWriteState) :
    Option (List Byte × AvtabWriteState) :=
  if merge && st.merged cur.addr then some ([], st)
  else do
    let nodes ← avtabWriteSimilar cur next merge
    let val := nodes.foldl (fun val node => val ||| specWord node) (specWord cur)
    guard (wordHas val (avtabAv ||| avtabType))
    guard (¬ (wordHas val avtabAv ∧ wordHas val avtabType))
    let (data, set, st) ← avtabWriteData cur next merge val (1 + nodes.length) st
    guard (set = 0)
    let words := cpuToLe32 cur.key.sourceType.toNat ++ cpuToLe32 cur.key.targetType.toNat ++
      cpuToLe32 cur.key.targetClass.toNat ++ cpuToLe32 val.toNat ++ data
    return (if commit then cpuToLe32 (words.length / 4) ++ words else [], st)

/-- The loop of `avtab_write` over a chain in the old format. -/
def avtabWriteChain (commit : Bool) : List AvtabNode → AvtabWriteState → Option (List Byte × AvtabWriteState)
  | [], st => some ([], st)
  | cur :: next, st =>
    match avtabWriteItemOld cur next true commit st with
    | none => none
    | some (item, st) => (avtabWriteChain commit next st).map fun (items, st) => (item ++ items, st)

/-- The loop of `avtab_write` over the slots in the old format. -/
def avtabWriteSlots (commit : Bool) (a : Avtab) : List Nat → AvtabWriteState → Option (List Byte × AvtabWriteState)
  | [], st => some ([], st)
  | i :: is, st =>
    match avtabWriteChain commit (a.htable i) st with
    | none => none
    | some (items, st) => (avtabWriteSlots commit a is st).map fun (rest, st) => (items ++ rest, st)

/-- `avtab_write` for kernel policies before `POLICYDB_VERSION_AVTAB`. -/
def avtabWriteOld (p : Policydb) (a : Avtab) : Option (List Byte) := do
  let expa ← expandAvtab p a
  let (_, st) ← avtabWriteSlots false expa (List.range expa.nslot) ⟨fun _ => false, some expa.nel⟩
  let (items, _) ← avtabWriteSlots true expa (List.range expa.nslot) ⟨fun _ => false, none⟩
  return cpuToLe32 (st.nel.getD 0).toNat ++ items

/-- `policydb_has_cond_xperms_feature`. -/
def policydbHasCondXpermsFeature (p : Policydb) : Bool :=
  p.policyType = policyKern && p.policyvers ≥ policydbVersionCondXperms ||
    p.policyType ≠ policyKern && p.policyvers ≥ modPolicydbVersionCondXperms

/-- `avtab_write_item` for the other policies. -/
def avtabWriteItemNew (p : Policydb) (targetPlatform : Nat) (cur : AvtabNode) (conditional : Bool) :
    Option (List Byte) :=
  let xperms := hasSpecified cur.key.specified avtabXperms
  if p.policyvers < policydbVersionXpermsIoctl && xperms then none
  else if !policydbHasCondXpermsFeature p && xperms && conditional then none
  else if targetPlatform ≠ sepolTargetSelinux && xperms then none
  else
    some (cpuToLe16 cur.key.sourceType.toNat ++ cpuToLe16 cur.key.targetType.toNat ++
      cpuToLe16 cur.key.targetClass.toNat ++ cpuToLe16 cur.key.specified.toNat ++
      if xperms then
        [cur.datum.xperms.specified, cur.datum.xperms.driver] ++
          (List.finRange extendedPermsLen).flatMap fun i => cpuToLe32 (cur.datum.xperms.perms i).toNat
      else cpuToLe32 cur.datum.data.toNat)

/-- `avtab_write`. -/
def avtabWrite (p : Policydb) (targetPlatform : Nat) (a : Avtab) : Option (List Byte) :=
  if p.policyType = policyKern ∧ p.policyvers < policydbVersionAvtab then avtabWriteOld p a
  else
    ((avtabNodes a).mapM fun cur => avtabWriteItemNew p targetPlatform cur false).map fun items =>
      cpuToLe32 a.nel.toNat ++ items.flatten

end Sepol
