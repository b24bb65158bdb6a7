import Sepol.Policydb

/-!
# Type bounds

The check of `hierarchy.c` that a type has no permissions that its bounding type, the parent, does not have.  The
permissions of the parent are expanded to a table for the unconditional rules and two tables for each conditional; the
rules of the child are then compared with these tables.  A result `none` stands for an error or for the use of a
`NULL` pointer.
-/

namespace Sepol

/-- `BOUNDS_AVTAB_SIZE`. -/
abbrev boundsAvtabSize : Nat := 1024

/-- `avtab_init`. -/
def avtabInit : Avtab := avtabAlloc 0

/-- The datum of a rule of the expanded tables, in which `xperms` is not set. -/
def boundsDatum (data : BitVec 32) : AvtabDatum := ⟨data, ⟨0, 0, fun _ => 0⟩⟩

/-! ### The permissions of the parent -/

/-- What `bounds_insert_rule` does with both tables: a search for the key, and an insertion of the permissions as a
rule or into the rule that is found. -/
def boundsInsertData (avtab : Avtab) (key : AvtabKey) (data : BitVec 32) : Option Avtab :=
  match avtabSearch avtab key with
  | none => avtabInsert avtab key (boundsDatum data)
  | some _ => some (avtabModify avtab key fun d => { d with data := d.data ||| data })

/-- `bounds_insert_rule` on the tables `avtab` and `global`; the second one is used only if there is a table `other`.
-/
def boundsInsertRule (other : Option Avtab) (key : AvtabKey) (data : BitVec 32) (tabs : Avtab × Avtab) :
    Option (Avtab × Avtab) := do
  let avtab ← boundsInsertData tabs.1 key data
  match other.bind (avtabSearch · key) with
  | none => return (avtab, tabs.2)
  | some dup =>
    let data := dup.datum.data &&& data
    if data = 0 then return (avtab, tabs.2)
    let global ← boundsInsertData tabs.2 key data
    return (avtab, global)

/-- The key for a source, a target and a class in the expanded tables. -/
def boundsKey (source target : Nat) (tclass : BitVec 16) : AvtabKey :=
  ⟨BitVec.ofNat 16 source, BitVec.ofNat 16 target, tclass, avtabAllowed⟩

def boundsExpandRule (p : Policydb) (other : Option Avtab) (parent : Nat) (k : AvtabKey) (data : BitVec 32)
    (tabs : Avtab × Avtab) : Option (Avtab × Avtab) :=
  if ebitmapGetBit (p.attrTypeMap (k.sourceType.toNat - 1)) (parent - 1) then
    (ebitmapPositiveBits (p.attrTypeMap (k.targetType.toNat - 1))).foldlM
      (fun tabs i => boundsInsertRule other (boundsKey parent (i + 1) k.targetClass) data tabs) tabs
  else some tabs

def boundsExpandCondRules (p : Policydb) (cur : List Nat) (other : Option Avtab) (parent : Nat)
    (tabs : Avtab × Avtab) : Option (Avtab × Avtab) :=
  cur.foldlM (fun tabs addr => do
    let n ← condNodeAt p addr
    boundsExpandRule p other parent n.key n.datum.data tabs) tabs

/-- What `avtab_insert` returns for a key that is in the table. -/
abbrev sepolEexist : Int := -17

def boundsExpandRuleCallback (p : Policydb) (parent : Nat) (k : AvtabKey) (d : AvtabDatum) (avtab : Avtab) :
    Int × Avtab :=
  if !hasSpecified k.specified avtabAllowed then (0, avtab)
  else
    match boundsExpandRule p none parent k d.data (avtab, avtabInit) with
    | none => (sepolEexist, avtab)
    | some tabs => (0, tabs.1)

structure BoundsCondInfo where
  trueAvtab : Avtab
  falseAvtab : Avtab
  condList : CondNode

/-- The table for a list of a conditional, which is not allocated if the list is empty. -/
def boundsAvtab (list : List Nat) : Avtab := if list.isEmpty then avtabInit else avtabAlloc boundsAvtabSize

/-- The body of the loop of `bounds_expand_parent_rules`; a list is pushed on `cond_info` from the front. -/
def boundsExpandCond (p : Policydb) (parent : Nat) (state : Avtab × List BoundsCondInfo) (cur : CondNode) :
    Option (Avtab × List BoundsCondInfo) := do
  let (trueAvtab, _) ← boundsExpandCondRules p cur.trueList none parent (boundsAvtab cur.trueList, avtabInit)
  let (falseAvtab, globalAvtab) ←
    boundsExpandCondRules p cur.falseList (some trueAvtab) parent (boundsAvtab cur.falseList, state.1)
  return (globalAvtab, ⟨trueAvtab, falseAvtab, cur⟩ :: state.2)

def boundsExpandParentRules (p : Policydb) (parent : Nat) : Option (Avtab × List BoundsCondInfo) :=
  let (rc, globalAvtab) := avtabMap p.teAvtab (boundsExpandRuleCallback p parent) (avtabAlloc boundsAvtabSize)
  if rc ≠ 0 then none else p.condList.foldlM (boundsExpandCond p parent) (globalAvtab, [])

/-! ### The permissions of the child -/

/-- The data without those of the rule that a search finds. -/
def boundsClear (avtab : Avtab) (key : AvtabKey) (data : BitVec 32) : BitVec 32 :=
  match avtabSearch avtab key with
  | some n => data &&& ~~~n.datum.data
  | none => data

def boundsNotCovered (globalAvtab : Option Avtab) (curAvtab : Avtab) (key : AvtabKey) (data : BitVec 32) :
    BitVec 32 :=
  let data := boundsClear curAvtab key data
  match globalAvtab with
  | some globalAvtab => if data ≠ 0 then boundsClear globalAvtab key data else data
  | none => data

/-- What the check changes of its arguments. -/
structure BoundsCheckArgs where
  bad : List AvtabNode
  numbad : Int

/-- `bounds_add_bad`, with the position in the list as the address. -/
def boundsAddBad (src tgt : Nat) (tclass : BitVec 16) (data : BitVec 32) (bad : List AvtabNode) : List AvtabNode :=
  ⟨⟨BitVec.ofNat 16 src, BitVec.ofNat 16 tgt, tclass, 0⟩, boundsDatum data, bad.length⟩ :: bad

/-- The target for which the parent needs the permissions that the child has for the type with index `i`. -/
def boundsTarget (p : Policydb) (i : Nat) : Nat :=
  match p.typeValToStruct i with
  | some td => if td.bounds ≠ 0 then td.bounds else i + 1
  | none => i + 1

def boundsCheckRule (p : Policydb) (globalAvtab : Option Avtab) (curAvtab : Avtab) (child parent : Nat) (k : AvtabKey)
    (data : BitVec 32) (args : BoundsCheckArgs) : BoundsCheckArgs :=
  if ebitmapGetBit (p.attrTypeMap (k.sourceType.toNat - 1)) (child - 1) then
    (ebitmapPositiveBits (p.attrTypeMap (k.targetType.toNat - 1))).foldl (fun args i =>
      let d := boundsNotCovered globalAvtab curAvtab (boundsKey parent (boundsTarget p i) k.targetClass) data
      if d ≠ 0 then ⟨boundsAddBad child (i + 1) k.targetClass d args.bad, args.numbad + 1⟩ else args) args
  else args

def boundsCheckCondRules (p : Policydb) (globalAvtab condAvtab : Avtab) (rules : List Nat) (child parent : Nat)
    (args : BoundsCheckArgs) : Option BoundsCheckArgs :=
  rules.foldlM (fun args addr => do
    let n ← condNodeAt p addr
    if !hasSpecified n.key.specified avtabAllowed then return args
    return boundsCheckRule p (some globalAvtab) condAvtab child parent n.key n.datum.data args) args

def boundsCheckRuleCallback (p : Policydb) (curAvtab : Avtab) (child parent : Nat) (k : AvtabKey) (d : AvtabDatum)
    (args : BoundsCheckArgs) : Int × BoundsCheckArgs :=
  if !hasSpecified k.specified avtabAllowed then (0, args)
  else (0, boundsCheckRule p none curAvtab child parent k d.data args)

/-- `bounds_check_child_rules`: the list `bad` that it sets, and `numbad`. -/
def boundsCheckChildRules (p : Policydb) (globalAvtab : Avtab) (condInfo : List BoundsCondInfo) (child parent : Nat)
    (numbad : Int) : Option (List AvtabNode × Int) := do
  let (rc, args) := avtabMap p.teAvtab (boundsCheckRuleCallback p globalAvtab child parent) ⟨[], 0⟩
  if rc ≠ 0 then none
  else
    let args ← condInfo.foldlM (fun args cur => do
      let args ← boundsCheckCondRules p globalAvtab cur.trueAvtab cur.condList.trueList child parent args
      boundsCheckCondRules p globalAvtab cur.falseAvtab cur.condList.falseList child parent args) args
    return (args.bad, numbad + args.numbad)

def boundsCheckType (p : Policydb) (child parent : Nat) (numbad : Int) : Option (List AvtabNode × Int) := do
  let (globalAvtab, condInfo) ← boundsExpandParentRules p parent
  boundsCheckChildRules p globalAvtab condInfo child parent numbad

end Sepol
