import Sepol.CilConstraint
import Sepol.CilFind
import Sepol.Conditional

/-!
# Access vector and type rules of a CIL policy

The way of a rule from its resolved statement into the tables of a policy (`cil_binary.c`).  Outside a conditional
block a rule goes to `te_avtab`, where rules with the same key are merged; inside one it becomes an entry of its own
in `te_cond_avtab`, put in front of the list of the block.
-/

namespace Sepol

/-! ### Statements -/

inductive CilAvTarget where
  | datum (d : CilConsDatum)
  | self
  | notself
  | other

/-- A `cil_avrule` with class permissions. -/
structure CilPolicyAvrule where
  ruleKind : CilRuleKind
  src : CilConsDatum
  tgt : CilAvTarget
  classperms : List CilClassperms

inductive CilPermxKind where
  | ioctl
  | nlmsg
deriving DecidableEq

structure CilPermissionx where
  kind : CilPermxKind
  obj : CilClassOrMap
  perms : Ebitmap

/-- A `cil_avrule` with extended permissions. -/
structure CilPolicyAvrulex where
  ruleKind : CilRuleKind
  src : CilConsDatum
  tgt : CilAvTarget
  permx : CilPermissionx

inductive CilTypeRuleKind where
  | transition
  | change
  | member

/-- A `cil_type_rule`; its result is a type, of which only the name is read. -/
structure CilTypeRule where
  ruleKind : CilTypeRuleKind
  src : CilConsDatum
  tgt : CilAvTarget
  obj : CilClassOrMap
  result : CString

structure CilNametypetransition where
  src : CilConsDatum
  tgt : CilAvTarget
  obj : CilClassOrMap
  name : CString
  result : CString

/-- The parts of a `cil_db` that rules use. -/
structure CilBinaryDb extends CilConsDb where
  numTypes : Nat
  attrsExpandSize : Nat
  disableDontaudit : Bool
  policyVersion : Nat

structure CondBoolDatum where
  value : Nat
  state : Bool

/-- The symbols of the policy that is written; the tables that rules change are in `CilTables`.  `symtab_insert`
numbers the booleans from 1 on. -/
structure CilPolicydb extends Policydb where
  pBools : Symtab CondBoolDatum
  classValToStruct : Nat → Option ClassDatum
  boolsPos : ∀ e ∈ pBools.table, 1 ≤ e.2.value

/-- The tables that rules go to, with the lists of the conditional that is written; the entry of a list points to a
node of `te_cond_avtab`. -/
structure CilTables where
  teAvtab : Avtab
  teCondAvtab : Avtab
  trueList : List AvtabNode
  falseList : List AvtabNode

/-- The list of a flavor of blocks, `CIL_CONDTRUE` or `CIL_CONDFALSE`. -/
def CilTables.list (st : CilTables) (condFlavor : Bool) : List AvtabNode :=
  if condFlavor then st.trueList else st.falseList

/-! ### Inserting a rule -/

/-- `__cil_cond_insert_rule`. -/
def cilCondInsertRule (key : AvtabKey) (datum : AvtabDatum) (condFlavor : Bool) (st : CilTables) : Option CilTables :=
  (avtabInsertNonunique st.teCondAvtab key datum).map fun r =>
    if condFlavor then { st with teCondAvtab := r.1, trueList := r.2 :: st.trueList }
    else { st with teCondAvtab := r.1, falseList := r.2 :: st.falseList }

/-- `cil_cond_av_list_search`. -/
def cilCondAvListSearch (key : AvtabKey) (condList : List AvtabNode) : Option AvtabDatum :=
  (condList.find? fun curAv => curAv.key.sourceType = key.sourceType && curAv.key.targetType = key.targetType &&
    curAv.key.targetClass = key.targetClass && hasSpecified curAv.key.specified key.specified).map AvtabNode.datum

def CilTypeRuleKind.specified : CilTypeRuleKind → BitVec 16
  | .transition => avtabTransition
  | .change => avtabChange
  | .member => avtabMember

/-- The key of a rule between two types and a class; the values are cut to the width of the key. -/
def cilAvtabKey (src tgt obj : Nat) (specified : BitVec 16) : AvtabKey :=
  ⟨BitVec.ofNat 16 src, BitVec.ofNat 16 tgt, BitVec.ofNat 16 obj, specified⟩

/-- `__cil_insert_type_rule`; `cond` is the flavor of the block when there is a conditional node. -/
def cilInsertTypeRule (kind : CilTypeRuleKind) (src tgt obj res : Nat) (cond : Option Bool) (st : CilTables) :
    Option CilTables :=
  let key := cilAvtabKey src tgt obj kind.specified
  let datum : AvtabDatum := ⟨BitVec.ofNat 32 res, avtabExtendedPermsInit⟩
  match avtabSearch st.teAvtab key with
  | some existing => if existing.datum.data ≠ BitVec.ofNat 32 res then none else some st
  | none =>
    match cond with
    | none => (avtabInsert st.teAvtab key datum).map fun teAvtab => { st with teAvtab := teAvtab }
    | some condFlavor =>
      match avtabSearch st.teCondAvtab key with
      | none => cilCondInsertRule key datum condFlavor st
      | some existing =>
        if (cilCondAvListSearch key (st.list !condFlavor)).isNone then
          if existing.datum.data ≠ BitVec.ofNat 32 res then none
          else if (cilCondAvListSearch key (st.list condFlavor)).isSome then some st
          else cilCondInsertRule key datum condFlavor st
        else cilCondInsertRule key datum condFlavor st

/-- The specifier of an access vector rule; no other kind of rule is inserted. -/
def CilRuleKind.specified : CilRuleKind → Option (BitVec 16)
  | .allowed => some avtabAllowed
  | .auditallow => some avtabAuditallow
  | .dontaudit => some avtabAuditdeny
  | .neverallow => none

/-- `__cil_insert_avrule`. -/
def cilInsertAvrule (kind : CilRuleKind) (src tgt obj : Nat) (data : BitVec 32) (cond : Option Bool)
    (st : CilTables) :
    Option CilTables := do
  let specified ← kind.specified
  let key := cilAvtabKey src tgt obj specified
  let datum : AvtabDatum := ⟨data, avtabExtendedPermsInit⟩
  match cond with
  | some condFlavor => cilCondInsertRule key datum condFlavor st
  | none =>
    match avtabSearch st.teAvtab key with
    | none => (avtabInsert st.teAvtab key datum).map fun teAvtab => { st with teAvtab := teAvtab }
    | some _ =>
      some { st with teAvtab := avtabModify st.teAvtab key fun dup =>
        { dup with data := if kind = .dontaudit then dup.data &&& data else dup.data ||| data } }

/-! ### The types of a rule -/

/-- `__cil_should_expand_attribute`. -/
def cilShouldExpandAttribute (db : CilBinaryDb) : CilConsDatum → Bool
  | .value _ => false
  | .attr _ keep members _ => !keep || ebitmapCardinality members < db.attrsExpandSize

/-- The names of the types of a datum, from its lowest bit on. -/
def cilTypeNames (db : CilBinaryDb) (d : CilConsDatum) : Option (List CString) :=
  (cilExpandDatum d).map fun bitmap => (ebitmapPositiveBits bitmap).map db.valToType

/-- The names that a datum stands for in a rule: its own, unless it is an attribute that is expanded. -/
def cilRuleNames (db : CilBinaryDb) (d : CilConsDatum) : Option (List CString) :=
  if cilShouldExpandAttribute db d then cilTypeNames db d else some [db.fqn .type d]

/-- The sources and targets that `__cil_avrule_to_avtab` and `cil_avrulex_to_hashtable` go through, in their order. -/
def cilAvrulePairs (db : CilBinaryDb) (src : CilConsDatum) : CilAvTarget → Option (List (CString × CString))
  | .self => do
    let bitmap ← cilExpandDatum src
    return (ebitmapPositiveBits bitmap).map fun s => (db.valToType s, db.valToType s)
  | .notself => do
    let bitmap ← cilExpandDatum src
    return (ebitmapPositiveBits bitmap).flatMap fun s =>
      ((List.range db.numTypes).filter fun t => s ≠ t).map fun t => (db.valToType s, db.valToType t)
  | .other => do
    let bitmap ← cilExpandDatum src
    return (ebitmapPositiveBits bitmap).flatMap fun s =>
      ((ebitmapPositiveBits bitmap).filter fun t => s ≠ t).map fun t => (db.valToType s, db.valToType t)
  | .datum tgt => do
    let srcs ← cilRuleNames db src
    let tgts ← cilRuleNames db tgt
    return srcs.flatMap fun s => tgts.map fun t => (s, t)

/-! ### Access vector rules -/

/-- `__cil_avrule_expand_helper`: no rule is inserted when there are no permissions. -/
def cilAvruleExpandHelper (p : Policydb) (db : CilBinaryDb) (kind : CilRuleKind) (src tgt : CString) (cls : CilClass)
    (perms : List CilPerm) (cond : Option Bool) (st : CilTables) : Option CilTables := do
  let sepolClass ← hashtabSearch p.pClasses.table (db.classFqn cls)
  let data ← cilPermsToDatum perms sepolClass
  if data = 0 then return st
  else
    let data := if kind = .dontaudit then ~~~data else data
    let sepolSrc ← cilGetSepolValue p .type src
    let sepolTgt ← cilGetSepolValue p .type tgt
    cilInsertAvrule kind sepolSrc sepolTgt sepolClass.value data cond st

mutual

/-- `__cil_avrule_expand`. -/
def cilAvruleExpand (p : Policydb) (db : CilBinaryDb) (kind : CilRuleKind) (src tgt : CString) (cond : Option Bool) :
    List CilClassperms → CilTables → Option CilTables
  | [], st => some st
  | curr :: rest, st => do
    let st ← cilAvruleExpandItem p db kind src tgt cond curr st
    cilAvruleExpand p db kind src tgt cond rest st

def cilAvruleExpandItem (p : Policydb) (db : CilBinaryDb) (kind : CilRuleKind) (src tgt : CString)
    (cond : Option Bool) : CilClassperms → CilTables → Option CilTables
  | .classperms _ cls _ perms, st => cilAvruleExpandHelper p db kind src tgt cls perms cond st
  | .mapClassperms _ _ _ perms, st => cilAvruleExpandMap p db kind src tgt cond perms st
  | .classpermsSet _ set, st => cilAvruleExpand p db kind src tgt cond set st

def cilAvruleExpandMap (p : Policydb) (db : CilBinaryDb) (kind : CilRuleKind) (src tgt : CString)
    (cond : Option Bool) : List CilMapPerm → CilTables → Option CilTables
  | [], st => some st
  | .mk _ classperms :: rest, st => do
    let st ← cilAvruleExpand p db kind src tgt cond classperms st
    cilAvruleExpandMap p db kind src tgt cond rest st

end

/-- `__cil_avrule_to_avtab`. -/
def cilAvruleToAvtab (p : Policydb) (db : CilBinaryDb) (rule : CilPolicyAvrule) (cond : Option Bool)
    (st : CilTables) : Option CilTables :=
  if rule.ruleKind = .dontaudit ∧ db.disableDontaudit then some st
  else do
    let pairs ← cilAvrulePairs db rule.src rule.tgt
    pairs.foldlM (fun st pair => cilAvruleExpand p db rule.ruleKind pair.1 pair.2 cond rule.classperms st) st

/-! ### Type rules -/

/-- `__cil_type_rule_to_avtab_helper`. -/
def cilTypeRuleToAvtabHelper (p : Policydb) (db : CilBinaryDb) (kind : CilTypeRuleKind) (src tgt : Nat)
    (classList : List CilClass) (result : Nat) (cond : Option Bool) (st : CilTables) : Option CilTables :=
  classList.foldlM (fun st c => do
    let sepolObj ← hashtabSearch p.pClasses.table (db.classFqn c)
    cilInsertTypeRule kind src tgt sepolObj.value result cond st) st

/-- The targets that `__cil_type_rule_to_avtab` goes through for a source; a type rule has no other special target. -/
def cilTypeRuleTargets (db : CilBinaryDb) : CilAvTarget → Option (CString → List CString)
  | .self => some fun s => [s]
  | .datum tgt => (cilTypeNames db tgt).map fun tgts _ => tgts
  | .notself | .other => none

/-- `__cil_type_rule_to_avtab`. -/
def cilTypeRuleToAvtab (p : Policydb) (db : CilBinaryDb) (rule : CilTypeRule) (cond : Option Bool) (st : CilTables) :
    Option CilTables := do
  let srcs ← cilTypeNames db rule.src
  let result ← cilGetSepolValue p .type rule.result
  let targets ← cilTypeRuleTargets db rule.tgt
  srcs.foldlM (fun st s => do
    let sepolSrc ← cilGetSepolValue p .type s
    (targets s).foldlM (fun st t => do
      let sepolTgt ← cilGetSepolValue p .type t
      cilTypeRuleToAvtabHelper p db rule.ruleKind sepolSrc sepolTgt (cilExpandClass rule.obj) result cond st) st) st

abbrev cilKeyStar : CString := ['*']

/-- The part of `__cil_typetransition_to_avtab` for a transition without a file name. -/
def cilTypetransitionToAvtab (p : Policydb) (db : CilBinaryDb) (typetrans : CilNametypetransition)
    (cond : Option Bool) (st : CilTables) : Option CilTables :=
  cilTypeRuleToAvtab p db ⟨.transition, typetrans.src, typetrans.tgt, typetrans.obj, typetrans.result⟩ cond st

/-! ### Extended permissions -/

/-- The value that `__avrule_xperm_setrangebits` adds to word `i`. -/
def xpermRangeWord (low high i : Nat) : BitVec 32 :=
  let setbits (x : Nat) : BitVec 32 := 1#32 <<< (x &&& 0x1f) - 1
  if low ≤ i <<< 5 ∧ high ≥ ((i + 1) <<< 5) - 1 then ~~~0
  else if low ≤ i <<< 5 ∧ high < ((i + 1) <<< 5) - 1 then setbits (high + 1)
  else if low > i <<< 5 ∧ high ≥ ((i + 1) <<< 5) - 1 then ~~~0 - setbits low
  else setbits (high + 1) - setbits low

/-- `__avrule_xperm_setrangebits`. -/
def avruleXpermSetrangebits (low high : BitVec 16) (xperms : AvtabExtendedPerms) : AvtabExtendedPerms :=
  { xperms with perms := fun i =>
      if low.toNat >>> 5 ≤ i ∧ i ≤ high.toNat >>> 5 then xperms.perms i ||| xpermRangeWord low.toNat high.toNat i
      else xperms.perms i }

/-- The variables of `__cil_permx_bitmap_to_sepol_xperms_list`; `part` is its `partial`. -/
structure CilXpermsState where
  low : BitVec 16
  startNewRange : Bool
  part : Option AvtabExtendedPerms
  complete : Option AvtabExtendedPerms
  xpermsList : List AvtabExtendedPerms

/-- The end of a range of bits: it is added to `complete` or to `part`. -/
def cilXpermsRange (kind : CilPermxKind) (low high : BitVec 16) (s : CilXpermsState) : CilXpermsState :=
  let driver : BitVec 8 := (low >>> 8).setWidth 8
  if kind = .ioctl ∧ low &&& 0xff = 0 ∧ high &&& 0xff = 0xff then
    let complete := s.complete.getD ⟨avtabXpermsIoctldriver, 0, fun _ => 0⟩
    { s with complete := some (avruleXpermSetrangebits (low >>> 8) (low >>> 8) complete) }
  else
    let specified := if kind = .ioctl then avtabXpermsIoctlfunction else avtabXpermsNlmsg
    let s := match s.part with
      | some part => if part.driver ≠ driver then { s with xpermsList := s.xpermsList ++ [part], part := none } else s
      | none => s
    let part := s.part.getD ⟨specified, driver, fun _ => 0⟩
    { s with part := some (avruleXpermSetrangebits (low &&& 0xff) (high &&& 0xff) part) }

/-- The loop body of `__cil_permx_bitmap_to_sepol_xperms_list`. -/
def cilXpermsStep (kind : CilPermxKind) (xperms : Ebitmap) (s : CilXpermsState) (i : Nat) : CilXpermsState :=
  let s := if s.startNewRange then { s with low := BitVec.ofNat 16 i, startNewRange := false } else s
  if i &&& 0xff ≠ 0xff ∧ ebitmapGetBit xperms (i + 1) then s
  else cilXpermsRange kind s.low (BitVec.ofNat 16 i) { s with startNewRange := true }

/-- `__cil_permx_bitmap_to_sepol_xperms_list`. -/
def cilPermxBitmapToSepolXpermsList (kind : CilPermxKind) (xperms : Ebitmap) : List AvtabExtendedPerms :=
  let s := (ebitmapPositiveBits xperms).foldl (cilXpermsStep kind xperms) ⟨0, true, none, none, []⟩
  s.xpermsList ++ s.part.toList ++ s.complete.toList

def CilPermxKind.str : CilPermxKind → CString
  | .ioctl => "ioctl".toList
  | .nlmsg => "nlmsg".toList

/-- `__cil_avrulex_xperm_to_policydb`. -/
def cilAvrulexXpermToPolicydb (p : CilPolicydb) (kind : CilPermxKind) (cond : Option Bool) (st : CilTables)
    (entry : AvtabKey × Ebitmap) : Option CilTables := do
  let sepolObj ← p.classValToStruct (entry.1.targetClass.toNat - 1)
  let data ← permStrToDatum kind.str sepolObj 0
  (cilPermxBitmapToSepolXpermsList kind entry.2).foldlM (fun st xperms =>
    match cond with
    | some condFlavor => cilCondInsertRule entry.1 ⟨data, xperms⟩ condFlavor st
    | none => (avtabInsert st.teAvtab entry.1 ⟨data, xperms⟩).map fun teAvtab => { st with teAvtab := teAvtab }) st

/-- `avrulex_hash`. -/
def avrulexHash (key : AvtabKey) : Nat :=
  let hash := avtabHashMix 0 (key.targetClass.setWidth 32)
  let hash := avtabHashMix hash (key.targetType.setWidth 32)
  let hash := avtabHashMix hash (key.sourceType.setWidth 32)
  let hash := avtabHashMix hash (key.specified.setWidth 32)
  let hash := hash ^^^ (hash >>> 16)
  let hash := hash * 0x85ebca6b
  let hash := hash ^^^ (hash >>> 13)
  let hash := hash * 0xc2b2ae35
  let hash := hash ^^^ (hash >>> 16)
  (hash &&& 1023).toNat

/-- `avrulex_hash`, which does not read the number of chains, and `avrulex_compare`, which never is negative. -/
def avrulexOps : HashtabOps AvtabKey where
  hashValue := fun _ key => avrulexHash key
  keycmp := fun a b => if a = b then .eq else .gt

/-- `cil_args_xperm_tables`. -/
structure CilXpermTables where
  ioctl : Hashtab AvtabKey Ebitmap
  nlmsg : Hashtab AvtabKey Ebitmap

def cilXpermTablesCreate : CilXpermTables := ⟨.create 1024, .create 1024⟩

def CilRuleKind.xpermSpecified : CilRuleKind → Option (BitVec 16)
  | .allowed => some avtabXpermsAllowed
  | .auditallow => some avtabXpermsAuditallow
  | .dontaudit => some avtabXpermsDontaudit
  | .neverallow => none

/-- The union into the datum that `hashtab_search` found for the key. -/
def hashtabUnion (h : Hashtab AvtabKey Ebitmap) (key : AvtabKey) (xperms : Ebitmap) : Hashtab AvtabKey Ebitmap :=
  let hvalue := avrulexOps.hashValue h.size key
  let chain := (h.htable hvalue).map fun e => if e.1 = key then (e.1, ebitmapUnion e.2 xperms) else e
  { h with htable := Function.update h.htable hvalue chain }

/-- `__cil_avrulex_xperm_to_hashtable`, with memory for every allocation. -/
def cilAvrulexXpermToHashtable (h : Hashtab AvtabKey Ebitmap) (kind : CilRuleKind) (src tgt obj : Nat)
    (xperms : Ebitmap) : Option (Hashtab AvtabKey Ebitmap) := do
  let specified ← kind.xpermSpecified
  let key := cilAvtabKey src tgt obj specified
  match h.search avrulexOps key with
  | some _ => return hashtabUnion h key xperms
  | none =>
    let r := h.insert avrulexOps key (ebitmapCpy xperms) true true
    if r.1 = .ok then return r.2 else none

/-- `__cil_avrulex_to_hashtable_helper`. -/
def cilAvrulexToHashtableHelper (p : Policydb) (db : CilBinaryDb) (kind : CilRuleKind) (src tgt : CString)
    (permx : CilPermissionx) (xt : CilXpermTables) : Option CilXpermTables := do
  let sepolSrc ← cilGetSepolValue p .type src
  let sepolTgt ← cilGetSepolValue p .type tgt
  (cilExpandClass permx.obj).foldlM (fun xt c => do
    let sepolObj ← hashtabSearch p.pClasses.table (db.classFqn c)
    match permx.kind with
    | .ioctl => do
      let h ← cilAvrulexXpermToHashtable xt.ioctl kind sepolSrc sepolTgt sepolObj.value permx.perms
      return { xt with ioctl := h }
    | .nlmsg => do
      let h ← cilAvrulexXpermToHashtable xt.nlmsg kind sepolSrc sepolTgt sepolObj.value permx.perms
      return { xt with nlmsg := h }) xt

/-- `cil_avrulex_to_hashtable`. -/
def cilAvrulexToHashtable (p : Policydb) (db : CilBinaryDb) (rule : CilPolicyAvrulex) (xt : CilXpermTables) :
    Option CilXpermTables :=
  if rule.ruleKind = .dontaudit ∧ db.disableDontaudit then some xt
  else do
    let pairs ← cilAvrulePairs db rule.src rule.tgt
    pairs.foldlM (fun xt pair => cilAvrulexToHashtableHelper p db rule.ruleKind pair.1 pair.2 rule.permx xt) xt

/-- The two calls of `hashtab_map` that write what was collected. -/
def cilXpermTablesToPolicydb (p : CilPolicydb) (cond : Option Bool) (xt : CilXpermTables) (st : CilTables) :
    Option CilTables := do
  let st ← xt.ioctl.entries.foldlM (cilAvrulexXpermToPolicydb p .ioctl cond) st
  xt.nlmsg.entries.foldlM (cilAvrulexXpermToPolicydb p .nlmsg cond) st

end Sepol

/-!
## An access vector rule as a list of insertions

What a rule inserts does not depend on the tables: the loops over types, class permissions, maps and sets only make a
list of calls of `__cil_insert_avrule`.
-/

namespace Sepol

/-- The arguments of a call of `__cil_insert_avrule`. -/
structure CilAvInsert where
  src : Nat
  tgt : Nat
  obj : Nat
  data : BitVec 32

/-- The insertions one after another. -/
def cilAvInserts (kind : CilRuleKind) (cond : Option Bool) (l : List CilAvInsert) (st : CilTables) :
    Option CilTables :=
  l.foldlM (fun st i => cilInsertAvrule kind i.src i.tgt i.obj i.data cond st) st

/-- The call that `__cil_avrule_expand_helper` makes, if any. -/
def cilHelperInserts (p : Policydb) (db : CilBinaryDb) (kind : CilRuleKind) (src tgt : CString) (cls : CilClass)
    (perms : List CilPerm) : Option (List CilAvInsert) := do
  let sepolClass ← hashtabSearch p.pClasses.table (db.classFqn cls)
  let data ← cilPermsToDatum perms sepolClass
  if data = 0 then return []
  else
    let sepolSrc ← cilGetSepolValue p .type src
    let sepolTgt ← cilGetSepolValue p .type tgt
    return [⟨sepolSrc, sepolTgt, sepolClass.value, if kind = .dontaudit then ~~~data else data⟩]

mutual

/-- The calls for a list of class permissions. -/
def cilExpandInserts (p : Policydb) (db : CilBinaryDb) (kind : CilRuleKind) (src tgt : CString) :
    List CilClassperms → Option (List CilAvInsert)
  | [] => some []
  | curr :: rest => do
    let l ← cilExpandItemInserts p db kind src tgt curr
    let next ← cilExpandInserts p db kind src tgt rest
    return l ++ next

def cilExpandItemInserts (p : Policydb) (db : CilBinaryDb) (kind : CilRuleKind) (src tgt : CString) :
    CilClassperms → Option (List CilAvInsert)
  | .classperms _ cls _ perms => cilHelperInserts p db kind src tgt cls perms
  | .mapClassperms _ _ _ perms => cilExpandMapInserts p db kind src tgt perms
  | .classpermsSet _ set => cilExpandInserts p db kind src tgt set

def cilExpandMapInserts (p : Policydb) (db : CilBinaryDb) (kind : CilRuleKind) (src tgt : CString) :
    List CilMapPerm → Option (List CilAvInsert)
  | [] => some []
  | .mk _ classperms :: rest => do
    let l ← cilExpandInserts p db kind src tgt classperms
    let next ← cilExpandMapInserts p db kind src tgt rest
    return l ++ next

end

/-- The calls for pairs of types. -/
def cilPairsInserts (p : Policydb) (db : CilBinaryDb) (rule : CilPolicyAvrule) :
    List (CString × CString) → Option (List CilAvInsert)
  | [] => some []
  | pair :: rest => do
    let l ← cilExpandInserts p db rule.ruleKind pair.1 pair.2 rule.classperms
    let next ← cilPairsInserts p db rule rest
    return l ++ next

/-- The calls for a rule. -/
def cilAvruleInserts (p : Policydb) (db : CilBinaryDb) (rule : CilPolicyAvrule) : Option (List CilAvInsert) :=
  if rule.ruleKind = .dontaudit ∧ db.disableDontaudit then some []
  else (cilAvrulePairs db rule.src rule.tgt).bind (cilPairsInserts p db rule)

variable {p : Policydb} {db : CilBinaryDb} {kind : CilRuleKind} {src tgt : CString} {cond : Option Bool}

private theorem cilAvInserts_append (l l' : List CilAvInsert) (st : CilTables) :
    cilAvInserts kind cond (l ++ l') st = (cilAvInserts kind cond l st).bind (cilAvInserts kind cond l') :=
  List.foldlM_append

private theorem bind_cilAvInserts (o o' : Option (List CilAvInsert)) (st : CilTables) :
    ((o.bind fun l => cilAvInserts kind cond l st).bind fun st => o'.bind fun l => cilAvInserts kind cond l st) =
      (o.bind fun l => o'.bind fun next => some (l ++ next)).bind fun l => cilAvInserts kind cond l st := by
  cases o with
  | none => rfl
  | some l =>
    cases o' with
    | none =>
      show ((cilAvInserts kind cond l st).bind fun _ => none) = none
      cases cilAvInserts kind cond l st <;> rfl
    | some l' => exact (cilAvInserts_append l l' st).symm

private theorem cilAvruleExpandHelper_eq (cls : CilClass) (perms : List CilPerm) (st : CilTables) :
    cilAvruleExpandHelper p db kind src tgt cls perms cond st =
      (cilHelperInserts p db kind src tgt cls perms).bind fun l => cilAvInserts kind cond l st := by
  unfold cilAvruleExpandHelper cilHelperInserts
  simp only [Option.bind_eq_bind, Option.bind_assoc]
  refine Option.bind_congr fun sepolClass _ => Option.bind_congr fun data _ => ?_
  split
  · rfl
  · simp only [Option.bind_assoc]
    refine Option.bind_congr fun sepolSrc _ => Option.bind_congr fun sepolTgt _ => ?_
    show _ = cilAvInserts kind cond [_] st
    unfold cilAvInserts
    rw [List.foldlM_cons]
    cases cilInsertAvrule kind sepolSrc sepolTgt sepolClass.value
      (if kind = .dontaudit then ~~~data else data) cond st
    · rfl
    · rfl

private theorem cilAvruleExpand_eq (classperms : List CilClassperms) (st : CilTables) :
    cilAvruleExpand p db kind src tgt cond classperms st =
      (cilExpandInserts p db kind src tgt classperms).bind fun l => cilAvInserts kind cond l st := by
  refine (CilClassperms.listInduction
    (P := fun cps => ∀ st, cilAvruleExpand p db kind src tgt cond cps st =
      (cilExpandInserts p db kind src tgt cps).bind fun l => cilAvInserts kind cond l st)
    (Q := fun perms => ∀ st, cilAvruleExpandMap p db kind src tgt cond perms st =
      (cilExpandMapInserts p db kind src tgt perms).bind fun l => cilAvInserts kind cond l st)
    ?nil ?classperms ?mapClassperms ?classpermsSet ?mapNil ?mapCons).1 classperms st
  case nil => exact fun st => rfl
  case classperms =>
    intro _ cls _ perms rest hrest st
    show ((cilAvruleExpandHelper p db kind src tgt cls perms cond st).bind
      (cilAvruleExpand p db kind src tgt cond rest)) = _
    rw [cilAvruleExpandHelper_eq, funext hrest]
    exact bind_cilAvInserts _ _ st
  case mapClassperms =>
    intro _ cls _ perms rest hperms hrest st
    show ((cilAvruleExpandMap p db kind src tgt cond perms st).bind
      (cilAvruleExpand p db kind src tgt cond rest)) = _
    rw [hperms, funext hrest]
    exact bind_cilAvInserts _ _ st
  case classpermsSet =>
    intro _ set rest hset hrest st
    show ((cilAvruleExpand p db kind src tgt cond set st).bind
      (cilAvruleExpand p db kind src tgt cond rest)) = _
    rw [hset, funext hrest]
    exact bind_cilAvInserts _ _ st
  case mapNil => exact fun st => rfl
  case mapCons =>
    intro fqn cps rest hcps hrest st
    show ((cilAvruleExpand p db kind src tgt cond cps st).bind
      (cilAvruleExpandMap p db kind src tgt cond rest)) = _
    rw [hcps, funext hrest]
    exact bind_cilAvInserts _ _ st

/-- A rule makes its calls. -/
theorem cilAvruleToAvtab_eq (rule : CilPolicyAvrule) (st : CilTables) :
    cilAvruleToAvtab p db rule cond st =
      (cilAvruleInserts p db rule).bind fun l => cilAvInserts rule.ruleKind cond l st := by
  unfold cilAvruleToAvtab cilAvruleInserts
  split
  · rfl
  · show Option.bind _ _ = _
    rw [Option.bind_assoc]
    refine Option.bind_congr fun pairs hpairs => ?_
    clear hpairs
    induction pairs generalizing st with
    | nil => rfl
    | cons pair pairs ih =>
      rw [List.foldlM_cons]
      show ((cilAvruleExpand p db rule.ruleKind pair.1 pair.2 cond rule.classperms st).bind fun st =>
        pairs.foldlM (fun st pair => cilAvruleExpand p db rule.ruleKind pair.1 pair.2 cond rule.classperms st) st) = _
      rw [cilAvruleExpand_eq, funext ih]
      exact bind_cilAvInserts _ _ st

private theorem cilInsertAvrule_none_cond {s t o : Nat} {data : BitVec 32} {st st' : CilTables}
    (h : cilInsertAvrule kind s t o data none st = some st') : st'.teCondAvtab = st.teCondAvtab := by
  unfold cilInsertAvrule at h
  obtain ⟨specified, _, h⟩ := Option.bind_eq_some_iff.1 h
  dsimp only at h
  split at h
  · obtain ⟨teAvtab, _, rfl⟩ := Option.map_eq_some_iff.1 h
    rfl
  · obtain rfl := Option.some.inj h
    rfl

private theorem cilAvInserts_none_cond {l : List CilAvInsert} {st st' : CilTables}
    (h : cilAvInserts kind none l st = some st') : st'.teCondAvtab = st.teCondAvtab := by
  unfold cilAvInserts at h
  induction l generalizing st with
  | nil =>
    obtain rfl := Option.some.inj h
    rfl
  | cons i l ih =>
    rw [List.foldlM_cons] at h
    obtain ⟨st1, h1, h⟩ := Option.bind_eq_some_iff.1 h
    rw [ih h, cilInsertAvrule_none_cond h1]

theorem cilAvruleToAvtab_none_cond {rule : CilPolicyAvrule} {st st' : CilTables}
    (h : cilAvruleToAvtab p db rule none st = some st') : st'.teCondAvtab = st.teCondAvtab := by
  rw [cilAvruleToAvtab_eq] at h
  obtain ⟨l, _, h⟩ := Option.bind_eq_some_iff.1 h
  exact cilAvInserts_none_cond h

end Sepol
