import Sepol.Assertion
import Sepol.AvtabRead
import Sepol.AvtabUpdate

/-!
# Expanding rules

The functions of `expand.c` that put the rules of the base module into the tables of the output: `find_avtab_node`,
`expand_terule_helper`, `expand_avrule_helper` and `expand_rule_helper`.  A `cond_av_list_t **` is a name of type `γ`
for a list of a conditional; `none` is the null pointer, which stands for the unconditional table.
-/

namespace Sepol

abbrev avruleAllowed : BitVec 32 := 0x0001
abbrev avruleAuditallow : BitVec 32 := 0x0002
abbrev avruleAuditdeny : BitVec 32 := 0x0004
abbrev avruleDontaudit : BitVec 32 := 0x0008
abbrev avruleAv : BitVec 32 :=
  avruleAllowed ||| avruleAuditallow ||| avruleAuditdeny ||| avruleDontaudit ||| avruleNeverallow
abbrev avruleTransition : BitVec 32 := 0x0010
abbrev avruleMember : BitVec 32 := 0x0020
abbrev avruleChange : BitVec 32 := 0x0040
abbrev avruleType : BitVec 32 := avruleTransition ||| avruleMember ||| avruleChange
abbrev avruleXpermsAllowed : BitVec 32 := 0x0100
abbrev avruleXpermsAuditallow : BitVec 32 := 0x0200
abbrev avruleXpermsDontaudit : BitVec 32 := 0x0400
abbrev avruleXperms : BitVec 32 :=
  avruleXpermsAllowed ||| avruleXpermsAuditallow ||| avruleXpermsDontaudit ||| avruleXpermsNeverallow

abbrev expandRuleSuccess : Int := 1
abbrev expandRuleConflict : Int := 0
abbrev expandRuleError : Int := -1

/-- The fields of the `avrule_t` that `expand_rule_helper` reads as `source_rule`; `xperms` may be the null pointer.
-/
structure SourceRule where
  specified : BitVec 32
  self : Bool
  perms : List ClassPermNode
  xperms : Option AvExtendedPerms

/-- The rule tables of the output: `parseContext` belongs to the nodes of `te_cond_avtab`, and `condLists` holds the
lists of the conditionals. -/
structure ExpandTables (γ : Type) where
  teAvtab : Avtab
  teCondAvtab : Avtab
  parseContext : Nat → Option γ
  condLists : γ → List Nat

variable {γ : Type} [DecidableEq γ]

/-- The table that the rules of a list go to. -/
def ExpandTables.table (st : ExpandTables γ) : Option γ → Avtab
  | none => st.teAvtab
  | some _ => st.teCondAvtab

/-- A write to a node of the table of a list. -/
def ExpandTables.updateNode (st : ExpandTables γ) (cond : Option γ) (addr : Nat) (f : AvtabNode → AvtabNode) :
    ExpandTables γ :=
  match cond with
  | none => { st with teAvtab := avtabUpdateNode st.teAvtab addr f }
  | some _ => { st with teCondAvtab := avtabUpdateNode st.teCondAvtab addr f }

/-! ### Finding a node -/

def sameXperms (xperms : AvExtendedPerms) (n : AvtabNode) : Bool :=
  n.datum.xperms.specified = xperms.specified && n.datum.xperms.driver = xperms.driver

/-- The searches of `find_avtab_node`: the nodes from the one that is found on.  The second loop goes on where the
first one stopped, and looks at the owner of a node only. -/
def findExisting (st : ExpandTables γ) (key : AvtabKey) (cond : Option γ) (xperms : Option AvExtendedPerms) :
    List AvtabNode :=
  let node := avtabSearchNodes (st.table cond) key
  let node :=
    if hasSpecified key.specified avtabXperms then
      match xperms with
      | none => []
      | some xperms => node.dropWhile fun n => !sameXperms xperms n
    else node
  match cond with
  | none => node
  | some c => node.dropWhile fun n => st.parseContext n.addr ≠ some c

/-- `find_avtab_node`: the tables and the address of the node. -/
def findAvtabNode (st : ExpandTables γ) (key : AvtabKey) (cond : Option γ) (xperms : Option AvExtendedPerms) :
    Option (ExpandTables γ × Nat) :=
  match findExisting st key cond xperms with
  | node :: _ => some (st, node.addr)
  | [] =>
    let data : BitVec 32 := if key.specified = avtabAuditdeny then BitVec.allOnes 32 else 0
    match avtabInsertNonunique (st.table cond) key ⟨data, avtabExtendedPermsInit⟩, cond with
    | none, _ => none
    | some (tab, node), none => some ({ st with teAvtab := tab }, node.addr)
    | some (tab, node), some c =>
      some ({ st with
        teCondAvtab := tab
        parseContext := Function.update st.parseContext node.addr (some c)
        condLists := Function.update st.condLists c (node.addr :: st.condLists c) }, node.addr)

def avruleToAvtabSpec (specification : BitVec 32) : BitVec 16 :=
  if specification = avruleDontaudit then avtabAuditdeny else specification.setWidth 16

/-- The key of a rule for two types and a class. -/
def expandKey (specified : BitVec 32) (stype ttype : Nat) (cur : ClassPermNode) : AvtabKey :=
  ⟨BitVec.ofNat 16 (stype + 1), BitVec.ofNat 16 (ttype + 1), BitVec.ofNat 16 cur.tclass, avruleToAvtabSpec specified⟩

/-! ### Type rules -/

/-- The data and the owner of the entry that `expand_terule_helper` takes for a conflicting one: an unconditional one,
or the first one in the table of the conditionals unless it belongs to the list `other`. -/
def expandTeruleConflict (st : ExpandTables γ) (other : Option γ) (key : AvtabKey) :
    Option (BitVec 32 × Option γ) :=
  match avtabSearch st.teAvtab key with
  | some node => some (node.datum.data, none)
  | none =>
    match avtabSearch st.teCondAvtab key with
    | some node =>
      if st.parseContext node.addr ≠ other then some (node.datum.data, st.parseContext node.addr) else none
    | none => none

/-- The check of `expand_terule_helper`, with the return code when it returns. -/
def expandTeruleCheck (st : ExpandTables γ) (cond other : Option γ) (key : AvtabKey) (data : BitVec 32) :
    Option Int :=
  match expandTeruleConflict st other key with
  | none => none
  | some (oldtype, owner) =>
    if oldtype = data then
      -- a duplicate inside the same scope is ignored
      if owner = cond then some expandRuleSuccess else some expandRuleConflict
    else some expandRuleConflict

/-- The new type of a class, mapped to the types of the output. -/
def remapData (typemap : Option (Nat → BitVec 32)) (cur : ClassPermNode) : BitVec 32 :=
  match typemap with
  | some typemap => typemap (cur.data.toNat - 1)
  | none => cur.data

/-- The loop of `expand_terule_helper` over the classes. -/
def expandTerulePerms (typemap : Option (Nat → BitVec 32)) (specified : BitVec 32) (cond other : Option γ)
    (stype ttype : Nat) (enabled : Bool) : List ClassPermNode → ExpandTables γ → Int × ExpandTables γ
  | [], st => (expandRuleSuccess, st)
  | cur :: next, st =>
    let remappedData := remapData typemap cur
    let key := expandKey specified stype ttype cur
    match expandTeruleCheck st cond other key remappedData with
    | some ret => (ret, st)
    | none =>
      match findAvtabNode st key cond none with
      | none => (expandRuleError, st)
      | some (st, addr) =>
        expandTerulePerms typemap specified cond other stype ttype enabled next
          (st.updateNode cond addr fun n => n.write enabled fun d => { d with data := remappedData })

/-- `expand_terule_helper`. -/
def expandTeruleHelper (typemap : Option (Nat → BitVec 32)) (specified : BitVec 32) (cond other : Option γ)
    (stype ttype : Nat) (perms : List ClassPermNode) (enabled : Bool) (st : ExpandTables γ) :
    Int × ExpandTables γ :=
  if specified &&& avruleType = 0 then (expandRuleError, st)
  else expandTerulePerms typemap specified cond other stype ttype enabled perms st

/-! ### Access vector rules -/

/-- `allocate_xperms`, as a change of the datum. -/
def allocateXperms (extendedPerms : AvExtendedPerms) : Option (AvtabDatum → AvtabDatum) :=
  let specified : Option (BitVec 8) :=
    if extendedPerms.specified = avruleXpermsIoctlfunction then some avtabXpermsIoctlfunction
    else if extendedPerms.specified = avruleXpermsIoctldriver then some avtabXpermsIoctldriver
    else if extendedPerms.specified = avruleXpermsNlmsg then some avtabXpermsNlmsg
    else none
  specified.map fun specified d =>
    { d with xperms := ⟨specified, extendedPerms.driver, fun i => d.xperms.perms i ||| extendedPerms.perms i⟩ }

/-- The switch of `expand_avrule_helper`, as a change of the datum. -/
def expandAvruleDatum (specified data : BitVec 32) (xperms : Option AvExtendedPerms) :
    Option (AvtabDatum → AvtabDatum) :=
  if specified = avruleAllowed ∨ specified = avruleAuditallow ∨ specified = avruleNeverallow then
    some fun d => { d with data := d.data ||| data }
  else if specified = avruleDontaudit then some fun d => { d with data := d.data &&& ~~~data }
  else if specified = avruleAuditdeny then some fun d => { d with data := d.data &&& data }
  else if specified = avruleXpermsAllowed ∨ specified = avruleXpermsAuditallow ∨ specified = avruleXpermsDontaudit ∨
      specified = avruleXpermsNeverallow then xperms.bind allocateXperms
  else none

/-- `expand_avrule_helper` for one class; `none` stands for `EXPAND_RULE_ERROR`. -/
def expandAvrulePerm (specified : BitVec 32) (cond : Option γ) (stype ttype : Nat) (enabled : Bool)
    (xperms : Option AvExtendedPerms) (cur : ClassPermNode) (st : ExpandTables γ) : Option (ExpandTables γ) :=
  match findAvtabNode st (expandKey specified stype ttype cur) cond xperms with
  | none => none
  | some (st, addr) =>
    (expandAvruleDatum specified cur.data xperms).map fun f =>
      st.updateNode cond addr fun n => n.write enabled f

/-- The loop of `expand_avrule_helper` over the classes. -/
def expandAvrulePerms (specified : BitVec 32) (cond : Option γ) (stype ttype : Nat) (enabled : Bool)
    (xperms : Option AvExtendedPerms) : List ClassPermNode → ExpandTables γ → Option (ExpandTables γ)
  | [], st => some st
  | cur :: next, st =>
    match expandAvrulePerm specified cond stype ttype enabled xperms cur st with
    | none => none
    | some st => expandAvrulePerms specified cond stype ttype enabled xperms next st

/-- `expand_avrule_helper`; `disableDontaudit` is the setting of the handle. -/
def expandAvruleHelper (disableDontaudit : Bool) (specified : BitVec 32) (cond : Option γ) (stype ttype : Nat)
    (perms : List ClassPermNode) (enabled : Bool) (xperms : Option AvExtendedPerms) (st : ExpandTables γ) :
    Option (ExpandTables γ) :=
  if specified &&& (avruleDontaudit ||| avruleXpermsDontaudit) ≠ 0 ∧ disableDontaudit then some st
  else expandAvrulePerms specified cond stype ttype enabled xperms perms st

/-! ### Rules -/

/-- The pairs of types that `expand_rule_helper` visits, those of `self` first for every source type. -/
def expandRulePairs (rule : SourceRule) (stypes ttypes : Ebitmap) : List (Nat × Nat) :=
  (ebitmapPositiveBits stypes).flatMap fun i =>
    (if rule.self then [(i, i)] else []) ++ (ebitmapPositiveBits ttypes).map fun j => (i, j)

/-- The loops of `expand_rule_helper` over the pairs. -/
def expandRuleLoop (disableDontaudit : Bool) (typemap : Option (Nat → BitVec 32)) (rule : SourceRule)
    (cond other : Option γ) (enabled : Bool) : List (Nat × Nat) → ExpandTables γ → Int × ExpandTables γ
  | [], st => (expandRuleSuccess, st)
  | (i, j) :: pairs, st =>
    let r :=
      if rule.specified &&& (avruleAv ||| avruleXperms) ≠ 0 then
        match expandAvruleHelper disableDontaudit rule.specified cond i j rule.perms enabled rule.xperms st with
        | none => (expandRuleError, st)
        | some st => (expandRuleSuccess, st)
      else expandTeruleHelper typemap rule.specified cond other i j rule.perms enabled st
    if r.1 ≠ expandRuleSuccess then r
    else expandRuleLoop disableDontaudit typemap rule cond other enabled pairs r.2

/-- `expand_rule_helper`. -/
def expandRuleHelper (disableDontaudit : Bool) (typemap : Option (Nat → BitVec 32)) (rule : SourceRule)
    (cond other : Option γ) (enabled : Bool) (stypes ttypes : Ebitmap) (st : ExpandTables γ) :
    Int × ExpandTables γ :=
  expandRuleLoop disableDontaudit typemap rule cond other enabled (expandRulePairs rule stypes ttypes) st

/-- The empty tables of an output, for `nrules` rules each. -/
def expandInit (nrules : Nat) : ExpandTables γ := ⟨avtabAlloc nrules, avtabAlloc nrules, fun _ => none, fun _ => []⟩

end Sepol
