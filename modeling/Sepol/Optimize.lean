import Sepol.Policydb

/-!
# Policy optimization

The functions of `optimize.c`, which remove from the tables the rules that are covered by more general ones.  What the
code changes in place, the data of the entries and the tables, is passed on here.  An entry is identified by its
address; a list of a conditional is the list of the addresses of its nodes.  A result `none` stands for the return of
-1 or for the use of a `NULL` pointer.
-/

namespace Sepol

/-- The binary search of `type_vec_contains` between the positions `s` and `e`; every step makes the range smaller. -/
def typeVecSearch (v : List Nat) (type : Nat) : Nat → Nat → Nat → Bool
  | 0, _, _ => false
  | fuel + 1, s, e =>
    if s = e then false
    else
      let mid := (s + e) / 2
      if v[mid]? = some type then true
      else if v[mid]?.getD 0 < type then typeVecSearch v type fuel (mid + 1) e
      else typeVecSearch v type fuel s mid

def typeVecContains (v : List Nat) (type : Nat) : Bool := typeVecSearch v type (v.length + 1) 0 v.length

def isAttrib (d : Option TypeDatum) : Bool :=
  match d with
  | some d => d.flavor = .attrib
  | none => false

/-- `build_type_map`: for a type its attributes, for an attribute all attributes with at least its types. -/
def buildTypeMap (p : Policydb) (i : Nat) : List Nat :=
  if i < p.pTypes.nprim then
    match p.typeValToStruct i with
    | none => []
    | some d =>
      if d.flavor ≠ .attrib then ebitmapPositiveBits (p.typeAttrMap i)
      else (List.range p.pTypes.nprim).filter fun k =>
        isAttrib (p.typeValToStruct k) && ebitmapContains (p.attrTypeMap k) (p.attrTypeMap i)
  else []

/-! ### Covering one rule by another -/

def processXperms (p1 p2 : Fin extendedPermsLen → BitVec 32) : Bool × (Fin extendedPermsLen → BitVec 32) :=
  let p1 := fun i => p1 i &&& ~~~p2 i
  ((List.finRange extendedPermsLen).all fun i => p1 i = 0, p1)

/-- `process_avtab_datum`, with the datum that is left. -/
def processAvtabDatum (specified : BitVec 16) (d1 d2 : AvtabDatum) : Bool × AvtabDatum :=
  if hasSpecified specified avtabAuditdeny then
    let data := d1.data ||| ~~~d2.data
    (data = 0xFFFFFFFF, { d1 with data := data })
  else if hasSpecified specified avtabAv then
    let data := d1.data &&& ~~~d2.data
    (data = 0, { d1 with data := data })
  else if hasSpecified specified avtabXperms then
    let x1 := d1.xperms
    let x2 := d2.xperms
    let perms := processXperms x1.perms x2.perms
    let processed := (perms.1, { d1 with xperms := { x1 with perms := perms.2 } })
    if x1.specified = avtabXpermsIoctlfunction then
      if x2.specified = avtabXpermsIoctlfunction then if x1.driver ≠ x2.driver then (false, d1) else processed
      else if x2.specified = avtabXpermsIoctldriver then (xpermTest x1.driver x2.perms, d1)
      else (false, d1)
    else if x1.specified = avtabXpermsIoctldriver then
      if x2.specified = avtabXpermsIoctlfunction then (false, d1)
      else if x2.specified = avtabXpermsIoctldriver then processed
      else (false, d1)
    else if x1.specified = avtabXpermsNlmsg && x2.specified = avtabXpermsNlmsg then
      if x1.driver ≠ x2.driver then (false, d1) else processed
    else (false, d1)
  else (false, d1)

/-- The loops of `is_avrule_redundant` over the pairs of types; `search` looks a key up in the table, in which the
entry has its current datum. -/
def avruleRedundantLoop (key : AvtabKey) (search : AvtabDatum → AvtabKey → Option AvtabNode) (notCond : Bool) :
    List (Nat × Nat) → AvtabDatum → Bool × AvtabDatum
  | [], d1 => (false, d1)
  | (st, tt) :: rest, d1 =>
    if notCond && key.sourceType.toNat - 1 = st && key.targetType.toNat - 1 = tt then
      avruleRedundantLoop key search notCond rest d1
    else
      match search d1 { key with sourceType := BitVec.ofNat 16 (st + 1), targetType := BitVec.ofNat 16 (tt + 1) } with
      | none => avruleRedundantLoop key search notCond rest d1
      | some d2 =>
        let r := processAvtabDatum key.specified d1 d2.datum
        if r.1 then r else avruleRedundantLoop key search notCond rest r.2

def isAvruleRedundant (entry : AvtabNode) (search : AvtabDatum → AvtabKey → Option AvtabNode)
    (typeMap : Nat → List Nat) (notCond : Bool) : Bool × AvtabDatum :=
  if !hasSpecified entry.key.specified (avtabAv ||| avtabXperms) then (false, entry.datum)
  else
    avruleRedundantLoop entry.key search notCond
      (typeMap (entry.key.sourceType.toNat - 1) ×ˢ typeMap (entry.key.targetType.toNat - 1)) entry.datum

def isTypeAttr (p : Policydb) (id : Nat) : Option Bool := (p.typeValToStruct id).map fun d => d.flavor = .attrib

def isAvruleWithAttr (entry : AvtabNode) (p : Policydb) : Option Bool := do
  let src ← isTypeAttr p (entry.key.sourceType.toNat - 1)
  if src then return true
  isTypeAttr p (entry.key.targetType.toNat - 1)

/-- The table with another datum for the entry with an address. -/
def avtabSetDatum (tab : Avtab) (addr : Nat) (d : AvtabDatum) : Avtab :=
  { tab with htable := fun i => (tab.htable i).map fun n => if n.addr = addr then { n with datum := d } else n }

/-- The loop of `is_cond_rule_redundant` over a list. -/
def condRuleRedundantLoop (key : AvtabKey) (tab : Avtab) (typeMap : Nat → List Nat) :
    List Nat → AvtabDatum → Option (Bool × AvtabDatum)
  | [], d1 => some (false, d1)
  | addr :: rest, d1 => do
    let e2 ← avtabNodeAt tab addr
    let s1 := key.sourceType.toNat - 1
    let t1 := key.targetType.toNat - 1
    let s2 := e2.key.sourceType.toNat - 1
    let t2 := e2.key.targetType.toNat - 1
    if key.specified ≠ e2.key.specified || key.targetClass ≠ e2.key.targetClass then
      condRuleRedundantLoop key tab typeMap rest d1
    else if s1 = s2 && t1 = t2 then condRuleRedundantLoop key tab typeMap rest d1
    else if !typeVecContains (typeMap s1) s2 then condRuleRedundantLoop key tab typeMap rest d1
    else if !typeVecContains (typeMap t1) t2 then condRuleRedundantLoop key tab typeMap rest d1
    else
      let r := processAvtabDatum key.specified d1 e2.datum
      if r.1 then return r else condRuleRedundantLoop key tab typeMap rest r.2

def isCondRuleRedundant (e1 : AvtabNode) (list : List Nat) (tab : Avtab) (typeMap : Nat → List Nat) :
    Option (Bool × AvtabDatum) :=
  if !hasSpecified e1.key.specified (avtabAv ||| avtabXperms) then some (false, e1.datum)
  else condRuleRedundantLoop e1.key tab typeMap list e1.datum

/-! ### The unconditional rules -/

/-- The loop of `optimize_avtab` over a chain; `done` is the part before `cur` that is left. -/
def optimizeChain (i : Nat) (typeMap : Nat → List Nat) : Avtab → List AvtabNode → List AvtabNode → Avtab
  | tab, done, [] => avtabSetChain tab i done
  | tab, done, cur :: next =>
    let search := fun d key => avtabSearch (avtabSetChain tab i (done ++ { cur with datum := d } :: next)) key
    let r := isAvruleRedundant cur search typeMap true
    if r.1 then optimizeChain i typeMap { tab with nel := tab.nel - 1 } done next
    else optimizeChain i typeMap tab (done ++ [{ cur with datum := r.2 }]) next

def optimizeAvtab (tab : Avtab) (typeMap : Nat → List Nat) : Avtab :=
  (List.range tab.nslot).foldl (fun tab i => optimizeChain i typeMap tab [] (tab.htable i)) tab

/-! ### The conditional rules -/

/-- The first loop of `optimize_cond_av_list`: the rules without an attribute, and those with one in reverse order. -/
def separateCond (p : Policydb) (tab : Avtab) : List Nat → List Nat → Option (List Nat × List Nat)
  | [], pcov => some ([], pcov)
  | addr :: rest, pcov => do
    let node ← avtabNodeAt tab addr
    let attr ← isAvruleWithAttr node p
    if attr then separateCond p tab rest (addr :: pcov)
    else
      let r ← separateCond p tab rest pcov
      return (addr :: r.1, r.2)

/-- The list `*pcov_cur`: it is `pcov`, or from `pcov` on what is behind position `pcovCur` of the whole list. -/
def pcovList (pcov : List Nat) (pcovCur : Option Nat) (list : List Nat) : List Nat :=
  match pcovCur with
  | none => pcov
  | some k => list.drop k

/-- The second loop of `optimize_cond_av_list`, with the rules before `cond` in `done`. -/
def optimizeCondLoop (teAvtab : Avtab) (typeMap : Nat → List Nat) (pcov : List Nat) :
    List Nat → Option Nat → List Nat → List Nat → Avtab → Option (List Nat × List Nat × Avtab)
  | done, _, [], del, tab => some (done, del, tab)
  | done, pcovCur, addr :: rest, del, tab => do
    let pcovCur := if pcov.head? = some addr then some done.length else pcovCur
    let list := pcovList pcov pcovCur (done ++ addr :: rest)
    let node ← avtabNodeAt tab addr
    let r := isAvruleRedundant node (fun _ key => avtabSearch teAvtab key) typeMap false
    if r.1 then optimizeCondLoop teAvtab typeMap pcov done pcovCur rest (addr :: del) (avtabSetDatum tab addr r.2)
    else
      let r ← isCondRuleRedundant { node with datum := r.2 } list tab typeMap
      if r.1 then optimizeCondLoop teAvtab typeMap pcov done pcovCur rest (addr :: del) (avtabSetDatum tab addr r.2)
      else optimizeCondLoop teAvtab typeMap pcov (done ++ [addr]) pcovCur rest del (avtabSetDatum tab addr r.2)

/-- `optimize_cond_av_list`: the list that is left, the list `del` and the table. -/
def optimizeCondAvList (p : Policydb) (typeMap : Nat → List Nat) (cond : List Nat) (del : List Nat) (tab : Avtab) :
    Option (List Nat × List Nat × Avtab) := do
  let (plain, pcov) ← separateCond p tab cond []
  optimizeCondLoop p.teAvtab typeMap pcov [] none (plain ++ pcov) del tab

/-- The loop of `optimize_cond_avtab` over the conditionals. -/
def optimizeCondList (p : Policydb) (typeMap : Nat → List Nat) :
    List CondNode → List Nat → Avtab → Option (List CondNode × List Nat × Avtab)
  | [], del, tab => some ([], del, tab)
  | cond :: rest, del, tab => do
    let (trueList, del, tab) ← optimizeCondAvList p typeMap cond.trueList del tab
    let (falseList, del, tab) ← optimizeCondAvList p typeMap cond.falseList del tab
    let (condList, del, tab) ← optimizeCondList p typeMap rest del tab
    if trueList.isEmpty && falseList.isEmpty then return (condList, del, tab)
    return ({ cond with trueList := trueList, falseList := falseList } :: condList, del, tab)

/-- The removal of the rules of `del` from a chain, with what is left of `del` and the number of removed rules. -/
def deleteFromChain : List AvtabNode → List Nat → List AvtabNode × List Nat × Nat
  | [], del => ([], del, 0)
  | cur :: next, del =>
    if cur.addr ∈ del then
      let r := deleteFromChain next (del.erase cur.addr)
      (r.1, r.2.1, r.2.2 + 1)
    else
      let r := deleteFromChain next del
      (cur :: r.1, r.2)

def deleteFromAvtab (tab : Avtab) (del : List Nat) : Avtab :=
  ((List.range tab.nslot).foldl (fun s i =>
    let r := deleteFromChain (s.1.htable i) s.2
    ({ avtabSetChain s.1 i r.1 with nel := s.1.nel - r.2.2 }, r.2.1)) (tab, del)).1

def optimizeCondAvtab (p : Policydb) (typeMap : Nat → List Nat) : Option Policydb := do
  let (condList, del, tab) ← optimizeCondList p typeMap p.condList [] p.teCondAvtab
  return { p with condList := condList, teCondAvtab := if del.isEmpty then tab else deleteFromAvtab tab del }

def policydbOptimize (p : Policydb) : Option Policydb :=
  if p.policyType ≠ policyKern then none
  else if policydbVersionAvtab ≤ p.policyvers && p.policyvers ≤ policydbVersionPermissive then none
  else
    let typeMap := buildTypeMap p
    optimizeCondAvtab { p with teAvtab := optimizeAvtab p.teAvtab typeMap } typeMap

end Sepol
