import Sepol.AvtabInsert
import Sepol.Hierarchy
import Sepol.Lib.Branches
import Sepol.Lib.EarlyExit

/-!
# The expanded rules of a type

The tables that `bounds_expand_parent_rules` makes hold permissions of the parent on types: the global one those of
the unconditional rules, and what both lists of a conditional have; the two tables of a conditional those of its
lists.
-/

namespace Sepol

variable {p : Policydb} {tab : Avtab} {tabs : Avtab × Avtab} {other : Option Avtab} {parent s : Nat}
  {K : AvtabNode → Prop}

/-! ### Permissions on types -/

/-- A permission on a type, whose index is below that of the types. -/
structure TypePerm where
  target : Nat
  tclass : BitVec 16
  perm : Fin 32

/-- What the data of a rule give to the type `s`. -/
def rulePerms (p : Policydb) (s : Nat) (k : AvtabKey) (data : BitVec 32) : Set TypePerm :=
  {x | Covers p k s x.target ∧ k.targetClass = x.tclass ∧ data.getLsbD x.perm = true}

/-- What the rules of a kind in a list of nodes give to the type. -/
def nodesPerms (p : Policydb) (s : Nat) (K : AvtabNode → Prop) (nodes : List (Option AvtabNode)) : Set TypePerm :=
  {x | ∃ n, some n ∈ nodes ∧ K n ∧ x ∈ rulePerms p s n.key n.datum.data}

def AvtabNode.IsAllowed (n : AvtabNode) : Prop := hasSpecified n.key.specified avtabAllowed = true

/-- What the unconditional rules that allow give to the type. -/
def tePerms (p : Policydb) (s : Nat) : Set TypePerm :=
  nodesPerms p s AvtabNode.IsAllowed ((avtabNodes p.teAvtab).map some)

/-- What the rules of a kind in a list of a conditional give to the type, by the position of the conditional. -/
def condPerms (p : Policydb) (s : Nat) (K : AvtabNode → Prop) (i : Nat) (b : Bool) : Set TypePerm :=
  {x | ∃ cl, p.condList[i]? = some cl ∧ x ∈ nodesPerms p s K (branchNodes p cl b)}

/-! ### Permissions in a table -/

/-- The data of the rule with a key, no permissions if there is none. -/
def avtabData (tab : Avtab) (key : AvtabKey) : BitVec 32 :=
  match avtabSearch tab key with
  | some n => n.datum.data
  | none => 0

/-- The permissions that a table has for the parent, on types that fit in a key. -/
def tablePerms (tab : Avtab) (parent : Nat) : Set TypePerm :=
  {x | x.target < 65535 ∧ (avtabData tab (boundsKey parent (x.target + 1) x.tclass)).getLsbD x.perm = true}

private theorem tablePerms_avtabInit (parent : Nat) : tablePerms avtabInit parent = ∅ := by
  refine Set.eq_empty_of_forall_notMem fun x hx => ?_
  have hdata : avtabData avtabInit (boundsKey parent (x.target + 1) x.tclass) = 0 := rfl
  have := hx.2
  rw [hdata] at this
  simp at this

private theorem tablePerms_avtabAlloc (n parent : Nat) : tablePerms (avtabAlloc n) parent = ∅ := by
  refine Set.eq_empty_of_forall_notMem fun x hx => ?_
  have hnone : avtabSearch (avtabAlloc n) (boundsKey parent (x.target + 1) x.tclass) = none :=
    avtabSearch_of_empty (fun i => by rw [avtabAlloc]; split <;> rfl) _
  have := hx.2
  rw [avtabData, hnone] at this
  simp at this

private theorem avtabHit_self (key : AvtabKey) (datum : AvtabDatum) (addr : Nat)
    (hkey : key.specified = avtabAllowed) :
    avtabHit key (key.specified &&& ~~~avtabEnabled) ⟨key, datum, addr⟩ = true := by
  rw [avtabHit_iff]
  exact ⟨⟨rfl, rfl, rfl⟩, by rw [hkey]; decide⟩

/-- The permissions for a key are added to those that the table has for it. -/
private theorem boundsInsertData_spec (ha : tab.Allocated) {key : AvtabKey} (hkey : key.specified = avtabAllowed)
    (data : BitVec 32) : ∃ tab', boundsInsertData tab key data = some tab' ∧ tab'.Allocated ∧
      ∀ key', key'.specified = avtabAllowed →
        avtabData tab' key' = if key' = key then avtabData tab key ||| data else avtabData tab key' := by
  rw [boundsInsertData]
  cases hs : avtabSearch tab key with
  | none =>
    obtain ⟨tab', htab', ha', _, hsearch⟩ := avtabInsert_spec ha hs (boundsDatum data)
    refine ⟨tab', htab', ha', fun key' hkey' => ?_⟩
    rw [avtabData, hsearch key']
    by_cases hk : key' = key
    · subst hk
      rw [if_pos (avtabHit_self ..), if_pos rfl, hs, avtabData, hs]
      · simp [boundsDatum]
      · exact hkey
    · have hno : ¬ avtabHit key' (key'.specified &&& ~~~avtabEnabled) ⟨key, boundsDatum data, tab.fresh⟩ = true := by
        rw [avtabHit_iff]
        rintro ⟨⟨h1, h2, h3⟩, _⟩
        obtain ⟨s, t, c, sp⟩ := key
        obtain ⟨s', t', c', sp'⟩ := key'
        simp_all
      rw [if_neg hno, if_neg hk, avtabData]
  | some n =>
    obtain ⟨ha', _, hsearch⟩ := avtabModify_spec ha key fun d => { d with data := d.data ||| data }
    refine ⟨_, rfl, ha', fun key' hkey' => ?_⟩
    rw [avtabData, hsearch key' (hkey'.trans hkey.symm)]
    by_cases hk : key' = key
    · rw [if_pos hk, if_pos hk, hs, avtabData, hs]
      rfl
    · rw [if_neg hk, if_neg hk, avtabData]

/-- The permission is for this key of the parent. -/
def pointPerms (target : Nat) (tclass : BitVec 16) (data : BitVec 32) : Set TypePerm :=
  {x | x.target = target ∧ x.tclass = tclass ∧ data.getLsbD x.perm = true}

private theorem boundsKey_inj {t t' : Nat} (ht : t < 65535) (ht' : t' < 65535) {c c' : BitVec 16} :
    boundsKey parent (t + 1) c = boundsKey parent (t' + 1) c' ↔ t = t' ∧ c = c' := by
  simp only [boundsKey, AvtabKey.mk.injEq, true_and, and_true, ← BitVec.toNat_inj, BitVec.toNat_ofNat]
  rw [Nat.mod_eq_of_lt (by omega), Nat.mod_eq_of_lt (by omega)]
  simp

private theorem boundsInsertData_perms (parent : Nat) (ha : tab.Allocated) {t : Nat} (ht : t < 65535) (c : BitVec 16)
    (data : BitVec 32) :
    ∃ tab', boundsInsertData tab (boundsKey parent (t + 1) c) data = some tab' ∧ tab'.Allocated ∧
      tablePerms tab' parent = tablePerms tab parent ∪ pointPerms t c data := by
  obtain ⟨tab', htab', ha', hdata⟩ := boundsInsertData_spec ha
    (show (boundsKey parent (t + 1) c).specified = avtabAllowed from rfl) data
  refine ⟨tab', htab', ha', Set.ext fun x => ?_⟩
  simp only [tablePerms, pointPerms, Set.mem_union, Set.mem_ofPred_eq]
  rw [hdata _ rfl]
  constructor
  · rintro ⟨hx, hperm⟩
    split at hperm
    · rename_i hkey
      obtain ⟨rfl, rfl⟩ := (boundsKey_inj hx ht).1 hkey
      rw [BitVec.getLsbD_or, Bool.or_eq_true] at hperm
      exact hperm.imp (fun h => ⟨hx, h⟩) fun h => ⟨rfl, rfl, h⟩
    · exact Or.inl ⟨hx, hperm⟩
  · rintro (⟨hx, hperm⟩ | ⟨hx, hc, hperm⟩)
    · refine ⟨hx, ?_⟩
      split
      · rename_i hkey
        rw [BitVec.getLsbD_or, ← hkey, hperm, Bool.true_or]
      · exact hperm
    · refine ⟨by omega, ?_⟩
      rw [if_pos ((boundsKey_inj (by omega) ht).2 ⟨hx, hc⟩), BitVec.getLsbD_or, hperm, Bool.or_true]

/-! ### Steps of the expansion -/

/-- The permissions of the table of the other list. -/
def otherPerms (other : Option Avtab) (parent : Nat) : Set TypePerm :=
  {x | ∃ tab, other = some tab ∧ x ∈ tablePerms tab parent}

/-- The tables may be inserted into. -/
def BoundsReady (other : Option Avtab) (tabs : Avtab × Avtab) : Prop :=
  tabs.1.Allocated ∧ (other.isSome = true → tabs.2.Allocated)

/-- A step that adds permissions to the first table adds those that the other list has too to the second table. -/
structure BoundsStep (other : Option Avtab) (parent : Nat) (R : Set TypePerm) (tabs tabs' : Avtab × Avtab) :
    Prop where
  ready : BoundsReady other tabs'
  perms : tablePerms tabs'.1 parent = tablePerms tabs.1 parent ∪ R
  common : tablePerms tabs'.2 parent = tablePerms tabs.2 parent ∪ (R ∩ otherPerms other parent)

theorem BoundsStep.refl (h : BoundsReady other tabs) : BoundsStep other parent ∅ tabs tabs :=
  ⟨h, (Set.union_empty _).symm, by rw [Set.empty_inter, Set.union_empty]⟩

theorem BoundsStep.trans {R R' : Set TypePerm} {tabs' tabs'' : Avtab × Avtab}
    (h : BoundsStep other parent R tabs tabs')
    (h' : BoundsStep other parent R' tabs' tabs'') : BoundsStep other parent (R ∪ R') tabs tabs'' :=
  ⟨h'.ready, by rw [h'.perms, h.perms, Set.union_assoc],
    by rw [h'.common, h.common, Set.union_inter_distrib_right, Set.union_assoc]⟩

private theorem boundsStep_foldlM (parent : Nat) {α : Type} {f : Avtab × Avtab → α → Option (Avtab × Avtab)}
    {R : α → Set TypePerm}
    {l : List α} (hstep : ∀ a ∈ l, ∀ tabs, BoundsReady other tabs →
      ∃ tabs', f tabs a = some tabs' ∧ BoundsStep other parent (R a) tabs tabs') (h : BoundsReady other tabs) :
    ∃ tabs', l.foldlM f tabs = some tabs' ∧ BoundsStep other parent {x | ∃ a ∈ l, x ∈ R a} tabs tabs' := by
  refine EarlyExit.exists_foldlM (I := fun done tabs' => BoundsStep other parent {x | ∃ a ∈ done, x ∈ R a} tabs tabs')
    (fun done tabs1 a ha h1 => ?_) ?_
  · obtain ⟨tabs2, h2, hs⟩ := hstep a ha tabs1 h1.ready
    refine ⟨tabs2, h2, ?_⟩
    have hset : {x | ∃ b ∈ done ++ [a], x ∈ R b} = {x | ∃ b ∈ done, x ∈ R b} ∪ R a := by
      ext x
      simp [or_and_right, exists_or]
    rw [hset]
    exact h1.trans hs
  · have hset : {x | ∃ a ∈ ([] : List α), x ∈ R a} = ∅ := by simp
    rw [hset]
    exact BoundsStep.refl h

private theorem boundsInsertRule_step (h : BoundsReady other tabs) {t : Nat} (ht : t < 65535) (c : BitVec 16)
    (data : BitVec 32) : ∃ tabs', boundsInsertRule other (boundsKey parent (t + 1) c) data tabs = some tabs' ∧
      BoundsStep other parent (pointPerms t c data) tabs tabs' := by
  obtain ⟨avtab, havtab, ha, hperms⟩ := boundsInsertData_perms parent h.1 ht c data
  rw [boundsInsertRule, havtab]
  simp only [Option.bind_eq_bind, Option.bind_some]
  -- without permissions in the other list, nothing is added to the second table
  have hempty : pointPerms t c data ∩ otherPerms other parent = ∅ →
      BoundsStep other parent (pointPerms t c data) tabs (avtab, tabs.2) := fun he =>
    ⟨⟨ha, h.2⟩, hperms, by rw [he, Set.union_empty]⟩
  have hother : ∀ {x}, x ∈ pointPerms t c data ∩ otherPerms other parent → ∃ tab, other = some tab ∧
      (avtabData tab (boundsKey parent (t + 1) c) &&& data).getLsbD x.perm = true := by
    rintro x ⟨⟨hx, hc, hd⟩, tab, rfl, _, hperm⟩
    rw [hx, hc] at hperm
    exact ⟨tab, rfl, by rw [BitVec.getLsbD_and, hperm, hd]; rfl⟩
  cases hs : other.bind (avtabSearch · (boundsKey parent (t + 1) c)) with
  | none =>
    refine ⟨_, rfl, hempty (Set.eq_empty_of_forall_notMem fun x hx => ?_)⟩
    obtain ⟨tab, rfl, hbit⟩ := hother hx
    rw [Option.bind_some] at hs
    rw [avtabData, hs] at hbit
    simp at hbit
  | some dup =>
    obtain ⟨tab, rfl, hdup⟩ := Option.bind_eq_some_iff.1 hs
    have hdata : avtabData tab (boundsKey parent (t + 1) c) = dup.datum.data := by rw [avtabData, hdup]
    dsimp only
    split
    · rename_i hzero
      refine ⟨_, rfl, hempty (Set.eq_empty_of_forall_notMem fun x hx => ?_)⟩
      obtain ⟨tab', htab', hbit⟩ := hother hx
      obtain rfl := Option.some.inj htab'
      rw [hdata, hzero] at hbit
      simp at hbit
    · obtain ⟨global, hglobal, hga, hgp⟩ := boundsInsertData_perms parent (h.2 rfl) ht c
        (dup.datum.data &&& data)
      rw [hglobal]
      refine ⟨_, rfl, ⟨ha, fun _ => hga⟩, hperms, ?_⟩
      rw [hgp]
      congr 1
      ext x
      simp only [pointPerms, otherPerms, tablePerms, Set.mem_inter_iff, Set.mem_ofPred_eq, Option.some.injEq,
        exists_eq_left', BitVec.getLsbD_and, Bool.and_eq_true]
      constructor
      · rintro ⟨hx, hc, hdup', hd⟩
        exact ⟨⟨hx, hc, hd⟩, by omega, by rw [hx, hc, hdata]; exact hdup'⟩
      · rintro ⟨⟨hx, hc, hd⟩, _, hperm⟩
        rw [hx, hc, hdata] at hperm
        exact ⟨hx, hc, hperm, hd⟩

/-! ### The whole expansion -/

/-- The policy is an expanded one: its maps are canonical and hold types, and the values of types and their bounds fit
in a key; the lists of the conditionals hold nodes. -/
structure BoundsOk (p : Policydb) : Prop where
  attrTypeMap : ∀ i, (p.attrTypeMap i).Canonical
  types : ∀ i, ∀ t ∈ p.attrTypeMap i, IsType p t ∧ t < p.pTypes.nprim
  bounds : ∀ i d, p.typeValToStruct i = some d → d.bounds ≤ p.pTypes.nprim
  fit : TypesFit p
  nodes : ∀ cl ∈ p.condList, ∀ b, ∀ addr ∈ cl.branch b, ∃ n, condNodeAt p addr = some n

theorem BoundsOk.lt (h : BoundsOk p) {i t : Nat} (ht : t ∈ p.attrTypeMap i) : t < 65535 :=
  lt_of_lt_of_le (h.types i t ht).2 h.fit

private theorem boundsExpandRule_step (parent : Nat) (h : BoundsOk p) (hr : BoundsReady other tabs) (k : AvtabKey)
    (data : BitVec 32) :
    ∃ tabs', boundsExpandRule p other parent k data tabs = some tabs' ∧
      BoundsStep other parent (rulePerms p (parent - 1) k data) tabs tabs' := by
  rw [boundsExpandRule]
  split
  · rename_i hsrc
    have hsrc := (ebitmapGetBit_iff (h.attrTypeMap _) _).1 hsrc
    obtain ⟨tabs', htabs', hstep⟩ := boundsStep_foldlM parent (R := fun i => pointPerms i k.targetClass data)
      (l := ebitmapPositiveBits (p.attrTypeMap (k.targetType.toNat - 1)))
      (fun i hi tabs hr => boundsInsertRule_step hr (h.lt ((mem_ebitmapPositiveBits (h.attrTypeMap _)).1 hi))
        k.targetClass data) hr
    refine ⟨tabs', htabs', ?_⟩
    convert hstep using 1
    ext x
    simp only [rulePerms, pointPerms, Set.mem_ofPred_eq, mem_ebitmapPositiveBits (h.attrTypeMap _)]
    constructor
    · rintro ⟨hcov, hc, hd⟩
      exact ⟨x.target, hcov.target, rfl, hc.symm, hd⟩
    · rintro ⟨i, hi, hx, hc, hd⟩
      exact ⟨⟨hsrc, hx ▸ hi⟩, hc.symm, hd⟩
  · rename_i hsrc
    have hempty : rulePerms p (parent - 1) k data = ∅ :=
      Set.eq_empty_of_forall_notMem fun x hx => hsrc ((ebitmapGetBit_iff (h.attrTypeMap _) _).2 hx.1.source)
    rw [hempty]
    exact ⟨tabs, rfl, BoundsStep.refl hr⟩

private theorem boundsExpandCondRules_step (parent : Nat) (h : BoundsOk p) (hr : BoundsReady other tabs)
    {cl : CondNode} (hcl : cl ∈ p.condList) (b : Bool) :
    ∃ tabs', boundsExpandCondRules p (cl.branch b) other parent tabs = some tabs' ∧
      BoundsStep other parent (nodesPerms p (parent - 1) (fun _ => True) (branchNodes p cl b)) tabs tabs' := by
  obtain ⟨tabs', htabs', hstep⟩ := boundsStep_foldlM parent
    (R := fun addr => {x | ∃ n, condNodeAt p addr = some n ∧ x ∈ rulePerms p (parent - 1) n.key n.datum.data})
    (f := fun tabs addr => do
      let n ← condNodeAt p addr
      boundsExpandRule p other parent n.key n.datum.data tabs) (l := cl.branch b) (fun addr ha tabs hr => by
        obtain ⟨n, hn⟩ := h.nodes cl hcl b addr ha
        obtain ⟨tabs', htabs', hstep⟩ := boundsExpandRule_step parent h hr n.key n.datum.data
        refine ⟨tabs', by simpa [hn] using htabs', ?_⟩
        convert hstep using 1
        ext x
        simp [hn]) hr
  refine ⟨tabs', htabs', ?_⟩
  convert hstep using 1
  ext x
  simp only [nodesPerms, branchNodes, List.mem_map, true_and, Set.mem_ofPred_eq]
  constructor
  · rintro ⟨n, ⟨addr, ha, hn⟩, hx⟩
    exact ⟨addr, ha, n, hn, hx⟩
  · rintro ⟨addr, ha, n, hn, hx⟩
    exact ⟨n, ⟨addr, ha, hn⟩, hx⟩

/-- What every node of a list gives to the parent. -/
abbrev listPerms (p : Policydb) (s : Nat) (cl : CondNode) (b : Bool) : Set TypePerm :=
  nodesPerms p s (fun _ => True) (branchNodes p cl b)

/-- The table for a list, with the second table. -/
private theorem boundsExpandList_spec (parent : Nat) (h : BoundsOk p) {cl : CondNode} (hcl : cl ∈ p.condList)
    (b : Bool) (other : Option Avtab) {global : Avtab} (hg : other.isSome = true → global.Allocated) :
    ∃ tabs', boundsExpandCondRules p (cl.branch b) other parent (boundsAvtab (cl.branch b), global) = some tabs' ∧
      tablePerms tabs'.1 parent = listPerms p (parent - 1) cl b ∧
      tablePerms tabs'.2 parent =
        tablePerms global parent ∪ (listPerms p (parent - 1) cl b ∩ otherPerms other parent) ∧
      (other.isSome = true → tabs'.2.Allocated) := by
  by_cases hempty : cl.branch b = []
  · have hnone : listPerms p (parent - 1) cl b = ∅ :=
      Set.eq_empty_of_forall_notMem fun x ⟨n, hn, _⟩ => by rw [branchNodes, hempty] at hn; cases hn
    rw [hempty, hnone]
    exact ⟨_, rfl, tablePerms_avtabInit parent, by rw [Set.empty_inter, Set.union_empty], hg⟩
  · have halloc : boundsAvtab (cl.branch b) = avtabAlloc boundsAvtabSize := by
      rw [boundsAvtab, if_neg (by simpa using hempty)]
    obtain ⟨tabs', htabs', hstep⟩ := boundsExpandCondRules_step parent h
      (show BoundsReady other (boundsAvtab (cl.branch b), global) from
        ⟨halloc ▸ avtabAlloc_allocated (show boundsAvtabSize ≠ 0 by decide), hg⟩) hcl b
    refine ⟨tabs', htabs', ?_, hstep.common, hstep.ready.2⟩
    rw [hstep.perms, halloc, tablePerms_avtabAlloc, Set.empty_union]

/-- The two tables of a conditional hold what its lists give to the parent. -/
structure CondInfoOk (p : Policydb) (parent : Nat) (ci : BoundsCondInfo) : Prop where
  trueAvtab : tablePerms ci.trueAvtab parent = listPerms p (parent - 1) ci.condList true
  falseAvtab : tablePerms ci.falseAvtab parent = listPerms p (parent - 1) ci.condList false

/-- What both lists of a conditional give goes to the global table. -/
private theorem boundsExpandCond_spec (parent : Nat) (h : BoundsOk p) {cl : CondNode} (hcl : cl ∈ p.condList)
    {global : Avtab} (hg : global.Allocated) (infos : List BoundsCondInfo) :
    ∃ global' ci, boundsExpandCond p parent (global, infos) cl = some (global', ci :: infos) ∧ ci.condList = cl ∧
      CondInfoOk p parent ci ∧ global'.Allocated ∧
      tablePerms global' parent = tablePerms global parent ∪ {x | ∀ b, x ∈ listPerms p (parent - 1) cl b} := by
  obtain ⟨⟨tt, _⟩, htrue, hperms1, _⟩ := boundsExpandList_spec parent h hcl true none
    (show (none : Option Avtab).isSome = true → avtabInit.Allocated from nofun)
  obtain ⟨⟨ft, global'⟩, hfalse, hperms2, hcommon, hga⟩ := boundsExpandList_spec parent h hcl false (some tt)
    fun _ => hg
  refine ⟨global', ⟨tt, ft, cl⟩, ?_, rfl, ⟨hperms1, hperms2⟩, hga rfl, ?_⟩
  · have htrue' : boundsExpandCondRules p cl.trueList none parent (boundsAvtab cl.trueList, avtabInit) = _ := htrue
    have hfalse' : boundsExpandCondRules p cl.falseList (some tt) parent (boundsAvtab cl.falseList, global) = _ :=
      hfalse
    rw [boundsExpandCond, htrue']
    simp only [Option.bind_eq_bind, Option.bind_some, hfalse']
    rfl
  · dsimp only at hcommon hperms1
    rw [hcommon]
    congr 1
    ext x
    simp only [otherPerms, Set.mem_inter_iff, Set.mem_ofPred_eq, Option.some.injEq, exists_eq_left', hperms1,
      Bool.forall_bool]

/-- The unconditional rules are expanded to the global table. -/
private theorem boundsExpandTe_spec (parent : Nat) (h : BoundsOk p) :
    ∃ global, avtabMap p.teAvtab (boundsExpandRuleCallback p parent) (avtabAlloc boundsAvtabSize) = (0, global) ∧
      global.Allocated ∧ tablePerms global parent = tePerms p (parent - 1) := by
  have hloop := EarlyExit.exists_foldlM (l := avtabNodes p.teAvtab) (s := avtabAlloc boundsAvtabSize)
    (f := fun tab n => if !hasSpecified n.key.specified avtabAllowed then some tab else
      (boundsExpandRule p none parent n.key n.datum.data (tab, avtabInit)).map Prod.fst)
    (I := fun done tab => tab.Allocated ∧
      tablePerms tab parent = nodesPerms p (parent - 1) AvtabNode.IsAllowed (done.map some))
    (fun done tab n _ htab => by
      have hset : nodesPerms p (parent - 1) AvtabNode.IsAllowed ((done ++ [n]).map some) =
          nodesPerms p (parent - 1) AvtabNode.IsAllowed (done.map some) ∪
            {x | n.IsAllowed ∧ x ∈ rulePerms p (parent - 1) n.key n.datum.data} := by
        ext x
        simp [nodesPerms, or_and_right, exists_or]
      rw [hset]
      split
      · rename_i hno
        have hempty : {x | n.IsAllowed ∧ x ∈ rulePerms p (parent - 1) n.key n.datum.data} = ∅ :=
          Set.eq_empty_of_forall_notMem fun x hx => by
            rw [show hasSpecified n.key.specified avtabAllowed = true from hx.1] at hno
            cases hno
        exact ⟨tab, rfl, htab.1, by rw [hempty, Set.union_empty, htab.2]⟩
      · rename_i hyes
        obtain ⟨tabs', htabs', hstep⟩ := boundsExpandRule_step parent h
          (show BoundsReady none (tab, avtabInit) from ⟨htab.1, fun h => by cases h⟩) n.key n.datum.data
        have hallowed : n.IsAllowed := by
          rw [AvtabNode.IsAllowed, ← Bool.not_eq_false]
          exact fun hno => hyes (by rw [hno]; rfl)
        refine ⟨tabs'.1, by rw [htabs', Option.map_some], hstep.ready.1, ?_⟩
        rw [hstep.perms, htab.2]
        congr 1
        ext x
        exact (and_iff_right hallowed).symm)
    ⟨avtabAlloc_allocated (show boundsAvtabSize ≠ 0 by decide), by
      rw [tablePerms_avtabAlloc]
      refine (Set.eq_empty_of_forall_notMem ?_).symm
      rintro x ⟨n, hn, _⟩
      cases hn⟩
  obtain ⟨global, hglobal, ha, hperms⟩ := hloop
  refine ⟨global, avtabMap_of_foldlM (fun n s s' hs => ?_) hglobal, ha, hperms⟩
  rw [boundsExpandRuleCallback]
  split at hs
  · rename_i hno
    rw [if_pos hno, Option.some.inj hs]
  · rename_i hyes
    obtain ⟨tabs', htabs', rfl⟩ := Option.map_eq_some_iff.1 hs
    rw [if_neg hyes, htabs']

theorem boundsExpandParentRules_spec (parent : Nat) (h : BoundsOk p) :
    ∃ global infos, boundsExpandParentRules p parent = some (global, infos) ∧
      tablePerms global parent = Branches.sure (tePerms p (parent - 1)) (condPerms p (parent - 1) fun _ => True) ∧
      (∀ ci ∈ infos, CondInfoOk p parent ci) ∧ infos.map BoundsCondInfo.condList = p.condList.reverse := by
  obtain ⟨global, hte, hga, hgp⟩ := boundsExpandTe_spec parent h
  have hloop := EarlyExit.exists_foldlM (l := p.condList) (s := (global, ([] : List BoundsCondInfo)))
    (f := boundsExpandCond p parent)
    (I := fun done state => state.1.Allocated ∧
      tablePerms state.1 parent = tePerms p (parent - 1) ∪ {x | ∃ cl ∈ done, ∀ b, x ∈ listPerms p (parent - 1) cl b} ∧
      (∀ ci ∈ state.2, CondInfoOk p parent ci) ∧ state.2.map BoundsCondInfo.condList = done.reverse)
    (fun done state cl hcl ⟨ha, hperms, hinfos, hlist⟩ => by
      obtain ⟨global', ci, hstep, hci, hok, ha', hperms'⟩ := boundsExpandCond_spec parent h hcl ha state.2
      refine ⟨_, hstep, ha', ?_, ?_, ?_⟩
      · rw [hperms', hperms, Set.union_assoc]
        congr 1
        ext x
        simp [or_and_right, exists_or]
      · rintro c hc
        rcases List.mem_cons.1 hc with rfl | hc
        · exact hok
        · exact hinfos c hc
      · simp [hci, hlist])
    ⟨hga, by simp [hgp], by simp, rfl⟩
  obtain ⟨⟨global', infos⟩, hfold, ha', hperms, hinfos, hlist⟩ := hloop
  refine ⟨global', infos, ?_, ?_, hinfos, hlist⟩
  · rw [boundsExpandParentRules, hte]
    exact hfold
  · dsimp only at hperms
    rw [hperms]
    ext x
    simp only [Branches.sure, condPerms, Set.mem_union, Set.mem_ofPred_eq]
    refine or_congr_right ?_
    constructor
    · rintro ⟨cl, hcl, hall⟩
      obtain ⟨i, hi⟩ := List.mem_iff_getElem?.1 hcl
      exact ⟨i, fun b => ⟨cl, hi, hall b⟩⟩
    · rintro ⟨i, hall⟩
      obtain ⟨cl, hi, _⟩ := hall true
      refine ⟨cl, List.mem_of_getElem? hi, fun b => ?_⟩
      obtain ⟨cl', hi', hx⟩ := hall b
      obtain rfl := Option.some.inj (hi.symm.trans hi')
      exact hx

end Sepol
