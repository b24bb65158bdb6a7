import Sepol.Lib.Accumulate
import Sepol.ExpandFind

/-!
# Expanding access vector rules

A call of `expand_avrule_helper` adds one grant for every class of the rule.  The list of a grant holds, for every
slot, the combination of the grants for the slot, as long as the search for an entry of a conditional does not stop at
an entry of another kind or driver (`AvGrant.Good`).
-/

namespace Sepol

open Accumulate

/-- One class of a rule for two types, as `expand_avrule_helper` adds it to a list. -/
structure AvGrant (γ : Type) where
  specified : BitVec 32
  cond : Option γ
  stype : Nat
  ttype : Nat
  enabled : Bool
  xperms : Option AvExtendedPerms
  cur : ClassPermNode

/-- Source, target, class and specifier, and for extended permissions the kind and the driver. -/
structure AvSlot where
  sourceType : BitVec 16
  targetType : BitVec 16
  targetClass : BitVec 16
  specified : BitVec 16
  xperms : Option (BitVec 8 × BitVec 8)
deriving DecidableEq

variable {γ : Type} {st st' : ExpandTables γ} {g : AvGrant γ} {n : AvtabNode} {grants : List (AvGrant γ)}

def AvtabNode.slot (n : AvtabNode) : AvSlot :=
  ⟨n.key.sourceType, n.key.targetType, n.key.targetClass, n.key.specified &&& ~~~avtabEnabled,
    if hasSpecified n.key.specified avtabXperms then some (n.datum.xperms.specified, n.datum.xperms.driver) else none⟩

def AvGrant.key (g : AvGrant γ) : AvtabKey := expandKey g.specified g.stype g.ttype g.cur

def AvGrant.isXperms (g : AvGrant γ) : Bool := hasSpecified g.key.specified avtabXperms

def AvGrant.slot (g : AvGrant γ) : AvSlot :=
  ⟨g.key.sourceType, g.key.targetType, g.key.targetClass, g.key.specified,
    if g.isXperms then g.xperms.map fun x => (x.specified, x.driver) else none⟩

/-- The permission bits that a grant gives for its kind and driver. -/
def AvGrant.bits (g : AvGrant γ) (i : Fin extendedPermsLen) : BitVec 32 :=
  match g.xperms with
  | some x => x.perms i
  | none => 0

/-- A rule of one of the seven kinds, and one for extended permissions has them. -/
def IsAvrule (specified : BitVec 32) (xperms : Option AvExtendedPerms) : Prop :=
  specified ∈ [avruleAllowed, avruleAuditallow, avruleAuditdeny, avruleDontaudit] ∨
  specified ∈ [avruleXpermsAllowed, avruleXpermsAuditallow, avruleXpermsDontaudit] ∧
    ∃ x ∈ xperms, x.specified ∈ [avruleXpermsIoctlfunction, avruleXpermsIoctldriver, avruleXpermsNlmsg]

def AvGrant.Valid (g : AvGrant γ) : Prop := IsAvrule g.specified g.xperms

/-! ### Combinations -/

/-- The permissions that a grant of a slot for `AUDITDENY` leaves audited. -/
def AvGrant.audited (g : AvGrant γ) : BitVec 32 :=
  if g.specified = avruleDontaudit then ~~~g.cur.data else g.cur.data

/-- The data of a slot after its grants. -/
def combinedData (s : AvSlot) (grants : List (AvGrant γ)) : BitVec 32 :=
  if hasSpecified s.specified avtabXperms then 0
  else if s.specified = avtabAuditdeny then Words.inter (grants.map AvGrant.audited)
  else Words.union (grants.map fun g => g.cur.data)

/-- The extended permissions of a slot after its grants. -/
def combinedXperms (grants : List (AvGrant γ)) (i : Fin extendedPermsLen) : BitVec 32 :=
  Words.union (grants.map fun g => g.bits i)

/-- What a grant does to the data and the extended permissions of its slot. -/
def AvGrant.apply (g : AvGrant γ) (v : BitVec 32 × (Fin extendedPermsLen → BitVec 32)) :
    BitVec 32 × (Fin extendedPermsLen → BitVec 32) :=
  if g.isXperms then (v.1, fun i => v.2 i ||| g.bits i)
  else if g.key.specified = avtabAuditdeny then (v.1 &&& g.audited, v.2)
  else (v.1 ||| g.cur.data, v.2)

/-- The value of a slot of a new entry. -/
def slotStart (s : AvSlot) : BitVec 32 × (Fin extendedPermsLen → BitVec 32) :=
  (if s.specified = avtabAuditdeny then BitVec.allOnes 32 else 0, fun _ => 0)

/-- A slot of a list. -/
def AvGrant.scope (g : AvGrant γ) : Option γ × AvSlot := (g.cond, g.slot)

def AvtabNode.value (n : AvtabNode) : BitVec 32 × (Fin extendedPermsLen → BitVec 32) :=
  (n.datum.data, n.datum.xperms.perms)

private theorem foldl_apply_data {op : BitVec 32 → BitVec 32 → BitVec 32} {val : AvGrant γ → BitVec 32}
    (happly : ∀ g ∈ grants, ∀ v, g.apply v = (op v.1 (val g), v.2))
    (v : BitVec 32 × (Fin extendedPermsLen → BitVec 32)) :
    grants.foldl (fun v g => g.apply v) v = ((grants.map val).foldl op v.1, v.2) := by
  induction grants generalizing v with
  | nil => rfl
  | cons g grants ih =>
    rw [List.foldl_cons, happly g (List.mem_cons_self ..), ih fun a ha => happly a (List.mem_cons_of_mem _ ha)]
    rfl

private theorem foldl_apply_bits (happly : ∀ g ∈ grants, ∀ v, g.apply v = (v.1, fun i => v.2 i ||| g.bits i))
    (v : BitVec 32 × (Fin extendedPermsLen → BitVec 32)) :
    grants.foldl (fun v g => g.apply v) v =
      (v.1, fun i => (grants.map fun g => g.bits i).foldl (fun a b => a ||| b) (v.2 i)) := by
  induction grants generalizing v with
  | nil => rfl
  | cons g grants ih =>
    rw [List.foldl_cons, happly g (List.mem_cons_self ..), ih fun a ha => happly a (List.mem_cons_of_mem _ ha)]
    rfl

/-- The grants of a slot, applied one after the other, give the combinations. -/
private theorem foldl_apply_eq {s : AvSlot} (hslot : ∀ g ∈ grants, g.slot = s) :
    grants.foldl (fun v g => g.apply v) (slotStart s) = (combinedData s grants, fun i =>
      if hasSpecified s.specified avtabXperms then combinedXperms grants i else 0) := by
  have hspec : ∀ g ∈ grants, g.key.specified = s.specified := fun g hg => congrArg AvSlot.specified (hslot g hg)
  have hxperms : ∀ g ∈ grants, g.isXperms = hasSpecified s.specified avtabXperms := fun g hg => by
    rw [AvGrant.isXperms, hspec g hg]
  by_cases hx : hasSpecified s.specified avtabXperms = true
  · have hne : s.specified ≠ avtabAuditdeny := by
      intro heq
      rw [heq] at hx
      exact absurd hx (by decide)
    rw [foldl_apply_bits, combinedData, if_pos hx, slotStart, if_neg hne]
    · simp only [hx, if_true]
      rfl
    · intro g hg v
      rw [AvGrant.apply, if_pos ((hxperms g hg).trans hx)]
  · have hgx : ∀ g ∈ grants, ¬ g.isXperms = true := fun g hg => by rwa [hxperms g hg]
    simp only [if_neg hx, combinedData]
    by_cases hd : s.specified = avtabAuditdeny
    · rw [if_pos hd, slotStart, if_pos hd, @foldl_apply_data _ _ _ AvGrant.audited]
      · rfl
      · intro g hg v
        rw [AvGrant.apply, if_neg (hgx g hg), if_pos ((hspec g hg).trans hd)]
    · rw [if_neg hd, slotStart, if_neg hd, @foldl_apply_data _ _ _ fun g => g.cur.data]
      · rfl
      · intro g hg v
        rw [AvGrant.apply, if_neg (hgx g hg), if_neg (by rw [hspec g hg]; exact hd)]

/-! ### One grant -/

theorem AvGrant.Valid.specified (h : g.Valid) :
    SingleBit g.key.specified ∧ g.key.specified &&& ~~~avtabEnabled = g.key.specified := by
  have hspec : g.key.specified = avruleToAvtabSpec g.specified := rfl
  rw [hspec]
  rcases h with h | ⟨h, -⟩
  · simp only [List.mem_cons, List.not_mem_nil, or_false] at h
    rcases h with h | h | h | h <;> rw [h]
    · exact ⟨⟨0, by decide, by decide⟩, by decide⟩
    · exact ⟨⟨1, by decide, by decide⟩, by decide⟩
    · exact ⟨⟨2, by decide, by decide⟩, by decide⟩
    · exact ⟨⟨2, by decide, by decide⟩, by decide⟩
  · simp only [List.mem_cons, List.not_mem_nil, or_false] at h
    rcases h with h | h | h <;> rw [h]
    · exact ⟨⟨8, by decide, by decide⟩, by decide⟩
    · exact ⟨⟨9, by decide, by decide⟩, by decide⟩
    · exact ⟨⟨10, by decide, by decide⟩, by decide⟩

theorem AvGrant.Valid.xperms (h : g.Valid) (hx : g.isXperms = true) : ∃ x, g.xperms = some x := by
  rcases h with h | ⟨-, x, hx, -⟩
  · have hspec : g.key.specified = avruleToAvtabSpec g.specified := rfl
    rw [AvGrant.isXperms, hspec] at hx
    simp only [List.mem_cons, List.not_mem_nil, or_false] at h
    rcases h with h | h | h | h <;> rw [h] at hx <;> exact absurd hx (by decide)
  · exact ⟨x, hx⟩

private theorem allocateXperms_eq {x : AvExtendedPerms}
    (hx : x.specified ∈ [avruleXpermsIoctlfunction, avruleXpermsIoctldriver, avruleXpermsNlmsg]) :
    allocateXperms x = some fun d =>
      { d with xperms := ⟨x.specified, x.driver, fun i => d.xperms.perms i ||| x.perms i⟩ } := by
  unfold allocateXperms
  simp only [List.mem_cons, List.not_mem_nil, or_false] at hx
  rcases hx with hx | hx | hx <;> simp [hx]

/-- What the switch of `expand_avrule_helper` does to the datum of a node. -/
theorem AvGrant.Valid.datum (h : g.Valid) :
    ∃ f, expandAvruleDatum g.specified g.cur.data g.xperms = some f ∧
      (∀ d, ((f d).data, (f d).xperms.perms) = g.apply (d.data, d.xperms.perms)) ∧
      (g.isXperms = true → ∀ x, g.xperms = some x → ∀ d,
        (f d).xperms.specified = x.specified ∧ (f d).xperms.driver = x.driver) := by
  have hspec : g.key.specified = avruleToAvtabSpec g.specified := rfl
  unfold AvGrant.apply AvGrant.isXperms expandAvruleDatum
  rw [hspec]
  rcases h with h | ⟨h, x, hx, hkind⟩
  · simp only [List.mem_cons, List.not_mem_nil, or_false] at h
    rcases h with h | h | h | h
    · rw [h]
      exact ⟨_, if_pos (by decide), fun d => rfl, fun hx => absurd hx (by decide)⟩
    · rw [h]
      exact ⟨_, if_pos (by decide), fun d => rfl, fun hx => absurd hx (by decide)⟩
    · have haudited : g.audited = g.cur.data := if_neg (by rw [h]; decide)
      rw [h, haudited]
      exact ⟨_, (if_neg (by decide)).trans ((if_neg (by decide)).trans (if_pos rfl)), fun d => rfl,
        fun hx => absurd hx (by decide)⟩
    · have haudited : g.audited = ~~~g.cur.data := if_pos h
      rw [h, haudited]
      exact ⟨_, (if_neg (by decide)).trans (if_pos rfl), fun d => rfl, fun hx => absurd hx (by decide)⟩
  · have hbits : ∀ i, g.bits i = x.perms i := fun i => by rw [AvGrant.bits, hx]
    have hsome : g.xperms.bind allocateXperms = some fun d =>
        { d with xperms := ⟨x.specified, x.driver, fun i => d.xperms.perms i ||| x.perms i⟩ } := by
      rw [hx]
      exact allocateXperms_eq hkind
    have hfinish : ∀ x', g.xperms = some x' → x = x' := fun x' hx' => Option.some.inj (hx.symm.trans hx')
    simp only [List.mem_cons, List.not_mem_nil, or_false] at h
    rcases h with h | h | h <;> rw [h] <;> simp only [hbits]
    all_goals
      refine ⟨_, (if_neg (by decide)).trans ((if_neg (by decide)).trans ((if_neg (by decide)).trans
        ((if_pos (by decide)).trans hsome))), fun d => rfl, fun _ x' hx' d => ?_⟩
      obtain rfl := hfinish x' hx'
      exact ⟨rfl, rfl⟩

/-- A node has the slot of a grant when it has its key, and its kind and driver. -/
private theorem AvGrant.Valid.slot_eq_iff (h : g.Valid) : n.slot = g.slot ↔
    sameKey g.key n.key ∧ (g.isXperms = true → ∀ x, g.xperms = some x → sameXperms x n = true) := by
  have hspec := h.specified.2
  have hx : sameKey g.key n.key → hasSpecified n.key.specified avtabXperms = g.isXperms := fun hsame => by
    rw [← hasSpecified_xperms, ← hsame.2, hspec, AvGrant.isXperms]
  have hsame_iff : sameKey g.key n.key ↔ n.key.sourceType = g.key.sourceType ∧ n.key.targetType = g.key.targetType ∧
      n.key.targetClass = g.key.targetClass ∧ n.key.specified &&& ~~~avtabEnabled = g.key.specified := by
    unfold sameKey sameTypes
    rw [hspec, eq_comm, @eq_comm _ g.key.targetType, @eq_comm _ g.key.targetClass, @eq_comm _ g.key.specified]
    tauto
  have hxperms : sameKey g.key n.key → ((if hasSpecified n.key.specified avtabXperms = true then
      some (n.datum.xperms.specified, n.datum.xperms.driver) else none) =
        (if g.isXperms = true then g.xperms.map fun x => (x.specified, x.driver) else none) ↔
      (g.isXperms = true → ∀ x, g.xperms = some x → sameXperms x n = true)) := fun hsame => by
    rw [hx hsame]
    cases hgx : g.isXperms with
    | false => exact ⟨fun _ h => (by cases h), fun _ => rfl⟩
    | true =>
      obtain ⟨x, hxp⟩ := h.xperms hgx
      simp [hxp, sameXperms]
  unfold AvtabNode.slot AvGrant.slot
  rw [AvSlot.mk.injEq]
  constructor
  · rintro ⟨h1, h2, h3, h4, h5⟩
    have hsame := hsame_iff.2 ⟨h1, h2, h3, h4⟩
    exact ⟨hsame, (hxperms hsame).1 h5⟩
  · rintro ⟨hsame, h5⟩
    obtain ⟨h1, h2, h3, h4⟩ := hsame_iff.1 hsame
    exact ⟨h1, h2, h3, h4, (hxperms hsame).2 h5⟩

/-- The search for a grant of a list stops at an entry of the kind and the driver of the grant: behind the first entry
of this kind and driver, in whatever list, the first one of the own list has them too. -/
def AvGrant.Good [DecidableEq γ] (g : AvGrant γ) (st : ExpandTables γ) : Prop :=
  g.isXperms = true → ∀ x ∈ g.xperms, ∀ c ∈ g.cond,
    ∀ n ∈ ((avtabSearchNodes st.teCondAvtab g.key).dropWhile fun n => !sameXperms x n).find? fun n =>
      st.parseContext n.addr = some c, sameXperms x n = true

instance [DecidableEq γ] (g : AvGrant γ) (st : ExpandTables γ) : Decidable (g.Good st) :=
  inferInstanceAs (Decidable (g.isXperms = true → ∀ x ∈ g.xperms, ∀ c ∈ g.cond,
    ∀ n ∈ ((avtabSearchNodes st.teCondAvtab g.key).dropWhile fun n => !sameXperms x n).find? fun n =>
      st.parseContext n.addr = some c, sameXperms x n = true))

/-- One call of `expand_avrule_helper` for one class. -/
def AvGrant.run [DecidableEq γ] (g : AvGrant γ) (st : ExpandTables γ) : Option (ExpandTables γ) :=
  expandAvrulePerm g.specified g.cond g.stype g.ttype g.enabled g.xperms g.cur st

/-- The entries of the lists hold the totals of the grants. -/
def ExpandTables.HasTotals [DecidableEq γ] (st : ExpandTables γ) (grants : List (AvGrant γ)) : Prop :=
  Represents (fun p : Option γ × AvtabNode => p.2 ∈ st.entries p.1) (fun p => (p.1, p.2.slot)) (fun p => p.2.value)
    (total AvGrant.scope (fun s => slotStart s.2) AvGrant.apply grants)

variable [DecidableEq γ]

private theorem AvGrant.slot_of_found (h : g.Valid) (ok : st.Ok) (hgood : g.Good st) {l : List AvtabNode}
    (hfound : findExisting st g.key g.cond g.xperms = n :: l) : n.slot = g.slot := by
  refine h.slot_eq_iff.2 ⟨(findExisting_eq_cons ok h.specified.1 hfound).2, fun hx x hxp => ?_⟩
  rw [hxp] at hfound
  cases hcond : g.cond with
  | none =>
    rw [hcond] at hfound
    exact findExisting_none_eq_cons hx hfound
  | some c =>
    rw [hcond] at hfound
    exact hgood hx x hxp c hcond n (findExisting_some_eq_cons hx hfound)

private theorem AvGrant.not_mem_of_not_found (h : g.Valid) (ok : st.Ok)
    (hfound : findExisting st g.key g.cond g.xperms = []) : ∀ m ∈ st.entries g.cond, m.slot ≠ g.slot := by
  intro m hm hslot
  obtain ⟨hsame, hxperms⟩ := h.slot_eq_iff.1 hslot
  obtain ⟨hx, hnot⟩ := findExisting_eq_nil ok h.specified.1 hfound hm hsame
  obtain ⟨x, hxp⟩ := h.xperms hx
  exact absurd ((hxperms hx x hxp).symm.trans (hnot x hxp)) (by decide)

/-- A good grant adds to the total of its slot and leaves the other slots alone. -/
private theorem AvGrant.run_hasTotals (h : g.Valid) (ok : st.Ok) (hgood : g.Good st) (htotals : st.HasTotals grants) :
    ∃ st', g.run st = some st' ∧ st'.Ok ∧ st'.HasTotals (grants ++ [g]) := by
  obtain ⟨f, hf, hvalue, hkind⟩ := h.datum
  have hkeeps := KeepsKey.write g.enabled f
  obtain ⟨st₁, addr, hfind, hok, hcases⟩ :=
    @findAvtabNode_write γ st g.cond g.key g.xperms _ _ ok h.specified.1 hkeeps
  refine ⟨st₁.updateNode g.cond addr fun n => n.write g.enabled f, ?_, hok, ?_⟩
  · unfold AvGrant.run expandAvrulePerm
    have hfind' : findAvtabNode st (expandKey g.specified g.stype g.ttype g.cur) g.cond g.xperms = some (st₁, addr) :=
      hfind
    rw [hfind', hf]
    rfl
  -- the write keeps the key of a node, and gives it the kind and the driver of the grant
  have hslot : ∀ m : AvtabNode, sameKey g.key m.key → (m.write g.enabled f).slot = g.slot := by
    intro m hm
    refine h.slot_eq_iff.2 ⟨hkeeps.sameKey.2 hm, fun hx x hxp => ?_⟩
    have := hkind hx x hxp m.datum
    simp [sameXperms, AvtabNode.write, this]
  have hval : ∀ m : AvtabNode, (m.write g.enabled f).value = g.apply m.value := fun m => hvalue m.datum
  unfold ExpandTables.HasTotals at htotals ⊢
  rw [total_concat]
  rcases hcases with ⟨n, l, hfound, hentries⟩ | ⟨hfound, hentries⟩
  · obtain ⟨hn, hsame⟩ := findExisting_eq_cons ok h.specified.1 hfound
    have hns := AvGrant.slot_of_found h ok hgood hfound
    have hold := htotals.val (g.cond, n) hn
    have hmem : ∀ p : Option γ × AvtabNode,
        p.2 ∈ (st₁.updateNode g.cond addr fun n => n.write g.enabled f).entries p.1 ↔
          p = (g.cond, n.write g.enabled f) ∨ p.2 ∈ st.entries p.1 ∧ p ≠ (g.cond, n) := by
      rintro ⟨c, m⟩
      rw [hentries]
      by_cases hc : c = g.cond
      · rw [if_pos hc]
        simp [hc]
      · rw [if_neg hc]
        simp [hc]
    have hnew := htotals.replace (n := (g.cond, n)) hn (g.cond, n.write g.enabled f) (by rw [hslot n hsame, hns]) hmem
    have hscope : g.scope = (g.cond, n.slot) := by rw [AvGrant.scope, hns]
    rw [hscope, hold, Option.getD_some, ← hval]
    exact hnew
  · have hnone : total AvGrant.scope (fun s => slotStart s.2) AvGrant.apply grants g.scope = none := by
      rw [Option.eq_none_iff_forall_ne_some]
      intro b hb
      obtain ⟨⟨c, m⟩, hm, hms⟩ := htotals.exists_of_eq_some g.scope b hb
      obtain ⟨rfl, hms⟩ := Prod.mk.inj hms
      exact AvGrant.not_mem_of_not_found h ok hfound m hm hms
    have hmem : ∀ p : Option γ × AvtabNode,
        p.2 ∈ (st₁.updateNode g.cond addr fun n => n.write g.enabled f).entries p.1 ↔
          p = (g.cond, (newEntry st g.cond g.key).write g.enabled f) ∨ p.2 ∈ st.entries p.1 := by
      rintro ⟨c, m⟩
      rw [hentries, Prod.mk.injEq]
    have hscope : g.scope = (g.cond, ((newEntry st g.cond g.key).write g.enabled f).slot) := by
      rw [AvGrant.scope, hslot _ ⟨⟨rfl, rfl, rfl⟩, rfl⟩]
    have hstart : (newEntry st g.cond g.key).value = slotStart g.scope.2 := rfl
    rw [hnone, Option.getD_none, ← hstart, ← hval, hscope]
    rw [hscope] at hnone
    exact htotals.insert (n := (g.cond, (newEntry st g.cond g.key).write g.enabled f)) hnone hmem

/-! ### Runs -/

/-- A rule as it is fed to `expand_avrule_helper`, for two types and a list. -/
structure AvCall (γ : Type) where
  specified : BitVec 32
  cond : Option γ
  stype : Nat
  ttype : Nat
  perms : List ClassPermNode
  enabled : Bool
  xperms : Option AvExtendedPerms

def AvCall.run (disableDontaudit : Bool) (call : AvCall γ) (st : ExpandTables γ) : Option (ExpandTables γ) :=
  expandAvruleHelper disableDontaudit call.specified call.cond call.stype call.ttype call.perms
    call.enabled call.xperms
    st

/-- The grants of a call, one for each class; a rule that the setting of the handle drops has none. -/
def AvCall.toGrants (disableDontaudit : Bool) (call : AvCall γ) : List (AvGrant γ) :=
  if call.specified &&& (avruleDontaudit ||| avruleXpermsDontaudit) ≠ 0 ∧ disableDontaudit then []
  else call.perms.map fun cur =>
    ⟨call.specified, call.cond, call.stype, call.ttype, call.enabled, call.xperms, cur⟩

/-- Calls after each other. -/
def expandAvCalls (disableDontaudit : Bool) (calls : List (AvCall γ)) (st : ExpandTables γ) :
    Option (ExpandTables γ) :=
  calls.foldlM (fun st call => call.run disableDontaudit st) st

/-- Every grant of a run is good in the state before it. -/
def AvRunGood : List (AvGrant γ) → ExpandTables γ → Prop
  | [], _ => True
  | g :: grants, st => g.Good st ∧ ∀ st' ∈ g.run st, AvRunGood grants st'

instance decidableAvRunGood : ∀ (grants : List (AvGrant γ)) (st : ExpandTables γ), Decidable (AvRunGood grants st)
  | [], _ => inferInstanceAs (Decidable True)
  | g :: grants, st =>
    have := decidableAvRunGood grants
    inferInstanceAs (Decidable (g.Good st ∧ ∀ st' ∈ g.run st, AvRunGood grants st'))

private theorem AvCall.run_eq (disableDontaudit : Bool) (call : AvCall γ) (st : ExpandTables γ) :
    call.run disableDontaudit st = (call.toGrants disableDontaudit).foldlM (fun st g => g.run st) st := by
  unfold AvCall.run AvCall.toGrants expandAvruleHelper
  split
  · rfl
  · induction call.perms generalizing st with
    | nil => rfl
    | cons cur next ih =>
      unfold expandAvrulePerms
      rw [List.map_cons, List.foldlM_cons]
      change _ = (expandAvrulePerm call.specified call.cond call.stype call.ttype
        call.enabled call.xperms cur st).bind _
      cases expandAvrulePerm call.specified call.cond call.stype call.ttype call.enabled call.xperms cur st with
      | none => rfl
      | some st' => exact ih st'

private theorem expandAvCalls_eq (disableDontaudit : Bool) (calls : List (AvCall γ)) (st : ExpandTables γ) :
    expandAvCalls disableDontaudit calls st =
      (calls.flatMap (AvCall.toGrants disableDontaudit)).foldlM (fun st g => g.run st) st := by
  unfold expandAvCalls
  induction calls generalizing st with
  | nil => rfl
  | cons call calls ih =>
    rw [List.foldlM_cons, List.flatMap_cons, List.foldlM_append, AvCall.run_eq]
    exact congrArg _ (funext fun st' => ih st')

private theorem avGrants_hasTotals {l : List (AvGrant γ)} (hvalid : ∀ g ∈ grants, g.Valid) (ok : st.Ok)
    (hgood : AvRunGood grants st) (htotals : st.HasTotals l) :
    ∃ st', grants.foldlM (fun st g => g.run st) st = some st' ∧ st'.Ok ∧ st'.HasTotals (l ++ grants) := by
  induction grants generalizing st l with
  | nil => exact ⟨st, rfl, ok, by rwa [List.append_nil]⟩
  | cons g grants ih =>
    unfold AvRunGood at hgood
    obtain ⟨st₁, hrun, ok₁, htotals₁⟩ :=
      AvGrant.run_hasTotals (hvalid g (List.mem_cons_self ..)) ok hgood.1 htotals
    obtain ⟨st₂, hrun₂, ok₂, htotals₂⟩ :=
      ih (fun a ha => hvalid a (List.mem_cons_of_mem _ ha)) ok₁ (hgood.2 st₁ hrun) htotals₁
    refine ⟨st₂, ?_, ok₂, ?_⟩
    · rw [List.foldlM_cons, hrun]
      exact hrun₂
    · rwa [List.append_assoc, List.singleton_append] at htotals₂

/-- A list has, for a slot, what the grants for it combine to: no entry without a grant, and else one entry. -/
def ExpandTables.Combines (st : ExpandTables γ) (c : Option γ) (s : AvSlot) (grants : List (AvGrant γ)) : Prop :=
  match grants with
  | [] => ∀ n ∈ st.entries c, n.slot ≠ s
  | _ :: _ => ∃ n ∈ st.entries c, n.slot = s ∧ (∀ m ∈ st.entries c, m.slot = s → m = n) ∧
      n.datum.data = combinedData s grants ∧
      (hasSpecified s.specified avtabXperms = true → n.datum.xperms.perms = combinedXperms grants)

instance (st : ExpandTables γ) (c : Option γ) (s : AvSlot) (grants : List (AvGrant γ)) :
    Decidable (st.Combines c s grants) :=
  match grants with
  | [] => inferInstanceAs (Decidable (∀ n ∈ st.entries c, n.slot ≠ s))
  | _ :: _ => inferInstanceAs (Decidable (∃ n ∈ st.entries c, _ ∧ (∀ m ∈ st.entries c, m.slot = s → m = n) ∧
      _ ∧ (_ → _)))

private theorem ExpandTables.HasTotals.combines (h : st.HasTotals grants) (c : Option γ) (s : AvSlot) :
    st.Combines c s (grants.filter fun g => g.cond = c ∧ g.slot = s) := by
  have hscope : grants.filter (fun g => decide (g.scope = (c, s))) =
      grants.filter fun g => decide (g.cond = c ∧ g.slot = s) := by
    refine List.filter_congr fun g _ => decide_eq_decide.2 ?_
    unfold AvGrant.scope
    rw [Prod.mk.injEq]
  rw [← hscope]
  cases hown : grants.filter (fun g => decide (g.scope = (c, s))) with
  | nil =>
    intro n hn hns
    exact h.not_mem (total_eq_none hown) (n := (c, n)) hn (by rw [hns])
  | cons g gs =>
    have htotal := @total_eq_some _ _ _ _ AvGrant.scope (fun s => slotStart s.2) AvGrant.apply grants (c, s)
      (by rw [hown]; exact List.cons_ne_nil g gs)
    have hslot : ∀ a ∈ g :: gs, a.slot = s := fun a ha => by
      rw [← hown, List.mem_filter, decide_eq_true_eq] at ha
      exact (Prod.mk.inj ha.2).2
    rw [hown, foldl_apply_eq hslot] at htotal
    obtain ⟨⟨c', n⟩, hn, hns, hval, hunique⟩ := h.exists_unique htotal
    obtain ⟨rfl, rfl⟩ := Prod.mk.inj hns
    obtain ⟨hdata, hperms⟩ := Prod.mk.inj hval
    refine ⟨n, hn, rfl, fun m hm hms => ?_, hdata, fun hx => ?_⟩
    · exact (Prod.mk.inj (hunique (c', m) hm (by rw [hms]))).2
    · rw [hperms]
      exact funext fun i => if_pos hx

/-- In a run of rules whose grants are good, every list and the unconditional table have at the end, for every slot,
the combination of what the rules of the scope give it. -/
theorem expandAvCalls_combines (disableDontaudit : Bool) (nrules : Nat) (calls : List (AvCall γ)) (hn : nrules ≠ 0)
    (hvalid : ∀ call ∈ calls, IsAvrule call.specified call.xperms)
    (hgood : AvRunGood (calls.flatMap (AvCall.toGrants disableDontaudit)) (expandInit nrules)) :
    ∃ st, expandAvCalls disableDontaudit calls (expandInit nrules) = some st ∧
      ∀ (c : Option γ) (s : AvSlot), st.Combines c s
        ((calls.flatMap (AvCall.toGrants disableDontaudit)).filter fun g => g.cond = c ∧ g.slot = s) := by
  have hvalid' : ∀ g ∈ calls.flatMap (AvCall.toGrants disableDontaudit), g.Valid := by
    intro g hg
    obtain ⟨call, hcall, hg⟩ := List.mem_flatMap.1 hg
    unfold AvCall.toGrants at hg
    split at hg
    · cases hg
    · obtain ⟨cur, -, rfl⟩ := List.mem_map.1 hg
      exact hvalid call hcall
  have hempty : (expandInit nrules : ExpandTables γ).HasTotals [] := Represents.empty fun p hp => by
    rw [entries_expandInit] at hp
    cases hp
  obtain ⟨st, hrun, -, htotals⟩ := avGrants_hasTotals hvalid' (expandInit_ok hn) hgood hempty
  rw [List.nil_append] at htotals
  exact ⟨st, (expandAvCalls_eq ..).trans hrun, fun c s => htotals.combines c s⟩

/-- Two lists of a conditional, each with the same driver, and two `dontaudit` rules of the unconditional table. -/
theorem expandAvCalls_combines_lists :
    ∃ st : ExpandTables Bool, expandAvCalls false
      [⟨avruleXpermsAllowed, some true, 0, 0, [⟨1, 0⟩], true, some ⟨1, 2, fun _ => 1⟩⟩,
        ⟨avruleXpermsAllowed, some false, 0, 0, [⟨1, 0⟩], false, some ⟨1, 2, fun _ => 4⟩⟩,
        ⟨avruleXpermsAllowed, some true, 0, 0, [⟨1, 0⟩], true, some ⟨1, 2, fun _ => 8⟩⟩,
        ⟨avruleDontaudit, none, 0, 0, [⟨1, 2⟩], true, none⟩, ⟨avruleDontaudit, none, 0, 0, [⟨1, 4⟩], true, none⟩]
      (expandInit 1) = some st ∧
      (∃ n ∈ st.entries (some true), n.slot = ⟨1, 1, 1, avtabXpermsAllowed, some (1, 2)⟩ ∧
        n.datum.xperms.perms = fun _ => 9) ∧
      ∃ n ∈ st.entries none, n.slot = ⟨1, 1, 1, avtabAuditdeny, none⟩ ∧ n.datum.data = ~~~6 := by
  obtain ⟨st, hrun, hcombines⟩ := expandAvCalls_combines false 1
    [⟨avruleXpermsAllowed, some true, 0, 0, [⟨1, 0⟩], true, some ⟨1, 2, fun _ => 1⟩⟩,
      ⟨avruleXpermsAllowed, some false, 0, 0, [⟨1, 0⟩], false, some ⟨1, 2, fun _ => 4⟩⟩,
      ⟨avruleXpermsAllowed, some true, 0, 0, [⟨1, 0⟩], true, some ⟨1, 2, fun _ => 8⟩⟩,
      ⟨avruleDontaudit, none, 0, 0, [⟨1, 2⟩], true, none⟩, ⟨avruleDontaudit, none, 0, 0, [⟨1, 4⟩], true, none⟩]
    (by decide) (by simp [IsAvrule]) (by decide +kernel)
  refine ⟨st, hrun, ?_, ?_⟩
  · obtain ⟨n, hn, hslot, -, -, hperms⟩ := hcombines (some true) ⟨1, 1, 1, avtabXpermsAllowed, some (1, 2)⟩
    exact ⟨n, hn, hslot, (hperms (by decide)).trans (by decide)⟩
  · obtain ⟨n, hn, hslot, -, hdata, -⟩ := hcombines none ⟨1, 1, 1, avtabAuditdeny, none⟩
    exact ⟨n, hn, hslot, hdata.trans (by decide)⟩

/-- Driver 2 in the true list, driver 1 in the false list and driver 1 in the true list: the third rule is added to
the entry of driver 2, which has driver 1 and the permissions of both afterwards. -/
theorem expandAvCalls_combines_not :
    ∃ st : ExpandTables Bool, expandAvCalls false
      [⟨avruleXpermsAllowed, some true, 0, 0, [⟨1, 0⟩], true, some ⟨1, 2, fun _ => 1⟩⟩,
        ⟨avruleXpermsAllowed, some false, 0, 0, [⟨1, 0⟩], true, some ⟨1, 1, fun _ => 4⟩⟩,
        ⟨avruleXpermsAllowed, some true, 0, 0, [⟨1, 0⟩], true, some ⟨1, 1, fun _ => 8⟩⟩]
      (expandInit 1) = some st ∧
      ¬ st.Combines (some true) ⟨1, 1, 1, avtabXpermsAllowed, some (1, 2)⟩
        [⟨avruleXpermsAllowed, some true, 0, 0, true, some ⟨1, 2, fun _ => 1⟩, ⟨1, 0⟩⟩] ∧
      ¬ st.Combines (some true) ⟨1, 1, 1, avtabXpermsAllowed, some (1, 1)⟩
        [⟨avruleXpermsAllowed, some true, 0, 0, true, some ⟨1, 1, fun _ => 8⟩, ⟨1, 0⟩⟩] := by
  exact ⟨_, (Option.some_get (by decide +kernel)).symm, by decide +kernel, by decide +kernel⟩

end Sepol
