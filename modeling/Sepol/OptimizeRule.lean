import Sepol.AccessDecision
import Sepol.Optimize

/-!
# Covering one rule

A rule that `process_avtab_datum` calls covered by another one contributes nothing that the other one does not, and
what it takes away from the datum of a rule the other one contributes.  The other rule is for types or attributes that
the type map relates to those of the rule, so it applies wherever the rule does.
-/

namespace Sepol

open Coverage (Covered Shrinks)

variable {p : Policydb} {e q : AvtabNode} {s f g : BitVec 16} {d1 d2 : AvtabDatum} {a : AccessAtom}

/-! ### Specifiers -/

/-- A key has at most one specifier besides the enabled flag. -/
def SingleSpecifier (s : BitVec 16) : Prop :=
  ∀ i < 15, ∀ j < 15, s.getLsbD i = true → s.getLsbD j = true → i = j

theorem hasSpecified_iff : hasSpecified s f = true ↔ ∃ i < 16, s.getLsbD i = true ∧ f.getLsbD i = true := by
  rw [hasSpecified, decide_eq_true_eq, Words.and_ne_zero_iff]

/-- A flag other than the enabled one. -/
def IsFlag (f : BitVec 16) : Prop := f.getLsbD 15 = false

instance (f : BitVec 16) : Decidable (IsFlag f) := inferInstanceAs (Decidable (_ = _))

private theorem AccessAtom.isFlag (a : AccessAtom) : IsFlag a.flag := by
  cases a <;> simp [AccessAtom.flag, IsFlag]

private theorem hasSpecified_flag (hf : IsFlag f) :
    hasSpecified s f = true ↔ ∃ i < 15, s.getLsbD i = true ∧ f.getLsbD i = true := by
  rw [hasSpecified_iff]
  constructor
  · rintro ⟨i, hi, h1, h2⟩
    refine ⟨i, ?_, h1, h2⟩
    by_contra hi15
    obtain rfl : i = 15 := by omega
    rw [hf] at h2
    cases h2
  · rintro ⟨i, hi, h⟩
    exact ⟨i, by omega, h⟩

theorem SingleSpecifier.common (h : SingleSpecifier s) (hf : IsFlag f) (hg : IsFlag g)
    (h1 : hasSpecified s f = true) (h2 : hasSpecified s g = true) : hasSpecified f g = true := by
  obtain ⟨i, hi, hsi, hfi⟩ := (hasSpecified_flag hf).1 h1
  obtain ⟨j, hj, hsj, hgj⟩ := (hasSpecified_flag hg).1 h2
  obtain rfl := h i hi j hj hsi hsj
  exact hasSpecified_iff.2 ⟨i, by omega, hfi, hgj⟩

private theorem xpermsFlag_disjoint (sp : BitVec 16) (hf : avtabXperms &&& f = 0) :
    ¬ hasSpecified (sp &&& avtabXperms) f = true := by
  rw [hasSpecified, BitVec.and_assoc, hf]
  simp

private theorem SingleSpecifier.atom_xperms (h : SingleSpecifier s) (hx : hasSpecified s avtabXperms = true)
    (ha : hasSpecified s a.flag = true) :
    (∃ sp, a = .xpermsRule sp) ∨ ∃ sp kind driver function, a = .xperms sp kind driver function := by
  have hc := h.common a.isFlag (by decide) ha hx
  cases a with
  | allowed k => exact absurd (show hasSpecified avtabAllowed avtabXperms = true from hc) (by decide)
  | auditallow k => exact absurd (show hasSpecified avtabAuditallow avtabXperms = true from hc) (by decide)
  | auditdeny k => exact absurd (show hasSpecified avtabAuditdeny avtabXperms = true from hc) (by decide)
  | xpermsRule sp => exact Or.inl ⟨sp, rfl⟩
  | xperms sp kind driver function => exact Or.inr ⟨sp, kind, driver, function, rfl⟩

private theorem SingleSpecifier.atom_auditdeny (h : SingleSpecifier s) (hx : hasSpecified s avtabAuditdeny = true)
    (ha : hasSpecified s a.flag = true) : ∃ k, a = .auditdeny k := by
  have hc := h.common a.isFlag (by decide) ha hx
  cases a with
  | allowed k => exact absurd (show hasSpecified avtabAllowed avtabAuditdeny = true from hc) (by decide)
  | auditallow k => exact absurd (show hasSpecified avtabAuditallow avtabAuditdeny = true from hc) (by decide)
  | auditdeny k => exact ⟨k, rfl⟩
  | xpermsRule sp => exact absurd hc (xpermsFlag_disjoint sp (by decide))
  | xperms sp kind driver function => exact absurd hc (xpermsFlag_disjoint sp (by decide))

private theorem SingleSpecifier.atom_av (h : SingleSpecifier s) (hx : hasSpecified s avtabAv = true)
    (hno : ¬ hasSpecified s avtabAuditdeny = true) (ha : hasSpecified s a.flag = true) :
    (∃ k, a = .allowed k) ∨ ∃ k, a = .auditallow k := by
  have hc := h.common a.isFlag (by decide) ha hx
  cases a with
  | allowed k => exact Or.inl ⟨k, rfl⟩
  | auditallow k => exact Or.inr ⟨k, rfl⟩
  | auditdeny k => exact absurd ha hno
  | xpermsRule sp => exact absurd hc (xpermsFlag_disjoint sp (by decide))
  | xperms sp kind driver function => exact absurd hc (xpermsFlag_disjoint sp (by decide))

/-- Two keys have the same flags besides the enabled one. -/
def SameFlags (s s' : BitVec 16) : Prop := ∀ f, IsFlag f → (hasSpecified s f = true ↔ hasSpecified s' f = true)

private theorem sameFlags_of_search {s' : BitVec 16} (h : SingleSpecifier s) (h' : SingleSpecifier s')
    (hs : hasSpecified (s &&& ~~~avtabEnabled) s' = true) : SameFlags s s' := by
  obtain ⟨i, hi16, hsi, hi'⟩ := hasSpecified_iff.1 hs
  rw [BitVec.getLsbD_and, Bool.and_eq_true] at hsi
  have hi : i < 15 := by
    by_contra hi15
    obtain rfl : i = 15 := by omega
    exact absurd hsi.2 (by decide)
  intro f hf
  rw [hasSpecified_flag hf, hasSpecified_flag hf]
  constructor
  · rintro ⟨j, hj, hsj, hfj⟩
    obtain rfl := h j hj i hi hsj hsi.1
    exact ⟨j, hj, hi', hfj⟩
  · rintro ⟨j, hj, hsj, hfj⟩
    obtain rfl := h' j hj i hi hsj hi'
    exact ⟨j, hj, hsi.1, hfj⟩

/-! ### The data -/

private theorem processXperms_snd (p1 p2 : Fin extendedPermsLen → BitVec 32) (x : BitVec 8) :
    xpermTest x (processXperms p1 p2).2 = true ↔ xpermTest x p1 = true ∧ xpermTest x p2 = false := by
  have hlt : x.toNat % 32 < 32 := Nat.mod_lt _ (by decide)
  rw [← Bool.not_eq_true, xpermTest_iff, xpermTest_iff, xpermTest_iff]
  simp [processXperms, hlt]

private theorem processXperms_fst {p1 p2 : Fin extendedPermsLen → BitVec 32} (h : (processXperms p1 p2).1 = true)
    (x : BitVec 8) : xpermTest x (processXperms p1 p2).2 = false := by
  rw [Bool.eq_false_iff, Ne, xpermTest_iff]
  simp only [processXperms, List.all_eq_true, decide_eq_true_eq] at h
  simp only [processXperms]
  rw [h _ (List.mem_finRange _)]
  simp

/-- What a step may do with the datum `d1` of a rule with the specifier `s` because of the datum `d2`. -/
structure DatumStep (s : BitVec 16) (d1 d2 : AvtabDatum) (r : Bool × AvtabDatum) : Prop where
  yields_of : ∀ a, hasSpecified s a.flag = true → r.2.Yields a → d1.Yields a
  rest : ∀ a, hasSpecified s a.flag = true → d1.Yields a → d2.Yields a ∨ r.1 = false ∧ r.2.Yields a

private theorem DatumStep.same (s : BitVec 16) (d1 d2 : AvtabDatum) : DatumStep s d1 d2 (false, d1) :=
  ⟨fun _ _ => id, fun _ _ h => Or.inr ⟨rfl, h⟩⟩

/-- The permissions of another rule of the same kind, and of the same driver unless a rule is for whole drivers, are
taken away. -/
private theorem datumStep_xperms (hs : SingleSpecifier s) (hx : hasSpecified s avtabXperms = true)
    (hspec : d1.xperms.specified = d2.xperms.specified)
    (hdriver : d1.xperms.specified = avtabXpermsIoctldriver ∨ d1.xperms.driver = d2.xperms.driver) :
    DatumStep s d1 d2 ((processXperms d1.xperms.perms d2.xperms.perms).1,
      { d1 with xperms := { d1.xperms with perms := (processXperms d1.xperms.perms d2.xperms.perms).2 } }) := by
  have hgrants : ∀ kind driver function, (⟨d1.xperms.specified, d1.xperms.driver,
      (processXperms d1.xperms.perms d2.xperms.perms).2⟩ : AvtabExtendedPerms).Grants kind driver function ↔
      d1.xperms.Grants kind driver function ∧ ¬ d2.xperms.Grants kind driver function := by
    intro kind driver function
    by_cases hd : d1.xperms.specified = avtabXpermsIoctldriver
    · simp only [AvtabExtendedPerms.Grants, hd, hspec ▸ hd, if_true, processXperms_snd]
      rw [← Bool.not_eq_true]
      tauto
    · have hdr := hdriver.resolve_left hd
      have hd2 : ¬ d2.xperms.specified = avtabXpermsIoctldriver := hspec ▸ hd
      simp only [AvtabExtendedPerms.Grants, hd2, if_false, processXperms_snd, hspec, hdr]
      rw [← Bool.not_eq_true]
      tauto
  constructor
  · intro a ha h
    rcases hs.atom_xperms hx ha with ⟨sp, rfl⟩ | ⟨sp, kind, driver, function, rfl⟩
    · trivial
    · exact ((hgrants kind driver function).1 h).1
  · intro a ha h
    rcases hs.atom_xperms hx ha with ⟨sp, rfl⟩ | ⟨sp, kind, driver, function, rfl⟩
    · exact Or.inl trivial
    · by_cases hq : d2.xperms.Grants kind driver function
      · exact Or.inl hq
      · have hleft := (hgrants kind driver function).2 ⟨h, hq⟩
        refine Or.inr ⟨?_, hleft⟩
        rw [Bool.eq_false_iff]
        intro hempty
        have hall := fun x => processXperms_fst hempty x
        simp only [AvtabExtendedPerms.Grants, hall] at hleft
        split at hleft
        · cases hleft.2
        · cases hleft.2.2

private theorem datumStep_driver (hs : SingleSpecifier s) (hx : hasSpecified s avtabXperms = true)
    (h1 : d1.xperms.specified = avtabXpermsIoctlfunction) (h2 : d2.xperms.specified = avtabXpermsIoctldriver) :
    DatumStep s d1 d2 (xpermTest d1.xperms.driver d2.xperms.perms, d1) := by
  refine ⟨fun _ _ => id, fun a ha h => ?_⟩
  cases hdrv : xpermTest d1.xperms.driver d2.xperms.perms with
  | false => exact Or.inr ⟨rfl, h⟩
  | true =>
    refine Or.inl ?_
    rcases hs.atom_xperms hx ha with ⟨sp, rfl⟩ | ⟨sp, kind, driver, function, rfl⟩
    · trivial
    · have hne : ¬ d1.xperms.specified = avtabXpermsIoctldriver := by rw [h1]; decide
      obtain ⟨hk, hd, _⟩ : kind = d1.xperms.specified ∧ d1.xperms.driver = driver ∧ _ := by
        simpa only [AvtabDatum.Yields, AvtabExtendedPerms.Grants, hne, if_false] using h
      change d2.xperms.Grants kind driver function
      rw [AvtabExtendedPerms.Grants, if_pos h2, hk, h1, ← hd]
      exact ⟨rfl, hdrv⟩

/-- The bits that the datum of a rule about the audit of denials does not have. -/
private theorem datumStep_auditdeny (hs : SingleSpecifier s) (hx : hasSpecified s avtabAuditdeny = true) :
    DatumStep s d1 d2 (d1.data ||| ~~~d2.data = 0xFFFFFFFF, { d1 with data := d1.data ||| ~~~d2.data }) := by
  constructor
  · intro a ha h
    obtain ⟨k, rfl⟩ := hs.atom_auditdeny hx ha
    have h : (d1.data ||| ~~~d2.data).getLsbD k = false := h
    rw [BitVec.getLsbD_or, Bool.or_eq_false_iff] at h
    exact h.1
  · intro a ha h
    obtain ⟨k, rfl⟩ := hs.atom_auditdeny hx ha
    have h : d1.data.getLsbD k = false := h
    change d2.data.getLsbD k = false ∨ _ ∧ (d1.data ||| ~~~d2.data).getLsbD k = false
    rw [or_iff_not_imp_left, Bool.not_eq_false]
    intro h2
    have hbit : (d1.data ||| ~~~d2.data).getLsbD k = false := by
      rw [BitVec.getLsbD_or, BitVec.getLsbD_not, h, h2]
      simp
    refine ⟨decide_eq_false fun hall => ?_, hbit⟩
    have hone : ∀ k : Fin 32, (0xFFFFFFFF : BitVec 32).getLsbD k = true := by decide
    rw [hall, hone] at hbit
    cases hbit

/-- The bits that the datum of a rule that allows or audits has. -/
private theorem datumStep_av (hs : SingleSpecifier s) (hx : hasSpecified s avtabAv = true)
    (hno : ¬ hasSpecified s avtabAuditdeny = true) :
    DatumStep s d1 d2 (d1.data &&& ~~~d2.data = 0, { d1 with data := d1.data &&& ~~~d2.data }) := by
  have hbit : ∀ k : Fin 32, (d1.data &&& ~~~d2.data).getLsbD k = true → d1.data.getLsbD k = true := fun k h => by
    rw [BitVec.getLsbD_and, Bool.and_eq_true] at h
    exact h.1
  have hrest : ∀ k : Fin 32, d1.data.getLsbD k = true → d2.data.getLsbD k = true ∨
      decide (d1.data &&& ~~~d2.data = 0) = false ∧ (d1.data &&& ~~~d2.data).getLsbD k = true := fun k h => by
    rw [or_iff_not_imp_left, Bool.not_eq_true]
    intro h2
    have hk : (d1.data &&& ~~~d2.data).getLsbD k = true := by
      rw [BitVec.getLsbD_and, BitVec.getLsbD_not, h, h2]
      simp
    refine ⟨decide_eq_false fun hall => ?_, hk⟩
    rw [hall] at hk
    simp at hk
  constructor
  · intro a ha h
    rcases hs.atom_av hx hno ha with ⟨k, rfl⟩ | ⟨k, rfl⟩
    · exact hbit k h
    · exact hbit k h
  · intro a ha h
    rcases hs.atom_av hx hno ha with ⟨k, rfl⟩ | ⟨k, rfl⟩
    · exact hrest k h
    · exact hrest k h

private theorem processAvtabDatum_step (hs : SingleSpecifier s) (d1 d2 : AvtabDatum) :
    DatumStep s d1 d2 (processAvtabDatum s d1 d2) := by
  rw [processAvtabDatum]
  split
  · exact datumStep_auditdeny hs ‹_›
  · split
    · exact datumStep_av hs ‹_› ‹_›
    · split
      · rename_i hx
        dsimp only
        split
        · rename_i h1
          split
          · rename_i h2
            split
            · exact DatumStep.same s d1 d2
            · rename_i hd
              exact datumStep_xperms hs hx (h1.trans h2.symm) (Or.inr (not_not.1 hd))
          · split
            · rename_i h2
              exact datumStep_driver hs hx h1 h2
            · exact DatumStep.same s d1 d2
        · split
          · rename_i h1
            split
            · exact DatumStep.same s d1 d2
            · split
              · rename_i h2
                exact datumStep_xperms hs hx (h1.trans h2.symm) (Or.inl h1)
              · exact DatumStep.same s d1 d2
          · split
            · rename_i h12
              simp only [Bool.and_eq_true, decide_eq_true_eq] at h12
              split
              · exact DatumStep.same s d1 d2
              · rename_i hd
                exact datumStep_xperms hs hx (h12.1.trans h12.2.symm) (Or.inr (not_not.1 hd))
            · exact DatumStep.same s d1 d2
      · exact DatumStep.same s d1 d2

/-! ### The type map -/

/-- The maps of a policy: those of types and attributes are canonical and inverse to each other, and a type has itself
and attributes. -/
structure TypeMaps (p : Policydb) : Prop where
  typeAttrMap : ∀ i, (p.typeAttrMap i).Canonical
  attrTypeMap : ∀ i, (p.attrTypeMap i).Canonical
  bound : ∀ i, ∀ a ∈ p.typeAttrMap i, a < p.pTypes.nprim
  self : ∀ i, IsType p i → i ∈ p.typeAttrMap i
  attr : ∀ i, IsType p i → ∀ a ∈ p.typeAttrMap i, a = i ∨ IsAttr p a
  dual : ∀ i a, IsType p i → IsAttr p a → (a ∈ p.typeAttrMap i ↔ i ∈ p.attrTypeMap a)

private theorem not_isType_of_isAttr {i : Nat} (h : IsAttr p i) : ¬ IsType p i := by
  obtain ⟨d, hd, hf⟩ := h
  rintro ⟨d', hd', hf'⟩
  obtain rfl := Option.some.inj (hd.symm.trans hd')
  exact hf' hf

private theorem buildTypeMap_lt (h : TypeMaps p) {i k : Nat} (hk : k ∈ buildTypeMap p i) : k < p.pTypes.nprim := by
  rw [buildTypeMap] at hk
  split at hk
  · split at hk
    · cases hk
    · split at hk
      · exact h.bound i k ((mem_ebitmapPositiveBits (h.typeAttrMap i)).1 hk)
      · exact List.mem_range.1 (List.mem_of_mem_filter hk)
  · cases hk

/-- The type map relates a type or attribute to others that every type with the first one has too. -/
private theorem mem_of_buildTypeMap (h : TypeMaps p) {i k t : Nat} (hk : k ∈ buildTypeMap p i) (ht : IsType p t)
    (hi : i ∈ p.typeAttrMap t) : k ∈ p.typeAttrMap t := by
  rw [buildTypeMap] at hk
  split at hk
  · split at hk
    · cases hk
    · rename_i d hd
      split at hk
      · -- a type has no types but itself
        rename_i hflavor
        rcases h.attr t ht i hi with rfl | hattr
        · exact (mem_ebitmapPositiveBits (h.typeAttrMap i)).1 hk
        · exact absurd ⟨d, hd, hflavor⟩ (not_isType_of_isAttr hattr)
      · rename_i hflavor
        simp only [List.mem_filter, Bool.and_eq_true] at hk
        obtain ⟨_, hattr, hcontains⟩ := hk
        have hi' : IsAttr p i := ⟨d, hd, not_not.1 hflavor⟩
        have hk' : IsAttr p k := by
          cases hdk : p.typeValToStruct k with
          | none => simp [isAttrib, hdk] at hattr
          | some d => exact ⟨d, hdk, by simpa [isAttrib, hdk] using hattr⟩
        rw [h.dual t k ht hk']
        exact mem_of_ebitmapContains (h.attrTypeMap k) (h.attrTypeMap i) hcontains ((h.dual t i ht hi').1 hi)
  · cases hk

private theorem mem_of_typeVecContains {v : List Nat} {type : Nat} (h : typeVecContains v type = true) :
    type ∈ v := by
  have hsearch : ∀ fuel s e, typeVecSearch v type fuel s e = true → type ∈ v := by
    intro fuel
    induction fuel with
    | zero => intro s e h; cases h
    | succ fuel ih =>
      intro s e h
      rw [typeVecSearch] at h
      split at h
      · cases h
      · dsimp only at h
        split at h
        · exact List.mem_of_getElem? ‹_›
        · split at h
          · exact ih _ _ h
          · exact ih _ _ h
  exact hsearch _ _ _ h

/-! ### The loops over the covering rules -/

/-- The key of a rule: a single specifier, and types or attributes. -/
structure KeyOk (p : Policydb) (k : AvtabKey) : Prop where
  single : SingleSpecifier k.specified
  source : 1 ≤ k.sourceType.toNat ∧ (IsType p (k.sourceType.toNat - 1) ∨ IsAttr p (k.sourceType.toNat - 1))
  target : 1 ≤ k.targetType.toNat ∧ (IsType p (k.targetType.toNat - 1) ∨ IsAttr p (k.targetType.toNat - 1))

/-- The rule `q` may be used to cover rules with the key `k`. -/
structure MayCover (p : Policydb) (k : AvtabKey) (q : AvtabNode) : Prop where
  source : q.key.sourceType.toNat - 1 ∈ buildTypeMap p (k.sourceType.toNat - 1)
  target : q.key.targetType.toNat - 1 ∈ buildTypeMap p (k.targetType.toNat - 1)
  tclass : q.key.targetClass = k.targetClass
  flags : SameFlags k.specified q.key.specified

private theorem appliesToTypes_congr {x : AccessPoint} (h : q.key = e.key) :
    AppliesToTypes p q x ↔ AppliesToTypes p e x := by
  refine and_congr_right fun _ => and_congr_right fun _ => ?_
  constructor
  · rintro ⟨h1, h2, h3⟩
    exact ⟨h ▸ h1, h ▸ h2, h ▸ h3⟩
  · rintro ⟨h1, h2, h3⟩
    exact ⟨h.symm ▸ h1, h.symm ▸ h2, h.symm ▸ h3⟩

abbrev RuleCovered (p : Policydb) : Set AvtabNode → AvtabNode → Prop :=
  Covered (AppliesToTypes p) AvtabNode.Yields

abbrev RuleShrinks (p : Policydb) : Set AvtabNode → AvtabNode → AvtabNode → Prop :=
  Shrinks (AppliesToTypes p) AvtabNode.Yields

/-- What a function that tries to cover a rule may do with it, when it uses the rules of `Q`. -/
def CoverStep (p : Policydb) (Q : Set AvtabNode) (e : AvtabNode) (r : Bool × AvtabDatum) : Prop :=
  (r.1 = true → RuleCovered p Q e) ∧ (r.1 = false → RuleShrinks p Q e { e with datum := r.2 })

theorem CoverStep.same (p : Policydb) (Q : Set AvtabNode) (e : AvtabNode) : CoverStep p Q e (false, e.datum) :=
  ⟨fun h => (by cases h), fun _ => Shrinks.refl Q e⟩

theorem CoverStep.trans {Q : Set AvtabNode} {r r' : Bool × AvtabDatum} (h : CoverStep p Q e r) (hr : r.1 = false)
    (h' : CoverStep p Q { e with datum := r.2 } r') : CoverStep p Q e r' :=
  ⟨fun hr' => (h.2 hr).covered (h'.1 hr'), fun hr' => (h.2 hr).trans (h'.2 hr')⟩

theorem CoverStep.mono {Q Q' : Set AvtabNode} {r : Bool × AvtabDatum} (h : CoverStep p Q e r) (hsub : Q ⊆ Q') :
    CoverStep p Q' e r :=
  ⟨fun hr => (h.1 hr).mono hsub, fun hr => (h.2 hr).mono hsub⟩

theorem MayCover.applies (hp : TypeMaps p) (hq : MayCover p e.key q) {x : AccessPoint}
    (hx : AppliesToTypes p e x) : AppliesToTypes p q x := by
  obtain ⟨hs, ht, h1, h2, h3⟩ := hx
  exact ⟨hs, ht, mem_of_buildTypeMap hp hq.source hs h1, mem_of_buildTypeMap hp hq.target ht h2, hq.tclass ▸ h3⟩

private theorem coverStep_of_mayCover (hp : TypeMaps p) (he : SingleSpecifier e.key.specified)
    (hq : MayCover p e.key q)
    {Q : Set AvtabNode} (hmem : q ∈ Q) : CoverStep p Q e (processAvtabDatum e.key.specified e.datum q.datum) := by
  have hstep := processAvtabDatum_step he e.datum q.datum
  have hgrant : ∀ {x a}, AppliesToTypes p e x → hasSpecified e.key.specified a.flag = true → q.datum.Yields a →
      RulesGrant p Q x a := fun hx hf hd => ⟨q, hmem, hq.applies hp hx, (hq.flags _ (AccessAtom.isFlag _)).1 hf, hd⟩
  constructor
  · rintro hr x a hx ⟨hf, hd⟩
    rcases hstep.rest a hf hd with h | ⟨h, _⟩
    · exact hgrant hx hf h
    · rw [hr] at h
      cases h
  · intro _
    refine ⟨fun x => appliesToTypes_congr rfl,
      fun a ⟨hf, hd⟩ => ⟨hf, hstep.yields_of a hf hd⟩, fun x a hx ⟨hf, hd⟩ => ?_⟩
    rcases hstep.rest a hf hd with h | ⟨_, h⟩
    · exact Or.inr (hgrant hx hf h)
    · exact Or.inl ⟨hf, h⟩

/-- The loops of `is_avrule_redundant` cover a rule by the rules that the search finds. -/
private theorem avruleRedundantLoop_coverStep (hp : TypeMaps p) (he : SingleSpecifier e.key.specified)
    {Q : Set AvtabNode} {search : AvtabDatum → AvtabKey → Option AvtabNode} {notCond : Bool}
    {pairs : List (Nat × Nat)}
    (hsearch : ∀ d, ∀ st tt q, (st, tt) ∈ pairs →
      ¬ (notCond = true ∧ e.key.sourceType.toNat - 1 = st ∧ e.key.targetType.toNat - 1 = tt) →
      search d { e.key with sourceType := BitVec.ofNat 16 (st + 1), targetType := BitVec.ofNat 16 (tt + 1) } =
        some q →
      q ∈ Q ∧ MayCover p e.key q) (d1 : AvtabDatum) :
    CoverStep p Q { e with datum := d1 } (avruleRedundantLoop e.key search notCond pairs d1) := by
  induction pairs generalizing d1 with
  | nil => exact CoverStep.same p Q { e with datum := d1 }
  | cons st pairs ih =>
    obtain ⟨st, tt⟩ := st
    have ih := ih fun d st tt q hpair => hsearch d st tt q (List.mem_cons_of_mem _ hpair)
    rw [avruleRedundantLoop]
    split
    · exact ih d1
    · rename_i hself
      split
      · exact ih d1
      · rename_i q hq
        have hself : ¬ (notCond = true ∧ e.key.sourceType.toNat - 1 = st ∧ e.key.targetType.toNat - 1 = tt) := by
          simpa [and_assoc] using hself
        obtain ⟨hmem, hcover⟩ := hsearch d1 st tt q (List.mem_cons_self ..) hself hq
        have hstep := @coverStep_of_mayCover p { e with datum := d1 } q hp he hcover Q hmem
        dsimp only at hstep ⊢
        split
        · exact hstep
        · rename_i hr
          exact hstep.trans (Bool.eq_false_iff.2 hr) (ih _)

theorem isAvruleRedundant_coverStep (hp : TypeMaps p) (he : SingleSpecifier e.key.specified) {Q : Set AvtabNode}
    {search : AvtabDatum → AvtabKey → Option AvtabNode} {notCond : Bool}
    (hsearch : ∀ d, ∀ st ∈ buildTypeMap p (e.key.sourceType.toNat - 1),
      ∀ tt ∈ buildTypeMap p (e.key.targetType.toNat - 1),
      ∀ q, ¬ (notCond = true ∧ e.key.sourceType.toNat - 1 = st ∧ e.key.targetType.toNat - 1 = tt) →
      search d { e.key with sourceType := BitVec.ofNat 16 (st + 1), targetType := BitVec.ofNat 16 (tt + 1) } =
        some q →
      q ∈ Q ∧ MayCover p e.key q) :
    CoverStep p Q e (isAvruleRedundant e search (buildTypeMap p) notCond) := by
  rw [isAvruleRedundant]
  split
  · exact CoverStep.same p Q e
  · refine avruleRedundantLoop_coverStep hp he (fun d st tt q hpair => ?_) e.datum
    rw [List.mem_product] at hpair
    exact hsearch d st hpair.1 tt hpair.2 q

/-- The loop of `is_cond_rule_redundant` covers a rule by the rules of the list. -/
private theorem condRuleRedundantLoop_coverStep (hp : TypeMaps p) (he : SingleSpecifier e.key.specified)
    {Q : Set AvtabNode} {tab : Avtab} {list : List Nat}
    (hlist : ∀ addr ∈ list, ∃ q, avtabNodeAt tab addr = some q ∧
      (¬ (e.key.sourceType.toNat - 1 = q.key.sourceType.toNat - 1 ∧
        e.key.targetType.toNat - 1 = q.key.targetType.toNat - 1) → q ∈ Q)) (d1 : AvtabDatum) :
    ∃ r, condRuleRedundantLoop e.key tab (buildTypeMap p) list d1 = some r ∧
      CoverStep p Q { e with datum := d1 } r := by
  induction list generalizing d1 with
  | nil => exact ⟨_, rfl, CoverStep.same p Q { e with datum := d1 }⟩
  | cons addr list ih =>
    have ih := ih fun addr ha => hlist addr (List.mem_cons_of_mem _ ha)
    obtain ⟨q, hq, hmem⟩ := hlist addr (List.mem_cons_self ..)
    rw [condRuleRedundantLoop, hq]
    simp only [Option.bind_eq_bind, Option.bind_some]
    split
    · exact ih d1
    · rename_i hkey
      split
      · exact ih d1
      · rename_i hself
        split
        · exact ih d1
        · rename_i hs
          split
          · exact ih d1
          · rename_i ht
            simp only [Bool.or_eq_true, decide_eq_true_eq, not_or, ne_eq, not_not] at hkey
            have hcover : MayCover p e.key q :=
              ⟨mem_of_typeVecContains (by simpa using hs), mem_of_typeVecContains (by simpa using ht), hkey.2.symm,
                fun f _ => by rw [hkey.1]⟩
            have hstep := @coverStep_of_mayCover p { e with datum := d1 } q hp he hcover Q
              (hmem (by simpa using hself))
            dsimp only at hstep
            split
            · exact ⟨_, rfl, hstep⟩
            · rename_i hr
              obtain ⟨r, hr', hrest⟩ := ih (processAvtabDatum e.key.specified d1 q.datum).2
              exact ⟨r, hr', hstep.trans (Bool.eq_false_iff.2 hr) hrest⟩

theorem isCondRuleRedundant_coverStep (hp : TypeMaps p) (he : SingleSpecifier e.key.specified) {Q : Set AvtabNode}
    {tab : Avtab} {list : List Nat}
    (hlist : ∀ addr ∈ list, ∃ q, avtabNodeAt tab addr = some q ∧
      (¬ (e.key.sourceType.toNat - 1 = q.key.sourceType.toNat - 1 ∧
        e.key.targetType.toNat - 1 = q.key.targetType.toNat - 1) → q ∈ Q)) :
    ∃ r, isCondRuleRedundant e list tab (buildTypeMap p) = some r ∧ CoverStep p Q e r := by
  rw [isCondRuleRedundant]
  split
  · exact ⟨_, rfl, CoverStep.same p Q e⟩
  · exact condRuleRedundantLoop_coverStep hp he hlist e.datum

/-- What a search for the key of a pair of types finds may cover the rule, when all types fit in a key. -/
theorem mayCover_of_search {tab : Avtab} (hp : TypeMaps p) (hfit : TypesFit p)
    (he : SingleSpecifier e.key.specified) {st tt : Nat} (hst : st ∈ buildTypeMap p (e.key.sourceType.toNat - 1))
    (htt : tt ∈ buildTypeMap p (e.key.targetType.toNat - 1))
    (hq : avtabSearch tab { e.key with
      sourceType := BitVec.ofNat 16 (st + 1), targetType := BitVec.ofNat 16 (tt + 1) } = some q)
    (hsingle : SingleSpecifier q.key.specified) :
    MayCover p e.key q ∧ q.key.sourceType.toNat - 1 = st ∧ q.key.targetType.toNat - 1 = tt := by
  rw [avtabSearch, avtabSearchNode, List.head?_eq_some_iff] at hq
  obtain ⟨l, hl⟩ := hq
  obtain ⟨⟨h1, h2, h3⟩, h4⟩ := avtabHit_iff.1 (SortedChain.hit_of_seekUntil hl)
  dsimp only at h1 h2 h3 h4
  have hfit : p.pTypes.nprim ≤ 65535 := hfit
  have hst' := buildTypeMap_lt hp hst
  have htt' := buildTypeMap_lt hp htt
  have hs : q.key.sourceType.toNat - 1 = st := by
    rw [← h1, BitVec.toNat_ofNat, Nat.mod_eq_of_lt (by omega), Nat.add_sub_cancel]
  have ht : q.key.targetType.toNat - 1 = tt := by
    rw [← h2, BitVec.toNat_ofNat, Nat.mod_eq_of_lt (by omega), Nat.add_sub_cancel]
  exact ⟨⟨hs ▸ hst, ht ▸ htt, h3.symm, sameFlags_of_search he hsingle h4⟩, hs, ht⟩

end Sepol
