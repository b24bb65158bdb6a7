import Sepol.CilDeny

/-!
# Deny rules subtract exactly

Each branch writes rules for what is left of the sources and permissions of both rules.  With the rules for the other
permissions and sources, an allow rule is replaced by rules that grant what it granted and the deny rule does not
deny.
-/

namespace Sepol

open Outcome

/-- The rules `r.1` grant what those before granted, and the permissions of `p4` on the pairs of `R`. -/
def Leaves (n : Nat) (free : Prop) (curr : List CilAvrule) (p4 : Option (List CilClassperms)) (R : Nat → Nat → Prop)
    (r : List CilAvrule × CilDb) : Prop :=
  r.2.OkIf n free ∧ RulesOk n r.1 ∧
    ∀ s t x, CilRulesGrant n r.1 s t x ↔ CilRulesGrant n curr s t x ∨ (R s t ∧ x ∈ flatClasspermsList p4)

variable {n : Nat} {free : Prop} {db : CilDb} {curr : List CilAvrule} {s1 s2 : CilDatum} {s3 s4 : Option CilDatum}
  {p4 : Option (List CilClassperms)}

/-! ### The branches -/

private theorem removeOtherFromNotself_spec (hdb : db.OkIf n free) (hcurr : RulesOk n curr) (h2 : s2.Ok n)
    (h4 : CilDatumOk n s4)
    (hs4 : ∀ i, HasType s4 i ↔ s1.Has i ∧ s2.Has i) :
    Ensures (DenyStops free) (Leaves n free curr p4 fun s t => HasType s4 s ∧ (t < n ∧ t ≠ s) ∧ ¬ (s2.Has t ∧ t ≠ s))
      (cilRemoveOtherFromNotself db curr s2 p4 s4) := by
  refine (cilCreateAttributeAllAndNotD_spec hdb h2).bind ?_
  rintro ⟨ta, db⟩ ⟨hdb, hta, htmem⟩
  refine ⟨hdb, hcurr.addDatum h4 hta p4, fun s t x => ?_⟩
  rw [rulesGrant_add, addedPair_datum, htmem]
  refine or_congr_right (and_congr_left fun _ => and_congr_right fun hs => ?_)
  constructor
  · rintro ⟨ht, hnt⟩
    refine ⟨⟨ht, ?_⟩, fun h => hnt h.1⟩
    rintro rfl
    exact hnt ((hs4 _).1 hs).2
  · rintro ⟨⟨ht, hne⟩, h⟩
    exact ⟨ht, fun hnt => h ⟨hnt, hne⟩⟩

private theorem removeDatumFromNotself_spec {t2 : CilDatum} (hdb : db.OkIf n free) (hcurr : RulesOk n curr)
    (ht2 : t2.Ok n)
    (h4 : CilDatumOk n s4) :
    Ensures (DenyStops free) (Leaves n free curr p4 fun s t => HasType s4 s ∧ (t < n ∧ t ≠ s) ∧ ¬ t2.Has t)
      (cilRemoveDatumFromNotself db curr t2 p4 s4) := by
  refine (cilCreateAttributeD1AndNotD2_spec hdb h4 (datumOk_some.2 ht2)).bind ?_
  rintro ⟨s5, db⟩ ⟨hdb, h5, hs5⟩
  refine (cilCreateAttributeD1AndD2_spec hdb h4 (datumOk_some.2 ht2)).bind ?_
  rintro ⟨s6, db⟩ ⟨hdb, h6, hs6⟩
  refine (cilCreateAttributeAllAndNotD_spec hdb ht2).bind ?_
  rintro ⟨ta, db⟩ ⟨hdb, hta, hsta⟩
  refine (cilCreateAttributeD1AndNotD2_spec hdb hta h4).bind ?_
  rintro ⟨tb, db⟩ ⟨hdb, htb, hstb⟩
  refine ⟨hdb, ((hcurr.addDatum h6 hta p4).addDatum h5 htb p4).addOther h5 p4, fun s t x => ?_⟩
  rw [rulesGrant_addOther _ h5, rulesGrant_add, rulesGrant_add, addedPair_datum, addedPair_datum]
  simp only [hs5, hs6, hsta, hstb, hasType_some]
  have hlt : HasType s4 t → t < n := h4.has_lt
  by_cases hst : t = s
  · subst hst
    grind
  · grind

private theorem removeDatumFromOther_spec {t2 : CilDatum} (hdb : db.OkIf n free) (hcurr : RulesOk n curr)
    (h1 : s1.Ok n)
    (ht2 : t2.Ok n) (h3 : CilDatumOk n s3) (h4 : CilDatumOk n s4) (hs3 : ∀ i, HasType s3 i ↔ s1.Has i ∧ ¬ s2.Has i)
    (hs4 : ∀ i, HasType s4 i ↔ s1.Has i ∧ s2.Has i) :
    Ensures (DenyStops free) (Leaves n free curr p4 fun s t => HasType s4 s ∧ (s1.Has t ∧ t ≠ s) ∧ ¬ t2.Has t)
      (cilRemoveDatumFromOther db curr s1 t2 p4 s3 s4) := by
  refine (cilCreateAttributeD1AndNotD2_spec hdb h4 (datumOk_some.2 ht2)).bind ?_
  rintro ⟨s5, db⟩ ⟨hdb, h5, hs5⟩
  refine (cilCreateAttributeD1AndD2_spec hdb h4 (datumOk_some.2 ht2)).bind ?_
  rintro ⟨s6, db⟩ ⟨hdb, h6, hs6⟩
  refine (cilCreateAttributeD1AndNotD2_spec hdb (datumOk_some.2 h1) (datumOk_some.2 ht2)).bind ?_
  rintro ⟨tc, db⟩ ⟨hdb, htc, hstc⟩
  refine (cilCreateAttributeD1AndNotD2_spec hdb h3 (datumOk_some.2 ht2)).bind ?_
  rintro ⟨td, db⟩ ⟨hdb, htd, hstd⟩
  refine ⟨hdb, ((hcurr.addDatum h6 htc p4).addDatum h5 htd p4).addOther h5 p4, fun s t x => ?_⟩
  rw [rulesGrant_addOther _ h5, rulesGrant_add, rulesGrant_add, addedPair_datum, addedPair_datum]
  simp only [hs5, hs6, hstc, hstd, hs3, hs4, hasType_some]
  by_cases hst : t = s
  · subst hst
    grind
  · grind

private theorem removeSpecialFromDatum_spec {t1 : CilDatum} {t2 : CilTarget}
    (ht2 : t2 = .notselftype ∨ t2 = .othertype)
    (hdb : db.OkIf n free) (hcurr : RulesOk n curr) (h2 : s2.Ok n) (ht1 : t1.Ok n) (h4 : CilDatumOk n s4)
    (hs4 : ∀ i, HasType s4 i ↔ s1.Has i ∧ s2.Has i) :
    Ensures (DenyStops free) (Leaves n free curr p4 fun s t => HasType s4 s ∧ t1.Has t ∧ ¬ t2.Covers n s2 s t)
      (cilRemoveSpecialFromDatum db curr t1 s2 t2 p4 s4) := by
  refine (cilCreateAttributeD1AndD2_spec hdb h4 (datumOk_some.2 ht1)).bind ?_
  rintro ⟨s8, db⟩ ⟨hdb, h8, hs8⟩
  have hself : RulesOk n (cilCreateAndAddAvrule curr s8 (some .selftype) p4) := by
    refine hcurr.add h8 ?_ p4
    rintro b hb
    obtain rfl := Option.mem_some_iff.1 hb
    trivial
  rcases ht2 with rfl | rfl
  · refine ⟨hdb, hself, fun s t x => ?_⟩
    rw [rulesGrant_add, addedPair_self]
    simp only [hs8, hasType_some, CilTarget.Covers]
    have hlt : t1.Has t → t < n := ht1.has_lt
    by_cases hst : t = s
    · subst hst
      grind
    · grind
  · dsimp only
    rw [if_neg (by simp)]
    refine (cilCreateAttributeD1AndNotD2_spec hdb (datumOk_some.2 ht1) (datumOk_some.2 h2)).bind ?_
    rintro ⟨tt, db⟩ ⟨hdb, htt, hstt⟩
    refine ⟨hdb, hself.addDatum h4 htt p4, fun s t x => ?_⟩
    rw [rulesGrant_add, rulesGrant_add, addedPair_self, addedPair_datum]
    simp only [hs8, hstt, hs4, hasType_some, CilTarget.Covers]
    by_cases hst : t = s
    · subst hst
      grind
    · grind

private theorem removeDatumFromSelf_spec {t2 : CilDatum} (hdb : db.OkIf n free) (hcurr : RulesOk n curr)
    (ht2 : t2.Ok n)
    (h4 : CilDatumOk n s4) :
    Ensures (DenyStops free) (Leaves n free curr p4 fun s t => HasType s4 s ∧ t = s ∧ ¬ t2.Has t)
      (cilRemoveDatumFromSelf db curr t2 p4 s4) := by
  refine (cilCreateAttributeD1AndNotD2_spec hdb h4 (datumOk_some.2 ht2)).bind ?_
  rintro ⟨s5, db⟩ ⟨hdb, h5, hs5⟩
  refine ⟨hdb, hcurr.add h5 ?_ p4, fun s t x => ?_⟩
  · rintro b hb
    obtain rfl := Option.mem_some_iff.1 hb
    trivial
  · rw [rulesGrant_add, addedPair_self]
    simp only [hs5, hasType_some]
    by_cases hst : t = s
    · subst hst
      grind
    · grind

private theorem removeSelfFromDatum_spec {t1 : CilDatum} (hdb : db.OkIf n free) (hcurr : RulesOk n curr)
    (ht1 : t1.Ok n)
    (h4 : CilDatumOk n s4) :
    Ensures (DenyStops free) (Leaves n free curr p4 fun s t => HasType s4 s ∧ t1.Has t ∧ ¬ t = s)
      (cilRemoveSelfFromDatum db curr t1 p4 s4) := by
  refine (cilCreateAttributeD1AndNotD2_spec hdb h4 (datumOk_some.2 ht1)).bind ?_
  rintro ⟨s7, db⟩ ⟨hdb, h7, hs7⟩
  refine (cilCreateAttributeD1AndD2_spec hdb h4 (datumOk_some.2 ht1)).bind ?_
  rintro ⟨s8, db⟩ ⟨hdb, h8, hs8⟩
  refine (cilCreateAttributeD1AndNotD2_spec hdb (datumOk_some.2 ht1) h4).bind ?_
  rintro ⟨t8, db⟩ ⟨hdb, ht8, hst8⟩
  have hfirst : RulesOk n (cilCreateAndAddAvrule curr s7 (some (.datum t1)) p4) :=
    @RulesOk.addDatum n curr hcurr s7 (some t1) h7 (datumOk_some.2 ht1) p4
  refine ⟨hdb, (hfirst.addDatum h8 ht8 p4).addOther h8 p4, fun s t x => ?_⟩
  rw [rulesGrant_addOther _ h8, rulesGrant_add, rulesGrant_add, addedPair_datum,
    show some (CilTarget.datum t1) = (some t1).map .datum from rfl, addedPair_datum]
  simp only [hs7, hs8, hst8, hasType_some]
  by_cases hst : t = s
  · subst hst
    grind
  · grind

private theorem removeDatumFromDatum_spec {t1 t2 : CilDatum} (hdb : db.OkIf n free) (hcurr : RulesOk n curr)
    (ht1 : t1.Ok n)
    (ht2 : t2.Ok n) (h4 : CilDatumOk n s4) :
    Ensures (DenyStops free) (Leaves n free curr p4 fun s t => HasType s4 s ∧ t1.Has t ∧ ¬ t2.Has t)
      (cilRemoveDatumFromDatum db curr t1 t2 p4 s4) := by
  refine (cilCreateAttributeD1AndNotD2_spec hdb (datumOk_some.2 ht1) (datumOk_some.2 ht2)).bind ?_
  rintro ⟨t3, db⟩ ⟨hdb, ht3, hst3⟩
  refine ⟨hdb, hcurr.addDatum h4 ht3 p4, fun s t x => ?_⟩
  rw [rulesGrant_add, addedPair_datum, hst3]
  simp only [hasType_some]

/-! ### One allow rule and one deny rule -/

/-- `self` is never matched with `notself` or `other`. -/
def TargetsMeet (t1 t2 : CilTarget) : Prop :=
  ¬ (t1 = .selftype ∧ (t2 = .notselftype ∨ t2 = .othertype)) ∧
    ¬ ((t1 = .notselftype ∨ t1 = .othertype) ∧ t2 = .selftype)

private theorem targetsMeet_of_match {t1 t2 : CilTarget} (h : cilTargetsMatchAny s1 t1 s2 t2 = some true) :
    TargetsMeet t1 t2 := by
  cases t1 <;> cases t2 <;> simp [TargetsMeet, cilTargetsMatchAny] at h ⊢

/-- What is left for the sources of both rules, and, for an allow rule with `other`, the pairs of a source of the
allow rule alone and one of both. -/
def LeftPair (n : Nat) (s1 : CilDatum) (t1 : CilTarget) (s2 : CilDatum) (t2 : CilTarget) (s3 s4 : Option CilDatum)
    (s t : Nat) : Prop :=
  (HasType s4 s ∧ t1.Covers n s1 s t ∧ ¬ t2.Covers n s2 s t) ∨ (t1 = .othertype ∧ HasType s3 s ∧ HasType s4 t)

private theorem leaves_congr {R R' : Nat → Nat → Prop} (h : ∀ s t, R s t ↔ R' s t) {r : List CilAvrule × CilDb}
    (hr : Leaves n free curr p4 R r) : Leaves n free curr p4 R' r :=
  ⟨hr.1, hr.2.1, fun s t x => by rw [hr.2.2, h]⟩

private theorem leaves_trans {R R' : Nat → Nat → Prop} {curr' : List CilAvrule}
    (h : ∀ s t x, CilRulesGrant n curr' s t x ↔ CilRulesGrant n curr s t x ∨ (R s t ∧ x ∈ flatClasspermsList p4))
    {r : List CilAvrule × CilDb} (hr : Leaves n free curr' p4 R' r) :
    Leaves n free curr p4 (fun s t => R' s t ∨ R s t) r := by
  refine ⟨hr.1, hr.2.1, fun s t x => ?_⟩
  rw [hr.2.2, h, or_and_right]
  grind

private theorem cilRemoveTargets_spec {t1 t2 : CilTarget} (hmeet : TargetsMeet t1 t2)
    (hself : ¬ ((t1 = .selftype ∧ t2 = .selftype) ∨ (t1 = .notselftype ∧ t2 = .notselftype))) (hdb : db.OkIf n free)
    (hcurr : RulesOk n curr) (h1 : s1.Ok n) (h2 : s2.Ok n) (ht1 : t1.Ok n) (ht2 : t2.Ok n) (h3 : CilDatumOk n s3)
    (h4 : CilDatumOk n s4) (hs3 : ∀ i, HasType s3 i ↔ s1.Has i ∧ ¬ s2.Has i)
    (hs4 : ∀ i, HasType s4 i ↔ s1.Has i ∧ s2.Has i) :
    Ensures (DenyStops free) (Leaves n free curr p4 (LeftPair n s1 t1 s2 t2 s3 s4))
      (cilRemoveTargets db curr s1 t1 s2 t2 p4 s3 s4) := by
  have hpair : t1 ≠ .othertype → ∀ s t, (HasType s4 s ∧ t1.Covers n s1 s t ∧ ¬ t2.Covers n s2 s t) ↔
      LeftPair n s1 t1 s2 t2 s3 s4 s t := by
    intro hne s t
    exact (or_iff_left fun h => hne h.1).symm
  have hcurr' : RulesOk n (cilCreateAndAddAvrule curr s3 (s4.map .datum) p4) := hcurr.addDatum h3 h4 p4
  have hgrant : ∀ s t x, CilRulesGrant n (cilCreateAndAddAvrule curr s3 (s4.map .datum) p4) s t x ↔
      CilRulesGrant n curr s t x ∨ ((HasType s3 s ∧ HasType s4 t) ∧ x ∈ flatClasspermsList p4) := by
    intro s t x
    rw [rulesGrant_add, addedPair_datum]
  cases t1 with
  | selftype =>
    cases t2 with
    | selftype => exact absurd (.inl ⟨rfl, rfl⟩) hself
    | notselftype => exact absurd ⟨rfl, .inl rfl⟩ hmeet.1
    | othertype => exact absurd ⟨rfl, .inr rfl⟩ hmeet.1
    | datum t2 =>
      unfold cilRemoveTargets
      rw [if_neg (by simp)]
      exact (removeDatumFromSelf_spec hdb hcurr ht2 h4).mono fun r => leaves_congr (hpair (by simp))
  | notselftype =>
    unfold cilRemoveTargets
    rw [if_pos (.inl rfl)]
    cases t2 with
    | selftype => exact absurd ⟨.inl rfl, rfl⟩ hmeet.2
    | notselftype => exact absurd (.inr ⟨rfl, rfl⟩) hself
    | othertype =>
      exact (removeOtherFromNotself_spec hdb hcurr h2 h4 hs4).mono fun r => leaves_congr (hpair (by simp))
    | datum t2 =>
      exact (removeDatumFromNotself_spec hdb hcurr ht2 h4).mono fun r => leaves_congr (hpair (by simp))
  | othertype =>
    unfold cilRemoveTargets
    rw [if_pos (.inr (.inl rfl))]
    cases t2 with
    | selftype => exact absurd ⟨.inr rfl, rfl⟩ hmeet.2
    | notselftype =>
      refine ⟨hdb, hcurr', fun s t x => ?_⟩
      rw [hgrant]
      refine or_congr_right (and_congr_left fun _ => ⟨fun h => .inr ⟨rfl, h⟩, ?_⟩)
      rintro (⟨-, ⟨ht, hne⟩, hn⟩ | ⟨-, h⟩)
      · exact absurd ⟨h1.has_lt ht, hne⟩ hn
      · exact h
    | othertype =>
      refine ⟨hdb, hcurr'.addDatum h4 h3 p4, fun s t x => ?_⟩
      rw [rulesGrant_add, addedPair_datum, hgrant, or_assoc, ← or_and_right]
      refine or_congr_right (and_congr_left fun _ => ?_)
      simp only [LeftPair, CilTarget.Covers, hs3, hs4, true_and]
      by_cases hst : t = s
      · subst hst
        grind
      · grind
    | datum t2 =>
      refine (removeDatumFromOther_spec hdb hcurr' h1 ht2 h3 h4 hs3 hs4).mono fun r hr => ?_
      refine leaves_congr (fun s t => ?_) (leaves_trans hgrant hr)
      simp only [LeftPair, CilTarget.Covers, true_and]
  | datum t1 =>
    cases t2 with
    | selftype =>
      unfold cilRemoveTargets
      rw [if_neg (by simp)]
      exact (removeSelfFromDatum_spec hdb hcurr ht1 h4).mono fun r => leaves_congr (hpair (by simp))
    | notselftype =>
      unfold cilRemoveTargets
      rw [if_pos (.inr (.inr (.inl rfl)))]
      exact (removeSpecialFromDatum_spec (.inl rfl) hdb hcurr h2 ht1 h4 hs4).mono fun r =>
        leaves_congr (hpair (by simp))
    | othertype =>
      unfold cilRemoveTargets
      rw [if_pos (.inr (.inr (.inr rfl)))]
      exact (removeSpecialFromDatum_spec (.inr rfl) hdb hcurr h2 ht1 h4 hs4).mono fun r =>
        leaves_congr (hpair (by simp))
    | datum t2 =>
      unfold cilRemoveTargets
      rw [if_neg (by simp)]
      exact (removeDatumFromDatum_spec hdb hcurr ht1 ht2 h4).mono fun r => leaves_congr (hpair (by simp))

/-- The pairs of the allow rule that are not those of the deny rule, by their source. -/
private theorem leftPair_iff {t1 t2 : CilTarget} (hs3 : ∀ i, HasType s3 i ↔ s1.Has i ∧ ¬ s2.Has i)
    (hs4 : ∀ i, HasType s4 i ↔ s1.Has i ∧ s2.Has i) (s t : Nat) :
    AddedPair n s3 (some t1) s t ∨ LeftPair n s1 t1 s2 t2 s3 s4 s t ↔
      RulePair n s1 t1 s t ∧ ¬ RulePair n s2 t2 s t := by
  cases t1 with
  | selftype =>
    rw [addedPair_self]
    simp only [LeftPair, RulePair, CilTarget.Covers, hs3, hs4]
    grind
  | notselftype =>
    rw [addedPair_notself]
    simp only [LeftPair, RulePair, CilTarget.Covers, hs3, hs4]
    grind
  | othertype =>
    rw [addedPair_other]
    simp only [LeftPair, RulePair, CilTarget.Covers, hs3, hs4]
    by_cases hst : t = s
    · subst hst
      grind
    · grind
  | datum t1 =>
    rw [show some (CilTarget.datum t1) = (some t1).map .datum from rfl, addedPair_datum]
    simp only [LeftPair, RulePair, CilTarget.Covers, hs3, hs4, hasType_some]
    grind

private theorem keepPermissions_spec {allow : CilAvrule} (hallow : allow.Ok n) (p3 : Option (List CilClassperms)) :
    RulesOk n (cilKeepPermissions allow p3) ∧ ∀ s t x, CilRulesGrant n (cilKeepPermissions allow p3) s t x ↔
      RulePair n allow.src allow.tgt s t ∧ x ∈ flatClasspermsList p3 := by
  rw [cilKeepPermissions]
  split
  · rename_i hempty
    refine ⟨by simp [RulesOk], fun s t x => iff_of_false rulesGrant_nil ?_⟩
    rintro ⟨-, hx⟩
    rw [flatClasspermsList, List.isEmpty_iff.1 hempty] at hx
    simp [flatClassperms] at hx
  · refine ⟨RulesOk.add (by simp [RulesOk]) (datumOk_some.2 hallow.1) ?_ p3, fun s t x => ?_⟩
    · rintro b hb
      obtain rfl := Option.mem_some_iff.1 hb
      exact hallow.2
    · rw [rulesGrant_add, or_iff_right rulesGrant_nil]
      simp [AddedPair]

private theorem match_of_cilFindMatchingAvrule {allow : CilAvrule} {deny : CilDenyRule}
    (h : cilFindMatchingAvrule allow deny.target = some true) :
    TargetsMeet allow.tgt deny.tgt ∧ ∃ x ∈ flatClasspermsList allow.classperms,
      x ∈ flatClassperms deny.classperms := by
  rw [cilFindMatchingAvrule] at h
  split at h
  · cases h
  · split at h
    · cases h
    · split at h
      · cases h
      · obtain ⟨rc, hrc, hand⟩ := Option.map_eq_some_iff.1 h
        rw [Bool.and_eq_true] at hand
        rw [findClasspermsListMatchAny_eq, classpermsMatchAny_iff] at hand
        exact ⟨targetsMeet_of_match (hand.1 ▸ hrc), hand.2⟩

private theorem split_permissions {P1 P2 A L x1 x2 : Prop} (h : A ∨ L ↔ P1 ∧ ¬ P2) :
    ((P1 ∧ x1 ∧ ¬ x2) ∨ (A ∧ x1 ∧ x2)) ∨ (L ∧ x1 ∧ x2) ↔ (P1 ∧ x1) ∧ ¬ (P2 ∧ x2) := by
  grind

/-- An allow rule that matches a deny rule is replaced by rules that grant what it granted and is not denied. -/
theorem cilRemovePermissionsFromRule_spec {allow : CilAvrule} {deny : CilDenyRule} (hdb : db.OkIf n free)
    (hallow : allow.Ok n) (hdeny : deny.Ok n) (hmatch : cilFindMatchingAvrule allow deny.target = some true) :
    Ensures (DenyStops free) (fun r => r.2.OkIf n free ∧ RulesOk n r.1 ∧
      ∀ s t x, CilRulesGrant n r.1 s t x ↔ allow.Grants n s t x ∧ ¬ deny.Denies n s t x)
      (cilRemovePermissionsFromRule db allow deny) := by
  obtain ⟨hmeet, x, hx1, hx2⟩ := match_of_cilFindMatchingAvrule hmatch
  have hp4 := mem_flat_cilClasspermsListAnd allow.classperms (some deny.classperms)
  have hp3 := mem_flat_cilClasspermsListAndnot allow.classperms (some deny.classperms)
  obtain ⟨hkeepOk, hkeep⟩ :=
    keepPermissions_spec hallow (cilClasspermsListAndnot allow.classperms (some deny.classperms))
  have hx4 := (hp4 x).2 ⟨hx1, hx2⟩
  unfold cilRemovePermissionsFromRule
  dsimp only
  generalize cilClasspermsListAnd allow.classperms (some deny.classperms) = p4 at hp4 hx4 ⊢
  have hsome : ¬ (p4.getD []).isEmpty = true := by
    intro h
    rw [flatClasspermsList, List.isEmpty_iff.1 h] at hx4
    simp [flatClassperms] at hx4
  rw [if_neg hsome]
  have h1 : CilDatumOk n (some allow.src) := datumOk_some.2 hallow.1
  have h2 : CilDatumOk n (some deny.src) := datumOk_some.2 hdeny.1
  refine (cilCreateAttributeD1AndNotD2_spec hdb h1 h2).bind ?_
  rintro ⟨s3, db⟩ ⟨hdb, h3, hs3⟩
  simp only [hasType_some] at hs3
  have hcurrOk : RulesOk n (cilCreateAndAddAvrule (cilKeepPermissions allow
      (cilClasspermsListAndnot allow.classperms (some deny.classperms))) s3 (some allow.tgt) p4) := by
    refine hkeepOk.add h3 ?_ p4
    rintro b hb
    obtain rfl := Option.mem_some_iff.1 hb
    exact hallow.2
  -- the rules written so far are for other permissions, or for sources of the allow rule alone
  have hcurr : ∀ s t x, CilRulesGrant n (cilCreateAndAddAvrule (cilKeepPermissions allow
      (cilClasspermsListAndnot allow.classperms (some deny.classperms))) s3 (some allow.tgt) p4) s t x ↔
      (RulePair n allow.src allow.tgt s t ∧ x ∈ flatClasspermsList allow.classperms ∧
        x ∉ flatClassperms deny.classperms) ∨
      (AddedPair n s3 (some allow.tgt) s t ∧ x ∈ flatClasspermsList p4) := by
    intro s t x
    rw [rulesGrant_add, hkeep, hp3]
    rfl
  generalize cilCreateAndAddAvrule (cilKeepPermissions allow
    (cilClasspermsListAndnot allow.classperms (some deny.classperms))) s3 (some allow.tgt) p4 = curr
      at hcurrOk hcurr ⊢
  dsimp only
  split
  · rename_i hsame
    refine ⟨hdb, hcurrOk, fun s t x => ?_⟩
    have hpair : AddedPair n s3 (some allow.tgt) s t ↔
        RulePair n allow.src allow.tgt s t ∧ ¬ RulePair n deny.src deny.tgt s t := by
      rcases hsame with ⟨h1, h2⟩ | ⟨h1, h2⟩
      · rw [h1, h2, addedPair_self, hs3]
        simp only [RulePair, CilTarget.Covers]
        grind
      · rw [h1, h2, addedPair_notself, hs3]
        simp only [RulePair, CilTarget.Covers]
        grind
    rw [hcurr, hp4]
    have hsplit := @split_permissions _ _ _ False (x ∈ flatClasspermsList allow.classperms)
      (x ∈ flatClassperms deny.classperms) ((or_iff_left id).trans hpair)
    rwa [or_iff_left (fun h => h.1)] at hsplit
  · rename_i hsame
    refine (cilCreateAttributeD1AndD2_spec hdb h1 h2).bind ?_
    rintro ⟨s4, db⟩ ⟨hdb, h4, hs4⟩
    simp only [hasType_some] at hs4
    refine (cilRemoveTargets_spec hmeet hsame hdb hcurrOk hallow.1 hdeny.1 hallow.2 hdeny.2 h3 h4 hs3 hs4).mono ?_
    rintro r ⟨hrdb, hrok, hr⟩
    refine ⟨hrdb, hrok, fun s t x => ?_⟩
    have hpair := @leftPair_iff n allow.src deny.src s3 s4 allow.tgt deny.tgt hs3 hs4 s t
    rw [hr, hcurr, hp4]
    exact split_permissions hpair

end Sepol
