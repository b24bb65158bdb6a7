import Sepol.Assertion

/-!
# Violated neverallow rules

What a plain neverallow rule forbids: an entry that allows one of its permissions to one of its sources on one of its
targets.  `check_assertion` works on the sets of the rule and of the key of an entry; its verdict is whether there is
such a pair of types.
-/

namespace Sepol

variable {p : Policydb} {narule : Avrule} {k : AvtabKey} {d : AvtabDatum} {a : AvtabMatchArgs}

/-- Type `t` is a target of the rule for the source `s`. -/
def Targets (narule : Avrule) (s t : Nat) : Prop :=
  if narule.isNotself then t ≠ s ∧ ((∀ i, i ∉ narule.ttypes.types) ∨ t ∈ narule.ttypes.types)
  else t ∈ narule.ttypes.types ∨ narule.isSelf = true ∧ t = s

/-- An entry allows permissions of a `class_perm_node` of the rule. -/
structure Grants (narule : Avrule) (k : AvtabKey) (d : AvtabDatum) (cp : ClassPermNode) : Prop where
  allowed : hasSpecified k.specified avtabAllowed = true
  mem : cp ∈ narule.perms
  tclass : cp.tclass = k.targetClass.toNat
  data : cp.data &&& d.data ≠ 0

/-- A pair of types that the rule and the key are for. -/
structure CommonPair (p : Policydb) (narule : Avrule) (k : AvtabKey) (s t : Nat) : Prop where
  covers : Covers p k s t
  source : s ∈ narule.stypes.types
  target : Targets narule s t

/-- An entry, conditional or not, that violates the rule for the types `s` and `t`. -/
structure Violation (p : Policydb) (narule : Avrule) (n : AvtabNode) (cp : ClassPermNode) (s t : Nat) : Prop where
  entry : n ∈ avtabNodes p.teAvtab ∨ n ∈ avtabNodes p.teCondAvtab
  grants : Grants narule n.key n.datum cp
  pair : CommonPair p narule n.key s t

/-- The bitmaps of the map from attributes to types and of the rule are canonical. -/
structure BitmapsOk (p : Policydb) (narule : Avrule) : Prop where
  attrTypeMap : ∀ i, (p.attrTypeMap i).Canonical
  stypes : narule.stypes.types.Canonical
  ttypes : narule.ttypes.types.Canonical

/-- The flags of a rule are none, self or notself. -/
def FlagsOk (narule : Avrule) : Prop := narule.flags = 0 ∨ narule.flags = ruleSelf ∨ narule.flags = ruleNotself

theorem FlagsOk.cases (h : FlagsOk narule) :
    narule.isSelf = false ∧ narule.isNotself = false ∧ narule.flags ≠ ruleSelf ∨
      narule.isSelf = true ∧ narule.isNotself = false ∧ narule.flags = ruleSelf ∨
        narule.isSelf = false ∧ narule.isNotself = true := by
  rcases h with h | h | h <;> simp [Avrule.isSelf, Avrule.isNotself, h]

theorem matchAnyClassPermissions_iff {cps : List ClassPermNode} {cls : Nat} {data : BitVec 32} :
    matchAnyClassPermissions cps cls data = true ↔ ∃ cp ∈ cps, cp.tclass = cls ∧ cp.data &&& data ≠ 0 := by
  simp [matchAnyClassPermissions]

/-! ### The sets of a rule and a key -/

private theorem mem_srcMatches (h : BitmapsOk p narule) (i : Nat) :
    i ∈ srcMatches p narule k ↔ i ∈ narule.stypes.types ∧ i ∈ p.attrTypeMap (k.sourceType.toNat - 1) :=
  mem_ebitmapAnd h.stypes (h.attrTypeMap _) i

theorem srcMatches_canonical (h : BitmapsOk p narule) : (srcMatches p narule k).Canonical :=
  h.stypes.and (h.attrTypeMap _)

/-- The target matches of a notself rule. -/
private theorem notselfMatches (h : BitmapsOk p narule) (target : Nat) :
    let tgt := if ebitmapIsEmpty narule.ttypes.types then ebitmapCpy (p.attrTypeMap target)
      else ebitmapAnd narule.ttypes.types (p.attrTypeMap target)
    tgt.Canonical ∧ ∀ j, j ∈ tgt ↔ j ∈ p.attrTypeMap target ∧
      ((∀ i, i ∉ narule.ttypes.types) ∨ j ∈ narule.ttypes.types) := by
  dsimp only
  cases he : ebitmapIsEmpty narule.ttypes.types with
  | true =>
    have hempty := (ebitmapIsEmpty_iff h.ttypes).1 he
    refine ⟨by simpa using h.attrTypeMap target, fun j => ?_⟩
    simp only [if_true, ebitmapCpy_eq]
    exact ⟨fun hj => ⟨hj, Or.inl hempty⟩, And.left⟩
  | false =>
    have hne : ¬ ∀ i, i ∉ narule.ttypes.types := by
      rw [← ebitmapIsEmpty_iff h.ttypes, he]
      decide
    refine ⟨h.ttypes.and (h.attrTypeMap _), fun j => ?_⟩
    simp only [Bool.false_eq_true, if_false, mem_ebitmapAnd h.ttypes (h.attrTypeMap _), hne, false_or]
    exact and_comm

theorem tgtMatches_canonical (h : BitmapsOk p narule) : (tgtMatches p narule k).Canonical := by
  have hand := h.ttypes.and (h.attrTypeMap (k.targetType.toNat - 1))
  rw [tgtMatches]
  cases narule.isNotself with
  | true => exact (notselfMatches h _).1
  | false =>
    cases narule.isSelf with
    | false => exact hand
    | true =>
      simp only [Bool.false_eq_true, if_false, if_true]
      split
      · exact hand.union ((srcMatches_canonical h).and (h.attrTypeMap _))
      · exact hand

/-- The enumerations of pairs of types meet the pairs that the rule and the key are for; with self they meet only
those of a type with itself. -/
theorem pair_enumerated_iff (h : BitmapsOk p narule) (hf : FlagsOk narule) (s t : Nat) :
    (s ∈ srcMatches p narule k ∧ t ∈ tgtMatches p narule k ∧ skipsPair narule s t = false) ↔
      CommonPair p narule k s t ∧ (narule.isSelf = true → t = s) := by
  have hpair : CommonPair p narule k s t ↔ (s ∈ narule.stypes.types ∧ s ∈ p.attrTypeMap (k.sourceType.toNat - 1)) ∧
      t ∈ p.attrTypeMap (k.targetType.toNat - 1) ∧ Targets narule s t :=
    ⟨fun ⟨⟨h1, h2⟩, h3, h4⟩ => ⟨⟨h3, h1⟩, h2, h4⟩, fun ⟨⟨h3, h1⟩, h2, h4⟩ => ⟨⟨h1, h2⟩, h3, h4⟩⟩
  rw [hpair, mem_srcMatches h, @and_assoc (_ ∧ _) (_ ∧ _)]
  refine and_congr_right fun hs => ?_
  rw [tgtMatches, skipsPair, Targets]
  rcases hf.cases with ⟨hself, hnot, _⟩ | ⟨hself, hnot, _⟩ | ⟨hself, hnot⟩
  · simp [hself, hnot, mem_ebitmapAnd h.ttypes (h.attrTypeMap _), and_comm]
  · have hmem : (t ∈ ebitmapAnd (srcMatches p narule k) (p.attrTypeMap (k.targetType.toNat - 1))) ↔ _ :=
      mem_ebitmapAnd (srcMatches_canonical h) (h.attrTypeMap _) t
    have hcan := (srcMatches_canonical h (k := k)).and (h.attrTypeMap (k.targetType.toNat - 1))
    simp only [hself, hnot, Bool.false_eq_true, if_false, if_true, Bool.true_and, Bool.false_and, Bool.or_false,
      decide_eq_false_iff_not, not_not, true_and, true_imp_iff]
    rw [and_assoc]
    constructor
    · rintro ⟨ht, rfl⟩
      refine ⟨?_, Or.inr rfl, rfl⟩
      split at ht
      · rw [mem_ebitmapUnion (h.ttypes.and (h.attrTypeMap _)) hcan, hmem,
          mem_ebitmapAnd h.ttypes (h.attrTypeMap _)] at ht
        tauto
      · exact ((mem_ebitmapAnd h.ttypes (h.attrTypeMap _) _).1 ht).2
    · rintro ⟨ht, _, rfl⟩
      have hself : t ∈ ebitmapAnd (srcMatches p narule k) (p.attrTypeMap (k.targetType.toNat - 1)) :=
        hmem.2 ⟨(mem_srcMatches h t).2 hs, ht⟩
      have hne : ¬ ebitmapIsEmpty (ebitmapAnd (srcMatches p narule k) (p.attrTypeMap (k.targetType.toNat - 1))) :=
        fun he => (ebitmapIsEmpty_iff hcan).1 he t hself
      rw [if_pos (by simpa using hne)]
      exact ⟨(mem_ebitmapUnion (h.ttypes.and (h.attrTypeMap _)) hcan _).2 (Or.inr hself), rfl⟩
  · simp only [hself, hnot, if_true, (notselfMatches h _).2]
    simp only [Bool.false_and, Bool.true_and, Bool.false_or, decide_eq_false_iff_not, Bool.false_eq_true,
      false_imp_iff, and_true, ne_comm (a := s)]
    tauto

/-! ### The fast pass on an entry -/

private theorem checkAssertionNotselfMatch_iff (h : BitmapsOk p narule) (hnot : narule.isNotself = true) :
    checkAssertionNotselfMatch k narule p ≠ 0 ↔ ∃ s t, CommonPair p narule k s t := by
  have hsrc := srcMatches_canonical h (k := k)
  obtain ⟨htgt, hmem⟩ := notselfMatches h (k.targetType.toNat - 1)
  have hpair : (∃ s t, CommonPair p narule k s t) ↔ ∃ s ∈ srcMatches p narule k, ∃ t, t ≠ s ∧
      t ∈ (if ebitmapIsEmpty narule.ttypes.types then ebitmapCpy (p.attrTypeMap (k.targetType.toNat - 1))
        else ebitmapAnd narule.ttypes.types (p.attrTypeMap (k.targetType.toNat - 1))) := by
    refine exists_congr fun s => ?_
    simp only [mem_srcMatches h, hmem]
    constructor
    · rintro ⟨t, ⟨h1, h2⟩, h3, h4⟩
      rw [Targets, if_pos hnot] at h4
      exact ⟨⟨h3, h1⟩, t, h4.1, h2, h4.2⟩
    · rintro ⟨⟨h3, h1⟩, t, hne, h2, h4⟩
      exact ⟨t, ⟨h1, h2⟩, h3, by rw [Targets, if_pos hnot]; exact ⟨hne, h4⟩⟩
  have hdef : ebitmapAnd narule.stypes.types (p.attrTypeMap (k.sourceType.toNat - 1)) = srcMatches p narule k := rfl
  rw [hpair, checkAssertionNotselfMatch, hdef]
  generalize (if ebitmapIsEmpty narule.ttypes.types then ebitmapCpy (p.attrTypeMap (k.targetType.toNat - 1))
    else ebitmapAnd narule.ttypes.types (p.attrTypeMap (k.targetType.toNat - 1))) = tgt at *
  generalize srcMatches p narule k = src at *
  have hzero : ∀ {e : Ebitmap}, e.Canonical → (ebitmapCardinality e ≠ 0 ↔ ∃ i, i ∈ e) := fun he => by
    rw [Ne, ebitmapCardinality_eq_zero_iff he, not_forall_not]
  by_cases h0 : ebitmapCardinality src = 0 ∨ ebitmapCardinality tgt = 0
  · rw [if_pos (by simpa using h0)]
    refine iff_of_false (by simp) ?_
    rintro ⟨s, hs, t, _, ht⟩
    rcases h0 with h0 | h0
    · exact (ebitmapCardinality_eq_zero_iff hsrc).1 h0 s hs
    · exact (ebitmapCardinality_eq_zero_iff htgt).1 h0 t ht
  · rw [if_neg (by simpa using h0)]
    obtain ⟨⟨s, hs⟩, ⟨t, ht⟩⟩ := (not_or.1 h0).imp (hzero hsrc).1 (hzero htgt).1
    by_cases h1 : ebitmapCardinality src = 1 ∧ ebitmapCardinality tgt = 1 ∧
        ebitmapCardinality (ebitmapAnd src tgt) = 1
    · rw [if_pos (by simpa [and_assoc] using h1)]
      refine iff_of_false (by simp) ?_
      -- both sets have one type, and it is the same one
      obtain ⟨x, hx⟩ := (ebitmapCardinality_eq_one_iff hsrc).1 h1.1
      obtain ⟨y, hy⟩ := (ebitmapCardinality_eq_one_iff htgt).1 h1.2.1
      obtain ⟨z, hz⟩ := (ebitmapCardinality_eq_one_iff (hsrc.and htgt)).1 h1.2.2
      have hzz := (mem_ebitmapAnd hsrc htgt z).1 ((hz z).2 rfl)
      rintro ⟨s, hs, t, hne, ht⟩
      rw [hx] at hs hzz
      rw [hy] at ht hzz
      omega
    · rw [if_neg (by simpa [and_assoc] using h1)]
      refine iff_of_true (by simp) ?_
      by_contra hno
      have hall : ∀ s ∈ src, ∀ t ∈ tgt, t = s := fun s hs t ht => by
        by_contra hne
        exact hno ⟨s, hs, t, hne, ht⟩
      have hst := hall s hs t ht
      subst hst
      refine h1 ⟨(ebitmapCardinality_eq_one_iff hsrc).2 ⟨t, fun i => ⟨fun hi => (hall i hi t ht).symm, ?_⟩⟩,
        (ebitmapCardinality_eq_one_iff htgt).2 ⟨t, fun i => ⟨fun hi => hall t hs i hi, ?_⟩⟩,
        (ebitmapCardinality_eq_one_iff (hsrc.and htgt)).2 ⟨t, fun i => ?_⟩⟩
      · rintro rfl; exact hs
      · rintro rfl; exact ht
      · rw [mem_ebitmapAnd hsrc htgt]
        exact ⟨fun hi => hall t hs i hi.2, by rintro rfl; exact ⟨hs, ht⟩⟩

private theorem checkAssertionSelfMatch_iff (h : BitmapsOk p narule) :
    checkAssertionSelfMatch k narule p ≠ 0 ↔
      ∃ s ∈ narule.stypes.types, s ∈ p.attrTypeMap (k.sourceType.toNat - 1) ∧
        s ∈ p.attrTypeMap (k.targetType.toNat - 1) := by
  have hmatch := ebitmapMatchAny_iff (srcMatches_canonical h (k := k)) (h.attrTypeMap (k.targetType.toNat - 1))
  rw [checkAssertionSelfMatch]
  change (if !ebitmapMatchAny (srcMatches p narule k) _ then _ else _) ≠ 0 ↔ _
  cases hm : ebitmapMatchAny (srcMatches p narule k) (p.attrTypeMap (k.targetType.toNat - 1)) with
  | false =>
    rw [hm] at hmatch
    refine iff_of_false (by simp) ?_
    rintro ⟨s, h1, h2, h3⟩
    exact absurd (hmatch.2 ⟨s, (mem_srcMatches h s).2 ⟨h1, h2⟩, h3⟩) (by decide)
  | true =>
    obtain ⟨s, h1, h2⟩ := hmatch.1 hm
    rw [mem_srcMatches h] at h1
    exact iff_of_true (by simp) ⟨s, h1.1, h1.2, h2⟩

/-- The two tests on the sets of the rule and the key find out whether they have a pair of types in common. -/
theorem targetMatches_iff (h : BitmapsOk p narule) (hf : FlagsOk narule) :
    (ebitmapMatchAny narule.stypes.types (p.attrTypeMap (k.sourceType.toNat - 1)) = true ∧
      targetMatches k narule p = true) ↔ ∃ s t, CommonPair p narule k s t := by
  have hsrc := ebitmapMatchAny_iff h.stypes (h.attrTypeMap (k.sourceType.toNat - 1))
  have htgt := ebitmapMatchAny_iff h.ttypes (h.attrTypeMap (k.targetType.toNat - 1))
  have hsome : (∃ s t, CommonPair p narule k s t) →
      ebitmapMatchAny narule.stypes.types (p.attrTypeMap (k.sourceType.toNat - 1)) = true := by
    rintro ⟨s, t, ⟨h1, _⟩, h3, _⟩
    exact hsrc.2 ⟨s, h3, h1⟩
  rw [targetMatches]
  rcases hf.cases with ⟨hself, hnot, hflag⟩ | ⟨hself, hnot, hflag⟩ | ⟨hself, hnot⟩
  · simp only [hnot, Bool.false_eq_true, if_false, hflag]
    constructor
    · rintro ⟨hs, ht⟩
      obtain ⟨s, hs1, hs2⟩ := hsrc.1 hs
      obtain ⟨t, ht1, ht2⟩ := htgt.1 (by simpa using ht)
      exact ⟨s, t, ⟨hs2, ht2⟩, hs1, by simp [Targets, hnot, ht1]⟩
    · rintro ⟨s, t, ⟨h1, h2⟩, h3, h4⟩
      have ht : t ∈ narule.ttypes.types := by simpa [Targets, hnot, hself] using h4
      exact ⟨hsrc.2 ⟨s, h3, h1⟩, by simpa using htgt.2 ⟨t, ht, h2⟩⟩
  · simp only [hnot, Bool.false_eq_true, if_false, hflag, if_true]
    constructor
    · rintro ⟨hs, ht⟩
      obtain ⟨s, hs1, hs2⟩ := hsrc.1 hs
      cases hm : ebitmapMatchAny narule.ttypes.types (p.attrTypeMap (k.targetType.toNat - 1)) with
      | true =>
        obtain ⟨t, ht1, ht2⟩ := htgt.1 hm
        exact ⟨s, t, ⟨hs2, ht2⟩, hs1, by simp [Targets, hnot, ht1]⟩
      | false =>
        obtain ⟨s, h1, h2, h3⟩ := (checkAssertionSelfMatch_iff h).1 (by simpa [hm] using ht)
        exact ⟨s, s, ⟨h2, h3⟩, h1, by simp [Targets, hnot, hself]⟩
    · rintro ⟨s, t, ⟨h1, h2⟩, h3, h4⟩
      refine ⟨hsrc.2 ⟨s, h3, h1⟩, ?_⟩
      have ht : t ∈ narule.ttypes.types ∨ t = s := by simpa [Targets, hnot, hself] using h4
      rcases ht with ht | rfl
      · simp [htgt.2 ⟨t, ht, h2⟩]
      · have := (checkAssertionSelfMatch_iff h).2 ⟨t, h3, h1, h2⟩
        simp [this]
  · rw [← checkAssertionNotselfMatch_iff h hnot] at hsome ⊢
    simp only [hnot, if_true, decide_eq_true_eq]
    exact ⟨And.right, fun ht => ⟨hsome ht, ht⟩⟩

/-- The check of an entry for a plain rule. -/
private theorem checkAssertionAvtabMatch_eq (h : BitmapsOk a.p a.narule) (hf : FlagsOk a.narule)
    (hspec : a.narule.specified = avruleNeverallow) [Decidable (∃ cp s t, Grants a.narule k d cp ∧
      CommonPair a.p a.narule k s t)] :
    checkAssertionAvtabMatch k d a =
      (if ∃ cp s t, Grants a.narule k d cp ∧ CommonPair a.p a.narule k s t then 1 else 0, a) := by
  have hiff : (∃ cp s t, Grants a.narule k d cp ∧ CommonPair a.p a.narule k s t) ↔
      hasSpecified k.specified avtabAllowed = true ∧
        matchAnyClassPermissions a.narule.perms k.targetClass.toNat d.data = true ∧
          ebitmapMatchAny a.narule.stypes.types (a.p.attrTypeMap (k.sourceType.toNat - 1)) = true ∧
            targetMatches k a.narule a.p = true := by
    rw [targetMatches_iff h hf, matchAnyClassPermissions_iff]
    constructor
    · rintro ⟨cp, s, t, ⟨h1, h2, h3, h4⟩, hst⟩
      exact ⟨h1, ⟨cp, h2, h3, h4⟩, s, t, hst⟩
    · rintro ⟨h1, ⟨cp, h2, h3, h4⟩, s, t, hst⟩
      exact ⟨cp, s, t, ⟨h1, h2, h3, h4⟩, hst⟩
  have hx : ¬ a.narule.specified = avruleXpermsNeverallow := by rw [hspec]; decide
  rw [checkAssertionAvtabMatch, if_neg hx]
  simp only [hiff]
  cases hasSpecified k.specified avtabAllowed <;>
    cases matchAnyClassPermissions a.narule.perms k.targetClass.toNat d.data <;>
      cases ebitmapMatchAny a.narule.stypes.types (a.p.attrTypeMap (k.sourceType.toNat - 1)) <;>
        cases targetMatches k a.narule a.p <;> simp

/-! ### The fast pass on the tables -/

private theorem avtabMapNodes_check {σ : Type} {apply : AvtabKey → AvtabDatum → σ → Int × σ} {args : σ}
    {P : AvtabKey → AvtabDatum → Prop} [∀ k d, Decidable (P k d)] {l : List AvtabNode}
    (h : ∀ k d, apply k d args = (if P k d then 1 else 0, args)) :
    avtabMapNodes apply l args = (if ∃ n ∈ l, P n.key n.datum then 1 else 0, args) := by
  induction l with
  | nil => simp [avtabMapNodes]
  | cons n l ih =>
    rw [avtabMapNodes, h]
    by_cases hn : P n.key n.datum
    · simp [hn]
    · simp [hn, ih]

open Classical in
theorem checkAssertion_eq (h : BitmapsOk p narule) (hf : FlagsOk narule)
    (hspec : narule.specified = avruleNeverallow) :
    checkAssertion p narule = if ∃ n cp s t, Violation p narule n cp s t then 1 else 0 := by
  have hentry : ∀ conditional, ∀ k d,
      checkAssertionAvtabMatch k d ⟨p, narule, 0, conditional⟩ =
        (if ∃ cp s t, Grants narule k d cp ∧ CommonPair p narule k s t then 1 else 0, ⟨p, narule, 0, conditional⟩) :=
    fun conditional k d => @checkAssertionAvtabMatch_eq k d ⟨p, narule, 0, conditional⟩ h hf hspec _
  have hiff : (∃ n cp s t, Violation p narule n cp s t) ↔
      (∃ n ∈ avtabNodes p.teAvtab, ∃ cp s t, Grants narule n.key n.datum cp ∧ CommonPair p narule n.key s t) ∨
        ∃ n ∈ avtabNodes p.teCondAvtab, ∃ cp s t, Grants narule n.key n.datum cp ∧ CommonPair p narule n.key s t := by
    constructor
    · rintro ⟨n, cp, s, t, hn | hn, hg, hst⟩
      · exact Or.inl ⟨n, hn, cp, s, t, hg, hst⟩
      · exact Or.inr ⟨n, hn, cp, s, t, hg, hst⟩
    · rintro (⟨n, hn, cp, s, t, hg, hst⟩ | ⟨n, hn, cp, s, t, hg, hst⟩)
      · exact ⟨n, cp, s, t, Or.inl hn, hg, hst⟩
      · exact ⟨n, cp, s, t, Or.inr hn, hg, hst⟩
  rw [checkAssertion, avtabMap, avtabMapNodes_check (hentry false), hiff]
  dsimp only
  by_cases h1 : ∃ n ∈ avtabNodes p.teAvtab, ∃ cp s t, Grants narule n.key n.datum cp ∧ CommonPair p narule n.key s t
  · simp only [h1, true_or, if_true]
    rfl
  · rw [if_neg h1, if_pos rfl, avtabMap, avtabMapNodes_check (hentry true)]
    simp only [h1, false_or]

/-- `check_assertion` returns 1 exactly when there is an entry that violates the rule. -/
theorem checkAssertion_eq_one_iff (h : BitmapsOk p narule) (hf : FlagsOk narule)
    (hspec : narule.specified = avruleNeverallow) :
    checkAssertion p narule = 1 ↔ ∃ n cp s t, Violation p narule n cp s t := by
  classical
  rw [checkAssertion_eq h hf hspec]
  split <;> simp_all

/-- A policy with the rule `allow a b : c p`, where every key is a type; `a`, `b`, `c` and `p` have the value 1, 2, 1
and 1. -/
def allowPolicy : Policydb where
  __ := policydbInit
  teAvtab := oneChain [⟨⟨1, 2, 1, avtabAllowed⟩, ⟨1, ⟨0, 0, fun _ => 0⟩⟩, 0⟩]
  typeAttrMap := fun i => ebitmapOfList [i]
  attrTypeMap := fun i => ebitmapOfList [i]

/-- The rule `neverallow a { b self } : c p`. -/
def neverallowBSelf : Avrule where
  specified := avruleNeverallow
  flags := ruleSelf
  stypes := ⟨ebitmapOfList [0]⟩
  ttypes := ⟨ebitmapOfList [1]⟩
  perms := [⟨1, 1⟩]
  xperms := ⟨0, 0, fun _ => 0⟩

theorem bitmapsOk_neverallowBSelf : BitmapsOk allowPolicy neverallowBSelf :=
  ⟨fun _ => ebitmapOfList_canonical _, ebitmapOfList_canonical _, ebitmapOfList_canonical _⟩

theorem checkAssertion_eq_one_iff_bSelf :
    checkAssertion allowPolicy neverallowBSelf = 1 ↔ ∃ n cp s t, Violation allowPolicy neverallowBSelf n cp s t :=
  checkAssertion_eq_one_iff bitmapsOk_neverallowBSelf (Or.inr (Or.inl rfl)) rfl

end Sepol
