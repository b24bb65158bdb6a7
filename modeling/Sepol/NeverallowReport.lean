import Sepol.Neverallow

/-!
# The two passes over neverallow rules

`report_assertion_failures` counts, for every entry that allows a forbidden permission, the pairs of types that it
enumerates, and `check_assertions` adds up these counts after they were converted to an `int`.  With self, the
enumeration drops all pairs of two different types, those of the target set of the rule too; so the verdict is right
when every violated rule is violated for a pair that is shown, and no sum is cut off to zero.
-/

namespace Sepol

variable {p : Policydb} {narule : Avrule} {k : AvtabKey} {d : AvtabDatum} {c : Bool} {e : Nat}

/-- The rule is violated by an entry, for some pair of types. -/
def Violated (p : Policydb) (narule : Avrule) : Prop := ∃ n cp s t, Violation p narule n cp s t

/-- The pairs of types that the report shows for an entry; with self, only those of a type with itself. -/
def shownPairs (p : Policydb) (narule : Avrule) (k : AvtabKey) : Set (Nat × Nat) :=
  {st | CommonPair p narule k st.1 st.2 ∧ (narule.isSelf = true → st.2 = st.1)}

open Classical in
/-- The number of reports for an entry. -/
noncomputable def shownCountAt (p : Policydb) (narule : Avrule) (n : AvtabNode) : Nat :=
  (narule.perms.map fun cp => if Grants narule n.key n.datum cp then (shownPairs p narule n.key).ncard else 0).sum

/-- The number of reports for a rule. -/
noncomputable def shownCount (p : Policydb) (narule : Avrule) : Nat :=
  ((avtabNodes p.teAvtab).map (shownCountAt p narule)).sum +
    ((avtabNodes p.teCondAvtab).map (shownCountAt p narule)).sum

/-! ### Counting -/

private theorem foldl_errors {α : Type} {f : AvtabMatchArgs → α → AvtabMatchArgs} {g : α → Nat} {l : List α}
    (h : ∀ x ∈ l, ∀ e < 2 ^ 64, f ⟨p, narule, e, c⟩ x = ⟨p, narule, uint64 (e + g x), c⟩) (he : e < 2 ^ 64) :
    l.foldl f ⟨p, narule, e, c⟩ = ⟨p, narule, uint64 (e + (l.map g).sum), c⟩ := by
  induction l generalizing e with
  | nil => simp [uint64_of_lt he]
  | cons x l ih =>
    have hlt : uint64 (e + g x) < 2 ^ 64 := Nat.mod_lt _ (by decide)
    rw [List.foldl_cons, h x (List.mem_cons_self ..) e he, ih (fun y hy => h y (List.mem_cons_of_mem _ hy)) hlt]
    simp only [uint64, List.map_cons, List.sum_cons, Nat.mod_add_mod, Nat.add_assoc]

private theorem avtabMapNodes_errors {apply : AvtabKey → AvtabDatum → AvtabMatchArgs → Int × AvtabMatchArgs}
    {g : AvtabNode → Nat} {l : List AvtabNode}
    (h : ∀ n ∈ l, ∀ e < 2 ^ 64, apply n.key n.datum ⟨p, narule, e, c⟩ = (0, ⟨p, narule, uint64 (e + g n), c⟩))
    (he : e < 2 ^ 64) :
    avtabMapNodes apply l ⟨p, narule, e, c⟩ = (0, ⟨p, narule, uint64 (e + (l.map g).sum), c⟩) := by
  induction l generalizing e with
  | nil => simp [avtabMapNodes, uint64_of_lt he]
  | cons x l ih =>
    have hlt : uint64 (e + g x) < 2 ^ 64 := Nat.mod_lt _ (by decide)
    rw [avtabMapNodes, h x (List.mem_cons_self ..) e he]
    simp only [ne_eq, not_true_eq_false, if_false]
    rw [ih (fun y hy => h y (List.mem_cons_of_mem _ hy)) hlt]
    simp only [uint64, List.map_cons, List.sum_cons, Nat.mod_add_mod, Nat.add_assoc]

private theorem reportPair_eq (hspec : narule.specified = avruleNeverallow) (i j : Nat) (he : e < 2 ^ 64) :
    reportPair k i ⟨p, narule, e, c⟩ j =
      ⟨p, narule, uint64 (e + if skipsPair narule i j = false then 1 else 0), c⟩ := by
  have hx : ¬ narule.specified = avruleXpermsNeverallow := by rw [hspec]; decide
  simp only [reportPair, hx, if_false]
  cases skipsPair narule i j <;> simp [uint64_of_lt he]

private theorem sum_row_eq {β : Type} (l : List β) (f : β → Bool) :
    (l.map fun j => if f j = false then 1 else 0).sum = l.countP fun j => !f j := by
  induction l with
  | nil => rfl
  | cons j l ih =>
    rw [List.map_cons, List.sum_cons, List.countP_cons, ih]
    simp [Nat.add_comm]

private theorem sum_count_eq {α β : Type} (l1 : List α) (l2 : List β) (f : α → β → Bool) :
    (l1.map fun i => (l2.map fun j => if f i j = false then 1 else 0).sum).sum =
      ((l1 ×ˢ l2).filter fun x => !f x.1 x.2).length := by
  induction l1 with
  | nil => rfl
  | cons i l1 ih =>
    rw [List.product_cons, List.filter_append, List.length_append, List.map_cons, List.sum_cons, ih, sum_row_eq,
      List.filter_map, List.length_map, ← List.countP_eq_length_filter, ← List.countP_eq_length_filter]
    rfl

open Classical in
private theorem shownPairs_eq (h : BitmapsOk p narule) (hf : FlagsOk narule) (k : AvtabKey) :
    shownPairs p narule k = ((ebitmapPositiveBits (srcMatches p narule k) ×ˢ
      ebitmapPositiveBits (tgtMatches p narule k)).filter fun x => !skipsPair narule x.1 x.2).toFinset := by
  ext ⟨s, t⟩
  simp only [shownPairs, Set.mem_ofPred_eq, ← pair_enumerated_iff h hf, List.coe_toFinset, List.mem_filter,
    List.mem_product, mem_ebitmapPositiveBits (srcMatches_canonical h),
    mem_ebitmapPositiveBits (tgtMatches_canonical h),
    Bool.not_eq_true', and_assoc]

private theorem shownPairs_finite (h : BitmapsOk p narule) (hf : FlagsOk narule) (k : AvtabKey) :
    (shownPairs p narule k).Finite := by
  rw [shownPairs_eq h hf]
  exact Finset.finite_toSet _

private theorem sum_pairs_eq (h : BitmapsOk p narule) (hf : FlagsOk narule) (k : AvtabKey) :
    ((ebitmapPositiveBits (srcMatches p narule k)).map fun i =>
      ((ebitmapPositiveBits (tgtMatches p narule k)).map fun j =>
        if skipsPair narule i j = false then 1 else 0).sum).sum = (shownPairs p narule k).ncard := by
  have hnodup := (ebitmapPositiveBits_nodup (@srcMatches_canonical _ _ k h)).product
    (ebitmapPositiveBits_nodup (@tgtMatches_canonical _ _ k h))
  rw [sum_count_eq, shownPairs_eq h hf, Set.ncard_coe_finset, List.toFinset_card_of_nodup (hnodup.filter _)]

/-- The reporting pass on an entry. -/
private theorem reportAssertionAvtabMatches_eq (h : BitmapsOk p narule) (hf : FlagsOk narule)
    (hspec : narule.specified = avruleNeverallow) (n : AvtabNode) (he : e < 2 ^ 64) :
    reportAssertionAvtabMatches n.key n.datum ⟨p, narule, e, c⟩ =
      (0, ⟨p, narule, uint64 (e + shownCountAt p narule n), c⟩) := by
  classical
  have hnone : shownCountAt p narule n = 0 →
      ((0 : Int), (⟨p, narule, e, c⟩ : AvtabMatchArgs)) = (0, ⟨p, narule, uint64 (e + shownCountAt p narule n), c⟩) :=
    fun h0 => by rw [h0, Nat.add_zero, uint64_of_lt he]
  have hzero : (∀ cp ∈ narule.perms, Grants narule n.key n.datum cp → shownPairs p narule n.key = ∅) →
      shownCountAt p narule n = 0 := fun hall => by
    rw [shownCountAt, List.sum_eq_zero_iff_forall_eq_nat]
    intro x hx
    obtain ⟨cp, hcp, rfl⟩ := List.mem_map.1 hx
    split
    · rename_i hg
      rw [hall cp hcp hg, Set.ncard_empty]
    · rfl
  have hpairs : (∀ s t, ¬ (s ∈ srcMatches p narule n.key ∧ t ∈ tgtMatches p narule n.key)) →
      shownPairs p narule n.key = ∅ := fun hno => by
    ext ⟨s, t⟩
    simp only [shownPairs, Set.mem_ofPred_eq, ← pair_enumerated_iff h hf, Set.mem_empty_iff_false, iff_false]
    exact fun hst => hno s t ⟨hst.1, hst.2.1⟩
  rw [reportAssertionAvtabMatches]
  cases hal : hasSpecified n.key.specified avtabAllowed with
  | false =>
    refine hnone (hzero fun cp _ hg => ?_)
    rw [hg.allowed] at hal
    cases hal
  | true =>
    cases hm : matchAnyClassPermissions narule.perms n.key.targetClass.toNat n.datum.data with
    | false =>
      refine hnone (hzero fun cp hcp hg => ?_)
      rw [matchAnyClassPermissions_iff.2 ⟨cp, hcp, hg.tclass, hg.data⟩] at hm
      cases hm
    | true =>
      simp only [Bool.not_true, Bool.false_eq_true, if_false]
      by_cases hs : ebitmapIsEmpty (srcMatches p narule n.key) = true
      · rw [if_pos hs]
        refine hnone (hzero fun _ _ _ => hpairs fun s t hst => ?_)
        exact (ebitmapIsEmpty_iff (srcMatches_canonical h)).1 hs s hst.1
      · rw [if_neg hs]
        by_cases ht : ebitmapIsEmpty (tgtMatches p narule n.key) = true
        · rw [if_pos ht]
          refine hnone (hzero fun _ _ _ => hpairs fun s t hst => ?_)
          exact (ebitmapIsEmpty_iff (tgtMatches_canonical h)).1 ht t hst.2
        · rw [if_neg ht, shownCountAt]
          refine congrArg (Prod.mk 0) (foldl_errors (fun cp hcp e he => ?_) he)
          by_cases hg : Grants narule n.key n.datum cp
          · rw [if_neg (by simpa [hg.tclass] using hg.data), if_pos hg, ← sum_pairs_eq h hf]
            exact foldl_errors (fun i _ e he => foldl_errors (fun j _ e he => reportPair_eq hspec i j he) he) he
          · rw [if_pos, if_neg hg, Nat.add_zero, uint64_of_lt he]
            simp only [Bool.or_eq_true, decide_eq_true_eq]
            by_contra hno
            rw [not_or, not_not] at hno
            exact hg ⟨hal, hcp, hno.1, hno.2⟩

private theorem reportErrors_eq (h : BitmapsOk p narule) (hf : FlagsOk narule)
    (hspec : narule.specified = avruleNeverallow) : reportErrors p narule = uint64 (shownCount p narule) ∧
      reportAssertionFailures p narule = int32 (uint64 (shownCount p narule)) := by
  have hrun := fun (c : Bool) (l : List AvtabNode) (e : Nat) (he : e < 2 ^ 64) =>
    @avtabMapNodes_errors p narule c e reportAssertionAvtabMatches (shownCountAt p narule) l
      (fun n _ e he => reportAssertionAvtabMatches_eq h hf hspec n he) he
  have h0 := hrun false (avtabNodes p.teAvtab) 0 (by decide)
  have h1 := hrun true (avtabNodes p.teCondAvtab) _ (Nat.mod_lt (0 + ((avtabNodes p.teAvtab).map
    (shownCountAt p narule)).sum) (by decide))
  have hsum : uint64 ((0 + ((avtabNodes p.teAvtab).map (shownCountAt p narule)).sum) % 2 ^ 64 +
      ((avtabNodes p.teCondAvtab).map (shownCountAt p narule)).sum) = uint64 (shownCount p narule) := by
    rw [uint64, Nat.mod_add_mod, Nat.zero_add]
    rfl
  rw [hsum] at h1
  unfold uint64 at h0
  simp only [reportErrors, reportAssertionFailures, avtabMap, h0, h1]
  simp

/-- There is a report exactly when an entry violates the rule for a pair that is shown. -/
private theorem shownCount_pos_iff (h : BitmapsOk p narule) (hf : FlagsOk narule) :
    0 < shownCount p narule ↔ ∃ n cp s t, Violation p narule n cp s t ∧ (narule.isSelf = true → t = s) := by
  have hsum : ∀ l : List AvtabNode, 0 < (l.map (shownCountAt p narule)).sum ↔
    ∃ n ∈ l, ∃ cp, Grants narule n.key n.datum cp ∧
      ∃ s t, CommonPair p narule n.key s t ∧ (narule.isSelf = true → t = s) := by
    intro l
    rw [Nat.pos_iff_ne_zero, Ne, List.sum_eq_zero_iff_forall_eq_nat]
    simp only [List.mem_map, forall_exists_index, and_imp, forall_apply_eq_imp_iff₂, not_forall, exists_prop]
    refine exists_congr fun n => and_congr_right fun _ => ?_
    rw [shownCountAt, List.sum_eq_zero_iff_forall_eq_nat]
    simp only [List.mem_map, forall_exists_index, and_imp, forall_apply_eq_imp_iff₂, not_forall, exists_prop]
    refine exists_congr fun cp => ?_
    have hcard : (shownPairs p narule n.key).ncard = 0 ↔ shownPairs p narule n.key = ∅ :=
      Set.ncard_eq_zero (shownPairs_finite h hf n.key)
    have hne : ¬ shownPairs p narule n.key = ∅ ↔
        ∃ s t, CommonPair p narule n.key s t ∧ (narule.isSelf = true → t = s) := by
      rw [← Ne, ← Set.nonempty_iff_ne_empty]
      exact ⟨fun ⟨⟨s, t⟩, hst⟩ => ⟨s, t, hst⟩, fun ⟨s, t, hst⟩ => ⟨⟨s, t⟩, hst⟩⟩
    by_cases hg : Grants narule n.key n.datum cp
    · simp only [hg, if_true, true_and, hcard, hne, and_iff_right hg.mem]
    · simp [hg]
  rw [shownCount, Nat.add_pos_iff_pos_or_pos, hsum, hsum]
  constructor
  · rintro (⟨n, hn, cp, hg, s, t, hst, hself⟩ | ⟨n, hn, cp, hg, s, t, hst, hself⟩)
    · exact ⟨n, cp, s, t, ⟨Or.inl hn, hg, hst⟩, hself⟩
    · exact ⟨n, cp, s, t, ⟨Or.inr hn, hg, hst⟩, hself⟩
  · rintro ⟨n, cp, s, t, ⟨hn | hn, hg, hst⟩, hself⟩
    · exact Or.inl ⟨n, hn, cp, hg, s, t, hst, hself⟩
    · exact Or.inr ⟨n, hn, cp, hg, s, t, hst, hself⟩

/-! ### The verdict -/

private theorem int32_uint64 (n : Nat) :
    int32 (uint64 n) = if n % 2 ^ 32 < 2 ^ 31 then ((n % 2 ^ 32 : Nat) : Int)
      else ((n % 2 ^ 32 : Nat) : Int) - 2 ^ 32 := by
  rw [int32, uint64, BitVec.toInt_eq_toNat_cond, BitVec.toNat_ofNat]
  have hmod : n % 2 ^ 64 % 2 ^ 32 = n % 2 ^ 32 := Nat.mod_mod_of_dvd n (by decide)
  rw [hmod]
  split <;> split <;> omega

/-- A plain rule with canonical sets. -/
structure PlainRule (p : Policydb) (narule : Avrule) : Prop where
  bitmaps : BitmapsOk p narule
  flags : FlagsOk narule
  specified : narule.specified = avruleNeverallow

private theorem PlainRule.shownCount_eq_zero (h : PlainRule p narule) (hv : ¬ Violated p narule) :
    shownCount p narule = 0 := by
  by_contra hne
  obtain ⟨n, cp, s, t, hvio, _⟩ := (shownCount_pos_iff h.bitmaps h.flags).1 (Nat.pos_of_ne_zero hne)
  exact hv ⟨n, cp, s, t, hvio⟩

/-- The verdict on a list of plain rules depends on the numbers of reports. -/
private theorem checkAssertionsFrom_eq_zero_iff {narules : List Avrule} (h : ∀ r ∈ narules, PlainRule p r)
    (he : e < 2 ^ 64) : checkAssertionsFrom p narules e = 0 ↔ (∀ r ∈ narules, shownCount p r % 2 ^ 32 < 2 ^ 31) ∧
      2 ^ 64 ∣ e + (narules.map fun r => shownCount p r % 2 ^ 32).sum := by
  classical
  induction narules generalizing e with
  | nil =>
    have hdvd : 2 ^ 64 ∣ e ↔ e = 0 := ⟨fun hd => Nat.eq_zero_of_dvd_of_lt hd he, fun h0 => h0 ▸ Nat.dvd_zero _⟩
    simp only [checkAssertionsFrom, List.not_mem_nil, false_imp_iff, implies_true, true_and, List.map_nil,
      List.sum_nil, Nat.add_zero, hdvd]
    split <;> simp_all
  | cons r l ih =>
    have hr := h r (List.mem_cons_self ..)
    have hl := fun r hr => h r (List.mem_cons_of_mem _ hr)
    have hplain : ¬ r.specified &&& (avruleNeverallow ||| avruleXpermsNeverallow) = 0 := by
      rw [hr.specified]
      decide
    rw [checkAssertionsFrom, if_neg hplain, checkAssertion_eq hr.bitmaps hr.flags hr.specified,
      (reportErrors_eq hr.bitmaps hr.flags hr.specified).2, List.forall_mem_cons, List.map_cons, List.sum_cons]
    by_cases hv : ∃ n cp s t, Violation p r n cp s t
    · rw [if_pos hv, int32_uint64]
      by_cases hsmall : shownCount p r % 2 ^ 32 < 2 ^ 31
      · simp only [hsmall, if_true, true_and]
        have hlt : uint64 (e + ((shownCount p r % 2 ^ 32 : Nat) : Int).toNat) < 2 ^ 64 := Nat.mod_lt _ (by decide)
        rw [if_neg (by decide), if_pos (by decide), if_neg (by omega), ih hl hlt, Int.toNat_natCast]
        refine and_congr_right fun _ => ?_
        rw [← Nat.add_assoc, uint64]
        omega
      · simp only [hsmall, if_false, false_and, iff_false]
        rw [if_neg (by decide), if_pos (by decide), if_pos (by omega)]
        decide
    · rw [if_neg hv, hr.shownCount_eq_zero hv]
      simpa using ih hl he

/-- The passes agree on the rules of a list, and the verdict on the list is right. -/
structure PassesAgree (p : Policydb) (narules : List Avrule) : Prop where
  passes : ∀ r ∈ narules, (checkAssertion p r = 1 ↔ 1 ≤ reportErrors p r)
  verdict : checkAssertions p narules = 0 ↔ ∀ r ∈ narules, ¬ Violated p r

/-- Every violated rule with self is violated for a type and itself, and no count of the violations is cut off to
zero: that of a rule as an `unsigned long`, the sum of all of them converted to `int`. -/
structure ViolationsShown (p : Policydb) (narules : List Avrule) : Prop where
  self : ∀ r ∈ narules, r.isSelf = true → Violated p r → ∃ n cp s, Violation p r n cp s s
  count : ∀ r ∈ narules, 0 < shownCount p r → ¬ 2 ^ 64 ∣ shownCount p r
  total : (∃ r ∈ narules, Violated p r) → (∃ r ∈ narules, 2 ^ 31 ≤ shownCount p r % 2 ^ 32) ∨
    ¬ 2 ^ 64 ∣ (narules.map fun r => shownCount p r % 2 ^ 32).sum

theorem passesAgree_iff {narules : List Avrule} (h : ∀ r ∈ narules, PlainRule p r) :
    PassesAgree p narules ↔ ViolationsShown p narules := by
  have hfast : ∀ r ∈ narules, (checkAssertion p r = 1 ↔ Violated p r) := fun r hr => by
    classical
    rw [checkAssertion_eq (h r hr).bitmaps (h r hr).flags (h r hr).specified]
    change (if Violated p r then (1 : Int) else 0) = 1 ↔ _
    split <;> simp_all
  have hslow : ∀ r ∈ narules, (1 ≤ reportErrors p r ↔ ¬ 2 ^ 64 ∣ shownCount p r) := fun r hr => by
    rw [(reportErrors_eq (h r hr).bitmaps (h r hr).flags (h r hr).specified).1, uint64, Nat.dvd_iff_mod_eq_zero]
    omega
  have hpos : ∀ r ∈ narules, (0 < shownCount p r ↔
      ∃ n cp s t, Violation p r n cp s t ∧ (r.isSelf = true → t = s)) := fun r hr =>
    shownCount_pos_iff (h r hr).bitmaps (h r hr).flags
  -- no violation, no report
  have hzero : ∀ r ∈ narules, ¬ Violated p r → shownCount p r = 0 := fun r hr => (h r hr).shownCount_eq_zero
  have hverdict : checkAssertions p narules = 0 ↔ _ := checkAssertionsFrom_eq_zero_iff h (by decide : 0 < 2 ^ 64)
  rw [Nat.zero_add] at hverdict
  constructor
  · rintro ⟨hp, hv⟩
    have hshown : ∀ r ∈ narules, Violated p r → ¬ 2 ^ 64 ∣ shownCount p r := fun r hr hvio =>
      (hslow r hr).1 ((hp r hr).1 ((hfast r hr).2 hvio))
    refine ⟨fun r hr hself hvio => ?_, fun r hr hcount => ?_, fun ⟨r, hr, hvio⟩ => ?_⟩
    · have hne : shownCount p r ≠ 0 := fun h0 => hshown r hr hvio (h0 ▸ Nat.dvd_zero _)
      obtain ⟨n, cp, s, t, hst, hts⟩ := (hpos r hr).1 (Nat.pos_of_ne_zero hne)
      obtain rfl := hts hself
      exact ⟨n, cp, t, hst⟩
    · obtain ⟨n, cp, s, t, hst, _⟩ := (hpos r hr).1 hcount
      exact hshown r hr ⟨n, cp, s, t, hst⟩
    · by_contra hno
      rw [not_or, not_not] at hno
      refine (hv.1 (hverdict.2 ⟨fun r hr => ?_, hno.2⟩)) r hr hvio
      by_contra hlarge
      exact hno.1 ⟨r, hr, by omega⟩
  · rintro ⟨hself, hcount, htotal⟩
    refine ⟨fun r hr => ?_, hverdict.trans ?_⟩
    · rw [hfast r hr, hslow r hr]
      constructor
      · intro hvio
        refine hcount r hr ((hpos r hr).2 ?_)
        cases hs : r.isSelf with
        | true =>
          obtain ⟨n, cp, s, hst⟩ := hself r hr hs hvio
          exact ⟨n, cp, s, s, hst, fun _ => rfl⟩
        | false =>
          obtain ⟨n, cp, s, t, hst⟩ := hvio
          exact ⟨n, cp, s, t, hst, fun e => by cases e⟩
      · intro hd
        by_contra hvio
        exact hd (hzero r hr hvio ▸ Nat.dvd_zero _)
    · constructor
      · rintro ⟨hsmall, hsum⟩ r hr hvio
        rcases htotal ⟨r, hr, hvio⟩ with ⟨r', hr', hlarge⟩ | hsum'
        · exact absurd (hsmall r' hr') (by omega)
        · exact hsum' hsum
      · intro hno
        have hall : ∀ r ∈ narules, shownCount p r = 0 := fun r hr => hzero r hr (hno r hr)
        refine ⟨fun r hr => by rw [hall r hr]; decide, ?_⟩
        rw [List.sum_eq_zero_iff_forall_eq_nat.2]
        · exact Nat.dvd_zero _
        · intro x hx
          obtain ⟨r, hr, rfl⟩ := List.mem_map.1 hx
          rw [hall r hr]
          rfl

private theorem plainRule_neverallowBSelf : PlainRule allowPolicy neverallowBSelf :=
  ⟨bitmapsOk_neverallowBSelf, Or.inr (Or.inl rfl), rfl⟩

theorem passesAgree_iff_bSelf :
    PassesAgree allowPolicy [neverallowBSelf] ↔ ViolationsShown allowPolicy [neverallowBSelf] :=
  passesAgree_iff fun r hr => by
    obtain rfl := List.mem_singleton.1 hr
    exact plainRule_neverallowBSelf

/-- The rule `neverallow a { b self }` is violated by `allow a b`, but nothing is reported. -/
theorem report_misses_bSelf :
    ¬ ∀ (p : Policydb) (narules : List Avrule), (∀ r ∈ narules, PlainRule p r) → PassesAgree p narules := by
  intro h
  have hall : ∀ r ∈ [neverallowBSelf], PlainRule allowPolicy r := fun r hr => by
    obtain rfl := List.mem_singleton.1 hr
    exact plainRule_neverallowBSelf
  have hfast : checkAssertion allowPolicy neverallowBSelf = 1 := by decide +kernel
  have hslow : reportErrors allowPolicy neverallowBSelf = 0 := by decide +kernel
  have := ((h _ _ hall).passes neverallowBSelf (List.mem_singleton_self _)).1 hfast
  omega

end Sepol
