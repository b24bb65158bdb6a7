import Sepol.EbitmapRun

/-!
# Bitmap predicates and sets

What the predicates of `ebitmap.c` say about the sets that canonical bitmaps denote.
-/

namespace Sepol

/-- The loop `while (map >>= 1) pos++`; a map has 64 bits. -/
def highestBit : Nat → BitVec 64 → Nat
  | 0, _ => 0
  | rounds + 1, map => if map >>> 1 ≠ 0 then highestBit rounds (map >>> 1) + 1 else 0

/-- `ebitmap_highest_set_bit`. -/
def ebitmapHighestSetBit (e : Ebitmap) : Nat :=
  match e.node.getLast? with
  | none => 0
  | some n => uint32 (n.startbit + highestBit 64 n.map)

/-- `ebitmap_hamming_distance`; the number of bits becomes an `int`. -/
def ebitmapHammingDistance (e1 e2 : Ebitmap) : Int :=
  if ebitmapCmp e1 e2 then 0 else (BitVec.ofNat 32 (ebitmapCardinality (ebitmapXor e1 e2))).toInt

/-- The set of the members of a bitmap. -/
def Ebitmap.members (e : Ebitmap) : Set Nat := {i | i ∈ e}

variable {e e1 e2 : Ebitmap}

private theorem Ebitmap.mem_members {i : Nat} : i ∈ e.members ↔ i ∈ e := Iff.rfl

/-! ### Comparison, inclusion and cardinality -/

private theorem ebitmapCmp_iff_members (h1 : e1.Canonical) (h2 : e2.Canonical) :
    ebitmapCmp e1 e2 = true ↔ e1.members = e2.members := by
  rw [ebitmapCmp_iff]
  constructor
  · rintro rfl
    rfl
  · intro h
    exact h1.ext h2 fun i => by rw [← Ebitmap.mem_members, h, Ebitmap.mem_members]

/-- The loop of `ebitmap_contains` goes through when every word of the second list is covered. -/
private theorem ebitmapContainsNodes_of_blockAt {l1 l2 : List EbitmapNode} (h1 : NodesSorted l1) (h2 : NodesSorted l2)
    (hne : ∀ n ∈ l2, n.map ≠ 0) (h : ∀ s, blockAt l1 s &&& blockAt l2 s = blockAt l2 s) :
    ebitmapContainsNodes l1 l2 = true := by
  induction l1 generalizing l2 with
  | nil =>
    cases l2 with
    | nil => rfl
    | cons n2 l2 =>
      have hn : 0 = n2.map := by simpa [blockAt_cons] using h n2.startbit
      exact absurd hn.symm (hne n2 (List.mem_cons_self ..))
  | cons n1 l1 ih =>
    have h1' := List.pairwise_cons.1 h1
    cases l2 with
    | nil => exact ebitmapContainsNodes_nil_right _
    | cons n2 l2 =>
      have h2' := List.pairwise_cons.1 h2
      rw [ebitmapContainsNodes_cons_cons]
      rcases Nat.lt_trichotomy n1.startbit n2.startbit with hlt | heq | hgt
      · rw [if_pos (Nat.le_of_lt hlt), if_pos hlt]
        refine ih h1'.2 h2 hne fun s => ?_
        by_cases hs : n1.startbit = s
        · have hz : blockAt (n2 :: l2) s = 0 := blockAt_eq_zero fun m hm => by
            rcases List.mem_cons.1 hm with rfl | hm
            · omega
            · have := h2'.1 m hm
              omega
          simp [hz]
        · have hn := h s
          rwa [blockAt_cons n1, if_neg hs] at hn
      · have hmap := h n1.startbit
        rw [blockAt_cons, blockAt_cons, if_pos rfl, if_pos heq.symm] at hmap
        rw [if_pos (Nat.le_of_eq heq), if_neg (by omega), if_neg (not_not.2 hmap)]
        refine ih h1'.2 h2'.2 (fun n hn => hne n (List.mem_cons_of_mem _ hn)) fun s => ?_
        by_cases hs : n1.startbit = s
        · have hz : blockAt l2 s = 0 := blockAt_eq_zero fun m hm => by
            have := h2'.1 m hm
            omega
          simp [hz]
        · have hn := h s
          rwa [blockAt_cons, blockAt_cons, if_neg hs, if_neg (by omega)] at hn
      · have hz : blockAt (n1 :: l1) n2.startbit = 0 := blockAt_eq_zero fun m hm => by
          rcases List.mem_cons.1 hm with rfl | hm
          · omega
          · have := h1'.1 m hm
            omega
        have hn : 0 = n2.map := by simpa [hz, blockAt_cons] using h n2.startbit
        exact absurd hn.symm (hne n2 (List.mem_cons_self ..))

private theorem Ebitmap.Canonical.exists_mem_node (h : e.Canonical) {n : EbitmapNode} (hn : n ∈ e.node) :
    ∃ k < 64, n.startbit + k ∈ e := by
  obtain ⟨k, hk, hbit⟩ := Words.ne_zero_iff.1 (h.node n hn).2.1
  exact ⟨k, hk, (h.mem_iff_node _).2 ⟨n, hn, k, hk, rfl, hbit⟩⟩

private theorem Ebitmap.Canonical.highbit_le_of_subset (h1 : e1.Canonical) (h2 : e2.Canonical)
    (h : e2.members ⊆ e1.members) : e2.highbit ≤ e1.highbit := by
  by_cases hnil : e2.node = []
  · rw [h2.highbit, hnil]
    exact Nat.zero_le _
  · obtain ⟨n, hn, heq, -⟩ := exists_newHighbit h2.sorted h2.bound hnil
    obtain ⟨k, hk, hmem⟩ := h2.exists_mem_node hn
    obtain ⟨m, hm, j, hj, hjk, -⟩ := (h1.mem_iff_node _).1 (h hmem)
    have hend := h1.node_end_le hm
    have haln := h2.aligned n hn
    have halm := h1.aligned m hm
    rw [h2.highbit, heq]
    omega

theorem ebitmapContains_iff_members (h1 : e1.Canonical) (h2 : e2.Canonical) :
    ebitmapContains e1 e2 = true ↔ e2.members ⊆ e1.members := by
  constructor
  · intro h i hi
    exact mem_of_ebitmapContains h1 h2 h hi
  · intro h
    have hhigh := h1.highbit_le_of_subset h2 h
    rw [ebitmapContains, if_neg (by omega)]
    refine ebitmapContainsNodes_of_blockAt h1.sorted h2.sorted (fun n hn => (h2.node n hn).2.1) fun s => ?_
    by_cases hs : 64 ∣ s
    · refine BitVec.eq_of_getLsbD_eq fun k hk => ?_
      rw [BitVec.getLsbD_and]
      have hsk := @h (s + k)
      rw [Ebitmap.mem_members, Ebitmap.mem_members, Ebitmap.mem_add_iff hs hk, Ebitmap.mem_add_iff hs hk] at hsk
      cases hb : (blockAt e2.node s).getLsbD k with
      | false => rw [Bool.and_false]
      | true => rw [hsk hb, Bool.and_true]
    · have hz : blockAt e2.node s = 0 := blockAt_eq_zero fun n hn hns => hs (hns ▸ h2.aligned n hn)
      simp [hz]

private theorem ebitmapMatchAny_iff_members (h1 : e1.Canonical) (h2 : e2.Canonical) :
    ebitmapMatchAny e1 e2 = true ↔ ¬ Disjoint e1.members e2.members := by
  rw [ebitmapMatchAny_iff h1 h2, Set.not_disjoint_iff]
  rfl

private theorem ebitmapCardinality_eq_ncard (h : e.Canonical) : ebitmapCardinality e = e.members.ncard := by
  have hset : e.members = ((ebitmapPositiveBits e).toFinset : Set Nat) := by
    ext i
    rw [Ebitmap.mem_members, Finset.mem_coe, List.mem_toFinset, mem_ebitmapPositiveBits h]
  rw [ebitmapCardinality_eq h, hset, Set.ncard_coe_finset, List.toFinset_card_of_nodup (ebitmapPositiveBits_nodup h)]

private theorem ebitmapXor_members (h1 : e1.Canonical) (h2 : e2.Canonical) :
    (ebitmapXor e1 e2).members = symmDiff e1.members e2.members := by
  ext i
  rw [Ebitmap.mem_members, mem_ebitmapXor h1 h2, Set.mem_symmDiff, Ebitmap.mem_members, Ebitmap.mem_members]
  tauto

private theorem ebitmapHammingDistance_eq (h1 : e1.Canonical) (h2 : e2.Canonical) :
    ebitmapHammingDistance e1 e2 = (BitVec.ofNat 32 (symmDiff e1.members e2.members).ncard).toInt := by
  rw [ebitmapHammingDistance]
  by_cases hcmp : ebitmapCmp e1 e2 = true
  · rw [if_pos hcmp, (ebitmapCmp_iff_members h1 h2).1 hcmp, symmDiff_self]
    simp
  · rw [if_neg hcmp, ebitmapCardinality_eq_ncard (h1.xor h2), ebitmapXor_members h1 h2]

/-! ### The highest bit -/

private theorem highestBit_eq_log2 {rounds : Nat} {map : BitVec 64} (h : map.toNat < 2 ^ (rounds + 1)) :
    highestBit rounds map = Nat.log2 map.toNat := by
  induction rounds generalizing map with
  | zero =>
    rw [highestBit, Nat.log2_def, if_neg (by omega)]
  | succ rounds ih =>
    have hshift : (map >>> 1).toNat = map.toNat / 2 := by
      rw [BitVec.toNat_ushiftRight, Nat.shiftRight_one]
    have hzero : map >>> 1 ≠ 0 ↔ 2 ≤ map.toNat := by
      rw [Ne, ← BitVec.toNat_inj, hshift]
      show ¬ map.toNat / 2 = 0 ↔ _
      omega
    rw [highestBit, Nat.log2_def]
    by_cases hmap : 2 ≤ map.toNat
    · rw [if_pos (hzero.2 hmap), if_pos hmap, ih (by rw [hshift]; omega), hshift]
    · rw [if_neg (fun hne => hmap (hzero.1 hne)), if_neg hmap]

private theorem getLsbD_highestBit {map : BitVec 64} (h : map ≠ 0) :
    map.getLsbD (highestBit 64 map) = true ∧ ∀ k, map.getLsbD k = true → k ≤ highestBit 64 map := by
  have hne : map.toNat ≠ 0 := fun hz => h (BitVec.eq_of_toNat_eq hz)
  rw [highestBit_eq_log2 (lt_trans map.isLt (by decide))]
  refine ⟨?_, fun k hk => ?_⟩
  · rw [BitVec.getLsbD, Nat.testBit_log2 hne]
  · rw [Nat.le_log2 hne]
    exact Nat.ge_two_pow_of_testBit hk

/-- `ebitmap_highest_set_bit` is the maximum, 0 for the empty bitmap. -/
theorem ebitmapHighestSetBit_spec (h : e.Canonical) :
    (e.members = ∅ → ebitmapHighestSetBit e = 0) ∧
      (e.members.Nonempty → IsGreatest e.members (ebitmapHighestSetBit e)) := by
  constructor
  · intro hempty
    have hnil : e.node = [] := by
      by_contra hne
      obtain ⟨n, hn⟩ := List.exists_mem_of_ne_nil _ hne
      obtain ⟨k, -, hk⟩ := h.exists_mem_node hn
      exact (hempty ▸ hk : n.startbit + k ∈ (∅ : Set Nat))
    rw [ebitmapHighestSetBit, hnil]
    rfl
  · rintro ⟨i, hi⟩
    obtain ⟨m, hm, -⟩ := (h.mem_iff_node i).1 hi
    obtain ⟨l, n, hl⟩ : ∃ l n, e.node = l ++ [n] :=
      ⟨_, _, (List.dropLast_append_getLast (List.ne_nil_of_mem hm)).symm⟩
    have hn : n ∈ e.node := by rw [hl]; simp
    obtain ⟨hbit, hmax⟩ := getLsbD_highestBit (h.node n hn).2.1
    have hlt : highestBit 64 n.map < 64 := BitVec.lt_of_getLsbD hbit
    have hbound := h.bound n hn
    have hvalue : ebitmapHighestSetBit e = n.startbit + highestBit 64 n.map := by
      rw [ebitmapHighestSetBit, hl, List.getLast?_concat]
      exact uint32_of_lt (by omega)
    rw [hvalue]
    refine ⟨(h.mem_iff_node _).2 ⟨n, hn, _, hlt, rfl, hbit⟩, ?_⟩
    intro j hj
    obtain ⟨n', hn', k, hk, rfl, hbit'⟩ := (h.mem_iff_node j).1 hj
    rw [hl] at hn'
    rcases List.mem_append.1 hn' with hn' | hn'
    · have hsorted := h.sorted
      rw [hl] at hsorted
      have hlast := (List.pairwise_append.1 hsorted).2.2 n' hn' n (List.mem_singleton.2 rfl)
      have hal := h.aligned n hn
      have hal' := h.aligned n' (by rw [hl]; exact List.mem_append_left _ hn')
      omega
    · obtain rfl := List.mem_singleton.1 hn'
      have := hmax k hbit'
      omega

/-! ### The predicates together -/

private theorem Ebitmap.Canonical.ncard_lt (h : e.Canonical) : e.members.ncard < 2 ^ 32 := by
  have hsub : e.members ⊆ (Finset.range e.highbit : Set Nat) := by
    intro i hi
    rw [Finset.mem_coe, Finset.mem_range]
    exact h.lt_of_mem hi
  have hcard := Set.ncard_le_ncard hsub (Finset.finite_toSet _)
  rw [Set.ncard_coe_finset, Finset.card_range] at hcard
  exact lt_of_le_of_lt hcard h.highbit_lt

private theorem toInt_ofNat_eq_iff {n : Nat} (h : n < 2 ^ 32) : (BitVec.ofNat 32 n).toInt = n ↔ n < 2 ^ 31 := by
  rw [BitVec.toInt_eq_toNat_cond, BitVec.toNat_ofNat, Nat.mod_eq_of_lt h]
  split <;> omega

/-- The predicates of `ebitmap.c` are those of set theory; the distance is an `int`, which is the size of the
symmetric difference when that is below `2^31`. -/
theorem ebitmapPredicates_eq_sets (h1 : e1.Canonical) (h2 : e2.Canonical) :
    (ebitmapCmp e1 e2 = true ↔ e1.members = e2.members) ∧
      (ebitmapContains e1 e2 = true ↔ e2.members ⊆ e1.members) ∧
      (ebitmapMatchAny e1 e2 = true ↔ ¬ Disjoint e1.members e2.members) ∧
      ebitmapCardinality e1 = e1.members.ncard ∧
      (ebitmapHammingDistance e1 e2 = (symmDiff e1.members e2.members).ncard ↔
        (symmDiff e1.members e2.members).ncard < 2 ^ 31) ∧
      ebitmapHammingDistance e1 e2 = (BitVec.ofNat 32 (symmDiff e1.members e2.members).ncard).toInt ∧
      (e1.members = ∅ → ebitmapHighestSetBit e1 = 0) ∧
      (e1.members.Nonempty → IsGreatest e1.members (ebitmapHighestSetBit e1)) := by
  have hdistance := ebitmapHammingDistance_eq h1 h2
  have hlt := (h1.xor h2).ncard_lt
  rw [ebitmapXor_members h1 h2] at hlt
  have hhighest := ebitmapHighestSetBit_spec h1
  refine ⟨ebitmapCmp_iff_members h1 h2, ebitmapContains_iff_members h1 h2, ebitmapMatchAny_iff_members h1 h2,
    ebitmapCardinality_eq_ncard h1, ?_, hdistance, hhighest.1, hhighest.2⟩
  rw [hdistance]
  exact toInt_ofNat_eq_iff hlt

theorem ebitmapPredicates_eq_sets_example :
    (ebitmapCmp (ebitmapOfList [3, 70]) (ebitmapOfList [70]) = true ↔
        (ebitmapOfList [3, 70]).members = (ebitmapOfList [70]).members) ∧
      (ebitmapContains (ebitmapOfList [3, 70]) (ebitmapOfList [70]) = true ↔
        (ebitmapOfList [70]).members ⊆ (ebitmapOfList [3, 70]).members) := by
  have h := ebitmapPredicates_eq_sets (ebitmapOfList_canonical [3, 70]) (ebitmapOfList_canonical [70])
  exact ⟨h.1, h.2.1⟩

/-- The first `n` words with all their bits. -/
def fullWords (n : Nat) : Ebitmap :=
  ⟨(List.range n).map fun i => ⟨64 * i, BitVec.allOnes 64⟩, uint32 (64 * n)⟩

private theorem fullWords_canonical {n : Nat} (hpos : 0 < n) (hn : 64 * n < 2 ^ 32) : (fullWords n).Canonical where
  sorted := by
    refine List.pairwise_map.2 (List.pairwise_lt_range.imp fun hab => ?_)
    dsimp only
    omega
  node m hm := by
    obtain ⟨i, hi, rfl⟩ := List.mem_map.1 hm
    have hin := List.mem_range.1 hi
    exact ⟨Nat.dvd_mul_right 64 i, show BitVec.allOnes 64 ≠ 0 by decide, by dsimp only; omega⟩
  highbit := by
    obtain ⟨k, rfl⟩ : ∃ k, n = k + 1 := ⟨n - 1, by omega⟩
    rw [fullWords, List.range_succ, List.map_append, List.map_singleton, newHighbit, List.getLast?_concat]
    dsimp only
    rw [Nat.mul_add, Nat.mul_one]

private theorem popcountll_allOnes : popcountll (BitVec.allOnes 64) = 64 := by decide

private theorem ebitmapCardinality_fullWords (n : Nat) : ebitmapCardinality (fullWords n) = 64 * n := by
  have hall : ∀ c ∈ (fullWords n).node.map fun m => popcountll m.map, c = 64 := by
    intro c hc
    obtain ⟨m, hm, rfl⟩ := List.mem_map.1 hc
    obtain ⟨i, -, rfl⟩ := List.mem_map.1 hm
    exact popcountll_allOnes
  rw [ebitmapCardinality, List.sum_eq_card_nsmul _ _ hall, List.length_map, fullWords, List.length_map,
    List.length_range, smul_eq_mul, Nat.mul_comm]

private theorem ebitmapHammingDistance_fullWords {n : Nat} (hpos : 0 < n) (hn : 64 * n < 2 ^ 32) :
    ebitmapHammingDistance (fullWords n) ebitmapInit = (symmDiff (fullWords n).members ebitmapInit.members).ncard ↔
      64 * n < 2 ^ 31 := by
  have hcanonical := fullWords_canonical hpos hn
  have hempty : ebitmapInit.members = ⊥ := by
    ext i
    simp [Ebitmap.mem_members, Ebitmap.mem_iff, ebitmapInit]
  rw [ebitmapHammingDistance_eq hcanonical .init, hempty, symmDiff_bot, ← ebitmapCardinality_eq_ncard hcanonical,
    ebitmapCardinality_fullWords]
  exact toInt_ofNat_eq_iff hn

/-- Half of all positions are too many for an `int`. -/
theorem ebitmapHammingDistance_ne_ncard :
    (fullWords (2 ^ 25)).Canonical ∧ ebitmapInit.Canonical ∧
      ebitmapHammingDistance (fullWords (2 ^ 25)) ebitmapInit ≠
        (symmDiff (fullWords (2 ^ 25)).members ebitmapInit.members).ncard := by
  have hpos : 0 < 2 ^ 25 := by norm_num
  have hn : 64 * 2 ^ 25 < 2 ^ 32 := by norm_num
  refine ⟨fullWords_canonical hpos hn, .init, fun heq => ?_⟩
  have hlt := (ebitmapHammingDistance_fullWords hpos hn).1 heq
  norm_num at hlt

end Sepol
