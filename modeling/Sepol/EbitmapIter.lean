import Sepol.EbitmapSet

/-!
# Reading bitmaps

`ebitmap_for_each_bit` visits all positions of all nodes of a canonical bitmap, skipping the zero bits between the
nodes, and ends at `highbit`.  The positive bits it hands to the body are the members in increasing order; their
number is the cardinality.
-/

namespace Sepol

/-- The 64 positions of a node. -/
def nodeVisits (n : EbitmapNode) : List (EbitmapNode × Nat) := (List.range 64).map fun k => (n, n.startbit + k)

/-- Walking through a node from its position `k` on. -/
private theorem forEachFrom_node (length fuel : Nat) (n : EbitmapNode) (rest : List EbitmapNode)
    (hlen : n.startbit + 64 ≤ length) (j : Nat) (hj : j < 64) :
    ebitmapForEachFrom length (fuel + (j + 1)) (n :: rest) (n.startbit + (63 - j)) =
      let r := match rest with
        | [] => ebitmapForEachFrom length fuel [n] (n.startbit + 64)
        | m :: rest' => ebitmapForEachFrom length fuel (m :: rest') m.startbit
      ((List.range' (63 - j) (j + 1)).map (fun k => (n, n.startbit + k)) ++ r.1, r.2) := by
  induction j with
  | zero =>
    rw [← Nat.add_assoc, ebitmapForEachFrom, if_pos (by omega)]
    cases rest <;> simp [ebitmapNext, mapsize, List.range']
  | succ j ih =>
    rw [← Nat.add_assoc, ebitmapForEachFrom, if_pos (by omega)]
    have hnext : ebitmapNext (n :: rest) (n.startbit + (63 - (j + 1))) = (n :: rest, n.startbit + (63 - j)) := by
      cases rest with
      | nil => simp only [ebitmapNext, Prod.mk.injEq, true_and]; omega
      | cons m rest =>
        simp only [ebitmapNext, mapsize]
        rw [if_neg (by omega), show n.startbit + (63 - (j + 1)) + 1 = n.startbit + (63 - j) by omega]
    simp only [hnext, ih (by omega)]
    rw [show 63 - j = 63 - (j + 1) + 1 by omega]
    rfl

private theorem forEachFrom_end (length fuel : Nat) (cur : List EbitmapNode) :
    ebitmapForEachFrom length fuel cur length = ([], length) := by
  cases fuel <;> simp [ebitmapForEachFrom]

private theorem forEachFrom_nodes (length fuel : Nat) (n : EbitmapNode) (l : List EbitmapNode)
    (hlen : ∀ m ∈ n :: l, m.startbit + 64 ≤ length)
    (hlast : ∀ m, (n :: l).getLast? = some m → m.startbit + 64 = length) :
    ebitmapForEachFrom length (fuel + 64 * (n :: l).length) (n :: l) n.startbit =
      ((n :: l).flatMap nodeVisits, length) := by
  induction l generalizing n with
  | nil =>
    have h := forEachFrom_node length fuel n [] (hlen n (by simp)) 63 (by decide)
    rw [hlast n rfl, forEachFrom_end] at h
    simpa [nodeVisits, List.range_eq_range'] using h
  | cons m l ih =>
    have h := forEachFrom_node length (fuel + 64 * (m :: l).length) n (m :: l) (hlen n (by simp)) 63 (by decide)
    simp only [ih m (fun k hk => hlen k (List.mem_cons_of_mem _ hk))
      (fun k hk => hlast k (by rwa [List.getLast?_cons_cons]))] at h
    rw [show fuel + 64 * (n :: m :: l).length = fuel + 64 * (m :: l).length + (63 + 1) by
      simp only [List.length_cons]; omega]
    simpa [nodeVisits, List.range_eq_range'] using h

/-- `ebitmap_for_each_bit` visits every position of every node and ends behind the last node. -/
theorem ebitmapForEachBit_eq {e : Ebitmap} (h : e.Canonical) :
    ebitmapForEachBit e = (e.node.flatMap nodeVisits, e.highbit) := by
  cases hl : e.node with
  | nil =>
    have hb : e.highbit = 0 := by rw [h.highbit, hl]; rfl
    simp [ebitmapForEachBit, ebitmapForEachFrom, hl, hb, ebitmapStartbit]
  | cons n l =>
    have hlen : ebitmapLength e = e.highbit := by simp [ebitmapLength, hl]
    rw [ebitmapForEachBit, hlen, hl, ebitmapStartbit, hl]
    dsimp only
    rw [Nat.add_comm]
    refine forEachFrom_nodes _ _ _ _ (fun m hm => h.node_end_le (by rwa [hl])) fun m hm => ?_
    rw [h.highbit, newHighbit, hl, hm]
    exact (uint32_of_lt (h.bound m (by rw [hl]; exact List.mem_of_getLast? hm))).symm

theorem ebitmapNodeGetBit_eq (n : EbitmapNode) {k : Nat} (hk : k < 64) :
    ebitmapNodeGetBit n (n.startbit + k) = n.map.getLsbD k := by
  have hone : ∀ j, (1#64 <<< k).getLsbD j = decide (j = k) := by
    intro j
    rw [BitVec.getLsbD_shiftLeft, BitVec.getLsbD_one]
    by_cases hj : j = k
    · subst hj; simp [hk]
    · simp only [decide_eq_false hj, Bool.and_eq_false_imp]
      simp; omega
  rw [ebitmapNodeGetBit, mapbit, Nat.add_sub_cancel_left]
  cases hb : n.map.getLsbD k with
  | true =>
    simp only [ne_eq, decide_not, Bool.not_eq_true', decide_eq_false_iff_not]
    intro hz
    have := congrArg (fun m => m.getLsbD k) hz
    simp [hone, hb] at this
  | false =>
    simp only [ne_eq, decide_not, Bool.not_eq_false', decide_eq_true_eq]
    refine BitVec.eq_of_getLsbD_eq fun j hj => ?_
    rw [BitVec.getLsbD_and, hone]
    by_cases hjk : j = k
    · subst hjk; simp [hb]
    · simp [hjk]

/-- The set bits of a node, as positions. -/
def nodeBits (n : EbitmapNode) : List Nat :=
  ((List.range 64).filter fun k => n.map.getLsbD k).map fun k => n.startbit + k

private theorem ebitmapPositiveBits_eq {e : Ebitmap} (h : e.Canonical) :
    ebitmapPositiveBits e = e.node.flatMap nodeBits := by
  rw [ebitmapPositiveBits, ebitmapForEachBit_eq h, List.filter_flatMap, List.map_flatMap]
  refine List.flatMap_congr fun n _ => ?_
  rw [nodeVisits, nodeBits, List.filter_map, List.map_map]
  congr 1
  refine List.filter_congr fun k hk => ?_
  exact ebitmapNodeGetBit_eq n (List.mem_range.1 hk)

theorem mem_ebitmapPositiveBits {e : Ebitmap} (h : e.Canonical) {i : Nat} : i ∈ ebitmapPositiveBits e ↔ i ∈ e := by
  rw [ebitmapPositiveBits_eq h, h.mem_iff_node, List.mem_flatMap]
  refine exists_congr fun n => and_congr_right fun _ => ?_
  simp only [nodeBits, List.mem_map, List.mem_filter, List.mem_range]
  constructor
  · rintro ⟨k, ⟨hk, hb⟩, rfl⟩
    exact ⟨k, hk, rfl, hb⟩
  · rintro ⟨k, hk, rfl, hb⟩
    exact ⟨k, ⟨hk, hb⟩, rfl⟩

theorem ebitmapPositiveBits_sorted {e : Ebitmap} (h : e.Canonical) :
    (ebitmapPositiveBits e).Pairwise (· < ·) := by
  rw [ebitmapPositiveBits_eq h, List.pairwise_flatMap]
  constructor
  · intro n _
    rw [nodeBits, List.pairwise_map]
    exact ((List.pairwise_lt_range).filter _).imp fun h => by omega
  · refine h.sorted.imp_of_mem fun {a b} ha hb hab => ?_
    intro x hx y hy
    simp only [nodeBits, List.mem_map, List.mem_filter, List.mem_range] at hx hy
    obtain ⟨j, ⟨hj, _⟩, rfl⟩ := hx
    obtain ⟨k, ⟨hk, _⟩, rfl⟩ := hy
    have := h.aligned a ha
    have := h.aligned b hb
    omega

theorem ebitmapPositiveBits_nodup {e : Ebitmap} (h : e.Canonical) : (ebitmapPositiveBits e).Nodup :=
  (ebitmapPositiveBits_sorted h).imp Nat.ne_of_lt

theorem ebitmapCardinality_eq {e : Ebitmap} (h : e.Canonical) :
    ebitmapCardinality e = (ebitmapPositiveBits e).length := by
  rw [ebitmapPositiveBits_eq h, List.length_flatMap, ebitmapCardinality]
  congr 1
  refine List.map_congr_left fun n _ => ?_
  rw [nodeBits, List.length_map, popcountll, List.countP_eq_length_filter]

theorem ebitmapCardinality_eq_zero_iff {e : Ebitmap} (h : e.Canonical) : ebitmapCardinality e = 0 ↔ ∀ i, i ∉ e := by
  rw [ebitmapCardinality_eq h, List.length_eq_zero_iff, List.eq_nil_iff_forall_not_mem]
  exact forall_congr' fun i => not_congr (mem_ebitmapPositiveBits h)

theorem ebitmapCardinality_eq_one_iff {e : Ebitmap} (h : e.Canonical) :
    ebitmapCardinality e = 1 ↔ ∃ x, ∀ i, i ∈ e ↔ i = x := by
  rw [ebitmapCardinality_eq h, List.length_eq_one_iff]
  constructor
  · rintro ⟨x, hx⟩
    exact ⟨x, fun i => by rw [← mem_ebitmapPositiveBits h, hx, List.mem_singleton]⟩
  · rintro ⟨x, hx⟩
    refine ⟨x, List.perm_singleton.1 ?_⟩
    rw [List.perm_ext_iff_of_nodup (ebitmapPositiveBits_nodup h) (List.nodup_singleton x)]
    exact fun i => by rw [mem_ebitmapPositiveBits h, hx, List.mem_singleton]

private theorem getBitNodes_eq {l : List EbitmapNode} (hl : NodesSorted l) (hal : ∀ n ∈ l, 64 ∣ n.startbit)
    (bit : Nat) : ebitmapGetBitNodes l bit = (blockAt l (bit - bit % 64)).getLsbD (bit % 64) := by
  induction l with
  | nil => simp [ebitmapGetBitNodes]
  | cons n l ih =>
    have hl' := List.pairwise_cons.1 hl
    have hn := hal n (List.mem_cons_self ..)
    rw [ebitmapGetBitNodes]
    split
    · split
      · rename_i h1 h2
        have hs : n.startbit = bit - bit % 64 := startbit_eq_of_aligned hn h1 h2
        have := ebitmapNodeGetBit_eq n (Nat.mod_lt bit (by decide : 0 < 64))
        rw [blockAt_cons, if_pos hs, ← this, show n.startbit + bit % 64 = bit by omega]
      · rw [ih hl'.2 fun m hm => hal m (List.mem_cons_of_mem _ hm), blockAt_cons,
          if_neg (by simp only [mapsize] at *; omega)]
    · rw [blockAt_eq_zero (s := bit - bit % 64) fun m hm => ?_]
      · simp
      · rcases List.mem_cons.1 hm with rfl | hm
        · omega
        · have := hl'.1 m hm; omega

theorem ebitmapGetBit_iff {e : Ebitmap} (h : e.Canonical) (bit : Nat) : ebitmapGetBit e bit = true ↔ bit ∈ e := by
  rw [ebitmapGetBit, Ebitmap.mem_iff]
  split
  · simp only [Bool.false_eq_true, false_iff]
    intro hb
    have := h.lt_of_mem (Ebitmap.mem_iff.2 hb)
    omega
  · rw [getBitNodes_eq h.sorted h.aligned]

/-! ### Comparison -/

private theorem cmpNodes_iff (l1 l2 : List EbitmapNode) : ebitmapCmpNodes l1 l2 = true ↔ l1 = l2 := by
  induction l1 generalizing l2 with
  | nil => cases l2 <;> simp [ebitmapCmpNodes]
  | cons n1 l1 ih =>
    cases l2 with
    | nil => simp [ebitmapCmpNodes]
    | cons n2 l2 =>
      cases n1; cases n2
      simp only [ebitmapCmpNodes, List.cons.injEq, EbitmapNode.mk.injEq]
      split
      · rename_i h
        simp [ih, h]
      · rename_i h
        simp [h]

/-- `ebitmap_cmp` compares the bitmaps field by field and node by node. -/
theorem ebitmapCmp_iff (e1 e2 : Ebitmap) : ebitmapCmp e1 e2 = true ↔ e1 = e2 := by
  cases e1; cases e2
  simp only [ebitmapCmp, Ebitmap.mk.injEq]
  split
  · simp only [Bool.false_eq_true, false_iff]
    tauto
  · rename_i h
    rw [cmpNodes_iff]
    exact ⟨fun e => ⟨e, not_not.1 h⟩, fun e => e.1⟩

private theorem eq_of_blockAt_eq {l1 l2 : List EbitmapNode} (h1 : NodesSorted l1) (h2 : NodesSorted l2)
    (z1 : ∀ n ∈ l1, n.map ≠ 0) (z2 : ∀ n ∈ l2, n.map ≠ 0) (h : ∀ s, blockAt l1 s = blockAt l2 s) : l1 = l2 := by
  have mem_of : ∀ {l l' : List EbitmapNode}, NodesSorted l → (∀ n ∈ l, n.map ≠ 0) →
      (∀ s, blockAt l s = blockAt l' s) → ∀ n ∈ l, n ∈ l' := by
    intro l l' hl hz hb n hn
    have hw := blockAt_of_mem hl hn
    rw [hb] at hw
    obtain ⟨m, hm, hs, hmap⟩ := mem_of_blockAt_ne_zero (s := n.startbit) (l := l') (by rw [hw]; exact hz n hn)
    have : n = m := by cases n; cases m; simp_all
    exact this ▸ hm
  unfold NodesSorted at h1 h2
  refine List.Perm.eq_of_pairwise (fun a b _ _ hab hba => ?_) h1 h2 ?_
  · omega
  · have hne : ∀ {a b : EbitmapNode}, a.startbit < b.startbit → a ≠ b := fun h e => by rw [e] at h; omega
    rw [List.perm_ext_iff_of_nodup (List.Pairwise.imp hne h1) (List.Pairwise.imp hne h2)]
    exact fun n => ⟨mem_of h1 z1 h n, mem_of h2 z2 (fun s => (h s).symm) n⟩

/-- Canonical bitmaps with the same members are equal. -/
theorem Ebitmap.Canonical.ext {e1 e2 : Ebitmap} (h1 : e1.Canonical) (h2 : e2.Canonical)
    (h : ∀ i, i ∈ e1 ↔ i ∈ e2) : e1 = e2 := by
  have hb : ∀ s, blockAt e1.node s = blockAt e2.node s := by
    intro s
    by_cases hs : 64 ∣ s
    · refine BitVec.eq_of_getLsbD_eq fun k hk => ?_
      have := h (s + k)
      rw [Ebitmap.mem_iff, Ebitmap.mem_iff, show (s + k) % 64 = k by omega, show s + k - k = s by omega] at this
      exact Bool.eq_iff_iff.2 this
    · rw [blockAt_eq_zero (s := s) fun n hn hns => hs (hns ▸ h1.aligned n hn),
        blockAt_eq_zero (s := s) fun n hn hns => hs (hns ▸ h2.aligned n hn)]
  have hnode : e1.node = e2.node :=
    eq_of_blockAt_eq h1.sorted h2.sorted (fun n hn => (h1.node n hn).2.1) (fun n hn => (h2.node n hn).2.1) hb
  have hhigh : e1.highbit = e2.highbit := by rw [h1.highbit, h2.highbit, hnode]
  cases e1; cases e2; simp_all

end Sepol

/-!
## The loop over the positive bits

`ebitmap_for_each_positive_bit` with its `unsigned int` position, its pointer to a node and an arbitrary body.  Since
the last node of a canonical bitmap ends below `2^32` the position does not wrap, and the loop is that of
`ebitmapForEachBit` with a test before the body.
-/

namespace Sepol

/-- The variables of the loop: the current node, with those behind it, and the position. -/
structure EbitmapCursor where
  n : List EbitmapNode
  bit : Nat

def ebitmapStart (e : Ebitmap) : EbitmapCursor := ⟨e.node, ebitmapStartbit e⟩

/-- `ebitmap_next`, whose result is an `unsigned int`. -/
def EbitmapCursor.next (c : EbitmapCursor) : EbitmapCursor :=
  let r := ebitmapNext c.n c.bit
  ⟨r.1, uint32 r.2⟩

variable {σ : Type}

/-- `ebitmap_for_each_positive_bit` from a position on.  There is no result where the fuel is used up, and where a
null pointer is dereferenced. -/
def ebitmapForEachPositiveFrom (length : Nat) (body : σ → Nat → σ) : Nat → EbitmapCursor → σ → Option σ
  | 0, _, _ => none
  | fuel + 1, c, s =>
    if c.bit < length then
      match c.n with
      | [] => none
      | n :: _ =>
        ebitmapForEachPositiveFrom length body fuel c.next (if ebitmapNodeGetBit n c.bit then body s c.bit else s)
    else some s

def ebitmapForEachPositiveBit (e : Ebitmap) (body : σ → Nat → σ) (fuel : Nat) (s : σ) : Option σ :=
  ebitmapForEachPositiveFrom (ebitmapLength e) body fuel (ebitmapStart e) s

variable {length : Nat} {body : σ → Nat → σ}

private theorem ebitmapForEachPositiveFrom_mono {fuel : Nat} {c : EbitmapCursor} {s t : σ}
    (h : ebitmapForEachPositiveFrom length body fuel c s = some t) (more : Nat) :
    ebitmapForEachPositiveFrom length body (fuel + more) c s = some t := by
  induction fuel generalizing c s with
  | zero => exact absurd h (by simp [ebitmapForEachPositiveFrom])
  | succ fuel ih =>
    rw [Nat.succ_add_eq_add_succ, Nat.add_succ]
    rw [ebitmapForEachPositiveFrom] at h ⊢
    split at h
    · rename_i hbit
      rw [if_pos hbit]
      split at h
      · exact absurd h (by simp)
      · exact ih h
    · rename_i hbit
      rwa [if_neg hbit]

private theorem ebitmapNext_le {cur : List EbitmapNode} {bit : Nat} (hbit : bit < length)
    (hcur : ∀ n ∈ cur, n.startbit ≤ length) : (ebitmapNext cur bit).2 ≤ length := by
  unfold ebitmapNext
  split
  · split
    · exact hcur _ (by simp)
    · omega
  · omega

private theorem ebitmapNext_subset (cur : List EbitmapNode) (bit : Nat) : (ebitmapNext cur bit).1 ⊆ cur := by
  unfold ebitmapNext
  split
  · split
    · exact List.subset_cons_self _ _
    · exact List.Subset.refl _
  · exact List.Subset.refl _

/-- The visits of `ebitmapForEachFrom` are those of the loop as long as no position is above the `unsigned int`. -/
private theorem ebitmapForEachPositiveFrom_eq (hlength : length < 2 ^ 32) {fuel : Nat} {cur : List EbitmapNode}
    {bit last : Nat}
    {visits : List (EbitmapNode × Nat)} (h : ebitmapForEachFrom length fuel cur bit = (visits, last))
    (hlast : length ≤ last) (hcur : ∀ n ∈ cur, n.startbit ≤ length) (s : σ) :
    ebitmapForEachPositiveFrom length body (fuel + 1) ⟨cur, bit⟩ s =
      some (((visits.filter fun v => ebitmapNodeGetBit v.1 v.2).map Prod.snd).foldl body s) := by
  induction fuel generalizing cur bit visits s with
  | zero =>
    simp only [ebitmapForEachFrom, Prod.mk.injEq] at h
    obtain ⟨rfl, rfl⟩ := h
    rw [ebitmapForEachPositiveFrom, if_neg (Nat.not_lt.2 hlast)]
    rfl
  | succ fuel ih =>
    unfold ebitmapForEachFrom at h
    unfold ebitmapForEachPositiveFrom
    split at h
    · rename_i hbit
      rw [if_pos hbit]
      cases cur with
      | nil =>
        rw [Prod.mk.injEq] at h
        omega
      | cons n rest =>
        dsimp only at h
        rw [Prod.mk.injEq] at h
        obtain ⟨rfl, hend⟩ := h
        have hle := ebitmapNext_le hbit hcur
        have hnext : EbitmapCursor.next ⟨n :: rest, bit⟩ =
            ⟨(ebitmapNext (n :: rest) bit).1, (ebitmapNext (n :: rest) bit).2⟩ := by
          rw [EbitmapCursor.next, uint32_of_lt (Nat.lt_of_le_of_lt hle hlength)]
        dsimp only
        rw [hnext, ih (Prod.ext rfl hend) fun m hm => hcur m (ebitmapNext_subset _ _ hm)]
        by_cases hget : ebitmapNodeGetBit n bit = true
        · simp [hget]
        · simp [hget]
    · rename_i hbit
      rw [Prod.mk.injEq] at h
      obtain ⟨rfl, rfl⟩ := h
      rw [if_neg hbit]
      rfl

/-- With enough steps the loop ends, and its body was run for the members in ascending order, once for each. -/
theorem ebitmapForEachPositiveBit_visits (e : Ebitmap) (h : e.Canonical) :
    ∃ bits : List Nat, bits.Pairwise (· < ·) ∧ (∀ i, i ∈ bits ↔ i ∈ e) ∧
      ∃ steps, ∀ fuel, steps ≤ fuel → ∀ (σ : Type) (body : σ → Nat → σ) (s : σ),
        ebitmapForEachPositiveBit e body fuel s = some (bits.foldl body s) := by
  refine ⟨ebitmapPositiveBits e, ebitmapPositiveBits_sorted h, fun i => mem_ebitmapPositiveBits h,
    mapsize * e.node.length + e.highbit + 1, fun fuel hfuel σ body s => ?_⟩
  have hhigh : ∀ n ∈ e.node, ebitmapLength e = e.highbit := by
    intro n hn
    rw [ebitmapLength, if_neg (by simp [List.ne_nil_of_mem hn])]
  have hlength : ebitmapLength e < 2 ^ 32 := by
    unfold ebitmapLength
    split
    · omega
    · exact h.highbit_lt
  have hcur : ∀ n ∈ e.node, n.startbit ≤ ebitmapLength e := by
    intro n hn
    have := h.node_end_le hn
    rw [hhigh n hn]
    omega
  have hlast : ebitmapLength e ≤ (ebitmapForEachBit e).2 := by
    rw [ebitmapForEachBit_eq h]
    unfold ebitmapLength
    split <;> omega
  obtain ⟨more, rfl⟩ := Nat.exists_eq_add_of_le hfuel
  exact ebitmapForEachPositiveFrom_mono (ebitmapForEachPositiveFrom_eq hlength rfl hlast hcur s) more

/-- The bits 63 and 64, and the highest one that a bitmap can have. -/
def borderBits : Ebitmap := ⟨[⟨0, 1#64 <<< 63⟩, ⟨64, 1⟩, ⟨2 ^ 32 - 128, 1#64 <<< 63⟩], 2 ^ 32 - 64⟩

private theorem borderBits_canonical : borderBits.Canonical where
  sorted := by unfold NodesSorted borderBits; decide
  node := by unfold NodeWf borderBits; decide
  highbit := by decide

theorem ebitmapForEachPositiveBit_visits_border :
    ∃ bits : List Nat, bits.Pairwise (· < ·) ∧ (∀ i, i ∈ bits ↔ i ∈ borderBits) ∧
      ∃ steps, ∀ fuel, steps ≤ fuel → ∀ (σ : Type) (body : σ → Nat → σ) (s : σ),
        ebitmapForEachPositiveBit borderBits body fuel s = some (bits.foldl body s) :=
  ebitmapForEachPositiveBit_visits borderBits borderBits_canonical

end Sepol
