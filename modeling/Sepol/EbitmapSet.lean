import Sepol.Ebitmap
import Sepol.Lib.Words

/-!
# Bitmaps as sets

A list of nodes with increasing start positions is a finite map from start positions to words (`blockAt`), and the
loops of `Ebitmap` compute the words of their result position by position.  A bitmap denotes the set of its members
`i ∈ e`; `Ebitmap.Canonical` is the form that every operation keeps.
-/

namespace Sepol

/-- The word of the node that starts at `s`, zero when there is none. -/
def blockAt : List EbitmapNode → Nat → BitVec 64
  | [], _ => 0
  | n :: l, s => if n.startbit = s then n.map else blockAt l s

/-- Position `i` is a member when its bit is set in the node that starts at the multiple of 64 below it. -/
instance : Membership Nat Ebitmap where
  mem e i := (blockAt e.node (i - i % 64)).getLsbD (i % 64) = true

theorem Ebitmap.mem_iff {e : Ebitmap} {i : Nat} :
    i ∈ e ↔ (blockAt e.node (i - i % 64)).getLsbD (i % 64) = true := Iff.rfl

instance (e : Ebitmap) (i : Nat) : Decidable (i ∈ e) := inferInstanceAs (Decidable (_ = true))

/-- The nodes have increasing start positions. -/
def NodesSorted (l : List EbitmapNode) : Prop := l.Pairwise fun a b => a.startbit < b.startbit

/-- A node starts at a multiple of 64, is not empty, and ends below `2^32`. -/
def NodeWf (n : EbitmapNode) : Prop := 64 ∣ n.startbit ∧ n.map ≠ 0 ∧ n.startbit + 64 < 2 ^ 32

/-- The canonical form of a bitmap. -/
structure Ebitmap.Canonical (e : Ebitmap) : Prop where
  sorted : NodesSorted e.node
  node : ∀ n ∈ e.node, NodeWf n
  highbit : e.highbit = newHighbit e.node

/-! ### The word at a position -/

@[simp] theorem blockAt_nil (s : Nat) : blockAt [] s = 0 := rfl

theorem blockAt_cons (n : EbitmapNode) (l : List EbitmapNode) (s : Nat) :
    blockAt (n :: l) s = if n.startbit = s then n.map else blockAt l s := rfl

theorem blockAt_eq_zero {l : List EbitmapNode} {s : Nat} (h : ∀ n ∈ l, n.startbit ≠ s) : blockAt l s = 0 := by
  induction l with
  | nil => rfl
  | cons n l ih =>
    rw [blockAt_cons, if_neg (h n (List.mem_cons_self ..))]
    exact ih fun m hm => h m (List.mem_cons_of_mem _ hm)

theorem blockAt_of_mem {l : List EbitmapNode} (hl : NodesSorted l) {n : EbitmapNode} (hn : n ∈ l) :
    blockAt l n.startbit = n.map := by
  induction l with
  | nil => cases hn
  | cons m l ih =>
    rw [NodesSorted, List.pairwise_cons] at hl
    rcases List.mem_cons.1 hn with rfl | hn'
    · simp [blockAt_cons]
    · rw [blockAt_cons, if_neg (Nat.ne_of_lt (hl.1 n hn')), ih hl.2 hn']

theorem mem_of_blockAt_ne_zero {l : List EbitmapNode} {s : Nat} (h : blockAt l s ≠ 0) :
    ∃ n ∈ l, n.startbit = s ∧ n.map = blockAt l s := by
  induction l with
  | nil => exact absurd rfl h
  | cons n l ih =>
    rw [blockAt_cons] at h ⊢
    by_cases hs : n.startbit = s
    · exact ⟨n, List.mem_cons_self .., hs, by rw [if_pos hs]⟩
    · rw [if_neg hs] at h ⊢
      obtain ⟨m, hm, e⟩ := ih h
      exact ⟨m, List.mem_cons_of_mem _ hm, e⟩

private theorem blockAt_of_lt {n : EbitmapNode} {l : List EbitmapNode} (hl : NodesSorted (n :: l)) {s : Nat}
    (hs : s ≤ n.startbit) : blockAt l s = 0 := by
  rw [NodesSorted, List.pairwise_cons] at hl
  refine blockAt_eq_zero fun m hm => ?_
  have := hl.1 m hm
  omega

/-! ### One step of the loops -/

@[simp] theorem ebitmapOrNodes_nil_left (l : List EbitmapNode) : ebitmapOrNodes [] l = l := rfl

@[simp] theorem ebitmapOrNodes_nil_right (l : List EbitmapNode) : ebitmapOrNodes l [] = l := by
  cases l <;> rfl

private theorem ebitmapOrNodes_cons_cons (n1 n2 : EbitmapNode) (l1 l2 : List EbitmapNode) :
    ebitmapOrNodes (n1 :: l1) (n2 :: l2) =
      if n1.startbit = n2.startbit then ⟨n1.startbit, n1.map ||| n2.map⟩ :: ebitmapOrNodes l1 l2
      else if n1.startbit < n2.startbit then n1 :: ebitmapOrNodes l1 (n2 :: l2)
      else n2 :: ebitmapOrNodes (n1 :: l1) l2 := rfl

@[simp] theorem ebitmapAndNodes_nil_left (l : List EbitmapNode) : ebitmapAndNodes [] l = [] := rfl

@[simp] theorem ebitmapAndNodes_nil_right (l : List EbitmapNode) : ebitmapAndNodes l [] = [] := by
  cases l <;> rfl

private theorem ebitmapAndNodes_cons_cons (n1 n2 : EbitmapNode) (l1 l2 : List EbitmapNode) :
    ebitmapAndNodes (n1 :: l1) (n2 :: l2) =
      if n1.startbit = n2.startbit then
        if n1.map &&& n2.map ≠ 0 then ⟨n1.startbit, n1.map &&& n2.map⟩ :: ebitmapAndNodes l1 l2
        else ebitmapAndNodes l1 l2
      else if n1.startbit > n2.startbit then ebitmapAndNodes (n1 :: l1) l2
      else ebitmapAndNodes l1 (n2 :: l2) := rfl

theorem ebitmapContainsNodes_cons_cons (n1 n2 : EbitmapNode) (l1 l2 : List EbitmapNode) :
    ebitmapContainsNodes (n1 :: l1) (n2 :: l2) =
      if n1.startbit ≤ n2.startbit then
        if n1.startbit < n2.startbit then ebitmapContainsNodes l1 (n2 :: l2)
        else if n1.map &&& n2.map ≠ n2.map then false
        else ebitmapContainsNodes l1 l2
      else false := rfl

@[simp] theorem ebitmapContainsNodes_nil_right (l : List EbitmapNode) : ebitmapContainsNodes l [] = true := by
  cases l <;> rfl

@[simp] theorem ebitmapMatchAnyNodes_nil_right (l : List EbitmapNode) : ebitmapMatchAnyNodes l [] = false := by
  cases l <;> rfl

private theorem ebitmapMatchAnyNodes_cons_cons (n1 n2 : EbitmapNode) (l1 l2 : List EbitmapNode) :
    ebitmapMatchAnyNodes (n1 :: l1) (n2 :: l2) =
      if n1.startbit < n2.startbit then ebitmapMatchAnyNodes l1 (n2 :: l2)
      else if n2.startbit < n1.startbit then ebitmapMatchAnyNodes (n1 :: l1) l2
      else if n1.map &&& n2.map ≠ 0 then true
      else ebitmapMatchAnyNodes l1 l2 := rfl

/-! ### The words of the results -/

private theorem blockAt_ebitmapOrNodes {l1 l2 : List EbitmapNode} (h1 : NodesSorted l1) (h2 : NodesSorted l2)
    (s : Nat) : blockAt (ebitmapOrNodes l1 l2) s = blockAt l1 s ||| blockAt l2 s := by
  induction l1 generalizing l2 with
  | nil => simp
  | cons n1 l1 ih1 =>
    have h1' := (List.pairwise_cons.1 h1).2
    induction l2 with
    | nil => simp
    | cons n2 l2 ih2 =>
      have h2' := (List.pairwise_cons.1 h2).2
      have z1 : s ≤ n1.startbit → blockAt l1 s = 0 := blockAt_of_lt h1
      have z2 : s ≤ n2.startbit → blockAt l2 s = 0 := blockAt_of_lt h2
      rw [ebitmapOrNodes_cons_cons]
      split
      · rename_i heq
        rw [blockAt_cons, blockAt_cons, blockAt_cons, ih1 h1' h2', ← heq]
        split <;> rfl
      · split
        · rw [blockAt_cons, ih1 h1' h2]
          by_cases hs : n1.startbit = s
          · simp [blockAt_cons, hs, show n2.startbit ≠ s by omega, z2 (by omega)]
          · simp [blockAt_cons, hs]
        · rw [blockAt_cons, ih2 h2']
          by_cases hs : n2.startbit = s
          · simp [blockAt_cons, hs, show n1.startbit ≠ s by omega, z1 (by omega)]
          · simp [blockAt_cons, hs]

private theorem blockAt_ebitmapAndNodes {l1 l2 : List EbitmapNode} (h1 : NodesSorted l1) (h2 : NodesSorted l2)
    (s : Nat) : blockAt (ebitmapAndNodes l1 l2) s = blockAt l1 s &&& blockAt l2 s := by
  induction l1 generalizing l2 with
  | nil => simp
  | cons n1 l1 ih1 =>
    have h1' := (List.pairwise_cons.1 h1).2
    induction l2 with
    | nil => simp
    | cons n2 l2 ih2 =>
      have h2' := (List.pairwise_cons.1 h2).2
      have z1 : s ≤ n1.startbit → blockAt l1 s = 0 := blockAt_of_lt h1
      have z2 : s ≤ n2.startbit → blockAt l2 s = 0 := blockAt_of_lt h2
      rw [ebitmapAndNodes_cons_cons]
      split
      · rename_i heq
        by_cases hs : n1.startbit = s
        · have hs2 : n2.startbit = s := by omega
          split
          · simp [blockAt_cons, hs, hs2]
          · rename_i hz
            rw [ih1 h1' h2', z1 (by omega), blockAt_cons, blockAt_cons, if_pos hs, if_pos hs2]
            simpa using Eq.symm (not_not.1 hz)
        · have hs2 : n2.startbit ≠ s := by omega
          split
          · simp [blockAt_cons, hs, hs2, ih1 h1' h2']
          · simp [blockAt_cons, hs, hs2, ih1 h1' h2']
      · split
        · rw [ih2 h2']
          by_cases hs : n2.startbit = s
          · simp [blockAt_cons, hs, show n1.startbit ≠ s by omega, z1 (by omega)]
          · simp [blockAt_cons, hs]
        · rw [ih1 h1' h2]
          by_cases hs : n1.startbit = s
          · simp [blockAt_cons, hs, show n2.startbit ≠ s by omega, z2 (by omega)]
          · simp [blockAt_cons, hs]

private theorem ebitmapMatchAnyNodes_iff {l1 l2 : List EbitmapNode} (h1 : NodesSorted l1) (h2 : NodesSorted l2) :
    ebitmapMatchAnyNodes l1 l2 = true ↔ ∃ s, blockAt l1 s &&& blockAt l2 s ≠ 0 := by
  induction l1 generalizing l2 with
  | nil => simp [ebitmapMatchAnyNodes]
  | cons n1 l1 ih1 =>
    have h1' := (List.pairwise_cons.1 h1).2
    induction l2 with
    | nil => simp
    | cons n2 l2 ih2 =>
      have h2' := (List.pairwise_cons.1 h2).2
      have z1 : ∀ s, s ≤ n1.startbit → blockAt l1 s = 0 := fun s => blockAt_of_lt h1
      have z2 : ∀ s, s ≤ n2.startbit → blockAt l2 s = 0 := fun s => blockAt_of_lt h2
      rw [ebitmapMatchAnyNodes_cons_cons]
      split
      · rw [ih1 h1' h2]
        refine exists_congr fun s => ?_
        by_cases hs : n1.startbit = s
        · simp [blockAt_cons, hs, show n2.startbit ≠ s by omega, z2 s (by omega)]
        · simp [blockAt_cons, hs]
      · split
        · refine (ih2 h2').trans (exists_congr fun s => ?_)
          by_cases hs : n2.startbit = s
          · simp [blockAt_cons, hs, show n1.startbit ≠ s by omega, z1 s (by omega)]
          · simp [blockAt_cons, hs]
        · have heq : n1.startbit = n2.startbit := by omega
          split
          · rename_i hne
            simp only [true_iff]
            exact ⟨n1.startbit, by simpa [blockAt_cons, heq] using hne⟩
          · rename_i hz
            rw [ih1 h1' h2']
            refine exists_congr fun s => ?_
            by_cases hs : n1.startbit = s
            · have hs2 : n2.startbit = s := by omega
              rw [z1 s (by omega), blockAt_cons, blockAt_cons, if_pos hs, if_pos hs2, not_not.1 hz]
              simp
            · simp [blockAt_cons, hs, show n2.startbit ≠ s by omega]

/-- Inclusion, read off the nodes without any assumption on the first list. -/
private theorem blockAt_of_ebitmapContainsNodes {l1 l2 : List EbitmapNode} (h1 : NodesSorted l1) (h2 : NodesSorted l2)
    (h : ebitmapContainsNodes l1 l2 = true) (s : Nat) : blockAt l1 s &&& blockAt l2 s = blockAt l2 s := by
  induction l1 generalizing l2 with
  | nil =>
    have : l2 = [] := by simpa [ebitmapContainsNodes] using h
    simp [this]
  | cons n1 l1 ih1 =>
    have h1' := (List.pairwise_cons.1 h1).2
    cases l2 with
    | nil => simp
    | cons n2 l2 =>
      have h2' := (List.pairwise_cons.1 h2).2
      rw [ebitmapContainsNodes_cons_cons] at h
      split at h
      · split at h
        · have key := ih1 h1' h2 h
          by_cases hs : n1.startbit = s
          · have z2 : blockAt l2 s = 0 := blockAt_of_lt h2 (by omega)
            simp [blockAt_cons, show n2.startbit ≠ s by omega, z2]
          · rw [blockAt_cons, if_neg hs, key]
        · split at h
          · cases h
          · rename_i hsub
            have key := ih1 h1' h2' h
            by_cases hs : n1.startbit = s
            · rw [blockAt_cons, blockAt_cons, if_pos hs, if_pos (by omega)]
              exact not_not.1 hsub
            · rw [blockAt_cons, blockAt_cons, if_neg hs, if_neg (by omega), key]
      · cases h

theorem startbit_eq_of_aligned {n : EbitmapNode} (hn : 64 ∣ n.startbit) {bit : Nat} (h1 : n.startbit ≤ bit)
    (h2 : bit < n.startbit + 64) : n.startbit = bit - bit % 64 := by
  omega

private theorem blockAt_ebitmapSetNodes {l : List EbitmapNode} (hl : NodesSorted l) (hwf : ∀ n ∈ l, 64 ∣ n.startbit)
    (bit s : Nat) :
    blockAt (ebitmapSetNodes bit l).1 s =
      if s = bit - bit % 64 then blockAt l s ||| 1#64 <<< (bit % 64) else blockAt l s := by
  induction l with
  | nil =>
    simp only [ebitmapSetNodes, mapsize, blockAt_cons, blockAt_nil, eq_comm (a := s)]
    rw [show bit - (bit - bit % 64) = bit % 64 by omega]
    split <;> simp
  | cons n l ih =>
    have hl' := (List.pairwise_cons.1 hl).2
    have ih := ih hl' fun m hm => hwf m (List.mem_cons_of_mem _ hm)
    have hn := hwf n (List.mem_cons_self ..)
    have z : s ≤ n.startbit → blockAt l s = 0 := blockAt_of_lt hl
    by_cases h1 : n.startbit ≤ bit
    · by_cases h2 : n.startbit + 64 > bit
      · have e := startbit_eq_of_aligned hn h1 (by omega)
        simp only [ebitmapSetNodes, mapsize, if_pos h1, if_pos h2, blockAt_cons, mapbit]
        rw [show bit - n.startbit = bit % 64 by omega, ← e]
        by_cases hs : s = n.startbit
        · simp [hs]
        · simp [hs, Ne.symm hs]
      · simp only [ebitmapSetNodes, mapsize, if_pos h1, if_neg h2, blockAt_cons, ih]
        by_cases hs : n.startbit = s
        · rw [if_pos hs, if_pos hs, if_neg (by omega)]
        · rw [if_neg hs, if_neg hs]
    · simp only [ebitmapSetNodes, mapsize, if_neg h1, blockAt_cons]
      rw [show bit - (bit - bit % 64) = bit % 64 by omega]
      by_cases hs : s = bit - bit % 64
      · rw [if_pos hs.symm, if_pos hs, if_neg (by omega), z (by omega)]
        simp
      · rw [if_neg (Ne.symm hs), if_neg hs]

/-! ### The results are canonical -/

private theorem mem_ebitmapAndNodes {l1 l2 : List EbitmapNode} {n : EbitmapNode} (h : n ∈ ebitmapAndNodes l1 l2) :
    (∃ n1 ∈ l1, n.startbit = n1.startbit) ∧ n.map ≠ 0 := by
  induction l1 generalizing l2 with
  | nil => cases h
  | cons n1 l1 ih1 =>
    have up : ∀ l2', n ∈ ebitmapAndNodes l1 l2' →
        (∃ m ∈ n1 :: l1, n.startbit = m.startbit) ∧ n.map ≠ 0 := fun l2' h' => by
      obtain ⟨⟨m, hm, e⟩, hne⟩ := ih1 h'
      exact ⟨⟨m, List.mem_cons_of_mem _ hm, e⟩, hne⟩
    induction l2 with
    | nil => simp at h
    | cons n2 l2 ih2 =>
      rw [ebitmapAndNodes_cons_cons] at h
      split at h
      · split at h
        · rcases List.mem_cons.1 h with rfl | h
          · exact ⟨⟨n1, List.mem_cons_self .., rfl⟩, by assumption⟩
          · exact up _ h
        · exact up _ h
      · split at h
        · exact ih2 h
        · exact up _ h

private theorem ebitmapAndNodes_sorted {l1 l2 : List EbitmapNode} (h1 : NodesSorted l1) :
    NodesSorted (ebitmapAndNodes l1 l2) := by
  induction l1 generalizing l2 with
  | nil => exact List.Pairwise.nil
  | cons n1 l1 ih1 =>
    have h1' := List.pairwise_cons.1 h1
    induction l2 with
    | nil => simp [NodesSorted]
    | cons n2 l2 ih2 =>
      rw [ebitmapAndNodes_cons_cons]
      split
      · split
        · refine List.pairwise_cons.2 ⟨fun m hm => ?_, ih1 h1'.2⟩
          obtain ⟨⟨k, hk, e⟩, _⟩ := mem_ebitmapAndNodes hm
          rw [e]
          exact h1'.1 k hk
        · exact ih1 h1'.2
      · split
        · exact ih2
        · exact ih1 h1'.2

private theorem mem_ebitmapOrNodes {l1 l2 : List EbitmapNode} {n : EbitmapNode} (h : n ∈ ebitmapOrNodes l1 l2) :
    ∃ m, (m ∈ l1 ∨ m ∈ l2) ∧ n.startbit = m.startbit ∧ (m.map ≠ 0 → n.map ≠ 0) := by
  induction l1 generalizing l2 with
  | nil => exact ⟨n, Or.inr h, rfl, id⟩
  | cons n1 l1 ih1 =>
    induction l2 with
    | nil => exact ⟨n, Or.inl (by simpa using h), rfl, id⟩
    | cons n2 l2 ih2 =>
      have up : ∀ {l2'}, l2' ⊆ n2 :: l2 → n ∈ ebitmapOrNodes l1 l2' →
          ∃ m, (m ∈ n1 :: l1 ∨ m ∈ n2 :: l2) ∧ n.startbit = m.startbit ∧ (m.map ≠ 0 → n.map ≠ 0) :=
        fun hsub h' => by
          obtain ⟨m, hm, e⟩ := ih1 h'
          exact ⟨m, hm.imp (List.mem_cons_of_mem _) (fun hm => hsub hm), e⟩
      rw [ebitmapOrNodes_cons_cons] at h
      split at h
      · rcases List.mem_cons.1 h with rfl | h
        · refine ⟨n1, Or.inl (List.mem_cons_self ..), rfl, fun hne hz => hne ?_⟩
          exact (BitVec.or_eq_zero_iff.1 hz).1
        · exact up (List.subset_cons_self ..) h
      · split at h
        · rcases List.mem_cons.1 h with rfl | h
          · exact ⟨n, Or.inl (List.mem_cons_self ..), rfl, id⟩
          · exact up (List.Subset.refl _) h
        · rcases List.mem_cons.1 h with rfl | h
          · exact ⟨n, Or.inr (List.mem_cons_self ..), rfl, id⟩
          · obtain ⟨m, hm, e⟩ := ih2 h
            exact ⟨m, hm.imp id (List.mem_cons_of_mem _), e⟩

private theorem ebitmapOrNodes_sorted {l1 l2 : List EbitmapNode} (h1 : NodesSorted l1) (h2 : NodesSorted l2) :
    NodesSorted (ebitmapOrNodes l1 l2) := by
  induction l1 generalizing l2 with
  | nil => exact h2
  | cons n1 l1 ih1 =>
    have h1' := List.pairwise_cons.1 h1
    induction l2 with
    | nil => simpa using h1
    | cons n2 l2 ih2 =>
      have h2' := List.pairwise_cons.1 h2
      rw [ebitmapOrNodes_cons_cons]
      split
      · refine List.pairwise_cons.2 ⟨fun m hm => ?_, ih1 h1'.2 h2'.2⟩
        obtain ⟨k, hk, e, _⟩ := mem_ebitmapOrNodes hm
        show n1.startbit < m.startbit
        rcases hk with hk | hk
        · have := h1'.1 k hk; omega
        · have := h2'.1 k hk; omega
      · split
        · refine List.pairwise_cons.2 ⟨fun m hm => ?_, ih1 h1'.2 h2⟩
          obtain ⟨k, hk, e, _⟩ := mem_ebitmapOrNodes hm
          rcases hk with hk | hk
          · have := h1'.1 k hk; omega
          · rcases List.mem_cons.1 hk with rfl | hk
            · omega
            · have := h2'.1 k hk; omega
        · refine List.pairwise_cons.2 ⟨fun m hm => ?_, ih2 h2'.2⟩
          obtain ⟨k, hk, e, _⟩ := mem_ebitmapOrNodes hm
          rcases hk with hk | hk
          · rcases List.mem_cons.1 hk with rfl | hk
            · omega
            · have := h1'.1 k hk; omega
          · have := h2'.1 k hk; omega

private theorem mem_ebitmapSetNodes {l : List EbitmapNode} {bit : Nat} {n : EbitmapNode}
    (h : n ∈ (ebitmapSetNodes bit l).1) :
    n.startbit = bit - bit % 64 ∨ ∃ m ∈ l, n.startbit = m.startbit ∧ (m.map ≠ 0 → n.map ≠ 0) := by
  induction l with
  | nil =>
    simp only [ebitmapSetNodes, List.mem_singleton] at h
    exact Or.inl (by rw [h])
  | cons m l ih =>
    by_cases h1 : m.startbit ≤ bit
    · by_cases h2 : m.startbit + 64 > bit
      · simp only [ebitmapSetNodes, if_pos h1, if_pos h2, List.mem_cons] at h
        rcases h with rfl | h
        · refine Or.inr ⟨m, List.mem_cons_self .., rfl, fun hne hz => hne ?_⟩
          exact (BitVec.or_eq_zero_iff.1 hz).1
        · exact Or.inr ⟨n, List.mem_cons_of_mem _ h, rfl, id⟩
      · simp only [ebitmapSetNodes, if_pos h1, if_neg h2, List.mem_cons] at h
        rcases h with rfl | h
        · exact Or.inr ⟨n, List.mem_cons_self .., rfl, id⟩
        · refine (ih h).imp id ?_
          rintro ⟨k, hk, e⟩
          exact ⟨k, List.mem_cons_of_mem _ hk, e⟩
    · simp only [ebitmapSetNodes, if_neg h1, List.mem_cons] at h
      rcases h with rfl | rfl | h
      · exact Or.inl rfl
      · exact Or.inr ⟨n, List.mem_cons_self .., rfl, id⟩
      · exact Or.inr ⟨n, List.mem_cons_of_mem _ h, rfl, id⟩

private theorem ebitmapSetNodes_sorted {l : List EbitmapNode} (hl : NodesSorted l) (hwf : ∀ n ∈ l, 64 ∣ n.startbit)
    (bit : Nat) : NodesSorted (ebitmapSetNodes bit l).1 := by
  induction l with
  | nil => simp [ebitmapSetNodes, NodesSorted]
  | cons m l ih =>
    have hl' := List.pairwise_cons.1 hl
    have hm := hwf m (List.mem_cons_self ..)
    by_cases h1 : m.startbit ≤ bit
    · by_cases h2 : m.startbit + 64 > bit
      · simp only [ebitmapSetNodes, if_pos h1, if_pos h2]
        exact List.pairwise_cons.2 hl'
      · simp only [ebitmapSetNodes, if_pos h1, if_neg h2]
        refine List.pairwise_cons.2 ⟨fun k hk => ?_, ih hl'.2 fun k hk => hwf k (List.mem_cons_of_mem _ hk)⟩
        rcases mem_ebitmapSetNodes hk with e | ⟨j, hj, e, _⟩
        · omega
        · have := hl'.1 j hj; omega
    · simp only [ebitmapSetNodes, if_neg h1]
      refine List.pairwise_cons.2 ⟨fun k hk => ?_, hl⟩
      show bit - bit % mapsize < k.startbit
      rcases List.mem_cons.1 hk with rfl | hk
      · omega
      · have := hl'.1 k hk; omega

private theorem ebitmapSetNodes_snd {l : List EbitmapNode} (hl : NodesSorted l) (bit : Nat) :
    (ebitmapSetNodes bit l).2 = true ↔ ∀ n ∈ l, n.startbit + 64 ≤ bit := by
  induction l with
  | nil => simp [ebitmapSetNodes]
  | cons m l ih =>
    have hl' := List.pairwise_cons.1 hl
    by_cases h1 : m.startbit ≤ bit
    · by_cases h2 : m.startbit + 64 > bit
      · simp only [ebitmapSetNodes, if_pos h1, if_pos h2, List.forall_mem_cons]
        simp; omega
      · simp only [ebitmapSetNodes, if_pos h1, if_neg h2, List.forall_mem_cons, ih hl'.2]
        exact ⟨fun h => ⟨by omega, h⟩, fun h => h.2⟩
    · simp only [ebitmapSetNodes, if_neg h1, List.forall_mem_cons]
      simp; omega

theorem newHighbit_eq {l : List EbitmapNode} (hl : NodesSorted l) (hwf : ∀ n ∈ l, n.startbit + 64 < 2 ^ 32)
    {m : EbitmapNode} (hm : m ∈ l) (hmax : ∀ n ∈ l, n.startbit ≤ m.startbit) :
    newHighbit l = m.startbit + 64 := by
  obtain ⟨n, hn⟩ : ∃ n, l.getLast? = some n := by
    cases hl' : l.getLast? with
    | none => rw [List.getLast?_eq_none_iff] at hl'; subst hl'; cases hm
    | some n => exact ⟨n, rfl⟩
  have hmem := List.mem_of_getLast? hn
  have hle : m.startbit ≤ n.startbit := by
    obtain ⟨l', rfl⟩ := List.getLast?_eq_some_iff.1 hn
    rcases List.mem_append.1 hm with h | h
    · exact Nat.le_of_lt ((List.pairwise_append.1 hl).2.2 m h n (by simp))
    · exact Nat.le_of_eq (congrArg EbitmapNode.startbit (List.mem_singleton.1 h))
  have := hmax n hmem
  have heq : n.startbit = m.startbit := by omega
  simp only [newHighbit, hn]
  rw [uint32_of_lt (hwf n hmem), heq]

theorem exists_newHighbit {l : List EbitmapNode} (hl : NodesSorted l) (hwf : ∀ n ∈ l, n.startbit + 64 < 2 ^ 32)
    (hne : l ≠ []) : ∃ m ∈ l, newHighbit l = m.startbit + 64 ∧ ∀ n ∈ l, n.startbit ≤ m.startbit := by
  obtain ⟨l', n, rfl⟩ : ∃ l' n, l = l' ++ [n] :=
    ⟨l.dropLast, l.getLast hne, (List.dropLast_append_getLast hne).symm⟩
  have hmax : ∀ m ∈ l' ++ [n], m.startbit ≤ n.startbit := by
    intro m hm
    rcases List.mem_append.1 hm with h | h
    · exact Nat.le_of_lt ((List.pairwise_append.1 hl).2.2 m h n (by simp))
    · exact Nat.le_of_eq (congrArg EbitmapNode.startbit (List.mem_singleton.1 h))
  exact ⟨n, by simp, newHighbit_eq hl hwf (by simp) hmax, hmax⟩

namespace Ebitmap.Canonical

variable {e e1 e2 : Ebitmap}

theorem aligned (h : e.Canonical) : ∀ n ∈ e.node, 64 ∣ n.startbit := fun n hn => (h.node n hn).1

theorem bound (h : e.Canonical) : ∀ n ∈ e.node, n.startbit + 64 < 2 ^ 32 := fun n hn => (h.node n hn).2.2

theorem init : ebitmapInit.Canonical := ⟨List.Pairwise.nil, by simp [ebitmapInit], rfl⟩

theorem node_end_le (h : e.Canonical) {n : EbitmapNode} (hn : n ∈ e.node) : n.startbit + 64 ≤ e.highbit := by
  obtain ⟨m, hm, heq, hmax⟩ := exists_newHighbit h.sorted h.bound (List.ne_nil_of_mem hn)
  have := hmax n hn
  rw [h.highbit, heq]
  omega

theorem highbit_lt (h : e.Canonical) : e.highbit < 2 ^ 32 := by
  rw [h.highbit, newHighbit]
  split
  · decide
  · exact Nat.mod_lt _ (by decide)

theorem highbit_le (h : e.Canonical) : e.highbit ≤ 2 ^ 32 - 64 := by
  rw [h.highbit]
  by_cases hnil : e.node = []
  · rw [hnil]
    simp [newHighbit]
  · obtain ⟨n, hn, heq, -⟩ := exists_newHighbit h.sorted h.bound hnil
    have := h.aligned n hn
    have := h.bound n hn
    omega

theorem and (h1 : e1.Canonical) (_h2 : e2.Canonical) : (ebitmapAnd e1 e2).Canonical where
  sorted := ebitmapAndNodes_sorted h1.sorted
  node n hn := by
    obtain ⟨⟨n1, hn1, heq⟩, hne⟩ := mem_ebitmapAndNodes hn
    have := h1.node n1 hn1
    exact ⟨by rw [heq]; exact this.1, hne, by rw [heq]; exact this.2.2⟩
  highbit := rfl

theorem or (h1 : e1.Canonical) (h2 : e2.Canonical) : (ebitmapOr e1 e2).Canonical := by
  have hwf : ∀ n ∈ ebitmapOrNodes e1.node e2.node, NodeWf n := by
    intro n hn
    obtain ⟨m, hm, heq, hne⟩ := mem_ebitmapOrNodes hn
    have : NodeWf m := hm.elim (h1.node m) (h2.node m)
    exact ⟨by rw [heq]; exact this.1, hne this.2.1, by rw [heq]; exact this.2.2⟩
  have hsorted := ebitmapOrNodes_sorted h1.sorted h2.sorted
  refine ⟨hsorted, hwf, ?_⟩
  show (if e1.highbit > e2.highbit then e1.highbit else e2.highbit) = newHighbit (ebitmapOrNodes e1.node e2.node)
  by_cases z1 : e1.node = []
  · have : e1.highbit = 0 := by rw [h1.highbit, z1]; rfl
    simp [z1, this, h2.highbit]
  by_cases z2 : e2.node = []
  · have : e2.highbit = 0 := by rw [h2.highbit, z2]; rfl
    rw [z2, ebitmapOrNodes_nil_right, ← h1.highbit, this]
    split <;> omega
  obtain ⟨m1, hm1, heq1, hmax1⟩ := exists_newHighbit h1.sorted h1.bound z1
  obtain ⟨m2, hm2, heq2, hmax2⟩ := exists_newHighbit h2.sorted h2.bound z2
  have hmax : ∀ n ∈ ebitmapOrNodes e1.node e2.node, n.startbit ≤ m1.startbit ∨ n.startbit ≤ m2.startbit := by
    intro n hn
    obtain ⟨m, hm, heq, _⟩ := mem_ebitmapOrNodes hn
    rw [heq]
    exact hm.imp (hmax1 m) (hmax2 m)
  -- the node of the larger start position has a node of the result at its place
  have key : ∀ m : EbitmapNode, blockAt (ebitmapOrNodes e1.node e2.node) m.startbit ≠ 0 →
      (∀ n ∈ ebitmapOrNodes e1.node e2.node, n.startbit ≤ m.startbit) →
      newHighbit (ebitmapOrNodes e1.node e2.node) = m.startbit + 64 := by
    intro m hne hm
    obtain ⟨k, hk, hks, _⟩ := mem_of_blockAt_ne_zero hne
    rw [← hks]
    exact newHighbit_eq hsorted (fun n hn => (hwf n hn).2.2) hk (fun n hn => by rw [hks]; exact hm n hn)
  rw [h1.highbit, h2.highbit, heq1, heq2]
  split
  · refine (key m1 ?_ fun n hn => ?_).symm
    · rw [blockAt_ebitmapOrNodes h1.sorted h2.sorted, blockAt_of_mem h1.sorted hm1]
      exact fun hz => (h1.node m1 hm1).2.1 (BitVec.or_eq_zero_iff.1 hz).1
    · have := hmax n hn; omega
  · refine (key m2 ?_ fun n hn => ?_).symm
    · rw [blockAt_ebitmapOrNodes h1.sorted h2.sorted, blockAt_of_mem h2.sorted hm2]
      exact fun hz => (h2.node m2 hm2).2.1 (BitVec.or_eq_zero_iff.1 hz).2
    · have := hmax n hn; omega

theorem union (h1 : e1.Canonical) (h2 : e2.Canonical) : (ebitmapUnion e1 e2).Canonical := h1.or h2

end Ebitmap.Canonical

/-! ### Setting a bit -/

private theorem one_shiftLeft_ne_zero {k : Nat} (hk : k < 64) : (1#64 <<< k) ≠ 0 := by
  intro h
  have := congrArg (fun m => m.getLsbD k) h
  simp [hk] at this

theorem ebitmapSetBit_true {bit : Nat} (hbit : bit < 2 ^ 32 - 64) (e : Ebitmap) :
    ebitmapSetBit e bit true =
      some ⟨(ebitmapSetNodes bit e.node).1,
        if (ebitmapSetNodes bit e.node).2 then bit - bit % 64 + 64 else e.highbit⟩ := by
  have : uint32 (bit - bit % mapsize + mapsize) = bit - bit % 64 + 64 := uint32_of_lt (by simp only [mapsize]; omega)
  simp [ebitmapSetBit, this]

theorem Ebitmap.Canonical.setBit {e e' : Ebitmap} (h : e.Canonical) {bit : Nat} (hbit : bit < 2 ^ 32 - 64)
    (he : ebitmapSetBit e bit true = some e') : e'.Canonical := by
  rw [ebitmapSetBit_true hbit] at he
  obtain rfl := Option.some.inj he
  have hsorted := ebitmapSetNodes_sorted h.sorted h.aligned bit
  -- the node at the position of the bit is not empty
  have hword : ∀ n ∈ (ebitmapSetNodes bit e.node).1, n.startbit = bit - bit % 64 → n.map ≠ 0 := by
    intro n hn hs hz
    have := blockAt_ebitmapSetNodes h.sorted h.aligned bit n.startbit
    rw [blockAt_of_mem hsorted hn, if_pos hs, hz] at this
    exact one_shiftLeft_ne_zero (Nat.mod_lt bit (by decide)) (BitVec.or_eq_zero_iff.1 this.symm).2
  have hwf : ∀ n ∈ (ebitmapSetNodes bit e.node).1, NodeWf n := by
    intro n hn
    rcases mem_ebitmapSetNodes hn with hs | ⟨m, hm, hs, hne⟩
    · exact ⟨by omega, hword n hn hs, by omega⟩
    · have := h.node m hm
      exact ⟨by rw [hs]; exact this.1, hne this.2.1, by rw [hs]; exact this.2.2⟩
  refine ⟨hsorted, hwf, ?_⟩
  have hat : ∀ s, blockAt (ebitmapSetNodes bit e.node).1 s ≠ 0 →
      ∃ n ∈ (ebitmapSetNodes bit e.node).1, n.startbit = s := fun s hs => by
    obtain ⟨n, hn, hns, _⟩ := mem_of_blockAt_ne_zero hs
    exact ⟨n, hn, hns⟩
  show (if (ebitmapSetNodes bit e.node).2 = true then _ else e.highbit) = _
  split
  · rename_i hlast
    have hend := (ebitmapSetNodes_snd h.sorted bit).1 hlast
    obtain ⟨n, hn, hns⟩ := hat (bit - bit % 64) (by
      rw [blockAt_ebitmapSetNodes h.sorted h.aligned, if_pos rfl]
      exact fun hz => one_shiftLeft_ne_zero (Nat.mod_lt bit (by decide)) (BitVec.or_eq_zero_iff.1 hz).2)
    rw [newHighbit_eq hsorted (fun m hm => (hwf m hm).2.2) hn, hns]
    intro m hm
    rcases mem_ebitmapSetNodes hm with hs | ⟨k, hk, hs, _⟩
    · omega
    · have := hend k hk; omega
  · rename_i hlast
    rw [ebitmapSetNodes_snd h.sorted] at hlast
    push Not at hlast
    obtain ⟨k, hk, hkb⟩ := hlast
    obtain ⟨m, hm, heq, hmax⟩ := exists_newHighbit h.sorted h.bound (List.ne_nil_of_mem hk)
    obtain ⟨n, hn, hns⟩ := hat m.startbit (by
      rw [blockAt_ebitmapSetNodes h.sorted h.aligned, blockAt_of_mem h.sorted hm]
      split
      · exact fun hz => (h.node m hm).2.1 (BitVec.or_eq_zero_iff.1 hz).1
      · exact (h.node m hm).2.1)
    rw [h.highbit, heq, newHighbit_eq hsorted (fun m hm => (hwf m hm).2.2) hn, hns]
    intro j hj
    rcases mem_ebitmapSetNodes hj with hs | ⟨i, hi, hs, _⟩
    · have := h.aligned k hk
      have := hmax k hk
      omega
    · have := hmax i hi; omega

theorem mem_of_ebitmapSetBit {e e' : Ebitmap} (h : e.Canonical) {bit : Nat} (hbit : bit < 2 ^ 32 - 64)
    (he : ebitmapSetBit e bit true = some e') (i : Nat) : i ∈ e' ↔ i ∈ e ∨ i = bit := by
  rw [ebitmapSetBit_true hbit] at he
  obtain rfl := Option.some.inj he
  rw [Ebitmap.mem_iff, Ebitmap.mem_iff, blockAt_ebitmapSetNodes h.sorted h.aligned]
  have hi : i % 64 < 64 := Nat.mod_lt _ (by decide)
  by_cases hs : i - i % 64 = bit - bit % 64
  · rw [if_pos hs]
    simp only [BitVec.getLsbD_or, BitVec.getLsbD_shiftLeft, BitVec.getLsbD_one, Bool.or_eq_true, hi]
    simp only [Bool.and_eq_true, Bool.not_eq_true', decide_eq_false_iff_not, decide_eq_true_eq, true_and]
    exact or_congr_right (by omega)
  · rw [if_neg hs]
    have : i ≠ bit := fun h => hs (by rw [h])
    simp [this]

/-! ### Members of the results -/

variable {e e1 e2 : Ebitmap}

@[simp] theorem not_mem_ebitmapInit (i : Nat) : i ∉ ebitmapInit := by
  simp [Ebitmap.mem_iff, ebitmapInit]

@[simp] theorem ebitmapCpy_eq (e : Ebitmap) : ebitmapCpy e = e := by
  simp [ebitmapCpy]

theorem mem_ebitmapAnd (h1 : e1.Canonical) (h2 : e2.Canonical) (i : Nat) :
    i ∈ ebitmapAnd e1 e2 ↔ i ∈ e1 ∧ i ∈ e2 := by
  simp only [Ebitmap.mem_iff, ebitmapAnd, blockAt_ebitmapAndNodes h1.sorted h2.sorted, BitVec.getLsbD_and,
    Bool.and_eq_true]

theorem mem_ebitmapOr (h1 : e1.Canonical) (h2 : e2.Canonical) (i : Nat) :
    i ∈ ebitmapOr e1 e2 ↔ i ∈ e1 ∨ i ∈ e2 := by
  simp only [Ebitmap.mem_iff, ebitmapOr, blockAt_ebitmapOrNodes h1.sorted h2.sorted, BitVec.getLsbD_or,
    Bool.or_eq_true]

theorem mem_ebitmapUnion (h1 : e1.Canonical) (h2 : e2.Canonical) (i : Nat) :
    i ∈ ebitmapUnion e1 e2 ↔ i ∈ e1 ∨ i ∈ e2 := mem_ebitmapOr h1 h2 i

private theorem blockAt_aligned {l : List EbitmapNode} (hl : ∀ n ∈ l, 64 ∣ n.startbit) {s : Nat}
    (h : blockAt l s ≠ 0) : 64 ∣ s := by
  obtain ⟨n, hn, hs, _⟩ := mem_of_blockAt_ne_zero h
  rw [← hs]
  exact hl n hn

theorem ebitmapMatchAny_iff (h1 : e1.Canonical) (h2 : e2.Canonical) :
    ebitmapMatchAny e1 e2 = true ↔ ∃ i, i ∈ e1 ∧ i ∈ e2 := by
  rw [ebitmapMatchAny, ebitmapMatchAnyNodes_iff h1.sorted h2.sorted]
  constructor
  · rintro ⟨s, hs⟩
    obtain ⟨k, hk, hbit⟩ := Words.ne_zero_iff.1 hs
    have hal : 64 ∣ s := blockAt_aligned h1.aligned fun hz => hs (by rw [hz]; simp)
    rw [BitVec.getLsbD_and, Bool.and_eq_true] at hbit
    refine ⟨s + k, ?_, ?_⟩
    · rw [Ebitmap.mem_iff, show (s + k) % 64 = k by omega, show s + k - k = s by omega]
      exact hbit.1
    · rw [Ebitmap.mem_iff, show (s + k) % 64 = k by omega, show s + k - k = s by omega]
      exact hbit.2
  · rintro ⟨i, hi1, hi2⟩
    refine ⟨i - i % 64, fun hz => ?_⟩
    have := congrArg (fun m => m.getLsbD (i % 64)) hz
    rw [Ebitmap.mem_iff] at hi1 hi2
    simp [hi1, hi2] at this

theorem mem_of_ebitmapContains (h1 : e1.Canonical) (h2 : e2.Canonical) (h : ebitmapContains e1 e2 = true)
    {i : Nat} (hi : i ∈ e2) : i ∈ e1 := by
  rw [ebitmapContains] at h
  split at h
  · cases h
  · have := blockAt_of_ebitmapContainsNodes h1.sorted h2.sorted h (i - i % 64)
    rw [Ebitmap.mem_iff] at hi ⊢
    rw [← this, BitVec.getLsbD_and, Bool.and_eq_true] at hi
    exact hi.1

theorem ebitmapIsEmpty_iff (h : e.Canonical) : ebitmapIsEmpty e = true ↔ ∀ i, i ∉ e := by
  rw [ebitmapIsEmpty, List.isEmpty_iff]
  constructor
  · intro he i
    simp [Ebitmap.mem_iff, he]
  · intro hno
    cases hl : e.node with
    | nil => rfl
    | cons n l =>
      have hn : n ∈ e.node := by rw [hl]; exact List.mem_cons_self ..
      obtain ⟨k, hk, hbit⟩ := Words.ne_zero_iff.1 (h.node n hn).2.1
      have hal := h.aligned n hn
      refine absurd ?_ (hno (n.startbit + k))
      rw [Ebitmap.mem_iff, show (n.startbit + k) % 64 = k by omega, show n.startbit + k - k = n.startbit by omega,
        blockAt_of_mem h.sorted hn]
      exact hbit

/-- The members of a canonical bitmap are the set bits of its nodes. -/
theorem Ebitmap.Canonical.mem_iff_node (h : e.Canonical) (i : Nat) :
    i ∈ e ↔ ∃ n ∈ e.node, ∃ k < 64, i = n.startbit + k ∧ n.map.getLsbD k = true := by
  rw [Ebitmap.mem_iff]
  constructor
  · intro hi
    have hne : blockAt e.node (i - i % 64) ≠ 0 := fun hz => by simp [hz] at hi
    obtain ⟨n, hn, hs, hmap⟩ := mem_of_blockAt_ne_zero hne
    exact ⟨n, hn, i % 64, Nat.mod_lt _ (by decide), by omega, by rw [hmap]; exact hi⟩
  · rintro ⟨n, hn, k, hk, rfl, hbit⟩
    have hal := h.aligned n hn
    rw [show (n.startbit + k) % 64 = k by omega, show n.startbit + k - k = n.startbit by omega,
      blockAt_of_mem h.sorted hn]
    exact hbit

theorem Ebitmap.Canonical.lt_of_mem (h : e.Canonical) {i : Nat} (hi : i ∈ e) : i < e.highbit := by
  obtain ⟨n, hn, k, hk, rfl, _⟩ := (h.mem_iff_node i).1 hi
  have := h.node_end_le hn
  omega

/-! ### Bitmaps of given positions -/

/-- The bitmap with the positions of a list, built as the readers of a policy build theirs. -/
def ebitmapOfList (l : List Nat) : Ebitmap :=
  l.foldl (fun e i => if i < 2 ^ 32 - 64 then (ebitmapSetBit e i true).getD e else e) ebitmapInit

private theorem foldl_setBit (l : List Nat) {e : Ebitmap} (h : e.Canonical) (hl : ∀ i ∈ l, i < 2 ^ 32 - 64)
    (j : Nat) :
    j ∈ l.foldl (fun e i => if i < 2 ^ 32 - 64 then (ebitmapSetBit e i true).getD e else e) e ↔ j ∈ e ∨ j ∈ l := by
  induction l generalizing e with
  | nil => simp
  | cons i l ih =>
    have hi := hl i (List.mem_cons_self ..)
    have hset := ebitmapSetBit_true hi e
    rw [List.foldl_cons, if_pos hi, hset, Option.getD_some,
      ih (h.setBit hi hset) fun i hi => hl i (List.mem_cons_of_mem _ hi), mem_of_ebitmapSetBit h hi hset,
      List.mem_cons, or_assoc]

theorem mem_ebitmapOfList {l : List Nat} (hl : ∀ i ∈ l, i < 2 ^ 32 - 64) (j : Nat) : j ∈ ebitmapOfList l ↔ j ∈ l := by
  rw [ebitmapOfList, foldl_setBit l Ebitmap.Canonical.init hl]
  simp

theorem ebitmapOfList_canonical (l : List Nat) : (ebitmapOfList l).Canonical := by
  have hall : ∀ {e : Ebitmap}, e.Canonical →
      (l.foldl (fun e i => if i < 2 ^ 32 - 64 then (ebitmapSetBit e i true).getD e else e) e).Canonical := by
    induction l with
    | nil => exact fun h => h
    | cons i l ih =>
      intro e h
      rw [List.foldl_cons]
      refine ih ?_
      split
      · rename_i hi
        have hset := ebitmapSetBit_true hi e
        rw [hset, Option.getD_some]
        exact h.setBit hi hset
      · exact h
  exact hall Ebitmap.Canonical.init

/-- The map of the first `n` positions that relates each of them to itself only. -/
def selfMap (n i : Nat) : Ebitmap := if i < n then ebitmapOfList [i] else ebitmapInit

theorem selfMap_canonical (n i : Nat) : (selfMap n i).Canonical := by
  rw [selfMap]
  split
  · exact ebitmapOfList_canonical _
  · exact Ebitmap.Canonical.init

theorem mem_selfMap {n : Nat} (hn : n ≤ 2 ^ 32 - 64) {i j : Nat} : j ∈ selfMap n i ↔ j = i ∧ i < n := by
  rw [selfMap]
  split
  · rename_i hi
    rw [mem_ebitmapOfList (by simp; omega), List.mem_singleton]
    exact (and_iff_left hi).symm
  · rename_i hi
    simp [hi]

end Sepol
