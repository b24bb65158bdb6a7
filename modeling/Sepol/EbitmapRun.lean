import Sepol.EbitmapOps

/-!
# Runs of bitmap operations

A run works on a growing list of bitmaps: `ebitmap_set_bit` and `ebitmap_union` change one of them in place, the other
operations initialize a new destination.  The same operations on sets of positions are the abstract model; every run
on bitmaps refines the run on sets.
-/

namespace Sepol

/-- A call of `ebitmap.c`; bitmaps are given by their place in the list, positions have the width of an `unsigned
int`. -/
inductive EbitmapOp
  | init
  | setBit (e : Nat) (bit : BitVec 32) (value : Bool)
  | or (e1 e2 : Nat)
  | union (dst e1 : Nat)
  | and (e1 e2 : Nat)
  | xor (e1 e2 : Nat)
  | not (e1 : Nat) (maxbit : BitVec 32)
  | andnot (e1 e2 : Nat) (maxbit : BitVec 32)
  | cpy (src : Nat)
  | initRange (minbit maxbit : BitVec 32)

/-- One call; `none` stands for a call that does not return.  A failing `ebitmap_set_bit` leaves its bitmap as it is,
a failing `ebitmap_init_range` leaves an initialized one. -/
def EbitmapOp.run (s : List Ebitmap) : EbitmapOp → Option (List Ebitmap)
  | init => some (s ++ [ebitmapInit])
  | setBit e bit value => some (s.modify e fun b => (ebitmapSetBit b bit.toNat value).getD b)
  | or e1 e2 => some (s ++ [ebitmapOr (s.getD e1 ebitmapInit) (s.getD e2 ebitmapInit)])
  | union dst e1 => some (s.modify dst fun b => ebitmapUnion b (s.getD e1 ebitmapInit))
  | and e1 e2 => some (s ++ [ebitmapAnd (s.getD e1 ebitmapInit) (s.getD e2 ebitmapInit)])
  | xor e1 e2 => some (s ++ [ebitmapXor (s.getD e1 ebitmapInit) (s.getD e2 ebitmapInit)])
  | not e1 maxbit => (ebitmapNot (s.getD e1 ebitmapInit) maxbit.toNat).map fun b => s ++ [b]
  | andnot e1 e2 maxbit =>
    (ebitmapAndnot (s.getD e1 ebitmapInit) (s.getD e2 ebitmapInit) maxbit.toNat).map fun b => s ++ [b]
  | cpy src => some (s ++ [ebitmapCpy (s.getD src ebitmapInit)])
  | initRange minbit maxbit =>
    match ebitmapInitRange minbit.toNat maxbit.toNat with
    | .ok b => some (s ++ [b])
    | .error _ => some (s ++ [ebitmapInit])

/-- The calls of `ebitmap_not` and `ebitmap_andnot` whose loop does not wrap around. -/
def EbitmapOp.Ends : EbitmapOp → Prop
  | not _ maxbit => maxbit.toNat ≤ 2 ^ 32 - 64
  | andnot _ _ maxbit => maxbit.toNat ≤ 2 ^ 32 - 64
  | _ => True

/-- The first position of the last word, which no bitmap can hold. -/
abbrev lastWord : Nat := 2 ^ 32 - 64

/-- The same call on sets of positions. -/
def EbitmapOp.sets (s : List (Set Nat)) : EbitmapOp → List (Set Nat)
  | init => s ++ [∅]
  | setBit e bit value => s.modify e fun b =>
      if lastWord ≤ bit.toNat then b else if value then insert bit.toNat b else b \ {bit.toNat}
  | or e1 e2 => s ++ [s.getD e1 ∅ ∪ s.getD e2 ∅]
  | union dst e1 => s.modify dst fun b => b ∪ s.getD e1 ∅
  | and e1 e2 => s ++ [s.getD e1 ∅ ∩ s.getD e2 ∅]
  | xor e1 e2 => s ++ [symmDiff (s.getD e1 ∅) (s.getD e2 ∅)]
  | not e1 maxbit => s ++ [Set.Iio maxbit.toNat \ s.getD e1 ∅]
  | andnot e1 e2 maxbit => s ++ [s.getD e1 ∅ ∩ (Set.Iio maxbit.toNat \ s.getD e2 ∅)]
  | cpy src => s ++ [s.getD src ∅]
  | initRange minbit maxbit => s ++ [if lastWord ≤ maxbit.toNat then ∅ else Set.Icc minbit.toNat maxbit.toNat]

def ebitmapRun (ops : List EbitmapOp) : Option (List Ebitmap) := ops.foldlM EbitmapOp.run []

def setRun (ops : List EbitmapOp) : List (Set Nat) := ops.foldl EbitmapOp.sets []

/-- A canonical bitmap with the members of a set. -/
def Denotes (e : Ebitmap) (b : Set Nat) : Prop := e.Canonical ∧ ∀ i, i ∈ e ↔ i ∈ b

/-! ### One call -/

private theorem denotes_init : Denotes ebitmapInit ∅ := ⟨.init, fun i => by simp⟩

/-- `ebitmap_set_bit` rejects exactly the positions of the last word. -/
theorem ebitmapSetBit_eq_none_iff (e : Ebitmap) (bit : BitVec 32) (value : Bool) :
    ebitmapSetBit e bit.toNat value = none ↔ lastWord ≤ bit.toNat := by
  have hlt := bit.isLt
  have hwrap : uint32 (bit.toNat - bit.toNat % mapsize + mapsize) = 0 ↔ lastWord ≤ bit.toNat := by
    simp only [uint32, mapsize, lastWord]
    omega
  rw [← hwrap, ebitmapSetBit]
  dsimp only
  split
  · rename_i h
    simp [h]
  · rename_i h
    cases value <;> simp [h]

private theorem denotes_setBit {e : Ebitmap} {b : Set Nat} (h : Denotes e b) (bit : BitVec 32) (value : Bool) :
    Denotes ((ebitmapSetBit e bit.toNat value).getD e)
      (if lastWord ≤ bit.toNat then b else if value then insert bit.toNat b else b \ {bit.toNat}) := by
  by_cases hbit : lastWord ≤ bit.toNat
  · rw [if_pos hbit, (ebitmapSetBit_eq_none_iff e bit value).2 hbit]
    exact h
  · have hlt : bit.toNat < 2 ^ 32 - 64 := Nat.lt_of_not_le hbit
    rw [if_neg hbit]
    cases value with
    | false =>
      obtain ⟨e', he, hcanon, hmem⟩ := ebitmapSetBit_false h.1 hlt
      rw [he]
      exact ⟨hcanon, fun i => by simp [hmem, h.2]⟩
    | true =>
      have he := ebitmapSetBit_true hlt e
      rw [he]
      refine ⟨h.1.setBit hlt he, fun i => ?_⟩
      simp only [Option.getD_some, mem_of_ebitmapSetBit h.1 hlt he, h.2, if_true, Set.mem_insert_iff]
      exact or_comm

private theorem denotes_initRange (minbit maxbit : BitVec 32) (s : List Ebitmap) :
    ∃ e, EbitmapOp.run s (.initRange minbit maxbit) = some (s ++ [e]) ∧
      Denotes e (if lastWord ≤ maxbit.toNat then ∅ else Set.Icc minbit.toNat maxbit.toNat) := by
  by_cases hle : minbit.toNat ≤ maxbit.toNat
  · by_cases hmax : lastWord ≤ maxbit.toNat
    · have herr : ebitmapInitRange minbit.toNat maxbit.toNat = .error .eoverflow := by
        have hlt := maxbit.isLt
        rw [ebitmapInitRange, if_neg (by omega), if_pos]
        right
        simp only [uint32, mapsize, lastWord] at hmax ⊢
        omega
      exact ⟨ebitmapInit, by rw [EbitmapOp.run, herr], by rw [if_pos hmax]; exact denotes_init⟩
    · obtain ⟨e, he, hcanon, hmem⟩ := ebitmapInitRange_spec hle (Nat.lt_of_not_le hmax)
      refine ⟨e, by rw [EbitmapOp.run, he], hcanon, fun i => ?_⟩
      rw [if_neg hmax, hmem, Set.mem_Icc]
  · have herr : ebitmapInitRange minbit.toNat maxbit.toNat = .error .einval := by
      rw [ebitmapInitRange, if_pos (by omega)]
    refine ⟨ebitmapInit, by rw [EbitmapOp.run, herr], .init, fun i => ?_⟩
    simp only [not_mem_ebitmapInit, false_iff]
    split
    · simp
    · rw [Set.mem_Icc]
      omega

private theorem denotes_getD {s : List Ebitmap} {t : List (Set Nat)} (h : List.Forall₂ Denotes s t) (i : Nat) :
    Denotes (s.getD i ebitmapInit) (t.getD i ∅) := by
  induction h generalizing i with
  | nil => exact denotes_init
  | cons h _ ih =>
    cases i with
    | zero => exact h
    | succ i => exact ih i

private theorem denotes_modify {s : List Ebitmap} {t : List (Set Nat)} (h : List.Forall₂ Denotes s t) (i : Nat)
    {f : Ebitmap → Ebitmap} {g : Set Nat → Set Nat} (hfg : ∀ e b, Denotes e b → Denotes (f e) (g b)) :
    List.Forall₂ Denotes (s.modify i f) (t.modify i g) := by
  induction h generalizing i with
  | nil => simp
  | cons h ht ih =>
    cases i with
    | zero => exact .cons (hfg _ _ h) ht
    | succ i => exact .cons h (ih i)

private theorem denotes_append {s : List Ebitmap} {t : List (Set Nat)} (h : List.Forall₂ Denotes s t) {e : Ebitmap}
    {b : Set Nat} (he : Denotes e b) : List.Forall₂ Denotes (s ++ [e]) (t ++ [b]) := by
  induction h with
  | nil => exact .cons he .nil
  | cons h _ ih => exact .cons h ih

/-- A call on bitmaps refines the call on sets. -/
private theorem EbitmapOp.run_refines {s : List Ebitmap} {t : List (Set Nat)} (h : List.Forall₂ Denotes s t)
    (op : EbitmapOp) (hop : op.Ends) : ∃ s', op.run s = some s' ∧ List.Forall₂ Denotes s' (op.sets t) := by
  have at' := fun i => denotes_getD h i
  cases op with
  | init => exact ⟨_, rfl, denotes_append h denotes_init⟩
  | setBit e bit value => exact ⟨_, rfl, denotes_modify h e fun b c hbc => denotes_setBit hbc bit value⟩
  | or e1 e2 =>
    refine ⟨_, rfl, denotes_append h ⟨(at' e1).1.or (at' e2).1, fun i => ?_⟩⟩
    rw [mem_ebitmapOr (at' e1).1 (at' e2).1, (at' e1).2, (at' e2).2, Set.mem_union]
  | union dst e1 =>
    refine ⟨_, rfl, denotes_modify h dst fun b c hbc => ⟨hbc.1.union (at' e1).1, fun i => ?_⟩⟩
    rw [mem_ebitmapUnion hbc.1 (at' e1).1, hbc.2, (at' e1).2, Set.mem_union]
  | and e1 e2 =>
    refine ⟨_, rfl, denotes_append h ⟨(at' e1).1.and (at' e2).1, fun i => ?_⟩⟩
    rw [mem_ebitmapAnd (at' e1).1 (at' e2).1, (at' e1).2, (at' e2).2, Set.mem_inter_iff]
  | xor e1 e2 =>
    refine ⟨_, rfl, denotes_append h ⟨(at' e1).1.xor (at' e2).1, fun i => ?_⟩⟩
    rw [mem_ebitmapXor (at' e1).1 (at' e2).1, (at' e1).2, (at' e2).2, Set.mem_symmDiff]
    tauto
  | not e1 maxbit =>
    obtain ⟨e, he, hcanon, hmem⟩ := ebitmapNot_spec (at' e1).1 hop
    refine ⟨_, by rw [EbitmapOp.run, he, Option.map_some], denotes_append h ⟨hcanon, fun i => ?_⟩⟩
    rw [hmem, (at' e1).2, Set.mem_sdiff, Set.mem_Iio]
  | andnot e1 e2 maxbit =>
    obtain ⟨e, he, hcanon, hmem⟩ := ebitmapAndnot_spec (at' e1).1 (at' e2).1 hop
    refine ⟨_, by rw [EbitmapOp.run, he, Option.map_some], denotes_append h ⟨hcanon, fun i => ?_⟩⟩
    rw [hmem, (at' e1).2, (at' e2).2, Set.mem_inter_iff, Set.mem_sdiff, Set.mem_Iio]
  | cpy src =>
    refine ⟨_, rfl, denotes_append h ?_⟩
    rw [ebitmapCpy_eq]
    exact at' src
  | initRange minbit maxbit =>
    obtain ⟨e, he, hden⟩ := denotes_initRange minbit maxbit s
    exact ⟨_, he, denotes_append h hden⟩

/-! ### Runs -/

private theorem foldlM_refines (ops : List EbitmapOp) (hops : ∀ op ∈ ops, op.Ends) {s : List Ebitmap}
    {t : List (Set Nat)} (h : List.Forall₂ Denotes s t) :
    ∃ s', ops.foldlM EbitmapOp.run s = some s' ∧ List.Forall₂ Denotes s' (ops.foldl EbitmapOp.sets t) := by
  induction ops generalizing s t with
  | nil => exact ⟨s, rfl, h⟩
  | cons op ops ih =>
    obtain ⟨s1, hs1, h1⟩ := op.run_refines h (hops op (List.mem_cons_self ..))
    obtain ⟨s', hs', h'⟩ := ih (fun o ho => hops o (List.mem_cons_of_mem _ ho)) h1
    refine ⟨s', ?_, h'⟩
    rw [List.foldlM_cons, hs1]
    exact hs'

/-- Every run ends with canonical bitmaps whose bits are those of the set operations, and a bit is rejected exactly
when it belongs to the last word. -/
theorem ebitmapRun_denotes (ops : List EbitmapOp) (hops : ∀ op ∈ ops, op.Ends) :
    (∃ s, ebitmapRun ops = some s ∧
      List.Forall₂ (fun e b => e.Canonical ∧ ∀ i, ebitmapGetBit e i = true ↔ i ∈ b) s (setRun ops)) ∧
      ∀ (e : Ebitmap) (bit : BitVec 32) (value : Bool),
        ebitmapSetBit e bit.toNat value = none ↔ lastWord ≤ bit.toNat := by
  refine ⟨?_, ebitmapSetBit_eq_none_iff⟩
  obtain ⟨s, hs, h⟩ := foldlM_refines ops hops (s := []) .nil
  refine ⟨s, hs, h.imp fun e b hden => ⟨hden.1, fun i => ?_⟩⟩
  rw [ebitmapGetBit_iff hden.1, hden.2]

theorem ebitmapRun_denotes_example :
    ∃ s, ebitmapRun [.init, .setBit 0 5 true, .initRange 3 70, .not 0 64, .andnot 1 2 100, .setBit 3 66 false] =
        some s ∧
      List.Forall₂ (fun e b => e.Canonical ∧ ∀ i, ebitmapGetBit e i = true ↔ i ∈ b) s
        (setRun [.init, .setBit 0 5 true, .initRange 3 70, .not 0 64, .andnot 1 2 100, .setBit 3 66 false]) := by
  refine (ebitmapRun_denotes _ fun op hop => ?_).1
  simp only [List.mem_cons, List.not_mem_nil, or_false] at hop
  rcases hop with rfl | rfl | rfl | rfl | rfl | rfl <;> simp [EbitmapOp.Ends]

end Sepol

/-!
## When the complement ends

The position in the loop of `ebitmap_not` is a 32-bit number.  With `maxbit` in the last word it is set back to 0
before it reaches `maxbit`, again and again; with any other `maxbit` the loop ends with the complement.
-/

namespace Sepol

/-- `ebitmap_not` ends, after some number of rounds, with the bitmap `e`. -/
def EbitmapNotEnds (e1 : Ebitmap) (maxbit : BitVec 32) (e : Ebitmap) : Prop :=
  ∃ fuel, (ebitmapNotNodes maxbit.toNat fuel 0 e1.node).map (fun node => ⟨node, newHighbit node⟩) = some e

/-- `ebitmap_andnot` ends with the bitmap `e`. -/
def EbitmapAndnotEnds (e1 e2 : Ebitmap) (maxbit : BitVec 32) (e : Ebitmap) : Prop :=
  ∃ e3, EbitmapNotEnds e2 maxbit e3 ∧ e = ebitmapAnd e1 e3

/-- `ebitmap_not` ends with a canonical bitmap that denotes the complement below `maxbit`. -/
def EbitmapNotDenotes (e1 : Ebitmap) (maxbit : BitVec 32) : Prop :=
  ∃ e, EbitmapNotEnds e1 maxbit e ∧ Denotes e {i | i < maxbit.toNat ∧ i ∉ e1}

/-- `ebitmap_andnot` ends with a canonical bitmap that denotes the intersection with the complement below `maxbit`. -/
def EbitmapAndnotDenotes (e1 e2 : Ebitmap) (maxbit : BitVec 32) : Prop :=
  ∃ e, EbitmapAndnotEnds e1 e2 maxbit e ∧ Denotes e {i | i ∈ e1 ∧ i < maxbit.toNat ∧ i ∉ e2}

private theorem ebitmapNotNodes_eq_none {maxbit cur : Nat} (hmax : 2 ^ 32 - 64 < maxbit) (hcur : cur ≤ 2 ^ 32 - 64)
    (hal : 64 ∣ cur) (fuel : Nat) (l : List EbitmapNode) : ebitmapNotNodes maxbit fuel cur l = none := by
  have hlt : cur < maxbit := by omega
  induction fuel generalizing cur l with
  | zero => rw [ebitmapNotNodes, if_pos hlt]
  | succ fuel ih =>
    have hnext : uint32 (cur + mapsize) ≤ 2 ^ 32 - 64 ∧ 64 ∣ uint32 (cur + mapsize) := by
      simp only [uint32, mapsize]
      omega
    rw [ebitmapNotNodes, if_pos hlt]
    dsimp only
    rw [ih hnext.1 hnext.2 _ (by omega), Option.map_none]

/-- With `maxbit` in the last word, a call of `ebitmap_andnot` does not return. -/
theorem not_ebitmapRun_andnot :
    ¬ ∀ ops : List EbitmapOp, (∀ e1 maxbit, EbitmapOp.not e1 maxbit ∈ ops → maxbit.toNat ≤ 2 ^ 32 - 64) →
      ∃ s, ebitmapRun ops = some s ∧
        List.Forall₂ (fun e b => e.Canonical ∧ ∀ i, ebitmapGetBit e i = true ↔ i ∈ b) s (setRun ops) := by
  intro h
  obtain ⟨s, hs, -⟩ := h [.init, .andnot 0 0 (BitVec.allOnes 32)] fun e1 maxbit hop => by
    simp only [List.mem_cons, List.not_mem_nil, or_false, reduceCtorEq] at hop
  have hnot : ebitmapNot ebitmapInit (BitVec.allOnes 32).toNat = none := by
    rw [ebitmapNot, ebitmapNotNodes_eq_none (by decide) (Nat.zero_le _) (Nat.dvd_zero _), Option.map_none]
  have hrun : ∀ maxbit : BitVec 32, ebitmapNot ebitmapInit maxbit.toNat = none →
      ebitmapRun [.init, .andnot 0 0 maxbit] = none := fun maxbit hnone => by
    have hstep : EbitmapOp.run [ebitmapInit] (.andnot 0 0 maxbit) = none := by
      simp only [EbitmapOp.run, ebitmapAndnot, List.getD_cons_zero, hnone, Option.map_none]
    exact (congrArg (fun s : Option (List Ebitmap) => s.bind fun s => [].foldlM EbitmapOp.run s) hstep)
  rw [hrun _ hnot] at hs
  cases hs

private theorem not_ebitmapNotEnds {maxbit : BitVec 32} (hmax : 2 ^ 32 - 64 < maxbit.toNat) (e1 e : Ebitmap) :
    ¬ EbitmapNotEnds e1 maxbit e := by
  rintro ⟨fuel, h⟩
  rw [ebitmapNotNodes_eq_none hmax (Nat.zero_le _) (Nat.dvd_zero _)] at h
  cases h

private theorem ebitmapNotDenotes_of_le {e1 : Ebitmap} (h1 : e1.Canonical) {maxbit : BitVec 32}
    (hmax : maxbit.toNat ≤ 2 ^ 32 - 64) : EbitmapNotDenotes e1 maxbit := by
  obtain ⟨e, he, hcanonical, hmem⟩ := ebitmapNot_spec h1 hmax
  exact ⟨e, ⟨_, he⟩, hcanonical, hmem⟩

/-- `ebitmap_not` and `ebitmap_andnot` end with the complement and the difference below `maxbit` exactly when `maxbit`
is not in the last word. -/
theorem ebitmapNot_ends_iff {e1 e2 : Ebitmap} (h1 : e1.Canonical) (h2 : e2.Canonical) (maxbit : BitVec 32) :
    (EbitmapNotDenotes e2 maxbit ↔ maxbit.toNat ≤ 2 ^ 32 - 64) ∧
      (EbitmapAndnotDenotes e1 e2 maxbit ↔ maxbit.toNat ≤ 2 ^ 32 - 64) := by
  refine ⟨⟨?_, ebitmapNotDenotes_of_le h2⟩, ?_, ?_⟩
  · rintro ⟨e, he, -⟩
    by_contra hmax
    exact not_ebitmapNotEnds (by omega) e2 e he
  · rintro ⟨e, ⟨e3, he3, -⟩, -⟩
    by_contra hmax
    exact not_ebitmapNotEnds (by omega) e2 e3 he3
  · intro hmax
    obtain ⟨e3, he3, hcanonical, hmem⟩ := ebitmapNotDenotes_of_le h2 hmax
    refine ⟨ebitmapAnd e1 e3, ⟨e3, he3, rfl⟩, h1.and hcanonical, fun i => ?_⟩
    rw [mem_ebitmapAnd h1 hcanonical, hmem i]
    rfl

theorem ebitmapNot_ends_iff_empty :
    (EbitmapNotDenotes ebitmapInit 100#32 ↔ (100#32).toNat ≤ 2 ^ 32 - 64) ∧
      (EbitmapAndnotDenotes (ebitmapOfList [3, 70]) ebitmapInit 100#32 ↔ (100#32).toNat ≤ 2 ^ 32 - 64) :=
  ebitmapNot_ends_iff (ebitmapOfList_canonical [3, 70]) .init 100#32

/-- The complement of the empty bitmap below the largest `maxbit` never ends. -/
theorem not_ebitmapNot_maxbit :
    ebitmapInit.Canonical ∧ ¬ EbitmapNotDenotes ebitmapInit (BitVec.allOnes 32) := by
  refine ⟨.init, ?_⟩
  rintro ⟨e, he, -⟩
  exact not_ebitmapNotEnds (by decide) ebitmapInit e he

end Sepol
