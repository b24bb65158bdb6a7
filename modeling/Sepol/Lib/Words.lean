import Mathlib

/-!
# Words as sets of bits
-/

namespace Words

variable {w : Nat}

theorem ne_zero_iff {m : BitVec w} : m ≠ 0 ↔ ∃ k < w, m.getLsbD k = true := by
  constructor
  · intro h
    by_contra hn
    push Not at hn
    refine h (BitVec.eq_of_getLsbD_eq fun k hk => ?_)
    simpa using hn k hk
  · rintro ⟨k, _, hbit⟩ rfl
    simp at hbit

/-- Two words have a bit in common. -/
theorem and_ne_zero_iff {a b : BitVec w} :
    a &&& b ≠ 0 ↔ ∃ k < w, a.getLsbD k = true ∧ b.getLsbD k = true := by
  rw [ne_zero_iff]
  refine exists_congr fun k => and_congr_right fun _ => ?_
  rw [BitVec.getLsbD_and, Bool.and_eq_true]

/-! ### Unions and intersections of lists -/

def union (l : List (BitVec w)) : BitVec w := l.foldl (fun a b => a ||| b) 0

def inter (l : List (BitVec w)) : BitVec w := l.foldl (fun a b => a &&& b) (BitVec.allOnes w)

theorem getLsbD_union (l : List (BitVec w)) (k : Nat) : (union l).getLsbD k = l.any fun m => m.getLsbD k := by
  have hfold : ∀ a : BitVec w, (l.foldl (fun a b => a ||| b) a).getLsbD k =
      (a.getLsbD k || l.any fun m => m.getLsbD k) := by
    induction l with
    | nil => exact fun a => (Bool.or_false _).symm
    | cons m l ih =>
      intro a
      rw [List.foldl_cons, ih, BitVec.getLsbD_or, List.any_cons, Bool.or_assoc]
  rw [union, hfold]
  simp

theorem getLsbD_inter (l : List (BitVec w)) {k : Nat} (hk : k < w) :
    (inter l).getLsbD k = l.all fun m => m.getLsbD k := by
  have hfold : ∀ a : BitVec w, (l.foldl (fun a b => a &&& b) a).getLsbD k =
      (a.getLsbD k && l.all fun m => m.getLsbD k) := by
    induction l with
    | nil => exact fun a => (Bool.and_true _).symm
    | cons m l ih =>
      intro a
      rw [List.foldl_cons, ih, BitVec.getLsbD_and, List.all_cons, Bool.and_assoc]
  rw [inter, hfold]
  simp [hk]

/-- A union has a bit in common with a word when one of its words has. -/
theorem union_and_ne_zero_iff {l : List (BitVec w)} {m : BitVec w} : union l &&& m ≠ 0 ↔ ∃ a ∈ l, a &&& m ≠ 0 := by
  simp only [and_ne_zero_iff, getLsbD_union, List.any_eq_true]
  constructor
  · rintro ⟨k, hk, ⟨a, ha, hak⟩, hm⟩
    exact ⟨a, ha, k, hk, hak, hm⟩
  · rintro ⟨a, ha, k, hk, hak, hm⟩
    exact ⟨k, hk, ⟨a, ha, hak⟩, hm⟩

/-- A union depends only on the set of its words. -/
theorem union_congr {l l' : List (BitVec w)} (h : ∀ m, m ∈ l ↔ m ∈ l') : union l = union l' := by
  refine BitVec.eq_of_getLsbD_eq fun k _ => ?_
  rw [getLsbD_union, getLsbD_union, Bool.eq_iff_iff, List.any_eq_true, List.any_eq_true]
  exact exists_congr fun m => and_congr_left fun _ => h m

/-- An intersection depends only on the set of its words. -/
theorem inter_congr {l l' : List (BitVec w)} (h : ∀ m, m ∈ l ↔ m ∈ l') : inter l = inter l' := by
  refine BitVec.eq_of_getLsbD_eq fun k hk => ?_
  rw [getLsbD_inter l hk, getLsbD_inter l' hk, Bool.eq_iff_iff, List.all_eq_true, List.all_eq_true]
  exact forall_congr' fun m => imp_congr_left (h m)

end Words
