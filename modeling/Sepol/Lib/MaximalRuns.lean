import Mathlib

/-!
# Maximal runs

A walk visits positions in ascending order.  A relation `more` says of a position that the next one goes together with
it; as long as it does the run stays open, and otherwise the run is written down by its first and its last position.
What is written down are the maximal runs, and their positions in order are the visited ones.
-/

namespace MaximalRuns

variable {more : Nat → Bool} {l : List Nat} {i j s : Nat} {r r' : Nat × Nat}

/-- The runs of a walk; `start` is the first position of the run that is open. -/
def runs (more : Nat → Bool) : Option Nat → List Nat → List (Nat × Nat)
  | _, [] => []
  | start, i :: l =>
    if more i then runs more (some (start.getD i)) l else (start.getD i, i) :: runs more none l

/-- The positions of a run. -/
def positions (r : Nat × Nat) : List Nat := List.range' r.1 (r.2 + 1 - r.1)

theorem mem_positions : j ∈ positions r ↔ r.1 ≤ j ∧ j ≤ r.2 := by
  rw [positions, List.mem_range'_1]
  omega

/-- The positions are in ascending order, and a position that goes together with the next one is followed by it. -/
structure Linked (more : Nat → Bool) (l : List Nat) : Prop where
  sorted : l.Pairwise (· < ·)
  next : ∀ i ∈ l, more i = true → i + 1 ∈ l

/-- An interval of positions that go together, and which cannot be extended on either side. -/
structure Maximal (more : Nat → Bool) (l : List Nat) (r : Nat × Nat) : Prop where
  le : r.1 ≤ r.2
  mem : ∀ j, r.1 ≤ j → j ≤ r.2 → j ∈ l
  inner : ∀ j, r.1 ≤ j → j < r.2 → more j = true
  first : ∀ j ∈ l, j + 1 = r.1 → more j = false
  last : more r.2 = false

theorem Linked.tail (h : Linked more (i :: l)) : Linked more l where
  sorted := (List.pairwise_cons.1 h.sorted).2
  next j hj hmore := by
    have hlt := (List.pairwise_cons.1 h.sorted).1 j hj
    rcases List.mem_cons.1 (h.next j (List.mem_cons_of_mem _ hj) hmore) with heq | hmem
    · omega
    · exact hmem

/-- The position behind one that goes together with the next one. -/
theorem Linked.head (h : Linked more (i :: l)) (hmore : more i = true) : ∃ l', l = (i + 1) :: l' := by
  have hsorted := List.pairwise_cons.1 h.sorted
  have hnext : i + 1 ∈ l := by
    rcases List.mem_cons.1 (h.next i (by simp) hmore) with heq | hmem
    · omega
    · exact hmem
  cases l with
  | nil => cases hnext
  | cons j l' =>
    have hij := hsorted.1 j (by simp)
    rcases List.mem_cons.1 hnext with heq | hmem
    · exact ⟨l', by rw [heq]⟩
    · have := (List.pairwise_cons.1 hsorted.2).1 _ hmem
      omega

/-- A walk without an open run opens one at its first position. -/
theorem runs_none_cons : runs more none (i :: l) = runs more (some i) (i :: l) := rfl

theorem range'_sub_succ (hs : s ≤ i) : List.range' s (i + 1 - s) = List.range' s (i - s) ++ [i] := by
  rw [show i + 1 - s = i - s + 1 by omega, List.range'_concat]
  congr 2
  omega

/-- The last position of a walk does not go together with the next one. -/
theorem Linked.last (h : Linked more [i]) : more i = false := by
  cases hmore : more i with
  | false => rfl
  | true =>
    obtain ⟨l', hl'⟩ := h.head hmore
    cases hl'

theorem flatMap_runs_some (h : Linked more (i :: l)) (hs : s ≤ i) :
    (runs more (some s) (i :: l)).flatMap positions = List.range' s (i - s) ++ i :: l := by
  induction l generalizing s i with
  | nil => simp [runs, h.last, positions, range'_sub_succ hs]
  | cons j l ih =>
    rw [runs, Option.getD_some]
    cases hmore : more i with
    | true =>
      -- the run stays open, and the next position is the one behind it
      obtain ⟨l', hl'⟩ := h.head hmore
      obtain ⟨rfl, rfl⟩ := List.cons.inj hl'
      rw [if_pos rfl, ih h.tail (by omega), range'_sub_succ hs, List.append_assoc]
      rfl
    | false =>
      rw [if_neg (by simp), List.flatMap_cons, runs_none_cons, ih h.tail (le_refl j), Nat.sub_self, positions,
        range'_sub_succ hs, List.append_assoc]
      rfl

/-- The positions of the runs are the visited ones. -/
theorem flatMap_runs (h : Linked more l) : (runs more none l).flatMap positions = l := by
  cases l with
  | nil => rfl
  | cons i l =>
    rw [runs_none_cons, flatMap_runs_some h (le_refl i), Nat.sub_self]
    rfl

theorem Linked.append_right {before : List Nat} (h : Linked more (before ++ l)) : Linked more l := by
  induction before with
  | nil => exact h
  | cons j before ih => exact ih h.tail

/-- What a walk knows when it is at position `i`: the open run started at `s`, and `before` was visited. -/
structure Open (more : Nat → Bool) (before : List Nat) (s i : Nat) : Prop where
  le : s ≤ i
  mem : ∀ j, s ≤ j → j < i → j ∈ before
  inner : ∀ j, s ≤ j → j < i → more j = true
  first : ∀ j ∈ before, j + 1 = s → more j = false

variable {before : List Nat}

theorem Open.close (h : Open more before s i) (hl : Linked more (before ++ i :: l)) (hlast : more i = false) :
    Maximal more (before ++ i :: l) (s, i) where
  le := h.le
  mem j hsj hji := by
    rcases Nat.lt_or_eq_of_le hji with hlt | rfl
    · exact List.mem_append_left _ (h.mem j hsj hlt)
    · simp
  inner := h.inner
  first j hj hjs := by
    rcases List.mem_append.1 hj with hj | hj
    · exact h.first j hj hjs
    · -- what is visited from `i` on is not before the run
      have hle := h.le
      have hsorted := List.pairwise_cons.1 hl.append_right.sorted
      rcases List.mem_cons.1 hj with rfl | hj
      · dsimp only at hjs
        omega
      · have := hsorted.1 j hj
        dsimp only at hjs
        omega
  last := hlast

theorem Open.extend (h : Open more before s i) (hmore : more i = true) : Open more (before ++ [i]) s (i + 1) where
  le := Nat.le_succ_of_le h.le
  mem j hsj hji := by
    rcases Nat.lt_or_eq_of_le (Nat.le_of_lt_succ hji) with hlt | rfl
    · exact List.mem_append_left _ (h.mem j hsj hlt)
    · simp
  inner j hsj hji := by
    rcases Nat.lt_or_eq_of_le (Nat.le_of_lt_succ hji) with hlt | rfl
    · exact h.inner j hsj hlt
    · exact hmore
  first j hj hjs := by
    rcases List.mem_append.1 hj with hj | hj
    · exact h.first j hj hjs
    · have hle := h.le
      obtain rfl := List.mem_singleton.1 hj
      omega

/-- A run is opened behind a position that closed one. -/
theorem Open.start (hl : Linked more (before ++ i :: j :: l)) (hlast : more i = false) :
    Open more (before ++ [i]) j j where
  le := le_refl j
  mem k hjk hkj := by omega
  inner k hjk hkj := by omega
  first k hk hkj := by
    have hij := (List.pairwise_cons.1 hl.append_right.sorted).1 j (by simp)
    rcases List.mem_append.1 hk with hk | hk
    · have hki := (List.pairwise_append.1 hl.sorted).2.2 k hk i (by simp)
      omega
    · rw [List.mem_singleton.1 hk]
      exact hlast

theorem maximal_of_mem_runs_some (hl : Linked more (before ++ i :: l)) (h : Open more before s i)
    (hr : r ∈ runs more (some s) (i :: l)) : Maximal more (before ++ i :: l) r := by
  induction l generalizing s i before with
  | nil =>
    have hlast := hl.append_right.last
    rw [runs, Option.getD_some, hlast] at hr
    obtain rfl : r = (s, i) := by simpa [runs] using hr
    exact h.close hl hlast
  | cons j l ih =>
    have hassoc : before ++ i :: j :: l = before ++ [i] ++ j :: l := by simp
    rw [runs, Option.getD_some] at hr
    cases hmore : more i with
    | true =>
      obtain ⟨l', hl'⟩ := hl.append_right.head hmore
      obtain ⟨rfl, rfl⟩ := List.cons.inj hl'
      rw [if_pos hmore] at hr
      rw [hassoc] at hl ⊢
      exact ih hl (h.extend hmore) hr
    | false =>
      rw [if_neg (by simp [hmore]), runs_none_cons] at hr
      rcases List.mem_cons.1 hr with rfl | hr
      · exact h.close hl hmore
      · have hstart := Open.start hl hmore
        rw [hassoc] at hl ⊢
        exact ih hl hstart hr

theorem maximal_of_mem_runs (hl : Linked more l) (hr : r ∈ runs more none l) : Maximal more l r := by
  cases l with
  | nil => cases hr
  | cons i l =>
    have hopen : Open more [] i i := ⟨le_refl i, fun j h1 h2 => by omega, fun j h1 h2 => by omega,
      fun j hj => by cases hj⟩
    exact maximal_of_mem_runs_some (show Linked more ([] ++ i :: l) from hl) hopen hr

/-- Maximal runs with a common first position are the same. -/
theorem Maximal.eq_of_mem (h : Maximal more l r) (h' : Maximal more l r') (hmem : r.1 ∈ positions r') : r = r' := by
  obtain ⟨hle, hle'⟩ := mem_positions.1 hmem
  have hfirst : r.1 = r'.1 := by
    by_contra hne
    have hpred : r.1 - 1 + 1 = r.1 := by omega
    have hinner := h'.inner (r.1 - 1) (by omega) (by omega)
    rw [h.first (r.1 - 1) (h'.mem _ (by omega) (by omega)) hpred] at hinner
    cases hinner
  have hlast : r.2 = r'.2 := by
    by_contra hne
    have hrle := h.le
    rcases Nat.lt_or_gt_of_ne hne with hlt | hgt
    · have hinner := h'.inner r.2 (by omega) hlt
      rw [h.last] at hinner
      cases hinner
    · have hinner := h.inner r'.2 (by omega) hgt
      rw [h'.last] at hinner
      cases hinner
  exact Prod.ext hfirst hlast

/-- The runs of a walk are the maximal ones. -/
theorem mem_runs_iff (hl : Linked more l) : r ∈ runs more none l ↔ Maximal more l r := by
  refine ⟨maximal_of_mem_runs hl, fun h => ?_⟩
  have hmem := h.mem r.1 (le_refl _) h.le
  rw [← flatMap_runs hl, List.mem_flatMap] at hmem
  obtain ⟨r', hr', hpos⟩ := hmem
  rwa [h.eq_of_mem (maximal_of_mem_runs hl hr') hpos]

/-- The runs of a walk are in ascending order. -/
theorem runs_sorted (hl : Linked more l) : (runs more none l).Pairwise fun r r' => r.2 < r'.1 := by
  have hsorted := hl.sorted
  rw [← flatMap_runs hl, List.pairwise_flatMap] at hsorted
  refine hsorted.2.imp_of_mem fun {r r'} hr hr' hlt => ?_
  have hle := (maximal_of_mem_runs hl hr).le
  have hle' := (maximal_of_mem_runs hl hr').le
  exact hlt r.2 (mem_positions.2 ⟨hle, le_refl _⟩) r'.1 (mem_positions.2 ⟨le_refl _, hle'⟩)

/-- A position is visited exactly when it is in one of the runs. -/
theorem exists_mem_runs_iff (hl : Linked more l) : (∃ r ∈ runs more none l, r.1 ≤ j ∧ j ≤ r.2) ↔ j ∈ l := by
  conv_rhs => rw [← flatMap_runs hl, List.mem_flatMap]
  exact exists_congr fun r => and_congr_right fun _ => mem_positions.symm

/-- There are at most as many runs as positions. -/
theorem length_runs_le (more : Nat → Bool) (start : Option Nat) (l : List Nat) :
    (runs more start l).length ≤ l.length := by
  induction l generalizing start with
  | nil => exact Nat.zero_le _
  | cons i l ih =>
    rw [runs]
    split
    · exact Nat.le_succ_of_le (ih _)
    · exact Nat.succ_le_succ (ih _)

end MaximalRuns
