import Mathlib

/-!
# Runs of marked positions

A walk visits positions, each of them marked or not, and groups the marked ones into runs; a run is closed at the
next position that is not marked, or at the end.  A run is written down by its first position and the position it is
closed at only, as one or two single positions or as an interval (`intervals`).  This says the right thing exactly for
the runs that are `Closed` well.
-/

namespace Runs

/-- The runs of a walk that ends at position `fin`, each with the position at which it is closed; `run` is the run
that is open at the start. -/
def runs (fin : Nat) : List Nat → List (Nat × Bool) → List (List Nat × Nat)
  | run, [] => if run.isEmpty then [] else [(run, fin)]
  | run, (i, true) :: vs => runs fin (run ++ [i]) vs
  | run, (i, false) :: vs => if run.isEmpty then runs fin [] vs else (run, i) :: runs fin [] vs

/-- The intervals `[lo, hi)` that a run stands for when it is written down. -/
def intervals : List Nat × Nat → List (Nat × Nat)
  | ([], _) => []
  | ([a], _) => [(a, a + 1)]
  | ([a, _], y) => [(a, a + 1), (y - 1, y - 1 + 1)]
  | (a :: _ :: _ :: _, y) => [(a, y - 1 + 1)]

/-- Position `j` is in one of the intervals. -/
def Covers (ivs : List (Nat × Nat)) (j : Nat) : Prop := ∃ iv ∈ ivs, iv.1 ≤ j ∧ j < iv.2

/-- A single position, two positions whose second one is followed by the closing one, or consecutive positions up to
the closing one. -/
def Closed : List Nat × Nat → Prop
  | ([], _) => True
  | ([_], _) => True
  | ([_, x], y) => y = x + 1
  | (a :: b :: c :: l, y) => a :: b :: c :: l = List.range' a (l.length + 3) ∧ y = a + (l.length + 3)

/-- A run is not empty, its positions increase, and it is closed behind them. -/
structure RunOk (r : List Nat × Nat) : Prop where
  ne_nil : r.1 ≠ []
  sorted : r.1.Pairwise (· < ·)
  lt : ∀ x ∈ r.1, x < r.2

variable {fin : Nat} {run : List Nat} {vs ws : List (Nat × Bool)}

/-! ### The runs of a walk -/

/-- The runs hold the marked positions. -/
theorem flatMap_runs (fin : Nat) (run : List Nat) (vs : List (Nat × Bool)) :
    (runs fin run vs).flatMap Prod.fst = run ++ (vs.filter Prod.snd).map Prod.fst := by
  induction vs generalizing run with
  | nil =>
    cases run <;> simp [runs]
  | cons v vs ih =>
    obtain ⟨i, b⟩ := v
    cases b with
    | true => simp [runs, ih]
    | false => cases run <;> simp [runs, ih]

/-- The open run is the beginning of the first run of the walk. -/
theorem exists_runs_cons (fin a : Nat) (l : List Nat) (vs : List (Nat × Bool)) :
    ∃ l' y rs, runs fin (a :: l) vs = (a :: l', y) :: rs := by
  induction vs generalizing l with
  | nil => exact ⟨l, fin, [], rfl⟩
  | cons v vs ih =>
    obtain ⟨i, b⟩ := v
    cases b with
    | true => exact ih (l ++ [i])
    | false => exact ⟨l, i, runs fin [] vs, rfl⟩

/-- The positions of a walk increase, behind those of the open run and up to `fin`. -/
structure WalkOk (fin : Nat) (run : List Nat) (vs : List (Nat × Bool)) : Prop where
  sorted : (run ++ vs.map Prod.fst).Pairwise (· < ·)
  lt : ∀ x ∈ run ++ vs.map Prod.fst, x < fin

theorem WalkOk.mark {i : Nat} (h : WalkOk fin run ((i, true) :: vs)) : WalkOk fin (run ++ [i]) vs :=
  ⟨by simpa using h.sorted, by simpa using h.lt⟩

theorem WalkOk.skip {i : Nat} (h : WalkOk fin run ((i, false) :: vs)) : WalkOk fin [] vs := by
  have hs := (List.pairwise_append.1 h.sorted).2.1
  rw [List.map_cons, List.pairwise_cons] at hs
  exact ⟨hs.2, fun x hx => h.lt x (by simp at hx ⊢; tauto)⟩

/-- A run of a walk, with what the walk visits before its closing position. -/
theorem runs_ok (h : WalkOk fin run vs) {r : List Nat × Nat} (hr : r ∈ runs fin run vs) :
    RunOk r ∧ r.2 ≤ fin := by
  induction vs generalizing run with
  | nil =>
    simp only [runs] at hr
    split at hr
    · cases hr
    · rename_i hne
      obtain rfl := List.mem_singleton.1 hr
      refine ⟨⟨by simpa using hne, by simpa using h.sorted, fun x hx => h.lt x (by simp [hx])⟩, le_refl _⟩
  | cons v vs ih =>
    obtain ⟨i, b⟩ := v
    cases b with
    | true => exact ih h.mark hr
    | false =>
      simp only [runs] at hr
      split at hr
      · exact ih h.skip hr
      · rename_i hne
        rcases List.mem_cons.1 hr with rfl | hr
        · have hs := List.pairwise_append.1 h.sorted
          refine ⟨⟨by simpa using hne, hs.1, fun x hx => hs.2.2 x hx i (by simp)⟩, (h.lt i (by simp)).le⟩
        · exact ih h.skip hr

/-- Between the first position of a run and its closing position there are no other marked positions. -/
theorem mem_run_of_between (h : WalkOk fin run vs) {r : List Nat × Nat} (hr : r ∈ runs fin run vs) {a j : Nat}
    (ha : a ∈ r.1) (hj : j ∈ run ++ (vs.filter Prod.snd).map Prod.fst) (haj : a ≤ j) (hjy : j < r.2) : j ∈ r.1 := by
  induction vs generalizing run with
  | nil =>
    simp only [runs] at hr
    split at hr
    · cases hr
    · obtain rfl := List.mem_singleton.1 hr
      simpa using hj
  | cons v vs ih =>
    obtain ⟨i, b⟩ := v
    cases b with
    | true => exact ih h.mark hr (by simpa using hj)
    | false =>
      have hs := List.pairwise_append.1 h.sorted
      rw [List.map_cons, List.pairwise_cons] at hs
      have hsub : ∀ {x : Nat}, x ∈ (vs.filter Prod.snd).map Prod.fst → x ∈ vs.map Prod.fst := fun hx => by
        obtain ⟨v, hv, rfl⟩ := List.mem_map.1 hx
        exact List.mem_map_of_mem (List.mem_of_mem_filter hv)
      have hj' : j ∈ run ∨ j ∈ (vs.filter Prod.snd).map Prod.fst := by simpa using hj
      simp only [runs] at hr
      split at hr
      · rename_i hnil
        have hnil : run = [] := by simpa using hnil
        subst hnil
        exact ih h.skip hr (by simpa using hj)
      · rcases List.mem_cons.1 hr with rfl | hr
        · -- what comes behind the closing position is too large
          rcases hj' with hj' | hj'
          · exact hj'
          · have := hs.2.1.1 j (hsub hj')
            dsimp only at hjy
            omega
        · rcases hj' with hj' | hj'
          · -- what belongs to the run closed before is too small
            have hmem : a ∈ (runs fin [] vs).flatMap Prod.fst := List.mem_flatMap.2 ⟨r, hr, ha⟩
            rw [flatMap_runs, List.nil_append] at hmem
            have := hs.2.2 j hj' a (List.mem_cons_of_mem _ (hsub hmem))
            omega
          · exact ih h.skip hr (by simpa using hj')

/-! ### What the runs stand for -/

/-- A strictly increasing list with all numbers of an interval is the list of that interval. -/
theorem eq_range'_of_sorted {l : List Nat} {a n : Nat} (hl : l.Pairwise (· < ·))
    (h : ∀ x, x ∈ l ↔ a ≤ x ∧ x < a + n) : l = List.range' a n := by
  have hne : ∀ {x y : Nat}, x < y → x ≠ y := fun h => Nat.ne_of_lt h
  refine List.Perm.eq_of_pairwise (fun x y _ _ h1 h2 => by omega) hl (List.pairwise_lt_range' ..) ?_
  rw [List.perm_ext_iff_of_nodup (hl.imp hne) (List.nodup_range' ..)]
  intro x
  rw [h, List.mem_range'_1]

theorem covers_of_closed {r : List Nat × Nat} (h : RunOk r) (hc : Closed r) (j : Nat) :
    Covers (intervals r) j ↔ j ∈ r.1 := by
  obtain ⟨run, y⟩ := r
  match run, h, hc with
  | [], _, _ => simp [intervals, Covers]
  | [a], _, _ =>
    simp only [intervals, Covers, List.mem_singleton, exists_eq_left]
    omega
  | [a, x], h, hc =>
    have hy : y = x + 1 := hc
    simp only [intervals, Covers, List.mem_cons, List.not_mem_nil, or_false, exists_eq_or_imp, exists_eq_left]
    omega
  | a :: b :: c :: l, h, hc =>
    have hr : a :: b :: c :: l = List.range' a (l.length + 3) := hc.1
    have hy : y = a + (l.length + 3) := hc.2
    simp only [intervals, Covers, List.mem_singleton, exists_eq_left]
    rw [hr, List.mem_range'_1]
    omega

/-- A run that is not closed well stands for a position between its own. -/
theorem exists_of_not_closed {r : List Nat × Nat} (h : RunOk r) (hc : ¬ Closed r) :
    ∃ a ∈ r.1, ∃ j, a ≤ j ∧ j < r.2 ∧ j ∉ r.1 ∧ Covers (intervals r) j := by
  obtain ⟨run, y⟩ := r
  match run, h, hc with
  | [], _, hc => exact absurd trivial hc
  | [a], _, hc => exact absurd trivial hc
  | [a, x], h, hc =>
    have hax : a < x := by simpa using h.sorted
    have hxy : x < y := h.lt x (by simp)
    have hne : y ≠ x + 1 := hc
    refine ⟨a, by simp, y - 1, by omega, ?_, ?_, (y - 1, y - 1 + 1), by simp [intervals], le_refl _, by simp⟩
    · dsimp only; omega
    · simp; omega
  | a :: b :: c :: l, h, hc =>
    by_contra hno
    have hay : a < y := h.lt a (by simp)
    have hall : ∀ x, x ∈ a :: b :: c :: l ↔ a ≤ x ∧ x < a + (y - a) := by
      intro x
      constructor
      · intro hx
        have h1 : x < y := h.lt x hx
        have h2 : a ≤ x := by
          rcases List.mem_cons.1 hx with rfl | hx
          · exact le_refl _
          · exact ((List.pairwise_cons.1 h.sorted).1 x hx).le
        omega
      · rintro ⟨h1, h2⟩
        by_contra hx
        exact hno ⟨a, by simp, x, h1, by dsimp only; omega, hx, (a, y - 1 + 1), by simp [intervals], h1,
          by dsimp only; omega⟩
    have heq := eq_range'_of_sorted h.sorted hall
    have hlen : l.length + 3 = y - a := by
      have := congrArg List.length heq
      simpa using this
    exact hc ⟨by rw [hlen]; exact heq, by omega⟩

/-- The runs of a walk stand for its marked positions exactly when all of them are closed well. -/
theorem covers_iff_closed (h : WalkOk fin [] vs) :
    (∀ j, Covers ((runs fin [] vs).flatMap intervals) j ↔ (j, true) ∈ vs) ↔ ∀ r ∈ runs fin [] vs, Closed r := by
  have hcov : ∀ j, Covers ((runs fin [] vs).flatMap intervals) j ↔
      ∃ r ∈ runs fin [] vs, Covers (intervals r) j := fun j => by
    simp only [Covers, List.mem_flatMap]
    constructor
    · rintro ⟨iv, ⟨r, hr, hiv⟩, hj⟩; exact ⟨r, hr, iv, hiv, hj⟩
    · rintro ⟨r, hr, iv, hiv, hj⟩; exact ⟨iv, ⟨r, hr, hiv⟩, hj⟩
  have hmem : ∀ j, (∃ r ∈ runs fin [] vs, j ∈ r.1) ↔ (j, true) ∈ vs := fun j => by
    rw [← List.mem_flatMap, flatMap_runs, List.nil_append]
    simp
  constructor
  · intro hall r hr
    by_contra hc
    obtain ⟨a, ha, j, haj, hjy, hj, hcj⟩ := exists_of_not_closed (runs_ok h hr).1 hc
    have hjv := (hall j).1 ((hcov j).2 ⟨r, hr, hcj⟩)
    refine hj (mem_run_of_between h hr ha ?_ haj hjy)
    simpa using hjv
  · intro hc j
    rw [hcov, ← hmem]
    exact exists_congr fun r => and_congr_right fun hr => covers_of_closed (runs_ok h hr).1 (hc r hr) j

/-! ### Walks without gaps -/

/-- All runs of a walk are closed well. -/
def AllClosed (fin : Nat) (run : List Nat) (vs : List (Nat × Bool)) : Prop := ∀ r ∈ runs fin run vs, Closed r

theorem allClosed_mark {i : Nat} : AllClosed fin run ((i, true) :: vs) ↔ AllClosed fin (run ++ [i]) vs := Iff.rfl

theorem allClosed_skip_nil {i : Nat} : AllClosed fin [] ((i, false) :: vs) ↔ AllClosed fin [] vs := Iff.rfl

theorem allClosed_skip {i : Nat} (h : run ≠ []) :
    AllClosed fin run ((i, false) :: vs) ↔ Closed (run, i) ∧ AllClosed fin [] vs := by
  have hne : run.isEmpty = false := by simpa using h
  simp [AllClosed, runs, hne]

theorem allClosed_nil (h : run ≠ []) : AllClosed fin run [] ↔ Closed (run, fin) := by
  have hne : run.isEmpty = false := by simpa using h
  simp [AllClosed, runs, hne]

/-- The run that is open after a walk. -/
def openRun (run : List Nat) (vs : List (Nat × Bool)) : List Nat :=
  vs.foldl (fun run v => if v.2 then run ++ [v.1] else []) run

/-- A walk through the positions from `s` on that visits all of them. -/
def walk (f : Nat → Bool) (s m : Nat) : List (Nat × Bool) := (List.range' s m).map fun i => (i, f i)

/-- A run of consecutive positions that ends before `s`, or no run. -/
def Consecutive (run : List Nat) (s : Nat) : Prop := ∃ n ≤ s, run = List.range' (s - n) n

theorem Consecutive.closed {s : Nat} (h : Consecutive run s) : Closed (run, s) := by
  obtain ⟨n, hn, rfl⟩ := h
  match n, hn with
  | 0, _ => exact trivial
  | 1, _ => exact trivial
  | 2, hn =>
    change s = s - 2 + 1 + 1
    omega
  | n + 3, hn =>
    refine ⟨?_, ?_⟩
    · simp [List.range']
    · rw [List.length_range']
      omega

theorem Consecutive.mark {s : Nat} (h : Consecutive run s) : Consecutive (run ++ [s]) (s + 1) := by
  obtain ⟨n, hn, rfl⟩ := h
  refine ⟨n + 1, by omega, ?_⟩
  rw [show s + 1 - (n + 1) = s - n by omega, List.range'_concat]
  simp
  omega

theorem Consecutive.nil (s : Nat) : Consecutive [] s := ⟨0, Nat.zero_le _, rfl⟩

/-- A walk without gaps closes all its runs well, and leaves open a run without gaps. -/
theorem allClosed_walk (f : Nat → Bool) {s : Nat} (m : Nat) (h : Consecutive run s) :
    (AllClosed fin run (walk f s m ++ ws) ↔ AllClosed fin (openRun run (walk f s m)) ws) ∧
      Consecutive (openRun run (walk f s m)) (s + m) := by
  induction m generalizing run s with
  | zero => exact ⟨Iff.rfl, h⟩
  | succ m ih =>
    rw [show s + (m + 1) = s + 1 + m by omega, walk, List.range'_succ, List.map_cons, List.cons_append]
    cases hf : f s with
    | true => exact ih h.mark
    | false =>
      have hrest := @ih [] (s + 1) (Consecutive.nil (s + 1))
      refine ⟨?_, hrest.2⟩
      refine Iff.trans ?_ hrest.1
      by_cases hne : run = []
      · subst hne; exact allClosed_skip_nil
      · rw [allClosed_skip hne]
        exact and_iff_right h.closed

/-- The run that is open after a walk of at least two steps, by the last two positions. -/
theorem openRun_walk (f : Nat → Bool) (s m : Nat) (run : List Nat) :
    openRun run (walk f s (m + 2)) =
      if f (s + m + 1) then
        if f (s + m) then openRun run (walk f s m) ++ [s + m, s + m + 1] else [s + m + 1]
      else [] := by
  have hsplit : walk f s (m + 2) = walk f s m ++ [(s + m, f (s + m)), (s + m + 1, f (s + m + 1))] := by
    rw [walk, List.range'_concat, List.range'_concat]
    simp [walk, Nat.add_assoc]
  rw [hsplit, openRun, List.foldl_append]
  cases f (s + m) <;> cases f (s + m + 1) <;> simp [openRun]

/-- An open run of three positions with a gap is not closed well whatever follows. -/
theorem not_allClosed_of_gap (hlen : 3 ≤ run.length) (hgap : ¬ ∃ a, run = List.range' a run.length) :
    ¬ AllClosed fin run vs := by
  have hopen : ∀ y, ¬ Closed (run, y) := fun y hc => by
    match run, hlen with
    | a :: b :: c :: l, _ => exact hgap ⟨a, by simpa using hc.1⟩
  have hne : run ≠ [] := fun e => by simp [e] at hlen
  induction vs generalizing run with
  | nil => rw [allClosed_nil hne]; exact hopen fin
  | cons v vs ih =>
    obtain ⟨i, b⟩ := v
    cases b with
    | false => rw [allClosed_skip hne]; exact fun h => hopen i h.1
    | true =>
      rw [allClosed_mark]
      have hgap' : ¬ ∃ a, run ++ [i] = List.range' a (run ++ [i]).length := by
        rintro ⟨a, ha⟩
        refine hgap ⟨a, ?_⟩
        rw [List.length_append, List.length_singleton, List.range'_concat] at ha
        exact (List.append_inj ha (by simp)).1
      refine ih (by simp; omega) hgap' (fun y hc => ?_) (by simp)
      match run, hlen with
      | a :: b :: c :: l, _ => exact hgap' ⟨a, by simpa using hc.1⟩

/-! ### Runs as intervals -/

/-- The interval `[lo, hi)` from the first position of a run to its closing position. -/
def spans : List Nat × Nat → List (Nat × Nat)
  | ([], _) => []
  | (a :: _, y) => [(a, y)]

theorem covers_append {ivs ivs' : List (Nat × Nat)} {j : Nat} :
    Covers (ivs ++ ivs') j ↔ Covers ivs j ∨ Covers ivs' j := by
  simp only [Covers, List.mem_append, or_and_right, exists_or]

theorem exists_last_le {l : List Nat} {a j : Nat} (ha : a ∈ l) (haj : a ≤ j) :
    ∃ v ∈ l, v ≤ j ∧ ∀ w ∈ l, w ≤ j → w ≤ v := by
  have hne : (l.toFinset.filter (· ≤ j)).Nonempty := ⟨a, by simp [ha, haj]⟩
  obtain ⟨v, hv, hmax⟩ := Finset.exists_max_image _ id hne
  rw [Finset.mem_filter, List.mem_toFinset] at hv
  exact ⟨v, hv.1, hv.2, fun w hw hwj => hmax w (by simp [hw, hwj])⟩

/-- The last position that is visited up to `j`, by the open run or the walk, is a marked one. -/
def MarkedUpTo (run : List Nat) (vs : List (Nat × Bool)) (j : Nat) : Prop :=
  ∃ v, (v ∈ run ∨ (v, true) ∈ vs) ∧ v ≤ j ∧ ∀ w ∈ run ++ vs.map Prod.fst, w ≤ j → w ≤ v

theorem markedUpTo_nil {a j : Nat} {l : List Nat} (h : (a :: l).Pairwise (· < ·)) :
    MarkedUpTo (a :: l) [] j ↔ a ≤ j := by
  rw [List.pairwise_cons] at h
  constructor
  · rintro ⟨v, hv, hvj, -⟩
    rcases hv with hv | hv
    · rcases List.mem_cons.1 hv with rfl | hv
      · exact hvj
      · have := h.1 v hv
        omega
    · cases hv
  · intro haj
    obtain ⟨v, hv, hvj, hmax⟩ := exists_last_le (List.mem_cons_self (a := a) (l := l)) haj
    exact ⟨v, Or.inl hv, hvj, by simpa using hmax⟩

theorem markedUpTo_mark {i j : Nat} : MarkedUpTo run ((i, true) :: vs) j ↔ MarkedUpTo (run ++ [i]) vs j := by
  unfold MarkedUpTo
  simp only [List.map_cons, List.append_assoc, List.singleton_append, List.mem_append, List.not_mem_nil,
    List.mem_cons, Prod.mk.injEq, and_true, or_assoc, false_or]

theorem markedUpTo_skip {i j : Nat} (h : WalkOk fin [] ((i, false) :: vs)) :
    MarkedUpTo [] ((i, false) :: vs) j ↔ MarkedUpTo [] vs j := by
  have hsorted := h.sorted
  rw [List.nil_append, List.map_cons, List.pairwise_cons] at hsorted
  unfold MarkedUpTo
  simp only [List.nil_append, List.not_mem_nil, false_or, List.map_cons, List.mem_cons, Prod.mk.injEq,
    Bool.true_eq_false, and_false, forall_eq_or_imp]
  refine exists_congr fun v => and_congr_right fun hv => and_congr_right fun _ => ?_
  have := hsorted.1 v (List.mem_map_of_mem (f := Prod.fst) hv)
  exact ⟨fun hmax => hmax.2, fun hmax => ⟨fun _ => by omega, hmax⟩⟩

/-- The positions of a run end where it is closed. -/
theorem markedUpTo_closed {a i j : Nat} {l : List Nat} (h : WalkOk fin (a :: l) ((i, false) :: vs)) :
    MarkedUpTo (a :: l) ((i, false) :: vs) j ↔ a ≤ j ∧ j < i ∨ MarkedUpTo [] vs j := by
  obtain ⟨hrun, hrest, hbefore⟩ := List.pairwise_append.1 h.sorted
  have hbehind := (List.pairwise_cons.1 hrest).1
  have hmarked : ∀ v, (v, true) ∈ vs → i < v := fun v hv => hbehind v (List.mem_map_of_mem (f := Prod.fst) hv)
  constructor
  · rintro ⟨v, hv, hvj, hmax⟩
    by_cases hji : j < i
    · have hrunup : MarkedUpTo (a :: l) [] j := by
        refine ⟨v, Or.inl ?_, hvj, fun w hw => hmax w (List.mem_append_left _ (by simpa using hw))⟩
        rcases hv with hv | hv
        · exact hv
        · have := hmarked v (by simpa using hv)
          omega
      exact Or.inl ⟨(markedUpTo_nil hrun).1 hrunup, hji⟩
    · -- the position that closes the run is behind all of its own
      have hiv : i ≤ v := hmax i (by simp) (by omega)
      rcases hv with hv | hv
      · have := hbefore v hv i (by simp)
        omega
      · exact Or.inr ⟨v, Or.inr (by simpa using hv), hvj, fun w hw hwj => hmax w (by simp at hw; simp [hw]) hwj⟩
  · rintro (⟨haj, hji⟩ | ⟨v, hv, hvj, hmax⟩)
    · obtain ⟨v, hv, hvj, hmax⟩ := (markedUpTo_nil hrun).2 haj
      refine ⟨v, Or.inl (by simpa using hv), hvj, fun w hw hwj => ?_⟩
      rcases List.mem_append.1 hw with hw | hw
      · exact hmax w (by simp [hw]) hwj
      · rcases List.mem_cons.1 hw with rfl | hw
        · omega
        · have := hbehind w hw
          omega
    · have hv : (v, true) ∈ vs := by simpa using hv
      refine ⟨v, Or.inr (List.mem_cons_of_mem _ hv), hvj, fun w hw hwj => ?_⟩
      have hiv := hmarked v hv
      rcases List.mem_append.1 hw with hw | hw
      · have := hbefore w hw i (by simp)
        omega
      · rcases List.mem_cons.1 hw with rfl | hw
        · omega
        · exact hmax w (by simpa using hw) hwj

/-- A position is in the interval of a run when the last position visited up to it is a marked one. -/
theorem covers_spans_iff (h : WalkOk fin run vs) (j : Nat) :
    Covers ((runs fin run vs).flatMap spans) j ↔ j < fin ∧ MarkedUpTo run vs j := by
  induction vs generalizing run with
  | nil =>
    cases run with
    | nil => simp [runs, Covers, MarkedUpTo]
    | cons a l =>
      have hsorted := h.sorted
      rw [List.map_nil, List.append_nil] at hsorted
      rw [markedUpTo_nil hsorted, and_comm]
      simp [runs, spans, Covers]
  | cons x vs ih =>
    obtain ⟨i, b⟩ := x
    cases b with
    | true => rw [runs, ih h.mark, markedUpTo_mark]
    | false =>
      cases run with
      | nil => rw [show runs fin [] ((i, false) :: vs) = runs fin [] vs from rfl, ih h.skip, markedUpTo_skip h]
      | cons a l =>
        have hcov : Covers ((runs fin (a :: l) ((i, false) :: vs)).flatMap spans) j ↔
            a ≤ j ∧ j < i ∨ Covers ((runs fin [] vs).flatMap spans) j := by
          rw [show runs fin (a :: l) ((i, false) :: vs) = (a :: l, i) :: runs fin [] vs from rfl, List.flatMap_cons,
            covers_append]
          simp [spans, Covers]
        have hifin : i < fin := h.lt i (by simp)
        rw [hcov, ih h.skip, markedUpTo_closed h]
        constructor
        · rintro (⟨haj, hji⟩ | ⟨hj, hup⟩)
          · exact ⟨by omega, Or.inl ⟨haj, hji⟩⟩
          · exact ⟨hj, Or.inr hup⟩
        · rintro ⟨hj, hup⟩
          exact hup.imp_right fun hup => ⟨hj, hup⟩

end Runs
