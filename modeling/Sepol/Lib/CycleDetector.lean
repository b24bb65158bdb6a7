import Mathlib

/-!
# Cycle detection with one remembered node

A walk follows a partial function from node to node, remembers one node, and compares every further node with it.  The
remembered node is moved to the current one after a number of steps that doubles each time.  The walk ends: at a node
without a successor when there is one behind the start, and otherwise with a node on a cycle.  The number of steps may
have an upper bound; in a graph of `n` nodes it does not come above `2 * n + 2`.
-/

namespace CycleDetector

variable {α : Type*}

def Follows (next : α → Option α) (x y : α) : Prop := next x = some y

/-- Following `next` from `s` one comes to a node that is behind itself. -/
def EntersCycle (next : α → Option α) (s : α) : Prop :=
  ∃ x, Relation.ReflTransGen (Follows next) s x ∧ Relation.TransGen (Follows next) x x

/-- Following `next` from `s` one comes to `x`, which has no successor. -/
def EndsAt (next : α → Option α) (s x : α) : Prop := Relation.ReflTransGen (Follows next) s x ∧ next x = none

/-- The two ways in which a walk ends. -/
inductive Found (α : Type*) where
  | ends (x : α)
  | cycle (x : α)

/-- The walk from `x` with the remembered node `r`; `steps` is the number of steps since it was moved.  A number of
steps above `max` has no result. -/
def detect [DecidableEq α] (next : α → Option α) (max : Nat) : Nat → α → α → Nat → Nat → Option (Found α)
  | 0, _, _, _, _ => none
  | fuel + 1, r, x, steps, limit =>
    match next x with
    | none => some (.ends x)
    | some y =>
      if r = y then some (.cycle r)
      else if steps = limit then if limit * 2 ≤ max then detect next max fuel y y 1 (limit * 2) else none
      else detect next max fuel r y (steps + 1) limit

variable {next : α → Option α} {s x y z : α}

/-! ### Ends and cycles -/

theorem Follows.eq (h : Follows next x y) (h' : Follows next x z) : y = z := Option.some.inj (h.symm.trans h')

/-- Behind a node from which the walk comes to an end there is no cycle. -/
theorem not_transGen_of_endsAt (h : EndsAt next x z) : ¬ Relation.TransGen (Follows next) x x := by
  obtain ⟨hreach, hend⟩ := h
  induction hreach using Relation.ReflTransGen.head_induction_on with
  | refl =>
    intro hcycle
    obtain ⟨y, hy, -⟩ := Relation.TransGen.head'_iff.1 hcycle
    rw [Follows, hend] at hy
    cases hy
  | head hstep _ ih =>
    intro hcycle
    obtain ⟨y, hy, hrest⟩ := Relation.TransGen.head'_iff.1 hcycle
    obtain rfl := hy.eq hstep
    exact ih (Relation.TransGen.tail' hrest hstep)

theorem EndsAt.of_follows (h : EndsAt next x z) (hstep : Follows next x y) : EndsAt next y z := by
  refine ⟨?_, h.2⟩
  rcases Relation.ReflTransGen.cases_head h.1 with rfl | ⟨w, hw, hrest⟩
  · rw [Follows, h.2] at hstep
    cases hstep
  · exact hw.eq hstep ▸ hrest

theorem EndsAt.not_entersCycle (h : EndsAt next s z) : ¬ EntersCycle next s := by
  rintro ⟨x, hreach, hcycle⟩
  induction hreach using Relation.ReflTransGen.head_induction_on with
  | refl => exact not_transGen_of_endsAt h hcycle
  | head hstep _ ih => exact ih (h.of_follows hstep)

/-- A walk has one end at most. -/
theorem EndsAt.eq (h : EndsAt next s x) (h' : EndsAt next s z) : x = z := by
  obtain ⟨hreach, hend⟩ := h
  induction hreach using Relation.ReflTransGen.head_induction_on with
  | refl =>
    rcases Relation.ReflTransGen.cases_head h'.1 with rfl | ⟨w, hw, -⟩
    · rfl
    · rw [Follows, hend] at hw
      cases hw
  | head hstep _ ih => exact ih (h'.of_follows hstep)

/-- The nodes of a walk without an end. -/
theorem exists_walk (h : ∀ z, ¬ EndsAt next s z) :
    ∃ f : Nat → α, f 0 = s ∧ ∀ i, next (f i) = some (f (i + 1)) := by
  have hnext : ∀ x, Relation.ReflTransGen (Follows next) s x → Follows next x ((next x).getD x) := by
    intro x hx
    cases hy : next x with
    | none => exact absurd ⟨hx, hy⟩ (h x)
    | some y => exact hy
  have hreach : ∀ i, Relation.ReflTransGen (Follows next) s ((fun x => (next x).getD x)^[i] s) := by
    intro i
    induction i with
    | zero => exact Relation.ReflTransGen.refl
    | succ i ih =>
      rw [Function.iterate_succ_apply']
      exact ih.tail (hnext _ ih)
  refine ⟨fun i => (fun x => (next x).getD x)^[i] s, rfl, fun i => ?_⟩
  dsimp only
  rw [Function.iterate_succ_apply']
  exact hnext _ (hreach i)

/-- A walk without an end in a finite graph is periodic from some node on, and comes around before it has more steps
than there are nodes. -/
theorem exists_period [Finite α] {f : Nat → α} (hf : ∀ i, next (f i) = some (f (i + 1))) :
    ∃ tail period, 0 < period ∧ tail + period ≤ Nat.card α ∧ ∀ i, tail ≤ i → f (i + period) = f i := by
  obtain ⟨a, b, hne, heq⟩ : ∃ a b : Fin (Nat.card α + 1), a ≠ b ∧ f a = f b := by
    by_contra hinj
    push Not at hinj
    have hle := Nat.card_le_card_of_injective (fun i : Fin (Nat.card α + 1) => f i) fun a b hab => by
      by_contra hne
      exact hinj a b hne hab
    rw [Nat.card_fin] at hle
    omega
  wlog hab : (a : Nat) < b generalizing a b
  · exact this b a hne.symm heq.symm (by omega)
  refine ⟨a, b - a, by omega, by omega, fun i hi => ?_⟩
  induction i, hi using Nat.le_induction with
  | base => rw [Nat.add_sub_cancel' hab.le, heq]
  | succ i _ ih =>
    have hstep := hf (i + (b - a))
    rw [ih, hf i] at hstep
    rw [Nat.add_right_comm]
    exact (Option.some.inj hstep).symm

variable [DecidableEq α] {max : Nat}

/-! ### What a walk finds is right -/

theorem detect_mono {fuel fuel' r steps limit} {found : Found α}
    (h : detect next max fuel r x steps limit = some found)
    (hle : fuel ≤ fuel') : detect next max fuel' r x steps limit = some found := by
  induction fuel generalizing fuel' r x steps limit with
  | zero => cases h
  | succ fuel ih =>
    obtain ⟨fuel', rfl⟩ : ∃ m, fuel' = m + 1 := ⟨fuel' - 1, by omega⟩
    rw [detect] at h ⊢
    cases hnext : next x with
    | none => rwa [hnext] at h
    | some y =>
      rw [hnext] at h
      dsimp only at h ⊢
      split_ifs at h ⊢
      · exact h
      · exact ih h (by omega)
      · exact ih h (by omega)

/-- What is found is what it says it is. -/
def Found.Right (next : α → Option α) (s : α) : Found α → Prop
  | .ends z => EndsAt next s z
  | .cycle z => Relation.ReflTransGen (Follows next) s z ∧ Relation.TransGen (Follows next) z z

theorem detect_sound {fuel r steps limit} {found : Found α} (hr : Relation.ReflTransGen (Follows next) s r)
    (hx : Relation.ReflTransGen (Follows next) r x) (h : detect next max fuel r x steps limit = some found) :
    found.Right next s := by
  induction fuel generalizing r x steps limit with
  | zero => cases h
  | succ fuel ih =>
    rw [detect] at h
    cases hnext : next x with
    | none =>
      rw [hnext] at h
      obtain rfl := Option.some.inj h
      exact ⟨hr.trans hx, hnext⟩
    | some y =>
      rw [hnext] at h
      dsimp only at h
      split_ifs at h with heq
      · obtain rfl := Option.some.inj h
        exact ⟨hr, Relation.TransGen.tail' hx (heq ▸ hnext)⟩
      · exact ih ((hr.trans hx).tail hnext) Relation.ReflTransGen.refl h
      · exact ih hr (hx.tail hnext) h

/-! ### A walk finds something -/

/-- What can be reached from a node. -/
def reached (next : α → Option α) (x : α) : Set α := {y | Relation.ReflTransGen (Follows next) x y}

omit [DecidableEq α] in
theorem ncard_reached_lt [Finite α] (h : EndsAt next x z) (hstep : Follows next x y) :
    (reached next y).ncard < (reached next x).ncard := by
  refine Set.ncard_lt_ncard ⟨fun w hw => Relation.ReflTransGen.head hstep hw, fun hsub => ?_⟩ (Set.toFinite _)
  have hback : Relation.ReflTransGen (Follows next) y x := hsub Relation.ReflTransGen.refl
  exact not_transGen_of_endsAt h (Relation.TransGen.head' hstep hback)

/-- A walk that comes to an end is followed to it, unless a node is found twice.  The number of steps stays below that
of the nodes behind it. -/
theorem exists_detect_of_endsAt [Finite α] (h : EndsAt next x z) (hmax : Nat.card α + 2 ≤ max) (r : α)
    (steps limit : Nat) (hlimit : limit + steps + (reached next x).ncard ≤ Nat.card α + 3) :
    ∃ fuel, (detect next max fuel r x steps limit).isSome := by
  obtain ⟨hreach, hend⟩ := h
  induction hreach using Relation.ReflTransGen.head_induction_on generalizing r steps limit with
  | refl => exact ⟨1, by rw [detect, hend]; rfl⟩
  | @head x y hstep hrest ih =>
    have hlt := ncard_reached_lt ⟨Relation.ReflTransGen.head hstep hrest, hend⟩ hstep
    by_cases heq : r = y
    · exact ⟨1, by rw [detect, show next x = some y from hstep]; simp [heq]⟩
    · by_cases hmove : steps = limit
      · obtain ⟨fuel, hfuel⟩ := ih y 1 (limit * 2) (by omega)
        have hle : limit * 2 ≤ max := by omega
        exact ⟨fuel + 1, by rw [detect, show next x = some y from hstep]; simpa [heq, hmove, hle] using hfuel⟩
      · obtain ⟨fuel, hfuel⟩ := ih r (steps + 1) limit (by omega)
        exact ⟨fuel + 1, by rw [detect, show next x = some y from hstep]; simpa [heq, hmove] using hfuel⟩

section Periodic

variable {f : Nat → α} (hf : ∀ i, next (f i) = some (f (i + 1)))
include hf

/-- One step of the walk. -/
theorem detect_step (fuel p i steps limit : Nat) :
    detect next max (fuel + 1) (f p) (f i) steps limit =
      if f p = f (i + 1) then some (.cycle (f p))
      else if steps = limit then
        if limit * 2 ≤ max then detect next max fuel (f (i + 1)) (f (i + 1)) 1 (limit * 2) else none
      else detect next max fuel (f p) (f (i + 1)) (steps + 1) limit := by
  rw [detect, hf]

/-- The remembered node is found again when the walk comes around before it is moved. -/
theorem exists_detect_around {p period i steps limit : Nat} (hperiod : f (p + period) = f p) (hi : i + 1 ≤ p + period)
    (hsteps : steps ≤ limit) (hlimit : p + period - (i + 1) ≤ limit - steps) :
    ∃ fuel, (detect next max fuel (f p) (f i) steps limit).isSome := by
  obtain ⟨d, hd⟩ : ∃ d, p + period = i + 1 + d := ⟨p + period - (i + 1), by omega⟩
  induction d generalizing i steps with
  | zero =>
    refine ⟨1, ?_⟩
    rw [detect_step hf, if_pos]
    · rfl
    · rw [← hperiod, hd, Nat.add_zero]
  | succ d ih =>
    by_cases heq : f p = f (i + 1)
    · exact ⟨1, by rw [detect_step hf, if_pos heq]; rfl⟩
    · obtain ⟨fuel, hfuel⟩ := @ih (i + 1) (steps + 1) (by omega) (by omega) (by omega) (by omega)
      exact ⟨fuel + 1, by rw [detect_step hf, if_neg heq, if_neg (by omega)]; exact hfuel⟩

/-- The walk up to the next move of the remembered node. -/
theorem exists_detect_move {p i steps limit k : Nat} (hk : steps + k = limit) (hmax : limit * 2 ≤ max)
    (hmoved : ∃ fuel, (detect next max fuel (f (i + k + 1)) (f (i + k + 1)) 1 (limit * 2)).isSome) :
    ∃ fuel, (detect next max fuel (f p) (f i) steps limit).isSome := by
  induction k generalizing i steps with
  | zero =>
    by_cases heq : f p = f (i + 1)
    · exact ⟨1, by rw [detect_step hf, if_pos heq]; rfl⟩
    · obtain ⟨fuel, hfuel⟩ := hmoved
      exact ⟨fuel + 1, by rw [detect_step hf, if_neg heq, if_pos (by omega), if_pos hmax]; exact hfuel⟩
  | succ k ih =>
    by_cases heq : f p = f (i + 1)
    · exact ⟨1, by rw [detect_step hf, if_pos heq]; rfl⟩
    · rw [show i + (k + 1) + 1 = i + 1 + k + 1 by omega] at hmoved
      obtain ⟨fuel, hfuel⟩ := @ih (i + 1) (steps + 1) (by omega) hmoved
      exact ⟨fuel + 1, by rw [detect_step hf, if_neg heq, if_neg (by omega)]; exact hfuel⟩

/-- When the remembered node is on the cycle and the limit is not below its length, the walk comes around; before
that, each move brings it nearer. -/
theorem exists_detect_moved {tail period : Nat} (hperiod : ∀ i, tail ≤ i → f (i + period) = f i) (hpos : 0 < period)
    (hmax : 2 * (tail + period) ≤ max) {i limit : Nat} (hlimit : 0 < limit) (hle : limit ≤ i + 2) :
    ∃ fuel, (detect next max fuel (f i) (f i) 1 limit).isSome := by
  obtain ⟨d, hd⟩ : ∃ d, (tail - i) + (period - limit) = d := ⟨_, rfl⟩
  induction d using Nat.strongRecOn generalizing i limit with
  | _ d ih =>
    by_cases hnear : tail ≤ i ∧ period ≤ limit
    · exact exists_detect_around hf (hperiod i hnear.1) (by omega) hlimit (by omega)
    · have hmoved := @ih _ (by omega) (i + (limit - 1) + 1) (limit * 2) (by omega) (by omega) rfl
      exact exists_detect_move hf (k := limit - 1) (by omega) (by omega) hmoved

end Periodic

/-- Every walk in a finite graph finds its end or a cycle, with enough fuel, whatever the number of steps it starts
with. -/
theorem exists_detect [Finite α] (next : α → Option α) (hmax : 2 * Nat.card α + 2 ≤ max) (s : α) {steps : Nat}
    (hsteps : steps ≤ 1) : ∃ fuel, (detect next max fuel s s steps 2).isSome := by
  by_cases hend : ∃ z, EndsAt next s z
  · obtain ⟨z, hz⟩ := hend
    have hle : (reached next s).ncard ≤ Nat.card α := Set.ncard_le_card _
    exact exists_detect_of_endsAt hz (by omega) s steps 2 (by omega)
  · obtain ⟨f, rfl, hf⟩ := exists_walk (not_exists.1 hend)
    obtain ⟨tail, period, hpos, hcard, hperiod⟩ := exists_period hf
    exact exists_detect_move hf (k := 2 - steps) (by omega) (by omega)
      (exists_detect_moved hf hperiod hpos (by omega) (by decide) (by omega))

/-- What is found from some fuel on. -/
def Settles {ρ : Type*} (run : Nat → Option ρ) (result : ρ) : Prop := ∃ n, ∀ fuel, n ≤ fuel → run fuel = some result

/-- From some fuel on a walk in a finite graph finds something, and it is what it says it is. -/
theorem detect_settles [Finite α] (next : α → Option α) (hmax : 2 * Nat.card α + 2 ≤ max) (s : α) {steps : Nat}
    (hsteps : steps ≤ 1) :
    ∃ found : Found α, found.Right next s ∧ Settles (fun fuel => detect next max fuel s s steps 2) found := by
  obtain ⟨n, hn⟩ := exists_detect next hmax s hsteps
  obtain ⟨found, hfound⟩ := Option.isSome_iff_exists.1 hn
  exact ⟨found, detect_sound Relation.ReflTransGen.refl Relation.ReflTransGen.refl hfound, n,
    fun fuel hfuel => detect_mono hfound hfuel⟩

omit [DecidableEq α] in
/-- A run settles on one result at most. -/
theorem Settles.eq {ρ : Type*} {run : Nat → Option ρ} {r r' : ρ} (h : Settles run r) (h' : Settles run r') :
    r = r' := by
  obtain ⟨n, hn⟩ := h
  obtain ⟨n', hn'⟩ := h'
  exact Option.some.inj ((hn (max n n') (le_max_left ..)).symm.trans (hn' (max n n') (le_max_right ..)))

omit [DecidableEq α] in
theorem Settles.map {ρ σ : Type*} {run : Nat → Option ρ} {r : ρ} (h : Settles run r) (g : ρ → σ) :
    Settles (fun fuel => (run fuel).map g) (g r) := by
  obtain ⟨n, hn⟩ := h
  refine ⟨n, fun fuel hfuel => ?_⟩
  dsimp only
  rw [hn fuel hfuel]
  rfl

omit [DecidableEq α] in
/-- A run that settles and goes on with another one that does. -/
theorem Settles.bind {ρ σ : Type*} {run : Nat → Option ρ} {r : ρ} {rest : Nat → ρ → Option σ} {r' : σ}
    (h : Settles run r) (h' : Settles (fun fuel => rest fuel r) r') :
    Settles (fun fuel => (run fuel).bind (rest fuel)) r' := by
  obtain ⟨n, hn⟩ := h
  obtain ⟨n', hn'⟩ := h'
  refine ⟨max n n', fun fuel hfuel => ?_⟩
  dsimp only
  rw [hn fuel (le_trans (le_max_left ..) hfuel)]
  exact hn' fuel (le_trans (le_max_right ..) hfuel)

end CycleDetector
