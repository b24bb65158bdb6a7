import Mathlib

/-!
# Recursion along a function

A function that calls itself at most once, on the argument that a partial function `next` gives, returns exactly when
the walk along `next` comes to an end.  The number of calls that are still allowed is the fuel of the recursion.
-/

namespace Descent

variable {α β γ : Type*} {next : α → Option α} {a b : α}

/-- The walk from `a` comes to an end. -/
inductive Ends (next : α → Option α) : α → Prop where
  | stop {a : α} (h : next a = none) : Ends next a
  | step {a b : α} (h : next a = some b) (hb : Ends next b) : Ends next a

/-- A walk that comes back does not end. -/
theorem not_ends_of_self (h : next a = some a) : ¬ Ends next a := by
  intro hends
  induction hends with
  | stop hstop =>
    rw [h] at hstop
    cases hstop
  | step hstep _ ih =>
    rw [h] at hstep
    obtain rfl := Option.some.inj hstep
    exact ih h

variable {f : Nat → α → Option β} {Inv : α → Prop}

/-- The recursion returns with some fuel exactly when the walk ends. -/
theorem isSome_iff_ends (hzero : ∀ a, f 0 a = none)
    (hstop : ∀ n a, Inv a → next a = none → (f (n + 1) a).isSome)
    (hinv : ∀ a b, Inv a → next a = some b → Inv b)
    (hstep : ∀ n a b, Inv a → next a = some b → ((f (n + 1) a).isSome ↔ (f n b).isSome)) (ha : Inv a) :
    (∃ n, (f n a).isSome) ↔ Ends next a := by
  constructor
  · rintro ⟨n, hn⟩
    induction n generalizing a with
    | zero =>
      rw [hzero] at hn
      cases hn
    | succ n ih =>
      cases hnext : next a with
      | none => exact .stop hnext
      | some b => exact .step hnext (ih (hinv a b ha hnext) ((hstep n a b ha hnext).1 hn))
  · intro hends
    induction hends with
    | stop h => exact ⟨1, hstop 0 _ ha h⟩
    | step h _ ih =>
      obtain ⟨n, hn⟩ := ih (hinv _ _ ha h)
      exact ⟨n + 1, (hstep n _ _ ha h).2 hn⟩

/-- The walk may be followed on what is left of a state. -/
theorem ends_map_iff {proj : α → γ} {next' : γ → Option γ} (hinv : ∀ a b, Inv a → next a = some b → Inv b)
    (hproj : ∀ a, Inv a → (next a).map proj = next' (proj a)) (ha : Inv a) : Ends next a ↔ Ends next' (proj a) := by
  constructor
  · intro hends
    induction hends with
    | stop h =>
      refine .stop ?_
      rw [← hproj _ ha, h]
      rfl
    | step h _ ih =>
      refine .step ?_ (ih (hinv _ _ ha h))
      rw [← hproj _ ha, h]
      rfl
  · intro hends
    generalize hc : proj a = c at hends
    induction hends generalizing a with
    | stop h =>
      rw [← hc, ← hproj a ha, Option.map_eq_none_iff] at h
      exact .stop h
    | step h _ ih =>
      rw [← hc, ← hproj a ha, Option.map_eq_some_iff] at h
      obtain ⟨b, hb, hbc⟩ := h
      exact .step hb (ih (hinv a b ha hb) hbc)

end Descent
