import Mathlib

/-!
# Computations that may end in some errors

A computation ensures a postcondition up to a set of errors: a result satisfies the postcondition and an error is one
of the set.  The rules follow the computation: a result, a sequence, and a fold that keeps an invariant.
-/

namespace Outcome

variable {ε α β σ : Type} {allowed : ε → Prop}

/-- A result satisfies `post`, an error is allowed. -/
def Ensures (allowed : ε → Prop) (post : α → Prop) : Except ε α → Prop
  | .ok a => post a
  | .error e => allowed e

@[simp] theorem ensures_ok {post : α → Prop} {a : α} : Ensures allowed post (.ok a) ↔ post a := Iff.rfl

@[simp] theorem ensures_error {post : α → Prop} {e : ε} :
    Ensures allowed post (.error e : Except ε α) ↔ allowed e := Iff.rfl

theorem Ensures.mono {post post' : α → Prop} {x : Except ε α} (h : Ensures allowed post x)
    (himp : ∀ a, post a → post' a) : Ensures allowed post' x := by
  cases x with
  | ok a => exact himp a h
  | error e => exact h

theorem Ensures.weaken {allowed' : ε → Prop} {post post' : α → Prop} {x : Except ε α} (h : Ensures allowed post x)
    (herr : ∀ e, allowed e → allowed' e) (himp : ∀ a, post a → post' a) : Ensures allowed' post' x := by
  cases x with
  | ok a => exact himp a h
  | error e => exact herr e h

theorem Ensures.ne_error {post : α → Prop} {x : Except ε α} {e : ε} (h : Ensures allowed post x) (he : ¬ allowed e) :
    x ≠ .error e := by
  intro heq
  rw [heq] at h
  exact he h

theorem Ensures.of_eq_ok {post : α → Prop} {x : Except ε α} {a : α} (h : Ensures allowed post x) (heq : x = .ok a) :
    post a := by
  rw [heq] at h
  exact h

/-- The computation that has a result is remembered. -/
theorem Ensures.result {post : α → Prop} {x : Except ε α} (h : Ensures allowed post x) :
    Ensures allowed (fun a => x = .ok a ∧ post a) x := by
  cases x with
  | ok a => exact ⟨rfl, h⟩
  | error e => exact h

theorem Ensures.bind {post : α → Prop} {post' : β → Prop} {x : Except ε α} {f : α → Except ε β}
    (h : Ensures allowed post x) (hf : ∀ a, post a → Ensures allowed post' (f a)) :
    Ensures allowed post' (x >>= f) := by
  cases x with
  | ok a => exact hf a h
  | error e => exact h

theorem Ensures.map {post : β → Prop} {x : Except ε α} {f : α → β} (h : Ensures allowed (fun a => post (f a)) x) :
    Ensures allowed post (x.map f) := by
  cases x with
  | ok a => exact h
  | error e => exact h

/-- A sequence has a result when both computations have one. -/
theorem bind_eq_ok_iff {x : Except ε α} {f : α → Except ε β} {b : β} :
    (x >>= f) = .ok b ↔ ∃ a, x = .ok a ∧ f a = .ok b := by
  cases x with
  | ok a => simp [bind, Except.bind]
  | error e => simp [bind, Except.bind]

/-- A fold keeps an invariant that speaks about the part of the list that is left. -/
theorem Ensures.foldlM {inv : List α → σ → Prop} {f : σ → α → Except ε σ}
    (hstep : ∀ a rest s, inv (a :: rest) s → Ensures allowed (inv rest) (f s a)) :
    ∀ (l : List α) (s : σ), inv l s → Ensures allowed (inv []) (l.foldlM f s) := by
  intro l
  induction l with
  | nil => intro s hs; exact hs
  | cons a rest ih =>
    intro s hs
    rw [List.foldlM_cons]
    exact (hstep a rest s hs).bind fun s' hs' => ih s' hs'

end Outcome
