import Sepol.Lib.Outcome

/-!
# Guards of computations that may fail

A computation that reads and writes arrays goes wrong where an index is out of bounds.  Its guard says that none is:
where the guard holds the computation does not go wrong, and it has no result where the guard does not hold, since it
reaches every access on the way to a result.
-/

namespace Outcome

variable {ε α β σ : Type} {bad : ε} {p q : Prop} {x : Except ε α}

/-- The computation fails with `bad` only where the guard does not hold, and it has a result only where the guard
holds. -/
structure Guarded (bad : ε) (p : Prop) (x : Except ε α) : Prop where
  safe : p → x ≠ .error bad
  guard : ∀ a, x = .ok a → p

theorem guarded_ok (a : α) : Guarded bad True (.ok a : Except ε α) :=
  ⟨fun _ h => (nomatch h), fun _ _ => trivial⟩

theorem Guarded.of_iff (h : Guarded bad p x) (hpq : p ↔ q) : Guarded bad q x :=
  ⟨fun hq => h.safe (hpq.2 hq), fun a ha => hpq.1 (h.guard a ha)⟩

theorem Guarded.bind {f : α → Except ε β} (h : Guarded bad p x) (hf : ∀ a, x = .ok a → Guarded bad q (f a)) :
    Guarded bad (p ∧ q) (x >>= f) := by
  cases x with
  | error e => exact ⟨fun hpq heq => h.safe hpq.1 (congrArg Except.error (Except.error.inj heq)),
      fun _ heq => nomatch heq⟩
  | ok a =>
    have hrest := hf a rfl
    exact ⟨fun hpq => hrest.safe hpq.2, fun b hb => ⟨h.guard a rfl, hrest.guard b hb⟩⟩

/-- Only what comes after has a guard. -/
theorem Guarded.before {f : α → Except ε β} (h : Guarded bad True x) (hf : ∀ a, x = .ok a → Guarded bad q (f a)) :
    Guarded bad q (x >>= f) :=
  (h.bind hf).of_iff (and_iff_right trivial)

/-- A loop whose passes keep an invariant has the guards of all its passes. -/
theorem Guarded.foldlM {I : σ → Prop} {f : σ → α → Except ε σ} {guard : α → Prop} {l : List α} {s : σ} (hs : I s)
    (hf : ∀ s a, I s → Guarded bad (guard a) (f s a)) (hinv : ∀ s a s', I s → f s a = .ok s' → I s') :
    Guarded bad (∀ a ∈ l, guard a) (l.foldlM f s) := by
  induction l generalizing s with
  | nil => exact (guarded_ok s).of_iff (by simp)
  | cons a l ih =>
    rw [List.foldlM_cons]
    exact ((hf s a hs).bind fun s' hs' => ih (hinv s a s' hs hs')).of_iff List.forall_mem_cons.symm

end Outcome
