import Mathlib

/-!
# Systems of equations along a well-founded relation

When the right side of the equation of `a` only depends on the values at what is below `a`, the system has exactly
one solution.
-/

namespace Equations

variable {ι β : Type} {r : ι → ι → Prop} {F : (ι → β) → ι → β}

/-- The value of `F` at `a` depends on the values below `a` only. -/
def Local (r : ι → ι → Prop) (F : (ι → β) → ι → β) : Prop :=
  ∀ D D' a, (∀ b, r b a → D b = D' b) → F D a = F D' a

theorem exists_solution [Inhabited β] (hr : WellFounded r) (hF : Local r F) : ∃ D, ∀ a, D a = F D a := by
  classical
  let D := hr.fix fun a rec => F (fun b => if h : r b a then rec b h else default) a
  refine ⟨D, fun a => ?_⟩
  have hfix : D a = F (fun b => if r b a then D b else default) a := hr.fix_eq _ a
  rw [hfix]
  refine hF _ _ a fun b hb => ?_
  rw [if_pos hb]

theorem solution_unique (hr : WellFounded r) (hF : Local r F) {D D' : ι → β} (h : ∀ a, D a = F D a)
    (h' : ∀ a, D' a = F D' a) (a : ι) : D a = D' a := by
  induction a using hr.induction with
  | _ a ih => rw [h a, h' a, hF D D' a ih]

end Equations
