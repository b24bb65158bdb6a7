import Mathlib

/-!
# Pruning

The elements of a set that do not follow from the set are removed one at a time.  Whatever the order of the removals,
what is left when nothing more can be removed is the greatest set whose elements follow from it.
-/

namespace Pruning

open Relation

variable {α : Type*} {f g : Set α →o Set α} {E E' S : Set α} {a : α}

/-- One element that does not follow from the set is removed. -/
def Removes (f : Set α →o Set α) (E E' : Set α) : Prop := ∃ a ∈ E, a ∉ f E ∧ E' = E \ {a}

end Pruning
