import Mathlib

/-!
# What holds whichever branches are taken

Every index has two branches, each with a set, and an assignment takes one branch of every index.  What is there for
every assignment is there unconditionally or in both branches of one index (`sure`), since the assignments of
different indices are independent.
-/

namespace Branches

variable {ι α : Type*} (G G' : Set α) (B B' : ι → Bool → Set α)

/-- What is there unconditionally and in the branches that are taken. -/
def taken (τ : ι → Bool) : Set α := {a | a ∈ G ∨ ∃ i, a ∈ B i (τ i)}

/-- What is there unconditionally or in both branches of an index. -/
def sure : Set α := {a | a ∈ G ∨ ∃ i, ∀ b, a ∈ B i b}

variable {G G' B B'} {a : α}

theorem sure_subset_taken (τ : ι → Bool) : sure G B ⊆ taken G B τ := by
  rintro a (ha | ⟨i, hi⟩)
  · exact Or.inl ha
  · exact Or.inr ⟨i, hi (τ i)⟩

/-- What is not sure can be avoided by a choice of the branches. -/
theorem exists_notMem_taken (ha : a ∉ sure G B) : ∃ τ, a ∉ taken G B τ := by
  rw [sure, Set.mem_ofPred_eq, not_or, not_exists] at ha
  have hchoose : ∀ i, ∃ b, a ∉ B i b := fun i => not_forall.1 (ha.2 i)
  choose τ hτ using hchoose
  refine ⟨τ, ?_⟩
  rintro (h | ⟨i, hi⟩)
  · exact ha.1 h
  · exact hτ i hi

/-- One of the branches may be given, when it does not have the element. -/
theorem exists_notMem_taken_of_branch [DecidableEq ι] (ha : a ∉ sure G B) {i : ι} {b : Bool} (hb : a ∉ B i b) :
    ∃ τ, τ i = b ∧ a ∉ taken G B τ := by
  obtain ⟨τ, hτ⟩ := exists_notMem_taken ha
  refine ⟨Function.update τ i b, Function.update_self .., ?_⟩
  rintro (h | ⟨j, hj⟩)
  · exact hτ (Or.inl h)
  · by_cases hji : j = i
    · subst hji
      rw [Function.update_self] at hj
      exact hb hj
    · rw [Function.update_of_ne hji] at hj
      exact hτ (Or.inr ⟨j, hj⟩)

/-- What is taken is contained in what is taken elsewhere by the same assignment, when this holds for the
unconditional part and for every branch by itself. -/
theorem taken_subset_iff [DecidableEq ι] :
    (∀ τ, taken G B τ ⊆ taken G' B' τ) ↔ G ⊆ sure G' B' ∧ ∀ i b, B i b ⊆ {a | a ∈ sure G' B' ∨ a ∈ B' i b} := by
  constructor
  · intro h
    refine ⟨fun a ha => ?_, fun i b a ha => ?_⟩
    · by_contra hsure
      obtain ⟨τ, hτ⟩ := exists_notMem_taken hsure
      exact hτ (h τ (Or.inl ha))
    · rw [Set.mem_ofPred_eq, or_iff_not_imp_left]
      intro hsure
      by_contra hb
      obtain ⟨τ, rfl, hτ⟩ := exists_notMem_taken_of_branch hsure hb
      exact hτ (h τ (Or.inr ⟨i, ha⟩))
  · rintro ⟨hG, hB⟩ τ a (ha | ⟨i, ha⟩)
    · exact sure_subset_taken τ (hG ha)
    · rcases hB i (τ i) ha with h | h
      · exact sure_subset_taken τ h
      · exact Or.inr ⟨i, h⟩

end Branches
