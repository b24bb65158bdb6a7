import Mathlib

/-!
# Lists given by their neighbours

A list without repetitions is determined by the order of its neighbours: two lists of the same elements are the same
when every two neighbours of the one come in that order in the other.
-/

namespace Neighbours

variable {α : Type*} [DecidableEq α] {a b : α} {l l₁ l₂ : List α}

/-- In a list without repetitions, what comes first has the lower index. -/
theorem idxOf_lt_of_sublist (hl : l.Nodup) (h : [a, b].Sublist l) : l.idxOf a < l.idxOf b := by
  induction l with
  | nil => cases h
  | cons c l ih =>
    obtain ⟨hc, hl'⟩ := List.nodup_cons.1 hl
    cases h with
    | cons _ h =>
      have ha : c ≠ a := fun e => hc (e ▸ h.subset (by simp))
      have hb : c ≠ b := fun e => hc (e ▸ h.subset (by simp))
      have := ih hl' h
      rw [List.idxOf_cons_ne _ ha, List.idxOf_cons_ne _ hb]
      omega
    | cons_cons _ h =>
      have hb : a ≠ b := fun e => hc (e ▸ h.subset (by simp))
      rw [List.idxOf_cons_self, List.idxOf_cons_ne _ hb]
      omega

private theorem pairwise_idxOf (hl : l.Nodup) : l.Pairwise fun a b => l.idxOf a < l.idxOf b := by
  rw [List.pairwise_iff_forall_sublist]
  intro a b h
  exact idxOf_lt_of_sublist hl h

/-- Two lists of the same elements are the same when the neighbours of the one come in that order in the other. -/
theorem eq_of_isChain (h₁ : l₁.Nodup) (h₂ : l₂.Nodup) (hmem : ∀ x, x ∈ l₁ ↔ x ∈ l₂)
    (hchain : l₁.IsChain fun a b => [a, b].Sublist l₂) : l₁ = l₂ := by
  have hidx : l₁.IsChain fun a b => l₂.idxOf a < l₂.idxOf b :=
    hchain.imp fun a b h => idxOf_lt_of_sublist h₂ h
  have htrans : IsTrans α fun a b => l₂.idxOf a < l₂.idxOf b := ⟨fun a b c hab hbc => lt_trans hab hbc⟩
  have hperm : l₁.Perm l₂ := (List.perm_ext_iff_of_nodup h₁ h₂).2 hmem
  refine hperm.eq_of_pairwise ?_ (List.isChain_iff_pairwise.1 hidx) (pairwise_idxOf h₂)
  intro a b _ _ hab hba
  omega

end Neighbours
