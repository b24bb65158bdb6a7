import Mathlib

/-!
# Worklists over a relation

An element of a worklist is taken out and its successors are put in.  Where no cycle can be reached the elements have
weights that go down with every replacement, so that the work ends; an element from which a cycle can be reached
always has a successor of that kind.
-/

namespace Worklist

open Relation

variable {α : Type*} {r : α → α → Prop} {a : α}

/-- A cycle can be reached from the element. -/
def LeadsToCycle (r : α → α → Prop) (a : α) : Prop := ∃ b, ReflTransGen r a b ∧ TransGen r b b

theorem LeadsToCycle.of_rel {b : α} (hab : r a b) (h : LeadsToCycle r b) : LeadsToCycle r a := by
  obtain ⟨c, hreach, hcycle⟩ := h
  exact ⟨c, ReflTransGen.head hab hreach, hcycle⟩

theorem LeadsToCycle.exists_succ (h : LeadsToCycle r a) : ∃ b, r a b ∧ LeadsToCycle r b := by
  obtain ⟨c, hreach, hcycle⟩ := h
  have hac : TransGen r a c := by
    rcases ReflTransGen.cases_head hreach with heq | ⟨b, hab, hbc⟩
    · rwa [heq]
    · exact TransGen.head' hab hbc
  obtain ⟨b, hab, hbc⟩ := TransGen.head'_iff.1 hac
  exact ⟨b, hab, c, hbc, hcycle⟩

/-- A relation into a finite set without cycles is well founded from successor to predecessor. -/
theorem wellFounded_of_acyclic (A : Finset α) (hr : ∀ a b, r a b → b ∈ A) (h : ∀ a, ¬ TransGen r a a) :
    WellFounded fun b a => r a b := by
  have htrans : IsTrans A fun b a : A => TransGen r a.1 b.1 := ⟨fun _ _ _ hba hcb => hcb.trans hba⟩
  have hirrefl : Std.Irrefl fun b a : A => TransGen r a.1 b.1 := ⟨fun a => h a.1⟩
  have hwf : WellFounded fun b a : A => TransGen r a.1 b.1 := Finite.wellFounded_of_trans_of_irrefl _
  have hacc : ∀ a : A, Acc (fun b a => r a b) a.1 := by
    intro a
    induction a using hwf.induction with
    | _ a ih => exact ⟨_, fun b hb => ih ⟨b, hr _ _ hb⟩ (TransGen.single hb)⟩
  exact ⟨fun a => ⟨_, fun b hb => hacc ⟨b, hr _ _ hb⟩⟩⟩

open Classical in
/-- Weights that are larger than those of all successors together. -/
theorem exists_weight (A : Finset α) (hr : ∀ a b, r a b → b ∈ A) :
    ∃ w : α → Nat, ∀ a, ¬ LeadsToCycle r a → ∑ b ∈ A.filter (r a), w b < w a := by
  have hacyclic : ∀ a, ¬ TransGen (fun a b => r a b ∧ ¬ LeadsToCycle r a) a a := by
    intro a hcycle
    obtain ⟨b, hab, _⟩ := TransGen.head'_iff.1 hcycle
    have hmono : TransGen (fun a b => r a b ∧ ¬ LeadsToCycle r a) ≤ TransGen r := TransGen.mono fun _ _ h => h.1
    exact hab.2 ⟨a, ReflTransGen.refl, hmono a a hcycle⟩
  have hwf := wellFounded_of_acyclic A (fun a b hab => hr a b hab.1) hacyclic
  obtain ⟨w, hw⟩ : ∃ w : α → Nat, ∀ a, w a = 1 + ∑ b ∈ A, if r a b ∧ ¬ LeadsToCycle r a then w b else 0 := by
    refine ⟨hwf.fix fun a ih => 1 + ∑ b ∈ A, if h : r a b ∧ ¬ LeadsToCycle r a then ih b h else 0, fun a => ?_⟩
    rw [hwf.fix_eq]
    simp only [dite_eq_ite]
  refine ⟨w, fun a ha => ?_⟩
  rw [hw a, Finset.sum_filter]
  simp only [ha, not_false_eq_true, and_true]
  omega

/-- The weight of a worklist after one element is replaced by others of less weight. -/
theorem weight_replace_lt [DecidableEq α] {w : α → Nat} {l l' t : Finset α} (ha : a ∈ l) (ht : ∑ b ∈ t, w b < w a)
    (hl' : l' ⊆ l.erase a ∪ t) : ∑ b ∈ l', w b < ∑ b ∈ l, w b := by
  have hsub : ∑ b ∈ l', w b ≤ ∑ b ∈ l.erase a ∪ t, w b := Finset.sum_le_sum_of_subset hl'
  have hunion : ∑ b ∈ l.erase a ∪ t, w b + ∑ b ∈ l.erase a ∩ t, w b = ∑ b ∈ l.erase a, w b + ∑ b ∈ t, w b :=
    Finset.sum_union_inter
  have herase : ∑ b ∈ l.erase a, w b + w a = ∑ b ∈ l, w b := Finset.sum_erase_add l w ha
  omega

end Worklist
