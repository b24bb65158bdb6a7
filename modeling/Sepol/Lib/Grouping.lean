import Mathlib

/-!
# Grouping a list by a key

A list is split into groups: the elements of a group have the same key, and those of two groups have different ones.
-/

namespace Grouping

variable {α κ : Type*} {key : α → κ}

/-- The groups of a list. -/
structure Groups (key : α → κ) (l : List α) (gs : List (List α)) : Prop where
  perm : gs.flatten.Perm l
  ne_nil : ∀ g ∈ gs, g ≠ []
  same : ∀ g ∈ gs, ∀ a ∈ g, ∀ b ∈ g, key a = key b
  apart : gs.Pairwise fun g g' => ∀ a ∈ g, ∀ b ∈ g', key a ≠ key b

variable {l l' : List α} {gs gs' : List (List α)}

theorem Groups.nil (key : α → κ) : Groups key [] [] :=
  ⟨List.Perm.refl _, fun g hg => (by cases hg), fun g hg => (by cases hg), List.Pairwise.nil⟩

theorem Groups.subset (h : Groups key l gs) {g : List α} (hg : g ∈ gs) : g ⊆ l := fun _ ha =>
  h.perm.subset (List.mem_flatten.2 ⟨g, hg, ha⟩)

/-- Lists without a common key are grouped one after the other. -/
theorem Groups.append (h : Groups key l gs) (h' : Groups key l' gs') (hkey : ∀ a ∈ l, ∀ b ∈ l', key a ≠ key b) :
    Groups key (l ++ l') (gs ++ gs') := by
  refine ⟨?_, fun g hg => ?_, fun g hg => ?_, ?_⟩
  · rw [List.flatten_append]
    exact h.perm.append h'.perm
  · exact (List.mem_append.1 hg).elim (h.ne_nil g) (h'.ne_nil g)
  · exact (List.mem_append.1 hg).elim (h.same g) (h'.same g)
  · refine List.pairwise_append.2 ⟨h.apart, h'.apart, fun g hg g' hg' a ha b hb => ?_⟩
    exact hkey a (h.subset hg ha) b (h'.subset hg' hb)

/-- The first element with the other ones of its key, and the groups of the rest. -/
theorem Groups.cons [DecidableEq κ] {a : α} (h : Groups key (l.filter fun b => key b ≠ key a) gs) :
    Groups key (a :: l) ((a :: l.filter fun b => key b = key a) :: gs) := by
  have hmem : ∀ b ∈ a :: l.filter (fun b => key b = key a), key b = key a := by
    intro b hb
    rcases List.mem_cons.1 hb with rfl | hb
    · rfl
    · exact of_decide_eq_true (List.mem_filter.1 hb).2
  refine ⟨?_, fun g hg => ?_, fun g hg => ?_, List.pairwise_cons.2 ⟨fun g' hg' b hb c hc => ?_, h.apart⟩⟩
  · rw [List.flatten_cons, List.cons_append]
    refine List.Perm.cons a (((h.perm.append_left _)).trans ?_)
    have hsplit := List.filter_append_perm (fun b => decide (key b = key a)) l
    simpa using hsplit
  · rcases List.mem_cons.1 hg with rfl | hg
    · exact List.cons_ne_nil _ _
    · exact h.ne_nil g hg
  · rcases List.mem_cons.1 hg with rfl | hg
    · intro b hb c hc
      rw [hmem b hb, hmem c hc]
    · exact h.same g hg
  · have hne := of_decide_eq_true (List.mem_filter.1 (h.subset hg' hc)).2
    rw [hmem b hb]
    exact hne.symm

/-- There are as many groups as keys. -/
theorem Groups.length_eq [DecidableEq κ] (h : Groups key l gs) : gs.length = (l.map key).toFinset.card := by
  have hl : (l.map key).toFinset = (gs.flatten.map key).toFinset :=
    (List.toFinset_eq_of_perm _ _ (h.perm.map key)).symm
  have hne := h.ne_nil
  have hsame := h.same
  have hapart := h.apart
  rw [hl]
  clear hl h
  induction gs with
  | nil => rfl
  | cons g gs ih =>
    obtain ⟨hg, hgs⟩ := List.pairwise_cons.1 hapart
    obtain ⟨a, ha⟩ := List.exists_mem_of_ne_nil g (hne g (List.mem_cons_self ..))
    have hfirst : (g.map key).toFinset = {key a} := by
      ext k
      rw [List.mem_toFinset, List.mem_map, Finset.mem_singleton]
      constructor
      · rintro ⟨b, hb, rfl⟩
        exact hsame g (List.mem_cons_self ..) b hb a ha
      · rintro rfl
        exact ⟨a, ha, rfl⟩
    have hnot : key a ∉ (gs.flatten.map key).toFinset := by
      rw [List.mem_toFinset, List.mem_map]
      rintro ⟨b, hb, heq⟩
      obtain ⟨g', hg', hb⟩ := List.mem_flatten.1 hb
      exact hg g' hg' a ha b hb heq.symm
    rw [List.flatten_cons, List.map_append, List.toFinset_append, hfirst, ← Finset.insert_eq,
      Finset.card_insert_of_notMem hnot, List.length_cons,
      ih (fun g hg => hne g (List.mem_cons_of_mem _ hg)) (fun g hg => hsame g (List.mem_cons_of_mem _ hg)) hgs]

theorem Groups.length_le [DecidableEq κ] (h : Groups key l gs) : gs.length ≤ l.length := by
  rw [h.length_eq]
  exact (List.toFinset_card_le _).trans (by rw [List.length_map])

end Grouping
