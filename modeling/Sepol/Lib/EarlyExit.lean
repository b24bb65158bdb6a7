import Mathlib

/-!
# Loops with an early exit

A loop whose body either goes on with a new state or leaves the loop is a fold in `Option`.  When it goes on to the
end, every step was made in some state, and whatever relation the steps keep holds from the start to the end.
-/

namespace EarlyExit

variable {σ α : Type*} {f : σ → α → Option σ} {l : List α} {s s' : σ}

/-- The steps of a loop that goes on to the end, with a preorder that all of them keep. -/
theorem steps_of_foldlM {R : σ → σ → Prop} (hrefl : ∀ s, R s s) (htrans : ∀ {s t u}, R s t → R t u → R s u)
    (hstep : ∀ {a t t'}, f t a = some t' → R t t') (h : l.foldlM f s = some s') :
    R s s' ∧ ∀ a ∈ l, ∃ t t', f t a = some t' ∧ R s t ∧ R t' s' := by
  induction l generalizing s with
  | nil =>
    obtain rfl : s = s' := by simpa using h
    exact ⟨hrefl s, fun a ha => by cases ha⟩
  | cons b l ih =>
    rw [List.foldlM_cons] at h
    obtain ⟨t, ht, h⟩ := Option.bind_eq_some_iff.1 h
    obtain ⟨hts, hall⟩ := ih h
    refine ⟨htrans (hstep ht) hts, fun a ha => ?_⟩
    rcases List.mem_cons.1 ha with rfl | ha
    · exact ⟨s, t, ht, hrefl s, hts⟩
    · obtain ⟨u, u', hu, htu, hus⟩ := hall a ha
      exact ⟨u, u', hu, htrans (hstep ht) htu, hus⟩

/-- What every step keeps holds at the end. -/
theorem inv_of_foldlM {P : σ → Prop} (hstep : ∀ t a t', P t → f t a = some t' → P t') (hs : P s)
    (h : l.foldlM f s = some s') : P s' := by
  have hall := steps_of_foldlM (R := fun t t' => P t → P t') (fun _ => id) (fun htu huv ht => huv (htu ht))
    (fun hf ht => hstep _ _ _ ht hf) h
  exact hall.1 hs

/-- What holds at the end and not at the start was brought about by one of the steps. -/
theorem exists_step_of_foldlM {Q : σ → Prop} (h : l.foldlM f s = some s') (hs : ¬ Q s) (hs' : Q s') :
    ∃ a ∈ l, ∃ t t', f t a = some t' ∧ ¬ Q t ∧ Q t' := by
  induction l generalizing s with
  | nil =>
    obtain rfl : s = s' := by simpa using h
    exact absurd hs' hs
  | cons b l ih =>
    rw [List.foldlM_cons] at h
    obtain ⟨t, ht, h⟩ := Option.bind_eq_some_iff.1 h
    by_cases hq : Q t
    · exact ⟨b, List.mem_cons_self .., s, t, ht, hs, hq⟩
    · obtain ⟨a, ha, hrest⟩ := ih h hq
      exact ⟨a, List.mem_cons_of_mem _ ha, hrest⟩

/-- A loop whose steps can all be made, and keep an invariant about what they have dealt with, goes on to the end. -/
theorem exists_foldlM {I : List α → σ → Prop}
    (hstep : ∀ done s, ∀ a ∈ l, I done s → ∃ s', f s a = some s' ∧ I (done ++ [a]) s') (h : I [] s) :
    ∃ s', l.foldlM f s = some s' ∧ I l s' := by
  have hrest : ∀ (rest done : List α) (s : σ), (∀ a ∈ rest, a ∈ l) → I done s →
      ∃ s', rest.foldlM f s = some s' ∧ I (done ++ rest) s' := by
    intro rest
    induction rest with
    | nil => exact fun done s _ hs => ⟨s, rfl, by rwa [List.append_nil]⟩
    | cons a rest ih =>
      intro done s hl hs
      obtain ⟨s1, hs1, hI⟩ := hstep done s a (hl a (List.mem_cons_self ..)) hs
      obtain ⟨s', hs', hI'⟩ := ih (done ++ [a]) s1 (fun b hb => hl b (List.mem_cons_of_mem _ hb)) hI
      refine ⟨s', by rw [List.foldlM_cons, hs1]; exact hs', ?_⟩
      rwa [List.append_assoc] at hI'
  exact hrest l [] s (fun _ ha => ha) h

end EarlyExit
