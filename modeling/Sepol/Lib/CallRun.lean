import Sepol.Lib.Outcome

/-!
# Runs of calls that may fail

A list of calls is made one after another until one of them fails.  A call is reached in the state that the calls
before it leave; the run fails with an error exactly when a call that is reached does.
-/

namespace CallRun

open Outcome

variable {σ α ε : Type} {step : σ → α → Except ε σ} {l l' : List α} {s s' t : σ} {a b : α}

/-- The run makes the call `a` in the state `t`. -/
def Reached (step : σ → α → Except ε σ) (l : List α) (s : σ) (a : α) (t : σ) : Prop :=
  ∃ pre post, l = pre ++ a :: post ∧ pre.foldlM step s = .ok t

theorem Reached.mem (h : Reached step l s a t) : a ∈ l := by
  obtain ⟨pre, post, rfl, _⟩ := h
  exact List.mem_append_right _ (List.mem_cons_self ..)

theorem not_reached_nil : ¬ Reached step [] s a t := by
  intro h
  exact absurd h.mem List.not_mem_nil

theorem reached_cons : Reached step (b :: l) s a t ↔
    (a = b ∧ t = s) ∨ ∃ s', step s b = .ok s' ∧ Reached step l s' a t := by
  constructor
  · intro h
    obtain ⟨pre, post, heq, hrun⟩ := h
    cases pre with
    | nil =>
      obtain ⟨rfl, _⟩ := List.cons.inj heq
      exact Or.inl ⟨rfl, (Except.ok.inj hrun).symm⟩
    | cons c pre =>
      obtain ⟨rfl, hrest⟩ := List.cons.inj heq
      rw [List.foldlM_cons] at hrun
      obtain ⟨s', hs', hrun⟩ := bind_eq_ok_iff.1 hrun
      exact Or.inr ⟨s', hs', pre, post, hrest, hrun⟩
  · intro h
    rcases h with ⟨rfl, rfl⟩ | ⟨s', hs', pre, post, rfl, hrun⟩
    · exact ⟨[], l, rfl, rfl⟩
    · refine ⟨b :: pre, post, rfl, ?_⟩
      rw [List.foldlM_cons]
      exact bind_eq_ok_iff.2 ⟨s', hs', hrun⟩

theorem foldlM_append_ok : (l ++ l').foldlM step s = .ok s' ↔
    ∃ t, l.foldlM step s = .ok t ∧ l'.foldlM step t = .ok s' := by
  rw [List.foldlM_append]
  exact bind_eq_ok_iff

theorem reached_append :
    Reached step (l ++ l') s a t ↔ Reached step l s a t ∨
      ∃ s', l.foldlM step s = .ok s' ∧ Reached step l' s' a t := by
  induction l generalizing s with
  | nil =>
    constructor
    · exact fun h => Or.inr ⟨s, rfl, h⟩
    · intro h
      rcases h with h | ⟨s', hs', h⟩
      · exact absurd h not_reached_nil
      · obtain rfl := Except.ok.inj hs'
        exact h
  | cons b l ih =>
    rw [List.cons_append, reached_cons, reached_cons, List.foldlM_cons]
    constructor
    · intro h
      rcases h with h | ⟨s1, hs1, h⟩
      · exact Or.inl (Or.inl h)
      · rcases ih.1 h with h | ⟨s', hs', h⟩
        · exact Or.inl (Or.inr ⟨s1, hs1, h⟩)
        · exact Or.inr ⟨s', bind_eq_ok_iff.2 ⟨s1, hs1, hs'⟩, h⟩
    · intro h
      rcases h with (h | ⟨s1, hs1, h⟩) | ⟨s', hs', h⟩
      · exact Or.inl h
      · exact Or.inr ⟨s1, hs1, ih.2 (Or.inl h)⟩
      · obtain ⟨s1, hs1, hs'⟩ := bind_eq_ok_iff.1 hs'
        exact Or.inr ⟨s1, hs1, ih.2 (Or.inr ⟨s', hs', h⟩)⟩

/-- An invariant that the calls keep in the states they are reached in. -/
theorem inv_of_reached {p : σ → Prop} (hs : p s)
    (hstep : ∀ a t t', Reached step l s a t → p t → step t a = .ok t' → p t') :
    (∀ a t, Reached step l s a t → p t) ∧ ∀ s', l.foldlM step s = .ok s' → p s' := by
  induction l generalizing s with
  | nil =>
    refine ⟨fun a t h => absurd h not_reached_nil, fun s' h => ?_⟩
    obtain rfl := Except.ok.inj h
    exact hs
  | cons b l ih =>
    have hnext : ∀ s1, step s b = .ok s1 →
        (∀ a t, Reached step l s1 a t → p t) ∧ ∀ s', l.foldlM step s1 = .ok s' → p s' := by
      intro s1 hs1
      refine ih (hstep b s s1 (reached_cons.2 (Or.inl ⟨rfl, rfl⟩)) hs hs1) fun a t t' hreach => ?_
      exact hstep a t t' (reached_cons.2 (Or.inr ⟨s1, hs1, hreach⟩))
    refine ⟨fun a t h => ?_, fun s' h => ?_⟩
    · rcases reached_cons.1 h with ⟨rfl, rfl⟩ | ⟨s1, hs1, hreach⟩
      · exact hs
      · exact (hnext s1 hs1).1 a t hreach
    · rw [List.foldlM_cons] at h
      obtain ⟨s1, hs1, h⟩ := bind_eq_ok_iff.1 h
      exact (hnext s1 hs1).2 s' h

/-- An invariant that every call of the list keeps. -/
theorem inv_of_foldlM {p : σ → Prop} (hs : p s) (h : l.foldlM step s = .ok s')
    (hstep : ∀ a ∈ l, ∀ t t', p t → step t a = .ok t' → p t') : p s' :=
  (inv_of_reached hs fun a t t' hreach => hstep a hreach.mem t t').2 s' h

/-- Steps that have the same results make the same runs and reach the same calls. -/
theorem foldlM_ok_congr {step' : σ → α → Except ε σ} (h : ∀ t a t', step t a = .ok t' ↔ step' t a = .ok t') :
    l.foldlM step s = .ok s' ↔ l.foldlM step' s = .ok s' := by
  induction l generalizing s with
  | nil => exact Iff.rfl
  | cons a l ih =>
    rw [List.foldlM_cons, List.foldlM_cons, bind_eq_ok_iff, bind_eq_ok_iff]
    exact exists_congr fun t => and_congr (h s a t) ih

theorem reached_congr {step' : σ → α → Except ε σ} (h : ∀ t a t', step t a = .ok t' ↔ step' t a = .ok t') :
    Reached step l s a t ↔ Reached step' l s a t :=
  exists_congr fun _ => exists_congr fun _ => and_congr_right fun _ => foldlM_ok_congr h

/-- A call of a list of lists of calls is reached in one of them. -/
theorem reached_flatMap {β : Type} {f : β → List α} {bs : List β} {p : σ → Prop} (hs : p s)
    (hkeep : ∀ b ∈ bs, ∀ u u', p u → (f b).foldlM step u = .ok u' → p u')
    (h : Reached step (bs.flatMap f) s a t) : ∃ b ∈ bs, ∃ u, p u ∧ Reached step (f b) u a t := by
  induction bs generalizing s with
  | nil => exact absurd h not_reached_nil
  | cons b bs ih =>
    rw [List.flatMap_cons, reached_append] at h
    rcases h with h | ⟨s', hs', h⟩
    · exact ⟨b, List.mem_cons_self, s, hs, h⟩
    · have hinv : p s' := hkeep b List.mem_cons_self s s' hs hs'
      obtain ⟨c, hc, u, hu, hreach⟩ := ih hinv (fun c hc => hkeep c (List.mem_cons_of_mem _ hc)) h
      exact ⟨c, List.mem_cons_of_mem _ hc, u, hu, hreach⟩

/-- What a call brings about and all calls keep holds at the end. -/
theorem post_of_mem {p q : σ → Prop} (h : l.foldlM step s = .ok s') (hs : p s)
    (hinv : ∀ b ∈ l, ∀ t t', p t → step t b = .ok t' → p t')
    (hkeep : ∀ b ∈ l, ∀ t t', p t → step t b = .ok t' → q t → q t')
    (ha : a ∈ l) (hpost : ∀ t t', p t → step t a = .ok t' → q t') : q s' := by
  obtain ⟨pre, rest, rfl⟩ := List.append_of_mem ha
  obtain ⟨t, ht, h⟩ := foldlM_append_ok.1 h
  rw [List.foldlM_cons] at h
  obtain ⟨t', ht', h⟩ := bind_eq_ok_iff.1 h
  have hit : p t := (inv_of_reached hs fun b u u' hreach =>
    hinv b (List.mem_append_left _ hreach.mem) u u').2 t ht
  have hmem : a ∈ pre ++ a :: rest := List.mem_append_right _ (List.mem_cons_self ..)
  have hboth := @inv_of_reached _ _ _ step rest t' (fun u => p u ∧ q u)
    ⟨hinv a hmem t t' hit ht', hpost t t' hit ht'⟩ fun b u u' hreach hu hstep => by
      have hb : b ∈ pre ++ a :: rest := List.mem_append_right _ (List.mem_cons_of_mem _ hreach.mem)
      exact ⟨hinv b hb u u' hu.1 hstep, hkeep b hb u u' hu.1 hstep hu.2⟩
  exact (hboth.2 s' h).2

end CallRun
