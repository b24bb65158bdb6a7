import Mathlib

/-!
# Blocks in a buffer

Blocks that lie one behind the other, as a table of offsets describes them: where each block starts, and where the
last one ends.  A reader goes through the table block by block; a second reader that keeps in step with the first and
asks for more of each block goes to the end exactly when all blocks have what it asks for.
-/

namespace Blocks

variable {α β σ τ : Type}

/-! ### Offsets -/

/-- Where the blocks start, the first one at `o`, and where the last one ends. -/
def offsets (o : Nat) : List (List α) → List Nat
  | [] => [o]
  | b :: bs => o :: offsets (o + b.length) bs

/-- Neighbours in a list of offsets: where a block starts and where it ends. -/
def bounds : List Nat → List (Nat × Nat)
  | o :: o' :: os => (o, o') :: bounds (o' :: os)
  | _ => []

theorem offsets_eq_cons (o : Nat) (bs : List (List α)) : ∃ os, offsets o bs = o :: os := by
  cases bs with
  | nil => exact ⟨[], rfl⟩
  | cons b bs => exact ⟨_, rfl⟩

theorem offsets_ne_nil (o : Nat) (bs : List (List α)) : offsets o bs ≠ [] := by
  obtain ⟨os, hos⟩ := offsets_eq_cons o bs
  rw [hos]
  exact List.cons_ne_nil _ _

theorem dropLast_offsets_cons (o : Nat) (b : List α) (bs : List (List α)) :
    (offsets o (b :: bs)).dropLast = o :: (offsets (o + b.length) bs).dropLast := by
  rw [offsets, List.dropLast_cons_of_ne_nil (offsets_ne_nil _ _)]

theorem getLast_offsets (o : Nat) (bs : List (List α)) :
    (offsets o bs).getLast (offsets_ne_nil o bs) = o + bs.flatten.length := by
  induction bs generalizing o with
  | nil => rfl
  | cons b bs ih =>
    have hlast := ih (o + b.length)
    simp only [offsets, List.flatten_cons, List.length_append]
    rw [List.getLast_cons (offsets_ne_nil _ _), hlast, Nat.add_assoc]

/-- The starts of the blocks with the end of the last one. -/
theorem offsets_eq_append (o : Nat) (bs : List (List α)) :
    offsets o bs = (offsets o bs).dropLast ++ [o + bs.flatten.length] := by
  rw [← getLast_offsets, List.dropLast_append_getLast]

theorem isChain_offsets (o : Nat) (bs : List (List α)) : (offsets o bs).IsChain (· ≤ ·) := by
  induction bs generalizing o with
  | nil => exact .singleton o
  | cons b bs ih =>
    obtain ⟨os, hos⟩ := offsets_eq_cons (o + b.length) bs
    have hchain := ih (o + b.length)
    rw [offsets, hos] at *
    exact .cons_cons (Nat.le_add_right ..) hchain

theorem bounds_offsets_cons (o : Nat) (b : List α) (bs : List (List α)) :
    bounds (offsets o (b :: bs)) = (o, o + b.length) :: bounds (offsets (o + b.length) bs) := by
  obtain ⟨os, hos⟩ := offsets_eq_cons (o + b.length) bs
  rw [offsets, hos, bounds]

theorem bounds_cons {os : List Nat} (h : os ≠ []) (o : Nat) : ∃ o', bounds (o :: os) = (o, o') :: bounds os := by
  cases os with
  | nil => exact absurd rfl h
  | cons o' os => exact ⟨o', rfl⟩

theorem length_bounds (os : List Nat) : (bounds os).length = os.length - 1 := by
  induction os with
  | nil => rfl
  | cons o os ih =>
    cases os with
    | nil => rfl
    | cons o' os => rw [bounds, List.length_cons, ih, List.length_cons, List.length_cons, Nat.add_sub_cancel]; rfl

/-- The last block. -/
theorem bounds_append_pair (os : List Nat) (o o' : Nat) :
    bounds (os ++ [o, o']) = bounds (os ++ [o]) ++ [(o, o')] := by
  induction os with
  | nil => rfl
  | cons a os ih =>
    cases os with
    | nil => rfl
    | cons a' os =>
      simp only [List.cons_append, bounds, List.cons.injEq, true_and] at ih ⊢
      exact ih

/-! ### Readers -/

theorem foldlM_append_eq_some {f : σ → β → Option σ} {l l' : List β} {s s' : σ} :
    (l ++ l').foldlM f s = some s' ↔ ∃ s₁, l.foldlM f s = some s₁ ∧ l'.foldlM f s₁ = some s' := by
  rw [List.foldlM_append]
  exact Option.bind_eq_some_iff

theorem foldlM_cons_eq_some {f : σ → β → Option σ} {a : β} {l : List β} {s s' : σ} :
    (a :: l).foldlM f s = some s' ↔ ∃ s₁, f s a = some s₁ ∧ l.foldlM f s₁ = some s' := by
  rw [List.foldlM_cons]
  exact Option.bind_eq_some_iff

/-- A second reader of the same blocks, which asks each of them for `c`. -/
theorem foldlM_iff_of_step {f : σ → β → Option σ} {g : τ → β → Option τ} {R : σ → τ → Prop} {c : β → Prop}
    (hstep : ∀ s t a s', R s t → f s a = some s' →
      (c a → ∃ t', g t a = some t' ∧ R s' t') ∧ ∀ t', g t a = some t' → c a)
    {l : List β} {s s' : σ} {t : τ} (hR : R s t) (h : l.foldlM f s = some s') :
    ((∀ a ∈ l, c a) → ∃ t', l.foldlM g t = some t' ∧ R s' t') ∧ ∀ t', l.foldlM g t = some t' → ∀ a ∈ l, c a := by
  induction l generalizing s t with
  | nil =>
    obtain rfl := Option.some.inj h
    exact ⟨fun _ => ⟨t, rfl, hR⟩, fun _ _ a ha => by cases ha⟩
  | cons a l ih =>
    obtain ⟨s₁, ha, hl⟩ := foldlM_cons_eq_some.1 h
    obtain ⟨hgoes, hasks⟩ := hstep s t a s₁ hR ha
    constructor
    · intro hc
      obtain ⟨t₁, hta, hR₁⟩ := hgoes (hc a (List.mem_cons_self ..))
      obtain ⟨t', htl, hR'⟩ := (ih hR₁ hl).1 fun b hb => hc b (List.mem_cons_of_mem _ hb)
      exact ⟨t', foldlM_cons_eq_some.2 ⟨t₁, hta, htl⟩, hR'⟩
    · intro t' ht'
      obtain ⟨t₁, hta, htl⟩ := foldlM_cons_eq_some.1 ht'
      have hca := hasks t₁ hta
      obtain ⟨t₂, hta₂, hR₁⟩ := hgoes hca
      obtain rfl : t₁ = t₂ := Option.some.inj (hta.symm.trans hta₂)
      intro b hb
      rcases List.mem_cons.1 hb with rfl | hb
      · exact hca
      · exact (ih hR₁ hl).2 t' htl b hb

end Blocks
