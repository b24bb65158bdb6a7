import Mathlib

/-!
# Accumulating into a table

Grants that each go to a slot are combined in a table with at most one entry for each slot: `total` is what a slot has
after a list of grants, and `Represents` says that a set of entries holds the values of a function on the slots.
-/

namespace Accumulate

variable {ν α σ β : Type*}

/-! ### Entries -/

/-- The entries with `mem` are one for each slot that has a value, and they hold the values. -/
structure Represents (mem : ν → Prop) (slot : ν → σ) (val : ν → β) (table : σ → Option β) : Prop where
  val : ∀ n, mem n → table (slot n) = some (val n)
  exists_of_eq_some : ∀ s b, table s = some b → ∃ n, mem n ∧ slot n = s
  unique : ∀ n m, mem n → mem m → slot n = slot m → n = m

variable {mem mem' : ν → Prop} {slotOf : ν → σ} {val : ν → β} {table : σ → Option β} {n : ν}

theorem Represents.empty (hmem : ∀ n, ¬ mem n) : Represents mem slotOf val fun _ => none :=
  ⟨fun n hn => absurd hn (hmem n), fun _ _ h => (by cases h), fun n _ hn => absurd hn (hmem n)⟩

/-- A slot without a value has no entry. -/
theorem Represents.not_mem (h : Represents mem slotOf val table) (hs : table s = none) (hn : mem n) :
    slotOf n ≠ s := by
  intro heq
  have hval := h.val n hn
  rw [heq, hs] at hval
  cases hval

/-- A slot with a value has one entry, which holds the value. -/
theorem Represents.exists_unique {b : β} (h : Represents mem slotOf val table) (hs : table s = some b) :
    ∃ n, mem n ∧ slotOf n = s ∧ val n = b ∧ ∀ m, mem m → slotOf m = s → m = n := by
  obtain ⟨n, hn, rfl⟩ := h.exists_of_eq_some s b hs
  exact ⟨n, hn, rfl, Option.some.inj ((h.val n hn).symm.trans hs), fun m hm hslot => h.unique m n hm hn hslot⟩

variable [DecidableEq σ]

/-- A new entry for a slot that has no value. -/
theorem Represents.insert (h : Represents mem slotOf val table) (hs : table (slotOf n) = none)
    (hmem : ∀ m, mem' m ↔ m = n ∨ mem m) :
    Represents mem' slotOf val (Function.update table (slotOf n) (some (val n))) := by
  have hne : ∀ m, mem m → slotOf m ≠ slotOf n := fun m hm => h.not_mem hs hm
  refine ⟨fun m hm => ?_, fun s b hsb => ?_, fun m m' hm hm' hslot => ?_⟩
  · rcases (hmem m).1 hm with rfl | hm
    · exact Function.update_self ..
    · rw [Function.update_of_ne (hne m hm), h.val m hm]
  · by_cases hsn : s = slotOf n
    · exact ⟨n, (hmem n).2 (Or.inl rfl), hsn.symm⟩
    · rw [Function.update_of_ne hsn] at hsb
      obtain ⟨m, hm, hslot⟩ := h.exists_of_eq_some s b hsb
      exact ⟨m, (hmem m).2 (Or.inr hm), hslot⟩
  · rcases (hmem m).1 hm with rfl | hm
    · rcases (hmem m').1 hm' with rfl | hm'
      · rfl
      · exact absurd hslot.symm (hne m' hm')
    · rcases (hmem m').1 hm' with rfl | hm'
      · exact absurd hslot (hne m hm)
      · exact h.unique m m' hm hm' hslot

/-- An entry is replaced by one with the same slot. -/
theorem Represents.replace (h : Represents mem slotOf val table) (hn : mem n) (n' : ν) (hslot : slotOf n' = slotOf n)
    (hmem : ∀ m, mem' m ↔ m = n' ∨ mem m ∧ m ≠ n) :
    Represents mem' slotOf val (Function.update table (slotOf n) (some (val n'))) := by
  have hrest : Represents (fun m => mem m ∧ m ≠ n) slotOf val (Function.update table (slotOf n) none) := by
    have hne : ∀ m, mem m → m ≠ n → slotOf m ≠ slotOf n := fun m hm hmn heq => hmn (h.unique m n hm hn heq)
    refine ⟨fun m hm => ?_, fun s b hsb => ?_, fun m m' hm hm' => h.unique m m' hm.1 hm'.1⟩
    · rw [Function.update_of_ne (hne m hm.1 hm.2), h.val m hm.1]
    · by_cases hsn : s = slotOf n
      · subst hsn
        rw [Function.update_self] at hsb
        cases hsb
      · rw [Function.update_of_ne hsn] at hsb
        obtain ⟨m, hm, hms⟩ := h.exists_of_eq_some s b hsb
        exact ⟨m, ⟨hm, fun hmn => hsn (by rw [← hms, hmn])⟩, hms⟩
  have hinsert := hrest.insert (by rw [hslot, Function.update_self]) hmem
  rwa [hslot, Function.update_idem] at hinsert

/-! ### Grants -/

/-- What a slot has after the grants of a list: nothing without a grant for it, and else the grants applied one after
the other to its initial value. -/
def total (slot : α → σ) (start : σ → β) (apply : α → β → β) (l : List α) (s : σ) : Option β :=
  match l.filter (fun a => slot a = s) with
  | [] => none
  | grants => some (grants.foldl (fun b a => apply a b) (start s))

variable {slot : α → σ} {start : σ → β} {apply : α → β → β} {l : List α} {s : σ}

theorem total_eq_none (h : l.filter (fun a => slot a = s) = []) : total slot start apply l s = none := by
  unfold total
  rw [h]

theorem total_eq_some (h : l.filter (fun a => slot a = s) ≠ []) : total slot start apply l s =
    some ((l.filter (fun a => slot a = s)).foldl (fun b a => apply a b) (start s)) := by
  unfold total
  split
  · rename_i heq
    exact absurd heq h
  · rfl

@[simp] theorem total_nil (slot : α → σ) (start : σ → β) (apply : α → β → β) (s : σ) :
    total slot start apply [] s = none := rfl

/-- One more grant changes its own slot. -/
theorem total_concat (slot : α → σ) (start : σ → β) (apply : α → β → β) (l : List α) (a : α) :
    total slot start apply (l ++ [a]) = Function.update (total slot start apply l) (slot a)
      (some (apply a ((total slot start apply l (slot a)).getD (start (slot a))))) := by
  funext s
  by_cases hs : s = slot a
  · subst hs
    have hfilter : (l ++ [a]).filter (fun b => slot b = slot a) = l.filter (fun b => slot b = slot a) ++ [a] := by
      simp
    rw [Function.update_self, total_eq_some (by rw [hfilter]; simp), hfilter, List.foldl_append]
    by_cases hl : l.filter (fun b => slot b = slot a) = []
    · rw [total_eq_none hl, hl]
      rfl
    · rw [total_eq_some hl]
      rfl
  · have hfilter : (l ++ [a]).filter (fun b => slot b = s) = l.filter (fun b => slot b = s) := by
      simp [Ne.symm hs]
    rw [Function.update_of_ne hs]
    unfold total
    rw [hfilter]

end Accumulate
