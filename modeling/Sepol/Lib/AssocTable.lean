import Mathlib

/-!
# Tables as lists of keys and values

A finite map as a list of pairs: looking a key up, and giving it a value.  A new key goes to the end of the list, the
value of a key that is there is replaced in its place.
-/

namespace AssocTable

variable {κ β : Type*} [DecidableEq κ]

def get (k : κ) : List (κ × β) → Option β
  | [] => none
  | e :: t => if e.1 = k then some e.2 else get k t

def put (k : κ) (v : β) : List (κ × β) → List (κ × β)
  | [] => [(k, v)]
  | e :: t => if e.1 = k then (k, v) :: t else e :: put k v t

theorem get_put (k k' : κ) (v : β) (t : List (κ × β)) :
    get k' (put k v t) = if k' = k then some v else get k' t := by
  by_cases hk : k' = k
  · subst hk
    rw [if_pos rfl]
    induction t with
    | nil => rw [put, get, if_pos rfl]
    | cons e t ih =>
      rw [put]
      split
      · rw [get, if_pos rfl]
      · rename_i he
        rw [get, if_neg he, ih]
  · rw [if_neg hk]
    induction t with
    | nil => exact if_neg (Ne.symm hk)
    | cons e t ih =>
      rw [put, get]
      split
      · rename_i he
        rw [get, if_neg (Ne.symm hk), he, if_neg (Ne.symm hk)]
      · rw [get, ih]

theorem get_eq_none_iff {k : κ} {t : List (κ × β)} : get k t = none ↔ k ∉ t.map Prod.fst := by
  induction t with
  | nil => simp [get]
  | cons e t ih =>
    rw [get, List.map_cons, List.mem_cons, not_or]
    split
    · rename_i he
      simp [he]
    · rename_i he
      rw [ih]
      exact (and_iff_right (Ne.symm he)).symm

theorem put_of_get_eq_none {k : κ} (v : β) {t : List (κ × β)} (h : get k t = none) : put k v t = t ++ [(k, v)] := by
  induction t with
  | nil => rfl
  | cons e t ih =>
    rw [get] at h
    split at h
    · cases h
    · rename_i he
      rw [put, if_neg he, ih h, List.cons_append]

theorem mem_of_get {k : κ} {v : β} {t : List (κ × β)} (h : get k t = some v) : (k, v) ∈ t := by
  induction t with
  | nil => cases h
  | cons e t ih =>
    rw [get] at h
    split at h
    · rename_i he
      obtain rfl := Option.some.inj h
      exact he ▸ List.mem_cons_self ..
    · exact List.mem_cons_of_mem _ (ih h)

theorem mem_put {k : κ} {v : β} {t : List (κ × β)} {e : κ × β} (h : e ∈ put k v t) : e = (k, v) ∨ e ∈ t := by
  induction t with
  | nil => exact Or.inl (List.mem_singleton.1 h)
  | cons a t ih =>
    rw [put] at h
    split at h
    · rcases List.mem_cons.1 h with rfl | h
      · exact Or.inl rfl
      · exact Or.inr (List.mem_cons_of_mem _ h)
    · rcases List.mem_cons.1 h with rfl | h
      · exact Or.inr (List.mem_cons_self ..)
      · exact (ih h).imp id (List.mem_cons_of_mem _)

/-- In a table without repeated keys the value of a key stands in its pair. -/
theorem get_eq_some_iff {k : κ} {v : β} {t : List (κ × β)} (ht : (t.map Prod.fst).Nodup) :
    get k t = some v ↔ (k, v) ∈ t := by
  refine ⟨mem_of_get, fun h => ?_⟩
  induction t with
  | nil => cases h
  | cons e t ih =>
    rw [List.map_cons, List.nodup_cons] at ht
    rw [get]
    rcases List.mem_cons.1 h with rfl | h
    · rw [if_pos rfl]
    · have hne : e.1 ≠ k := fun heq => ht.1 (heq ▸ List.mem_map_of_mem h)
      rw [if_neg hne, ih ht.2 h]

/-- The order of a table without repeated keys does not matter. -/
theorem get_perm {t t' : List (κ × β)} (h : t'.Perm t) (ht : (t.map Prod.fst).Nodup) (k : κ) :
    get k t' = get k t := by
  have ht' : (t'.map Prod.fst).Nodup := (h.map Prod.fst).nodup_iff.2 ht
  refine Option.ext fun v => ?_
  rw [get_eq_some_iff ht', get_eq_some_iff ht, h.mem_iff]

theorem nodup_put {k : κ} {v : β} {t : List (κ × β)} (ht : (t.map Prod.fst).Nodup) :
    ((put k v t).map Prod.fst).Nodup := by
  have hkeys : ∀ {t : List (κ × β)}, ∀ x ∈ (put k v t).map Prod.fst, x = k ∨ x ∈ t.map Prod.fst := by
    intro t x hx
    obtain ⟨e, he, rfl⟩ := List.mem_map.1 hx
    rcases mem_put he with rfl | he
    · exact Or.inl rfl
    · exact Or.inr (List.mem_map_of_mem he)
  induction t with
  | nil => exact List.nodup_singleton k
  | cons e t ih =>
    rw [List.map_cons, List.nodup_cons] at ht
    rw [put]
    split
    · rename_i he
      rw [List.map_cons, List.nodup_cons]
      exact ⟨he ▸ ht.1, ht.2⟩
    · rename_i he
      rw [List.map_cons, List.nodup_cons]
      refine ⟨fun hin => ?_, ih ht.2⟩
      rcases hkeys _ hin with heq | hin
      · exact he heq
      · exact ht.1 hin

theorem length_put_le (k : κ) (v : β) (t : List (κ × β)) : (put k v t).length ≤ t.length + 1 := by
  induction t with
  | nil => exact Nat.le_refl _
  | cons e t ih =>
    rw [put]
    split
    · exact Nat.le_succ _
    · rw [List.length_cons, List.length_cons]
      exact Nat.succ_le_succ ih

/-- A sum over all values changes by what the value of the key changes by. -/
theorem sum_put (f : β → Nat) (k : κ) (v : β) (t : List (κ × β)) :
    ((put k v t).map fun e => f e.2).sum + ((get k t).map f).getD 0 = (t.map fun e => f e.2).sum + f v := by
  induction t with
  | nil => simp [put, get]
  | cons e t ih =>
    rw [put, get]
    split
    · simp only [List.map_cons, List.sum_cons, Option.map_some, Option.getD_some]
      omega
    · simp only [List.map_cons, List.sum_cons]
      omega

end AssocTable
