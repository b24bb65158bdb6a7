import Sepol.Lib.SortedChain

/-!
# Tables of chains kept in order by a comparison

Keys are compared by a three-way comparison that need not tell equal keys apart.  A chain is in order when each key
is below the later ones; a walk for a key passes the entries below it and stops (`passed`, `ahead`).  A table files
each entry in the chain its hash value names, and the entries of the table are those of its chains one after another.
-/

namespace ChainedTable

variable {α κ : Type*} {cmp : κ → κ → Ordering} {key : α → κ}

/-! ### One chain -/

/-- Every key is below the later ones. -/
def InOrder (cmp : κ → κ → Ordering) (key : α → κ) (l : List α) : Prop :=
  l.Pairwise fun a b => cmp (key a) (key b) = .lt

/-- No two entries have equal keys. -/
def Distinct (cmp : κ → κ → Ordering) (key : α → κ) (l : List α) : Prop :=
  l.Pairwise fun a b => cmp (key a) (key b) ≠ .eq

/-- The entries a walk for `k` goes past. -/
def passed (cmp : κ → κ → Ordering) (key : α → κ) (k : κ) (l : List α) : List α :=
  l.takeWhile fun a => cmp k (key a) == .gt

/-- The entries from the one on at which a walk for `k` stops. -/
def ahead (cmp : κ → κ → Ordering) (key : α → κ) (k : κ) (l : List α) : List α :=
  l.dropWhile fun a => cmp k (key a) == .gt

theorem passed_append_ahead (k : κ) (l : List α) : passed cmp key k l ++ ahead cmp key k l = l :=
  List.takeWhile_append_dropWhile ..

theorem gt_of_mem_passed {k : κ} {l : List α} {a : α} (h : a ∈ passed cmp key k l) : cmp k (key a) = .gt := by
  simpa using List.mem_takeWhile_imp h

theorem mem_of_mem_ahead {k : κ} {l : List α} {a : α} (h : a ∈ ahead cmp key k l) : a ∈ l :=
  (List.dropWhile_suffix _).subset h

/-- The walk stops at an entry that is not below `k`, and `k` is below all entries after it. -/
theorem ahead_eq_cons [Std.TransCmp cmp] {k : κ} {l rest : List α} {a : α} (hl : InOrder cmp key l)
    (h : ahead cmp key k l = a :: rest) : cmp k (key a) ≠ .gt ∧ ∀ b ∈ rest, cmp k (key b) = .lt := by
  have hstop : cmp k (key a) ≠ .gt := by
    have := List.head?_dropWhile_not (fun a => cmp k (key a) == .gt) l
    rw [show l.dropWhile _ = a :: rest from h] at this
    simpa using this
  refine ⟨hstop, ?_⟩
  intro b hb
  have hord : InOrder cmp key (a :: rest) := h ▸ List.Pairwise.sublist (List.dropWhile_sublist _) hl
  have hab : cmp (key a) (key b) = .lt := (List.pairwise_cons.1 hord).1 b hb
  cases hka : cmp k (key a) with
  | lt => exact Std.TransCmp.lt_trans hka hab
  | eq => exact Std.TransCmp.lt_of_eq_of_lt hka hab
  | gt => exact absurd hka hstop

/-- Where the walk stops decides whether the chain has an entry with an equal key. -/
theorem find?_eq_ahead [Std.TransCmp cmp] {l : List α} (hl : InOrder cmp key l) (k : κ) :
    (l.find? fun a => cmp k (key a) == .eq) = (ahead cmp key k l).head?.filter fun a => cmp k (key a) == .eq := by
  have hpassed : ((passed cmp key k l).find? fun a => cmp k (key a) == .eq) = none := by
    rw [List.find?_eq_none]
    intro a ha
    simp [gt_of_mem_passed ha]
  have hsplit := congrArg (List.find? fun a => cmp k (key a) == .eq) (@passed_append_ahead _ _ cmp key k l)
  rw [List.find?_append, hpassed, Option.none_or] at hsplit
  rw [← hsplit]
  cases h : ahead cmp key k l with
  | nil => rfl
  | cons a rest =>
    have hrest : (rest.find? fun a => cmp k (key a) == .eq) = none := by
      rw [List.find?_eq_none]
      intro b hb
      simp [(ahead_eq_cons hl h).2 b hb]
    rw [List.find?_cons, List.head?_cons, Option.filter]
    split <;> rename_i hc
    · rw [if_pos hc]
    · rw [hrest, if_neg (by simp [hc])]

theorem insert_perm (a : α) (k : κ) (l : List α) :
    (passed cmp key k l ++ a :: ahead cmp key k l).Perm (a :: l) := by
  have := @List.perm_middle _ a (passed cmp key k l) (ahead cmp key k l)
  rwa [passed_append_ahead] at this

/-- An entry with a new key is put where the walk for its key stops. -/
theorem insert_inOrder [Std.TransCmp cmp] {a : α} {l : List α} (hl : InOrder cmp key l)
    (h : ∀ b ∈ l, cmp (key a) (key b) ≠ .eq) :
    InOrder cmp key (passed cmp key (key a) l ++ a :: ahead cmp key (key a) l) := by
  have hahead : ∀ b ∈ ahead cmp key (key a) l, cmp (key a) (key b) = .lt := by
    intro b hb
    cases hs : ahead cmp key (key a) l with
    | nil => rw [hs] at hb; cases hb
    | cons c rest =>
      obtain ⟨hc, hrest⟩ := ahead_eq_cons hl hs
      rw [hs] at hb
      rcases List.mem_cons.1 hb with rfl | hb
      · have hne := h b (mem_of_mem_ahead (hs ▸ List.mem_cons_self ..))
        cases hab : cmp (key a) (key b) with
        | lt => rfl
        | eq => exact absurd hab hne
        | gt => exact absurd hab hc
      · exact hrest b hb
  rw [InOrder, List.pairwise_append, List.pairwise_cons]
  refine ⟨hl.sublist (List.takeWhile_sublist _), ⟨hahead, hl.sublist (List.dropWhile_sublist _)⟩, ?_⟩
  intro b hb c hc
  have hba : cmp (key b) (key a) = .lt := Std.OrientedCmp.gt_iff_lt.1 (gt_of_mem_passed hb)
  rcases List.mem_cons.1 hc with rfl | hc
  · exact hba
  · exact Std.TransCmp.lt_trans hba (hahead c hc)

theorem InOrder.distinct {l : List α} (hl : InOrder cmp key l) : Distinct cmp key l :=
  List.Pairwise.imp (fun h => by simp [h]) hl

/-! ### Entries with distinct keys -/

theorem Distinct.perm [Std.OrientedCmp cmp] {l l' : List α} (hl : Distinct cmp key l) (h : l.Perm l') :
    Distinct cmp key l' :=
  (h.pairwise_iff fun hab hba => hab (Std.OrientedCmp.eq_symm hba)).1 hl

/-- At most one entry has a key equal to `k`. -/
theorem Distinct.filter_length [Std.TransCmp cmp] {l : List α} (hl : Distinct cmp key l) (k : κ) :
    (l.filter fun a => cmp k (key a) == .eq).length ≤ 1 := by
  have hf := List.Pairwise.sublist (l.filter_sublist (p := fun a => cmp k (key a) == .eq)) hl
  have hmem : ∀ a ∈ l.filter fun a => cmp k (key a) == .eq, cmp k (key a) = .eq := by
    intro a ha
    simpa using (List.mem_filter.1 ha).2
  cases h : l.filter fun a => cmp k (key a) == .eq with
  | nil => simp
  | cons a rest =>
    cases rest with
    | nil => simp
    | cons b rest =>
      rw [h] at hf hmem
      have ha := hmem a (by simp)
      have hb := hmem b (by simp)
      exact absurd (Std.TransCmp.eq_trans (Std.OrientedCmp.eq_symm ha) hb) ((List.pairwise_cons.1 hf).1 b (by simp))

/-- Among distinct keys it does not matter in which order one is looked for. -/
theorem Distinct.find?_perm [Std.TransCmp cmp] {l l' : List α} (hl : Distinct cmp key l) (h : l.Perm l') (k : κ) :
    (l.find? fun a => cmp k (key a) == .eq) = l'.find? fun a => cmp k (key a) == .eq := by
  have hf := h.filter fun a => cmp k (key a) == .eq
  have hlen := hl.filter_length k
  rw [← List.head?_filter, ← List.head?_filter]
  rcases Nat.le_one_iff_eq_zero_or_eq_one.1 hlen with h0 | h1
  · rw [List.length_eq_zero_iff.1 h0] at hf ⊢
    rw [List.nil_perm.1 hf]
  · obtain ⟨a, ha⟩ := List.length_eq_one_iff.1 h1
    rw [ha] at hf ⊢
    rw [List.singleton_perm.1 hf]

theorem find?_eq_none_of_distinct [Std.TransCmp cmp] {a : α} {l : List α} (hl : Distinct cmp key (a :: l)) {k : κ}
    (hk : cmp k (key a) = .eq) : (l.find? fun b => cmp k (key b) == .eq) = none := by
  rw [List.find?_eq_none]
  intro b hb h
  have hkb : cmp k (key b) = .eq := by simpa using h
  exact (List.pairwise_cons.1 hl).1 b hb (Std.TransCmp.eq_trans (Std.OrientedCmp.eq_symm hk) hkb)

/-! ### The chains of a table -/

/-- The entries of the chains `0 … n - 1`. -/
def entries (n : Nat) (chains : Nat → List α) : List α := (List.range n).flatMap chains

theorem mem_entries {n : Nat} {chains : Nat → List α} {a : α} :
    a ∈ entries n chains ↔ ∃ i < n, a ∈ chains i := by
  simp [entries]

theorem entries_nil {n : Nat} : (entries n fun _ => []) = ([] : List α) := by
  simp [entries]

/-- A chain that gains an entry makes the table gain it. -/
theorem entries_update_perm {n i : Nat} (hi : i < n) {chains : Nat → List α} {a : α} {c : List α}
    (hc : c.Perm (a :: chains i)) : (entries n (Function.update chains i c)).Perm (a :: entries n chains) :=
  SortedChain.flatMap_update_perm List.nodup_range (List.mem_range.2 hi) chains hc

/-- A chain that loses an entry makes the table lose it. -/
theorem entries_perm_update {n i : Nat} (hi : i < n) {chains : Nat → List α} {a : α} {c : List α}
    (hc : (chains i).Perm (a :: c)) : (entries n chains).Perm (a :: entries n (Function.update chains i c)) := by
  have h := @entries_update_perm _ n i hi (Function.update chains i c) a (chains i) (by rwa [Function.update_self])
  rwa [Function.update_idem, Function.update_eq_self] at h

/-- Each chain is in order and has the entries whose keys hash to its index. -/
structure Filed (cmp : κ → κ → Ordering) (key : α → κ) (hash : κ → Nat) (n : Nat) (chains : Nat → List α) : Prop where
  inOrder : ∀ i < n, InOrder cmp key (chains i)
  placed : ∀ i < n, ∀ a ∈ chains i, hash (key a) = i

theorem filed_nil {hash : κ → Nat} {n : Nat} : Filed cmp key hash n fun _ => [] :=
  ⟨fun _ _ => List.Pairwise.nil, fun _ _ _ h => by cases h⟩

theorem Filed.update {hash : κ → Nat} {n : Nat} {chains : Nat → List α} (h : Filed cmp key hash n chains) {i : Nat}
    {c : List α} (hord : InOrder cmp key c) (hc : ∀ a ∈ c, hash (key a) = i) :
    Filed cmp key hash n (Function.update chains i c) := by
  refine ⟨fun j hj => ?_, fun j hj => ?_⟩
  all_goals by_cases hji : j = i
  · subst hji; rwa [Function.update_self]
  · rw [Function.update_of_ne hji]; exact h.inOrder j hj
  · subst hji; rwa [Function.update_self]
  · rw [Function.update_of_ne hji]; exact h.placed j hj

/-- Equal keys hash alike, so no two chains share one. -/
theorem Filed.distinct {hash : κ → Nat} (hcongr : ∀ a b, cmp a b = .eq → hash a = hash b) {n : Nat}
    {chains : Nat → List α} (h : Filed cmp key hash n chains) : Distinct cmp key (entries n chains) := by
  rw [Distinct, entries, List.pairwise_flatMap]
  refine ⟨fun i hi => (h.inOrder i (List.mem_range.1 hi)).distinct, ?_⟩
  refine List.Pairwise.imp_of_mem ?_ (List.nodup_range (n := n))
  intro i j hi hj hij a ha b hb hab
  have hai := h.placed i (List.mem_range.1 hi) a ha
  have hbj := h.placed j (List.mem_range.1 hj) b hb
  exact hij (by rw [← hai, ← hbj, hcongr _ _ hab])

/-- An entry with an equal key is in the chain of the hash value, or nowhere. -/
theorem Filed.find?_chain [Std.TransCmp cmp] {hash : κ → Nat} (hcongr : ∀ a b, cmp a b = .eq → hash a = hash b)
    {n : Nat} {chains : Nat → List α} (h : Filed cmp key hash n chains) {k : κ} (hk : hash k < n) :
    ((chains (hash k)).find? fun a => cmp k (key a) == .eq) =
      (entries n chains).find? fun a => cmp k (key a) == .eq := by
  have hsub : ∀ a ∈ chains (hash k), a ∈ entries n chains := fun a ha => mem_entries.2 ⟨_, hk, ha⟩
  cases hc : (chains (hash k)).find? fun a => cmp k (key a) == .eq with
  | none =>
    symm
    rw [List.find?_eq_none] at hc ⊢
    intro a ha hka
    obtain ⟨i, hi, hai⟩ := mem_entries.1 ha
    have hhash : hash k = hash (key a) := hcongr _ _ (by simpa using hka)
    rw [h.placed i hi a hai] at hhash
    exact hc a (hhash ▸ hai) hka
  | some a =>
    have hka := List.find?_some hc
    obtain ⟨s, t, hst⟩ := List.append_of_mem (hsub a (List.mem_of_find?_eq_some hc))
    have hperm : (entries n chains).Perm (a :: (s ++ t)) := hst ▸ List.perm_middle
    rw [(h.distinct hcongr).find?_perm hperm, List.find?_cons, hka]

end ChainedTable
