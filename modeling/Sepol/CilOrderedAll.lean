import Sepol.CilOrderedMerge
import Sepol.CilOrderedVerify

/-!
# The merged list

The order statements determine a list when it has their items once each, each statement in its order, and no two
neighbours that are not neighbours in a statement.  There is at most one such list, and a run that succeeds has found
it.  Whether a run succeeds may depend on the order of the statements, for items may be inserted at a place where only
a later statement would show that they do not belong there.
-/

namespace Sepol

variable {α : Type} {ordered : α → Bool} {orderedLists unorderedLists : List (CilOrdered α)}

/-- The statements determine the order of their items in `l`. -/
structure OrderDetermined (orderedLists : List (CilOrdered α)) (l : List α) : Prop where
  nodup : l.Nodup
  mem : ∀ x, x ∈ l ↔ ItemOf orderedLists x
  sublist : ∀ o ∈ orderedLists, o.datums.Sublist l
  neighbours : ∀ a b, [a, b] <:+: l → ∃ o ∈ orderedLists, [a, b] <:+: o.datums
  first : ∀ a, l.head? = some a → ∃ o ∈ orderedLists, o.datums.head? = some a
  last : ∀ a, l.getLast? = some a → ∃ o ∈ orderedLists, o.datums.getLast? = some a

/-! ### What the check shows -/

private theorem NextIn.neighbours {a b : α} (h : NextIn orderedLists a (some b)) :
    ∃ o ∈ orderedLists, [a, b] <:+: o.datums := by
  obtain ⟨o, ho, front, rest, he, hb⟩ := h
  obtain ⟨rest', rfl⟩ : ∃ rest', rest = b :: rest' := List.head?_eq_some_iff.1 hb
  exact ⟨o, ho, front, rest', by rw [he]; simp⟩

private theorem OrderChecked.neighbours {prev : Option α} {l : List α} (h : OrderChecked orderedLists prev l)
    {a b : α}
    (hab : [a, b] <:+: l) : ∃ o ∈ orderedLists, [a, b] <:+: o.datums := by
  induction l generalizing prev with
  | nil => simp at hab
  | cons c l ih =>
    obtain ⟨-, hnext, hrest⟩ := h
    rcases List.infix_cons_iff.1 hab with hpre | hinf
    · obtain ⟨rfl, hb⟩ := List.cons_prefix_cons.1 hpre
      obtain ⟨l', rfl⟩ := hb
      exact hnext.neighbours
    · exact ih hrest hinf

private theorem OrderChecked.first {l : List α} (h : OrderChecked orderedLists none l) {a : α}
    (ha : l.head? = some a) : ∃ o ∈ orderedLists, o.datums.head? = some a := by
  obtain ⟨l', rfl⟩ := List.head?_eq_some_iff.1 ha
  obtain ⟨⟨o, ho, front, rest, he, hf⟩, -⟩ := h
  rw [List.getLast?_eq_none_iff] at hf
  exact ⟨o, ho, by rw [he, hf]; rfl⟩

private theorem OrderChecked.last {prev : Option α} {l : List α} (h : OrderChecked orderedLists prev l) {a : α}
    (ha : l.getLast? = some a) : ∃ o ∈ orderedLists, o.datums.getLast? = some a := by
  induction l generalizing prev with
  | nil => cases ha
  | cons c l ih =>
    obtain ⟨-, hnext, hrest⟩ := h
    cases l with
    | nil =>
      obtain ⟨o, ho, front, rest, he, hr⟩ := hnext
      rw [List.head?_nil, List.head?_eq_none_iff] at hr
      obtain rfl : c = a := by simpa using ha
      exact ⟨o, ho, by rw [he, hr]; simp⟩
    | cons d l => exact ih hrest (by simpa using ha)

private theorem OrderDetermined.of_checked {l : List α} (hnodup : l.Nodup) (hmem : ∀ x, x ∈ l ↔ ItemOf orderedLists x)
    (hsub : ∀ o ∈ orderedLists, o.datums.Sublist l) (h : OrderChecked orderedLists none l) :
    OrderDetermined orderedLists l :=
  ⟨hnodup, hmem, hsub, fun _ _ hab => h.neighbours hab, fun _ ha => h.first ha, fun _ ha => h.last ha⟩

variable [DecidableEq α]

theorem OrderDetermined.unique {l l' : List α} (h : OrderDetermined orderedLists l) (hnodup : l'.Nodup)
    (hmem : ∀ x, x ∈ l' ↔ ItemOf orderedLists x) (hsub : ∀ o ∈ orderedLists, o.datums.Sublist l') : l = l' := by
  refine Neighbours.eq_of_isChain h.nodup hnodup (fun x => (h.mem x).trans (hmem x).symm) ?_
  refine (List.isChain_isInfix l).imp fun a b hab => ?_
  obtain ⟨o, ho, hinf⟩ := h.neighbours a b hab
  exact hinf.sublist.trans (hsub o ho)

/-! ### The unordered items -/

private theorem insertUnorderedItems_spec {s : OrderedState α} (h : s.Good ordered) (items : List α) :
    (∃ s' tail, insertUnorderedItems s items = some s' ∧ s'.Good ordered ∧ s'.list = s.list ++ tail ∧
      (∀ x, x ∈ tail ↔ x ∈ items ∧ x ∉ s.list) ∧ ∀ x ∈ tail, ordered x = false) ∨
    insertUnorderedItems s items = none ∧ ∃ x ∈ items, x ∉ s.list ∧ ordered x = true := by
  induction items generalizing s with
  | nil => exact Or.inl ⟨s, [], rfl, h, by simp, by simp, by simp⟩
  | cons item items ih =>
    unfold insertUnorderedItems cilOrderedItemInsert
    by_cases hitem : item ∈ s.list
    · rw [if_pos hitem]
      rcases ih h with ⟨s', tail, hs', hgood, hlist, hmem, hfree⟩ | ⟨hnone, x, hx, hnot, hmark⟩
      · refine Or.inl ⟨s', tail, hs', hgood, hlist, fun x => ?_, hfree⟩
        rw [hmem, List.mem_cons]
        exact ⟨fun hx => ⟨Or.inr hx.1, hx.2⟩, fun hx => ⟨hx.1.resolve_left fun e => hx.2 (e ▸ hitem), hx.2⟩⟩
      · exact Or.inr ⟨hnone, x, List.mem_cons_of_mem _ hx, hnot, hmark⟩
    rw [if_neg hitem]
    by_cases hmark : s.ordered item = true
    · rw [if_pos hmark]
      exact Or.inr ⟨rfl, item, List.mem_cons_self, hitem, ((h.mark item).1 hmark).resolve_right hitem⟩
    rw [if_neg hmark]
    dsimp only
    have hgood : OrderedState.Good ordered ⟨s.list ++ [item], Function.update s.ordered item true⟩ := by
      refine ⟨List.nodup_append.2 ⟨h.nodup, List.nodup_singleton _, ?_⟩, fun x => ?_⟩
      · intro a ha b hb hab
        rw [List.mem_singleton.1 hb] at hab
        exact hitem (hab ▸ ha)
      · dsimp only
        rw [List.mem_append, List.mem_singleton]
        by_cases hx : x = item
        · subst hx
          simp
        · rw [Function.update_of_ne hx, h.mark]
          simp [hx]
    rcases ih hgood with ⟨s', tail, hs', hgood', hlist, hmem, hfree⟩ | ⟨hnone, x, hx, hnot, hx'⟩
    · refine Or.inl ⟨s', item :: tail, hs', hgood', by rw [hlist]; simp, fun x => ?_, fun x hx => ?_⟩
      · have := hmem x
        simp only [List.mem_append, List.mem_cons] at this ⊢
        by_cases hx : x = item
        · subst hx
          simp [hitem]
        · simp [this, hx]
      · rcases List.mem_cons.1 hx with rfl | hx
        · have := h.mark x
          simp_all
        · exact hfree x hx
    · exact Or.inr ⟨hnone, x, List.mem_cons_of_mem _ hx, fun hm => hnot (List.mem_append_left _ hm), hx'⟩

/-- The items of the unordered statements that are not in the list come at its end, unless one is marked already. -/
private theorem insertUnordered_spec {s : OrderedState α} (h : s.Good ordered)
    (unorderedLists : List (CilOrdered α)) :
    (∃ s' tail, insertUnordered s unorderedLists = some s' ∧ s'.Good ordered ∧ s'.list = s.list ++ tail ∧
      (∀ x, x ∈ tail ↔ ItemOf unorderedLists x ∧ x ∉ s.list) ∧ ∀ x ∈ tail, ordered x = false) ∨
    insertUnordered s unorderedLists = none ∧ ∃ x, ItemOf unorderedLists x ∧ x ∉ s.list ∧ ordered x = true := by
  induction unorderedLists generalizing s with
  | nil => exact Or.inl ⟨s, [], rfl, h, by simp, by simp [ItemOf], by simp⟩
  | cons o os ih =>
    unfold insertUnordered
    rcases insertUnorderedItems_spec h o.datums with
      ⟨s₁, t₁, hs₁, hgood₁, hlist₁, hmem₁, hfree₁⟩ | ⟨hnone, x, hx, hnot, hmark⟩
    · rw [hs₁, Option.bind_some]
      rcases ih hgood₁ with ⟨s₂, t₂, hs₂, hgood₂, hlist₂, hmem₂, hfree₂⟩ | ⟨hnone, x, hx, hnot, hmark⟩
      · refine Or.inl ⟨s₂, t₁ ++ t₂, hs₂, hgood₂, by rw [hlist₂, hlist₁, List.append_assoc], fun x => ?_,
          fun x hx => (List.mem_append.1 hx).elim (hfree₁ x) (hfree₂ x)⟩
        rw [hlist₁] at hmem₂
        have h1 := hmem₁ x
        have h2 := hmem₂ x
        rw [List.mem_append] at h2 ⊢
        rw [itemOf_cons]
        tauto
      · refine Or.inr ⟨hnone, x, itemOf_cons.2 (Or.inr hx), fun hm => hnot ?_, hmark⟩
        rw [hlist₁]
        exact List.mem_append_left _ hm
    · rw [hnone]
      exact Or.inr ⟨rfl, x, itemOf_cons.2 (Or.inl hx), hnot, hmark⟩

/-! ### All statements -/

/-- How many rounds are enough: one pass for each statement, and three rounds of the check for each item. -/
def orderedRounds (orderedLists : List (CilOrdered α)) : Nat :=
  orderedLists.length + 3 * (orderedLists.flatMap CilOrdered.datums).length + 2

/-- The statements cannot be merged, or they are, and the check tells whether they determine the list. -/
private theorem mergeAll_cases (ordered : α → Bool) (unorderedLists : List (CilOrdered α))
    (hmerged : ∀ o ∈ orderedLists, o.merged = false) :
    (∀ fuel, orderedRounds orderedLists < fuel →
      cilOrderedListsMergeAll fuel ordered orderedLists unorderedLists = some (.error .unmerged)) ∨
    ∃ s : OrderedState α, s.Good ordered ∧ (∀ x, x ∈ s.list ↔ ItemOf orderedLists x) ∧
      (∀ o ∈ orderedLists, o.datums.Sublist s.list) ∧
      ((OrderChecked orderedLists none s.list ∧ ∀ fuel, orderedRounds orderedLists < fuel →
          cilOrderedListsMergeAll fuel ordered orderedLists unorderedLists =
            some ((insertUnordered s unorderedLists).elim (.error .unordered) .ok)) ∨
        ¬OrderChecked orderedLists none s.list ∧ ∀ fuel, orderedRounds orderedLists < fuel →
          cilOrderedListsMergeAll fuel ordered orderedLists unorderedLists = some (.error .unverified)) := by
  have hwait : waitingLists orderedLists ≤ orderedLists.length := List.countP_le_length
  obtain ⟨r, hrun, hr⟩ := cilOrderedListsPasses_spec (.init ordered) orderedLists
    fun o ho hm => by rw [hmerged o ho] at hm; cases hm
  have hpasses : ∀ fuel, orderedRounds orderedLists < fuel →
      cilOrderedListsPasses fuel ⟨[], ordered⟩ orderedLists = some r := by
    intro fuel hf
    unfold orderedRounds at hf
    exact hrun fuel (by omega)
  cases r with
  | none =>
    refine Or.inl fun fuel hf => ?_
    unfold cilOrderedListsMergeAll
    rw [hpasses fuel hf]
    rfl
  | some s =>
    obtain ⟨hgood, hmem, hsub⟩ := hr s rfl
    have hmem' : ∀ x, x ∈ s.list ↔ ItemOf orderedLists x := by
      intro x
      refine ⟨fun hx => (hmem x hx).resolve_left List.not_mem_nil, ?_⟩
      rintro ⟨o, ho, hx⟩
      exact (hsub o ho).subset hx
    have hlen : s.list.length ≤ (orderedLists.flatMap CilOrdered.datums).length := by
      refine (List.Nodup.subperm hgood.nodup fun x hx => ?_).length_le
      obtain ⟨o, ho, hx⟩ := (hmem' x).1 hx
      exact List.mem_flatMap.2 ⟨o, ho, hx⟩
    have hverify : ∀ fuel, orderedRounds orderedLists < fuel →
        ∃ v, (v = true ↔ OrderChecked orderedLists none s.list) ∧
          cilOrderedListsMergeAll fuel ordered orderedLists unorderedLists =
            some (if v then (insertUnordered s unorderedLists).elim (.error .unordered) .ok
              else .error .unverified) := by
      intro fuel hf
      have hfuel : 3 * s.list.length + 2 < fuel := by
        unfold orderedRounds at hf
        omega
      obtain ⟨v, hv, hiff⟩ := cilVerifyCompletedOrderedList_iff s.list orderedLists hfuel
      refine ⟨v, hiff, ?_⟩
      unfold cilOrderedListsMergeAll
      rw [hpasses fuel hf, Option.bind_some]
      dsimp only
      rw [hv, Option.bind_some]
      cases v
      · rfl
      · cases insertUnordered s unorderedLists <;> rfl
    refine Or.inr ⟨s, hgood, hmem', hsub, ?_⟩
    by_cases hc : OrderChecked orderedLists none s.list
    · refine Or.inl ⟨hc, fun fuel hf => ?_⟩
      obtain ⟨v, hv, heq⟩ := hverify fuel hf
      rw [heq, if_pos (hv.2 hc)]
    · refine Or.inr ⟨hc, fun fuel hf => ?_⟩
      obtain ⟨v, hv, heq⟩ := hverify fuel hf
      rw [heq, if_neg fun h => hc (hv.1 h)]

/-- The merging ends.  When it succeeds, the list is the one the order statements determine, followed by the items
that are given only in unordered statements, and no item is in it twice. -/
theorem cilOrderedListsMergeAll_sound (ordered : α → Bool) (orderedLists unorderedLists : List (CilOrdered α))
    (hmerged : ∀ o ∈ orderedLists, o.merged = false) :
    ∃ r, (∀ fuel, orderedRounds orderedLists < fuel →
        cilOrderedListsMergeAll fuel ordered orderedLists unorderedLists = some r) ∧
      ∀ s, r = .ok s → ∃ head tail, s.list = head ++ tail ∧ s.list.Nodup ∧ OrderDetermined orderedLists head ∧
        ∀ x, x ∈ tail ↔ ItemOf unorderedLists x ∧ ¬ItemOf orderedLists x := by
  rcases mergeAll_cases ordered unorderedLists hmerged with hfail | ⟨s, hgood, hmem, hsub, ⟨hc, hrun⟩ | ⟨hc, hrun⟩⟩
  · exact ⟨_, hfail, fun s hs => by cases hs⟩
  · refine ⟨_, hrun, fun s' hs' => ?_⟩
    rcases insertUnordered_spec hgood unorderedLists with ⟨s₁, tail, hs₁, hgood₁, hlist, htail, -⟩ | ⟨hnone, -⟩
    · rw [hs₁, Option.elim_some] at hs'
      cases hs'
      exact ⟨s.list, tail, hlist, hgood₁.nodup, .of_checked hgood.nodup hmem hsub hc, fun x => by rw [htail, hmem]⟩
    · rw [hnone] at hs'
      cases hs'
  · exact ⟨_, hrun, fun s hs => by cases hs⟩

theorem cilOrderedListsMergeAll_sound_three :
    ∃ r, (∀ fuel, orderedRounds [⟨false, [1, 0]⟩, ⟨false, [0, 2]⟩] < fuel →
        cilOrderedListsMergeAll fuel (fun _ : Nat => false) [⟨false, [1, 0]⟩, ⟨false, [0, 2]⟩] [⟨false, [3, 0]⟩] =
          some r) ∧
      ∀ s, r = .ok s → ∃ head tail, s.list = head ++ tail ∧ s.list.Nodup ∧
        OrderDetermined [⟨false, [1, 0]⟩, ⟨false, [0, 2]⟩] head ∧
        ∀ x, x ∈ tail ↔ ItemOf [⟨false, [3, 0]⟩] x ∧ ¬ItemOf [⟨false, [1, 0]⟩, ⟨false, [0, 2]⟩] x :=
  cilOrderedListsMergeAll_sound _ _ _ (by simp)

/-! ### The order of the statements -/

omit [DecidableEq α] in
private theorem itemOf_perm {os os' : List (CilOrdered α)} (h : os.Perm os') (x : α) :
    ItemOf os x ↔ ItemOf os' x := by
  unfold ItemOf
  simp only [h.mem_iff]

omit [DecidableEq α] in
private theorem OrderChecked.perm {os os' : List (CilOrdered α)} (h : os.Perm os') {prev : Option α} {l : List α}
    (hc : OrderChecked os prev l) : OrderChecked os' prev l := by
  induction l generalizing prev with
  | nil => trivial
  | cons c l ih =>
    obtain ⟨⟨o, ho, hp⟩, ⟨o', ho', hn⟩, hrest⟩ := hc
    exact ⟨⟨o, h.mem_iff.1 ho, hp⟩, ⟨o', h.mem_iff.1 ho', hn⟩, ih hrest⟩

omit [DecidableEq α] in
private theorem orderedState_ext {s s' : OrderedState α} (h : s.Good ordered) (h' : s'.Good ordered)
    (hlist : s.list = s'.list) : s = s' := by
  obtain ⟨list, marks⟩ := s
  obtain ⟨list', marks'⟩ := s'
  cases hlist
  have hmarks : marks = marks' := by
    funext x
    exact Bool.eq_iff_iff.2 ((h.mark x).trans (h'.mark x).symm)
  rw [hmarks]

private theorem mergeAll_determined {s : OrderedState α} (hgood : s.Good ordered)
    (hmem : ∀ x, x ∈ s.list ↔ ItemOf orderedLists x) (hsub : ∀ o ∈ orderedLists, o.datums.Sublist s.list)
    (hc : OrderChecked orderedLists none s.list) (hmerged : ∀ o ∈ orderedLists, o.merged = false)
    (unorderedLists : List (CilOrdered α)) :
    (∀ fuel, orderedRounds orderedLists < fuel →
        cilOrderedListsMergeAll fuel ordered orderedLists unorderedLists = some (.error .unmerged)) ∨
      ∀ fuel, orderedRounds orderedLists < fuel →
        cilOrderedListsMergeAll fuel ordered orderedLists unorderedLists =
          some ((insertUnordered s unorderedLists).elim (.error .unordered) .ok) := by
  have hdet := OrderDetermined.of_checked hgood.nodup hmem hsub hc
  rcases mergeAll_cases ordered unorderedLists hmerged with h | ⟨s', hgood', hmem', hsub', h⟩
  · exact Or.inl h
  · obtain rfl := orderedState_ext hgood hgood' (hdet.unique hgood'.nodup hmem' hsub')
    rcases h with ⟨-, h⟩ | ⟨hnot, -⟩
    · exact Or.inr h
    · exact absurd hc hnot

/-- When the merging succeeds for one order of the statements, then for any other order it either cannot merge a
statement, or it succeeds with the same list, up to the order of the items that are only in unordered statements. -/
theorem cilOrderedListsMergeAll_perm (ordered : α → Bool)
    {orderedLists orderedLists' unorderedLists unorderedLists' : List (CilOrdered α)}
    (hmerged : ∀ o ∈ orderedLists, o.merged = false) (hperm : orderedLists.Perm orderedLists')
    (hunordered : unorderedLists.Perm unorderedLists') :
    ∃ r r', (∀ fuel, orderedRounds orderedLists < fuel →
        cilOrderedListsMergeAll fuel ordered orderedLists unorderedLists = some r) ∧
      (∀ fuel, orderedRounds orderedLists' < fuel →
        cilOrderedListsMergeAll fuel ordered orderedLists' unorderedLists' = some r') ∧
      ∀ s, r = .ok s → r' = .error .unmerged ∨
        ∃ s' head tail tail', r' = .ok s' ∧ s.list = head ++ tail ∧ s'.list = head ++ tail' ∧
          (∀ x, x ∈ head ↔ ItemOf orderedLists x) ∧ tail.Perm tail' ∧
          (unorderedLists = unorderedLists' → s = s') := by
  have hmerged' : ∀ o ∈ orderedLists', o.merged = false := fun o ho => hmerged o (hperm.mem_iff.2 ho)
  have hends : ∃ r', ∀ fuel, orderedRounds orderedLists' < fuel →
      cilOrderedListsMergeAll fuel ordered orderedLists' unorderedLists' = some r' := by
    rcases mergeAll_cases ordered unorderedLists' hmerged' with h | ⟨s, -, -, -, ⟨-, h⟩ | ⟨-, h⟩⟩ <;> exact ⟨_, h⟩
  obtain ⟨r', hr'⟩ := hends
  rcases mergeAll_cases ordered unorderedLists hmerged with hfail | ⟨s, hgood, hmem, hsub, ⟨hc, hrun⟩ | ⟨hc, hrun⟩⟩
  · exact ⟨_, r', hfail, hr', fun s hs => by cases hs⟩
  · rcases mergeAll_determined hgood (fun x => (hmem x).trans (itemOf_perm hperm x))
      (fun o ho => hsub o (hperm.mem_iff.2 ho)) (hc.perm hperm) hmerged' unorderedLists' with hrun' | hrun'
    · exact ⟨_, _, hrun, hrun', fun _ _ => Or.inl rfl⟩
    refine ⟨_, _, hrun, hrun', fun s₁ hs₁ => Or.inr ?_⟩
    rcases insertUnordered_spec hgood unorderedLists with ⟨s', tail, hs', hgood₁, hlist, htail, hfree⟩ | ⟨hnone, -⟩
    · rw [hs', Option.elim_some] at hs₁
      cases hs₁
      rcases insertUnordered_spec hgood unorderedLists' with ⟨s₂, tail₂, hs₂, hgood₂, hlist₂, htail₂, -⟩ |
        ⟨-, x, hx, hnot, hmark⟩
      · refine ⟨s₂, s.list, tail, tail₂, by rw [hs₂, Option.elim_some], hlist, hlist₂, hmem, ?_, fun heq => ?_⟩
        · have hnodup := hgood₁.nodup
          have hnodup₂ := hgood₂.nodup
          rw [hlist, List.nodup_append] at hnodup
          rw [hlist₂, List.nodup_append] at hnodup₂
          refine (List.perm_ext_iff_of_nodup hnodup.2.1 hnodup₂.2.1).2 fun x => ?_
          rw [htail, htail₂, itemOf_perm hunordered]
        · subst heq
          exact Option.some.inj (hs'.symm.trans hs₂)
      · -- An item that is marked from the start would not have been inserted in the first run either.
        have hx₁ := hfree x ((htail x).2 ⟨(itemOf_perm hunordered x).2 hx, hnot⟩)
        rw [hmark] at hx₁
        cases hx₁
    · rw [hnone] at hs₁
      cases hs₁
  · exact ⟨_, r', hrun, hr', fun s hs => by cases hs⟩

theorem cilOrderedListsMergeAll_perm_two :
    ∃ r r', (∀ fuel, orderedRounds [⟨false, [1, 0]⟩, ⟨false, [0, 2]⟩] < fuel →
        cilOrderedListsMergeAll fuel (fun _ : Nat => false) [⟨false, [1, 0]⟩, ⟨false, [0, 2]⟩] [] = some r) ∧
      (∀ fuel, orderedRounds [⟨false, [0, 2]⟩, ⟨false, [1, 0]⟩] < fuel →
        cilOrderedListsMergeAll fuel (fun _ : Nat => false) [⟨false, [0, 2]⟩, ⟨false, [1, 0]⟩] [] = some r') ∧
      ∀ s, r = .ok s → r' = .error .unmerged ∨
        ∃ s' head tail tail', r' = .ok s' ∧ s.list = head ++ tail ∧ s'.list = head ++ tail' ∧
          (∀ x, x ∈ head ↔ ItemOf [⟨false, [1, 0]⟩, ⟨false, [0, 2]⟩] x) ∧ tail.Perm tail' ∧
          (([] : List (CilOrdered Nat)) = [] → s = s') :=
  cilOrderedListsMergeAll_perm _ (by simp) (List.Perm.swap _ _ _) (List.Perm.refl _)

/-- The list of a successful run, or the error. -/
def mergedList (r : Option (Except OrderedError (OrderedState α))) : Option (Except OrderedError (List α)) :=
  r.map fun r => r.map OrderedState.list

/-- With `0 2` and `1 2` merged first, `1` is inserted after `0`, and then `1 0` cannot be merged. -/
theorem cilOrderedListsMergeAll_order_dependent :
    mergedList (cilOrderedListsMergeAll 40 (fun _ : Nat => false)
        [⟨false, [1, 0]⟩, ⟨false, [0, 2]⟩, ⟨false, [1, 2]⟩] []) = some (.ok [1, 0, 2]) ∧
      mergedList (cilOrderedListsMergeAll 40 (fun _ : Nat => false)
        [⟨false, [0, 2]⟩, ⟨false, [1, 2]⟩, ⟨false, [1, 0]⟩] []) = some (.error .unmerged) ∧
      [(⟨false, [1, 0]⟩ : CilOrdered Nat), ⟨false, [0, 2]⟩, ⟨false, [1, 2]⟩].Perm
        [⟨false, [0, 2]⟩, ⟨false, [1, 2]⟩, ⟨false, [1, 0]⟩] :=
  ⟨rfl, rfl, @List.perm_append_comm _ [_] [_, _]⟩

end Sepol
