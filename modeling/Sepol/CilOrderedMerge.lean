import Sepol.CilOrdered

/-!
# Merging keeps the order

A list of items only grows by insertions while statements are merged, so a statement that is merged stays a
subsequence of it.  The marks say which items are in the list, so no item gets into it twice.  A statement that cannot
be merged yet may leave some of its items in the list.
-/

namespace Sepol

variable {α : Type} {ordered₀ ordered : α → Bool} {front rest skipped new items : List α}

/-- No item is repeated, and the items marked since the start are those of the list. -/
structure OrderedState.Good (ordered₀ : α → Bool) (s : OrderedState α) : Prop where
  nodup : s.list.Nodup
  mark : ∀ x, s.ordered x = true ↔ ordered₀ x = true ∨ x ∈ s.list

theorem OrderedState.Good.init (ordered₀ : α → Bool) : OrderedState.Good ordered₀ ⟨[], ordered₀⟩ :=
  ⟨List.nodup_nil, by simp⟩

/-! ### Insertions -/

private theorem good_insert {ins : List α} (h : OrderedState.Good ordered₀ ⟨front ++ rest, ordered⟩)
    (hins : ins.Nodup) (hnew : ∀ x ∈ ins, ordered x = false) {ordered' : α → Bool}
    (hmark : ∀ x, ordered' x = true ↔ ordered x = true ∨ x ∈ ins) :
    OrderedState.Good ordered₀ ⟨front ++ ins ++ rest, ordered'⟩ := by
  have hperm : (front ++ ins ++ rest).Perm (ins ++ (front ++ rest)) := by
    rw [List.append_assoc]
    exact (List.perm_append_comm_assoc front ins rest)
  refine ⟨hperm.nodup_iff.2 (List.nodup_append.2 ⟨hins, h.nodup, ?_⟩), fun x => ?_⟩
  · intro x hx y hy hxy
    subst hxy
    have hx' : ordered x = true := (h.mark x).2 (Or.inr hy)
    rw [hnew x hx] at hx'
    cases hx'
  · have := h.mark x
    simp only [List.mem_append] at this ⊢
    rw [hmark, this]
    grind

variable [DecidableEq α]

private theorem cilOrderedListInsert_spec (ordered : α → Bool) (front items : List α) :
    ∃ ins, (cilOrderedListInsert ordered front items).2.1 = front ++ ins ∧ ins <+: items ∧
      ((cilOrderedListInsert ordered front items).1 = true → ins = items) ∧
      ins.Nodup ∧ (∀ x ∈ ins, ordered x = false) ∧
      ∀ x, (cilOrderedListInsert ordered front items).2.2 x = true ↔ ordered x = true ∨ x ∈ ins := by
  induction items generalizing ordered front with
  | nil => exact ⟨[], by simp [cilOrderedListInsert]⟩
  | cons item items ih =>
    unfold cilOrderedListInsert cilOrderedItemInsert
    by_cases hitem : ordered item = true
    · rw [if_pos hitem]
      exact ⟨[], by simp⟩
    · rw [if_neg hitem]
      obtain ⟨ins, hlist, hpre, hall, hnodup, hnew, hmark⟩ :=
        ih (Function.update ordered item true) (front ++ [item])
      have hne : ∀ x ∈ ins, x ≠ item := by
        intro x hx hxi
        have := hnew x hx
        rw [hxi, Function.update_self] at this
        cases this
      refine ⟨item :: ins, by simpa using hlist, List.cons_prefix_cons.2 ⟨rfl, hpre⟩, fun h => by rw [hall h],
        List.nodup_cons.2 ⟨fun h => hne item h rfl, hnodup⟩, ?_, fun x => ?_⟩
      · intro x hx
        rcases List.mem_cons.1 hx with rfl | hx
        · simpa using hitem
        · have := hnew x hx
          rwa [Function.update_of_ne (hne x hx)] at this
      · rw [hmark x, List.mem_cons]
        by_cases hx : x = item
        · subst hx
          simp
        · rw [Function.update_of_ne hx]
          simp [hx]

/-! ### Merging one list -/

private theorem dropWhile_ne_eq {i : α} {l : List α} (hi : i ∈ l) :
    l.dropWhile (fun j => decide (j ≠ i)) = i :: (l.dropWhile fun j => decide (j ≠ i)).tail := by
  induction l with
  | nil => cases hi
  | cons j l ih =>
    by_cases hj : j = i
    · subst hj
      simp
    · have hl : i ∈ l := (List.mem_cons.1 hi).resolve_left (Ne.symm hj)
      rw [List.dropWhile_cons_of_pos (by simpa using hj)]
      exact ih hl

private theorem merge_insert (h : OrderedState.Good ordered₀ ⟨front ++ rest, ordered⟩) (items : List α) :
    ∃ ins, (cilOrderedListInsert ordered front items).2.1 = front ++ ins ∧ (∀ x ∈ ins, x ∈ items) ∧
      ((cilOrderedListInsert ordered front items).1 = true → ins = items) ∧
      OrderedState.Good ordered₀ ⟨front ++ ins ++ rest, (cilOrderedListInsert ordered front items).2.2⟩ := by
  obtain ⟨ins, hlist, hpre, hall, hnodup, hnew, hmark⟩ := cilOrderedListInsert_spec ordered front items
  exact ⟨ins, hlist, fun x hx => hpre.subset hx, hall, good_insert h hnodup hnew hmark⟩

/-- The part of the list from a place on only gains items of the new list, and all of them when it is merged. -/
private theorem cilOrderedListsMergeFrom_spec (h : OrderedState.Good ordered₀ ⟨front ++ rest, ordered⟩)
    (hskip : rest = [] → skipped = []) :
    ∃ t, (cilOrderedListsMergeFrom ordered front rest skipped new).2.list = front ++ t ∧ rest.Sublist t ∧
      OrderedState.Good ordered₀ (cilOrderedListsMergeFrom ordered front rest skipped new).2 ∧
      (∀ x ∈ t, x ∈ rest ∨ x ∈ skipped ∨ x ∈ new) ∧
      ((cilOrderedListsMergeFrom ordered front rest skipped new).1 = true → (skipped ++ new).Sublist t) := by
  induction new generalizing ordered front rest skipped with
  | nil =>
    refine ⟨rest, rfl, List.Sublist.refl _, h, fun x hx => Or.inl hx, fun hok => ?_⟩
    rw [List.isEmpty_iff.1 hok]
    exact List.nil_sublist _
  | cons i new ih =>
    unfold cilOrderedListsMergeFrom
    by_cases hrest : rest = []
    · subst hrest
      rw [if_pos rfl, hskip rfl]
      obtain ⟨ins, hlist, hsub, hall, hgood⟩ := merge_insert h (i :: new)
      rw [List.append_nil, ← hlist] at hgood
      exact ⟨ins, hlist, List.nil_sublist _, hgood, fun x hx => Or.inr (Or.inr (hsub x hx)),
        fun hok => by rw [hall hok]; exact List.Sublist.refl _⟩
    rw [if_neg hrest]
    by_cases hi : i ∈ rest
    · rw [if_pos hi]
      have hsplit := List.takeWhile_append_dropWhile (p := fun j => decide (j ≠ i)) (l := rest)
      have hdrop := dropWhile_ne_eq hi
      generalize rest.takeWhile (fun j => decide (j ≠ i)) = p at hsplit ⊢
      generalize (rest.dropWhile fun j => decide (j ≠ i)) = j at hsplit hdrop ⊢
      generalize j.tail = after at hdrop ⊢
      subst hdrop hsplit
      rw [← List.append_assoc] at h
      obtain ⟨ins, hlist, hsub, hall, hgood⟩ := merge_insert h skipped
      dsimp only
      by_cases hok : (cilOrderedListInsert ordered (front ++ p) skipped).1 = true
      · rw [if_pos hok, hlist, hall hok]
        rw [hall hok] at hgood
        obtain ⟨t, ht, hafter, hgood', hmem, hnew⟩ := ih
          (show OrderedState.Good ordered₀ ⟨(front ++ p ++ skipped ++ [i]) ++ after, _⟩ by simpa using hgood)
          (fun _ => rfl : after = [] → ([] : List α) = [])
        refine ⟨p ++ skipped ++ i :: t, by simpa using ht, ?_, hgood', ?_, fun hok' => ?_⟩
        · rw [List.append_assoc]
          exact (List.Sublist.refl p).append ((hafter.cons_cons i).trans (List.sublist_append_right _ _))
        · intro x hx
          have := hmem x
          simp only [List.mem_append, List.mem_cons, List.not_mem_nil, false_or] at hx this ⊢
          grind
        · rw [List.append_assoc]
          exact ((List.Sublist.refl skipped).append ((hnew hok').cons_cons i)).trans (List.sublist_append_right _ _)
      · rw [if_neg hok, hlist]
        refine ⟨p ++ ins ++ i :: after, by simp, ?_, hgood, ?_, fun hf => by cases hf⟩
        · rw [List.append_assoc]
          exact (List.Sublist.refl p).append (List.sublist_append_right _ _)
        · intro x hx
          have := hsub x
          simp only [List.mem_append, List.mem_cons] at hx ⊢
          grind
    · rw [if_neg hi]
      obtain ⟨t, ht, hsub, hgood, hmem, hnew⟩ :=
        ih h (fun hnil => absurd hnil hrest : rest = [] → skipped ++ [i] = [])
      refine ⟨t, ht, hsub, hgood, ?_, by simpa using hnew⟩
      intro x hx
      have := hmem x hx
      simp only [List.mem_append, List.mem_cons, List.not_mem_nil, or_false] at this ⊢
      grind

/-- Merging a statement only inserts items of it, and all of them come in its order when it is merged. -/
private theorem cilOrderedListsMerge_spec {s : OrderedState α} (h : s.Good ordered₀) (new : List α) :
    s.list.Sublist (cilOrderedListsMerge s new).2.list ∧ (cilOrderedListsMerge s new).2.Good ordered₀ ∧
      (∀ x ∈ (cilOrderedListsMerge s new).2.list, x ∈ s.list ∨ x ∈ new) ∧
      ((cilOrderedListsMerge s new).1 = true → new.Sublist (cilOrderedListsMerge s new).2.list) := by
  unfold cilOrderedListsMerge
  by_cases hnew : new = []
  · rw [if_pos hnew]
    exact ⟨List.Sublist.refl _, h, fun x hx => Or.inl hx, fun _ => by rw [hnew]; exact List.nil_sublist _⟩
  rw [if_neg hnew]
  by_cases hold : s.list = []
  · rw [if_pos hold]
    have hgood : OrderedState.Good ordered₀ ⟨[] ++ [], s.ordered⟩ := by
      have h' := h
      obtain ⟨list, ordered⟩ := s
      cases hold
      exact h'
    obtain ⟨ins, hlist, hsub, hall, hgood'⟩ := merge_insert hgood new
    rw [List.append_nil, ← hlist] at hgood'
    rw [List.nil_append] at hlist
    refine ⟨by rw [hold]; exact List.nil_sublist _, hgood', fun x hx => Or.inr (hsub x (hlist ▸ hx)), fun hok => ?_⟩
    dsimp only
    rw [hlist, hall hok]
  · rw [if_neg hold]
    obtain ⟨t, ht, hsub, hgood, hmem, hok⟩ := @cilOrderedListsMergeFrom_spec α ordered₀ s.ordered [] s.list [] new _ h
      fun hnil => absurd hnil hold
    rw [List.nil_append] at ht
    rw [ht]
    exact ⟨hsub, hgood, fun x hx => by simpa using hmem x hx, hok⟩

end Sepol

/-!
## The passes over the order statements

Each pass tries the statements that are still waiting.  A pass after which there is another one has merged one of
them, so there are at most as many passes as statements, and one more.
-/

namespace Sepol

variable {α : Type} {ordered₀ : α → Bool}

/-- The statements that are not merged yet. -/
def waitingLists (orderedLists : List (CilOrdered α)) : Nat := orderedLists.countP fun o => !o.merged

/-- An item of one of the statements. -/
def ItemOf (orderedLists : List (CilOrdered α)) (x : α) : Prop := ∃ o ∈ orderedLists, x ∈ o.datums

theorem itemOf_cons {o : CilOrdered α} {os : List (CilOrdered α)} {x : α} :
    ItemOf (o :: os) x ↔ x ∈ o.datums ∨ ItemOf os x := by
  unfold ItemOf
  simp

private theorem itemOf_congr {os os' : List (CilOrdered α)} (h : os'.map CilOrdered.datums = os.map CilOrdered.datums)
    (x : α) : ItemOf os' x ↔ ItemOf os x := by
  have hmap : ∀ l : List (CilOrdered α), ItemOf l x ↔ ∃ d ∈ l.map CilOrdered.datums, x ∈ d := by
    intro l
    unfold ItemOf
    simp
  rw [hmap, hmap, h]

/-- The list from `s` to `s'` grows by items of the statements, and those that are marked merged are in it. -/
structure PassOk (ordered₀ : α → Bool) (s s' : OrderedState α) (os os' : List (CilOrdered α)) : Prop where
  sublist : s.list.Sublist s'.list
  good : s'.Good ordered₀
  mem : ∀ x ∈ s'.list, x ∈ s.list ∨ ItemOf os x
  datums : os'.map CilOrdered.datums = os.map CilOrdered.datums
  merged : ∀ o ∈ os', o.merged = true → o.datums.Sublist s'.list

variable [DecidableEq α]

private theorem pass_waiting (s : OrderedState α) (os : List (CilOrdered α)) :
    (cilOrderedListsPass s os).2.2.1 = waitingLists (cilOrderedListsPass s os).2.1 ∧
      waitingLists (cilOrderedListsPass s os).2.1 ≤ waitingLists os ∧
      ((cilOrderedListsPass s os).2.2.2 = true → waitingLists (cilOrderedListsPass s os).2.1 < waitingLists os) := by
  induction os generalizing s with
  | nil => simp [cilOrderedListsPass, waitingLists]
  | cons o os ih =>
    unfold cilOrderedListsPass
    by_cases ho : o.merged = true
    · obtain ⟨h1, h2, h3⟩ := ih s
      rw [if_pos ho]
      unfold waitingLists at *
      simp only [List.countP_cons, ho]
      exact ⟨by simpa using h1, by simpa using h2, by simpa using h3⟩
    · obtain ⟨h1, h2, h3⟩ := ih (cilOrderedListsMerge s o.datums).2
      rw [if_neg ho]
      unfold waitingLists at *
      dsimp only
      by_cases hm : (cilOrderedListsMerge s o.datums).1 = true
      · rw [if_pos hm]
        simp only [List.countP_cons, ho]
        refine ⟨by simpa using h1, by simp; omega, fun _ => by simp; omega⟩
      · rw [if_neg hm]
        simp only [List.countP_cons, ho]
        refine ⟨by simp; omega, by simp; omega, fun hc => ?_⟩
        have := h3 hc
        simp
        omega

private theorem cilOrderedListsPass_spec {s : OrderedState α} (h : s.Good ordered₀) (os : List (CilOrdered α))
    (hmerged : ∀ o ∈ os, o.merged = true → o.datums.Sublist s.list) :
    PassOk ordered₀ s (cilOrderedListsPass s os).1 os (cilOrderedListsPass s os).2.1 := by
  induction os generalizing s with
  | nil => exact ⟨List.Sublist.refl _, h, fun x hx => Or.inl hx, rfl, fun o ho => by cases ho⟩
  | cons o os ih =>
    unfold cilOrderedListsPass
    by_cases ho : o.merged = true
    · have hr := ih h fun o' ho' => hmerged o' (List.mem_cons_of_mem _ ho')
      rw [if_pos ho]
      refine ⟨hr.sublist, hr.good, fun x hx => ?_, by simp [hr.datums], fun o' ho' hm => ?_⟩
      · rw [itemOf_cons]
        have := hr.mem x hx
        tauto
      · rcases List.mem_cons.1 ho' with rfl | ho'
        · exact (hmerged _ List.mem_cons_self ho).trans hr.sublist
        · exact hr.merged o' ho' hm
    · obtain ⟨hsub, hgood, hmem, hnew⟩ := cilOrderedListsMerge_spec h o.datums
      have hr := ih hgood fun o' ho' hm => (hmerged o' (List.mem_cons_of_mem _ ho') hm).trans hsub
      have hmem' : ∀ x ∈ (cilOrderedListsPass (cilOrderedListsMerge s o.datums).2 os).1.list,
          x ∈ s.list ∨ ItemOf (o :: os) x := by
        intro x hx
        rw [itemOf_cons]
        have h1 := hr.mem x hx
        have h2 := hmem x
        tauto
      rw [if_neg ho]
      dsimp only
      by_cases hm : (cilOrderedListsMerge s o.datums).1 = true
      · rw [if_pos hm]
        refine ⟨hsub.trans hr.sublist, hr.good, hmem', by simp [hr.datums], fun o' ho' hm' => ?_⟩
        rcases List.mem_cons.1 ho' with rfl | ho'
        · exact (hnew hm).trans hr.sublist
        · exact hr.merged o' ho' hm'
      · rw [if_neg hm]
        refine ⟨hsub.trans hr.sublist, hr.good, hmem', by simp [hr.datums], fun o' ho' hm' => ?_⟩
        rcases List.mem_cons.1 ho' with rfl | ho'
        · exact absurd hm' ho
        · exact hr.merged o' ho' hm'

/-- The passes end; what they end with contains exactly the items of the statements, each statement in its order. -/
theorem cilOrderedListsPasses_spec {s : OrderedState α} (h : s.Good ordered₀) (os : List (CilOrdered α))
    (hmerged : ∀ o ∈ os, o.merged = true → o.datums.Sublist s.list) :
    ∃ r, (∀ fuel, waitingLists os < fuel → cilOrderedListsPasses fuel s os = some r) ∧
      ∀ s', r = some s' → s'.Good ordered₀ ∧ (∀ x ∈ s'.list, x ∈ s.list ∨ ItemOf os x) ∧
        ∀ o ∈ os, o.datums.Sublist s'.list := by
  induction hn : waitingLists os using Nat.strong_induction_on generalizing s os with
  | _ n ih =>
    obtain ⟨hcount, -, hless⟩ := pass_waiting s os
    have hp := cilOrderedListsPass_spec h os hmerged
    generalize hr : cilOrderedListsPass s os = r at hcount hless hp
    obtain ⟨s₁, os₁, waiting, changed⟩ := r
    dsimp only at hcount hless hp
    have hstep : ∀ fuel, cilOrderedListsPasses (fuel + 1) s os =
        if waiting = 0 then some (some s₁) else if changed then cilOrderedListsPasses fuel s₁ os₁ else some none := by
      intro fuel
      conv_lhs => unfold cilOrderedListsPasses
      rw [hr]
    by_cases hw : waiting = 0
    · refine ⟨some s₁, fun fuel hf => ?_, ?_⟩
      · obtain ⟨f, rfl⟩ : ∃ f, fuel = f + 1 := ⟨fuel - 1, by omega⟩
        rw [hstep, if_pos hw]
      · rintro _ ⟨rfl⟩
        refine ⟨hp.good, hp.mem, fun o ho => ?_⟩
        have hd : o.datums ∈ os₁.map CilOrdered.datums := by
          rw [hp.datums]
          exact List.mem_map_of_mem ho
        obtain ⟨o', ho', he⟩ := List.mem_map.1 hd
        have hall := List.countP_eq_zero.1 (hcount.symm.trans hw) o' ho'
        rw [← he]
        exact hp.merged o' ho' (by simpa using hall)
    by_cases hc : changed = true
    · have hlt := hless hc
      obtain ⟨r, hrun, hok⟩ := ih _ (by omega) hp.good os₁ hp.merged rfl
      refine ⟨r, fun fuel hf => ?_, fun s' hs' => ?_⟩
      · obtain ⟨f, rfl⟩ : ∃ f, fuel = f + 1 := ⟨fuel - 1, by omega⟩
        rw [hstep, if_neg hw, if_pos hc]
        exact hrun f (by omega)
      · obtain ⟨hgood, hmem, hall⟩ := hok s' hs'
        refine ⟨hgood, fun x hx => ?_, fun o ho => ?_⟩
        · rcases hmem x hx with h1 | h1
          · exact hp.mem x h1
          · exact Or.inr ((itemOf_congr hp.datums x).1 h1)
        · have hd : o.datums ∈ os₁.map CilOrdered.datums := by
            rw [hp.datums]
            exact List.mem_map_of_mem ho
          obtain ⟨o', ho', he⟩ := List.mem_map.1 hd
          rw [← he]
          exact hall o' ho'
    · refine ⟨none, fun fuel hf => ?_, fun s' hs' => by cases hs'⟩
      obtain ⟨f, rfl⟩ : ∃ f, fuel = f + 1 := ⟨fuel - 1, by omega⟩
      rw [hstep, if_neg hw, if_neg hc]

end Sepol
