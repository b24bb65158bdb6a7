import Sepol.CilOrdered

/-!
# Verifying a merged list

`cil_verify_completed_ordered_list` ends, and it accepts a list exactly when for each item some statement has the same
item before it, or also begins with it, and some statement has the same item after it, or also ends with it.
-/

namespace Sepol

variable {α : Type} {orderedLists : List (CilOrdered α)}

/-- In some statement `c` comes after `prev`. -/
def PrevIn (orderedLists : List (CilOrdered α)) (prev : Option α) (c : α) : Prop :=
  ∃ o ∈ orderedLists, ∃ a b, o.datums = a ++ c :: b ∧ a.getLast? = prev

/-- In some statement `next` comes after `c`. -/
def NextIn (orderedLists : List (CilOrdered α)) (c : α) (next : Option α) : Prop :=
  ∃ o ∈ orderedLists, ∃ a b, o.datums = a ++ c :: b ∧ b.head? = next

/-- What comes before and after each item of a list that follows `prev` also does in some statement. -/
def OrderChecked (orderedLists : List (CilOrdered α)) : Option α → List α → Prop
  | _, [] => True
  | prev, c :: rest =>
    PrevIn orderedLists prev c ∧ NextIn orderedLists c rest.head? ∧ OrderChecked orderedLists (some c) rest

namespace OrderedVerify

/-- What the flags say of the item the check is at. -/
structure FlagsOk (orderedLists : List (CilOrdered α)) (v : OrderedVerify α) : Prop where
  notBoth : ¬(v.foundPrev = true ∧ v.foundNext = true)
  prev : ∀ c cs, v.rest = c :: cs → v.foundPrev = true → PrevIn orderedLists v.prev c
  next : ∀ c cs, v.rest = c :: cs → v.foundNext = true → NextIn orderedLists c cs.head?

/-- How much the check still has to find. -/
def todo (v : OrderedVerify α) : Nat :=
  3 * v.rest.length + (if v.foundPrev then 0 else 1) + (if v.foundNext then 0 else 1)

variable [DecidableEq α]

/-! ### One item of a statement -/

/-- One item changes nothing, or it finds what comes before or after the item the check is at. -/
private theorem item_cases (v : OrderedVerify α) (oprev : Option α) (ocurr : α) (onext : Option α)
    (hboth : ¬(v.foundPrev = true ∧ v.foundNext = true)) :
    (v.item oprev ocurr onext = v ∧ ∀ cs, v.rest = ocurr :: cs →
      (v.prev = oprev → v.foundPrev = true) ∧ (cs.head? = onext → v.foundNext = true)) ∨
    ∃ cs, v.rest = ocurr :: cs ∧ (v.item oprev ocurr onext).change = true ∧
      ((v.prev = oprev ∨ v.foundPrev = true) ∧ (cs.head? = onext ∨ v.foundNext = true) ∧
          v.item oprev ocurr onext = ⟨some ocurr, cs, false, false, true⟩ ∨
        v.prev = oprev ∧ v.foundPrev = false ∧ v.foundNext = false ∧
          v.item oprev ocurr onext = ⟨v.prev, v.rest, true, false, true⟩ ∨
        cs.head? = onext ∧ v.foundPrev = false ∧ v.foundNext = false ∧
          v.item oprev ocurr onext = ⟨v.prev, v.rest, false, true, true⟩) := by
  obtain ⟨prev, rest, foundPrev, foundNext, change⟩ := v
  cases rest with
  | nil => exact Or.inl ⟨rfl, fun cs h => by cases h⟩
  | cons c cs =>
    unfold OrderedVerify.item
    dsimp only
    by_cases hc : c = ocurr
    · subst hc
      rw [if_pos rfl]
      by_cases hp : prev = oprev <;> by_cases hn : cs.head? = onext <;> cases foundPrev <;> cases foundNext <;>
        simp_all
    · rw [if_neg hc]
      exact Or.inl ⟨rfl, fun cs' h => absurd (List.cons.inj h).1 hc⟩

/-- A step of the check: it stays right about its flags and about what is left, and finds something if it changes. -/
structure StepOk (orderedLists : List (CilOrdered α)) (v v' : OrderedVerify α) : Prop where
  flags : v'.FlagsOk orderedLists
  checked : OrderChecked orderedLists v'.prev v'.rest ↔ OrderChecked orderedLists v.prev v.rest
  todo : v'.todo ≤ v.todo
  change : v'.change = true → v.change = true ∨ v'.todo < v.todo

omit [DecidableEq α] in
private theorem StepOk.trans {v₁ v₂ v₃ : OrderedVerify α} (h : StepOk orderedLists v₁ v₂)
    (h' : StepOk orderedLists v₂ v₃) : StepOk orderedLists v₁ v₃ := by
  refine ⟨h'.flags, h'.checked.trans h.checked, h'.todo.trans h.todo, fun hc => ?_⟩
  have h1 := h.todo
  have h2 := h'.todo
  rcases h'.change hc with h3 | h3
  · rcases h.change h3 with h4 | h4
    · exact Or.inl h4
    · exact Or.inr (by omega)
  · exact Or.inr (by omega)

private theorem item_step {v : OrderedVerify α} (hv : v.FlagsOk orderedLists) {o : CilOrdered α}
    (ho : o ∈ orderedLists) {front datums : List α} {ocurr : α} (hd : o.datums = front ++ ocurr :: datums) :
    StepOk orderedLists v (v.item front.getLast? ocurr datums.head?) := by
  have hprev : ∀ {cs}, v.rest = ocurr :: cs → (v.prev = front.getLast? ∨ v.foundPrev = true) →
      PrevIn orderedLists v.prev ocurr := by
    rintro cs hcs (h | h)
    · exact ⟨o, ho, front, datums, hd, h.symm⟩
    · exact hv.prev _ _ hcs h
  have hnext : ∀ {cs}, v.rest = ocurr :: cs → (cs.head? = datums.head? ∨ v.foundNext = true) →
      NextIn orderedLists ocurr cs.head? := by
    rintro cs hcs (h | h)
    · exact ⟨o, ho, front, datums, hd, h.symm⟩
    · exact hv.next _ _ hcs h
  rcases item_cases v front.getLast? ocurr datums.head? hv.notBoth with ⟨heq, -⟩ | ⟨cs, hcs, -, h⟩
  · rw [heq]
    exact ⟨hv, Iff.rfl, le_refl _, Or.inl⟩
  rcases h with ⟨hp, hn, heq⟩ | ⟨hp, hfp, hfn, heq⟩ | ⟨hn, hfp, hfn, heq⟩
  · rw [heq]
    refine ⟨⟨by simp, fun _ _ _ h => ?_, fun _ _ _ h => ?_⟩, ?_, ?_, fun _ => Or.inr ?_⟩
    · cases h
    · cases h
    · rw [hcs]
      exact ⟨fun h => ⟨hprev hcs hp, hnext hcs hn, h⟩, fun h => h.2.2⟩
    all_goals
      unfold OrderedVerify.todo
      rw [hcs]
      simp
      omega
  · rw [heq]
    refine ⟨⟨by simp, fun c cs' h _ => ?_, fun _ _ _ h => ?_⟩, Iff.rfl, ?_, fun _ => Or.inr ?_⟩
    · obtain ⟨rfl, rfl⟩ := List.cons.inj (hcs.symm.trans h)
      exact hprev hcs (Or.inl hp)
    · cases h
    all_goals
      unfold OrderedVerify.todo
      simp [hfp, hfn]
  · rw [heq]
    refine ⟨⟨by simp, fun _ _ _ h => ?_, fun c cs' h _ => ?_⟩, Iff.rfl, ?_, fun _ => Or.inr ?_⟩
    · cases h
    · obtain ⟨rfl, rfl⟩ := List.cons.inj (hcs.symm.trans h)
      exact hnext hcs (Or.inl hn)
    all_goals
      unfold OrderedVerify.todo
      simp [hfp, hfn]

/-! ### One pass -/

private theorem items_step {v : OrderedVerify α} (hv : v.FlagsOk orderedLists) {o : CilOrdered α}
    (ho : o ∈ orderedLists) {front datums : List α} (hd : o.datums = front ++ datums) :
    StepOk orderedLists v (v.items front.getLast? datums) := by
  induction datums generalizing v front with
  | nil => exact ⟨hv, Iff.rfl, le_refl _, Or.inl⟩
  | cons ocurr datums ih =>
    have h := item_step hv ho hd
    have h' := ih h.flags (show o.datums = (front ++ [ocurr]) ++ datums by simpa using hd)
    rw [List.getLast?_concat] at h'
    exact h.trans h'

private theorem pass_step {v : OrderedVerify α} (hv : v.FlagsOk orderedLists) {os : List (CilOrdered α)}
    (hos : os ⊆ orderedLists) : StepOk orderedLists v (os.foldl (fun v o => v.items none o.datums) v) := by
  induction os generalizing v with
  | nil => exact ⟨hv, Iff.rfl, le_refl _, Or.inl⟩
  | cons o os ih =>
    have h := items_step hv (hos List.mem_cons_self) (show o.datums = [] ++ o.datums from rfl)
    exact h.trans (ih h.flags fun o' ho' => hos (List.mem_cons_of_mem _ ho'))

/-- A pass without a change has met every place of the item the check is at, and none had what was still to find. -/
def Quiet (v : OrderedVerify α) (datums : List α) (n : Nat) : Prop :=
  ∀ c cs a b, v.rest = c :: cs → datums = a ++ c :: b → n ≤ a.length →
    (v.prev = a.getLast? → v.foundPrev = true) ∧ (cs.head? = b.head? → v.foundNext = true)

private theorem items_change {v : OrderedVerify α} (h : v.change = true) (oprev : Option α) (datums : List α) :
    (v.items oprev datums).change = true := by
  induction datums generalizing v oprev with
  | nil => exact h
  | cons ocurr datums ih =>
    refine ih ?_ _
    unfold OrderedVerify.item
    cases v.rest with
    | nil => exact h
    | cons c cs =>
      dsimp only
      split_ifs <;> simp [h]

private theorem items_quiet {v : OrderedVerify α} (hboth : ¬(v.foundPrev = true ∧ v.foundNext = true))
    {front datums : List α} :
    v.items front.getLast? datums = v ∧ v.Quiet (front ++ datums) front.length ∨
      (v.items front.getLast? datums).change = true := by
  induction datums generalizing front with
  | nil =>
    refine Or.inl ⟨rfl, fun c cs a b _ he hn => ?_⟩
    have := congrArg List.length he
    simp at this
    omega
  | cons ocurr datums ih =>
    unfold OrderedVerify.items
    rcases item_cases v front.getLast? ocurr datums.head? hboth with ⟨heq, hquiet⟩ | ⟨cs, hcs, hchange, -⟩
    · rw [heq]
      have h' := @ih (front ++ [ocurr])
      rw [List.getLast?_concat, List.append_assoc, List.singleton_append, List.length_append] at h'
      refine h'.imp_left fun h => ⟨h.1, fun c cs a b hcs he hn => ?_⟩
      by_cases hlen : front.length = a.length
      · obtain ⟨rfl, htail⟩ := List.append_inj he hlen
        obtain ⟨rfl, rfl⟩ := List.cons.inj htail
        exact hquiet cs hcs
      · exact h.2 c cs a b hcs he (by simp; omega)
    · exact Or.inr (items_change hchange _ _)

private theorem pass_change {v : OrderedVerify α} (h : v.change = true) (os : List (CilOrdered α)) :
    (os.foldl (fun v o => v.items none o.datums) v).change = true := by
  induction os generalizing v with
  | nil => exact h
  | cons o os ih => exact ih (items_change h none o.datums)

private theorem pass_quiet {v : OrderedVerify α} (hboth : ¬(v.foundPrev = true ∧ v.foundNext = true))
    (os : List (CilOrdered α)) :
    os.foldl (fun v o => v.items none o.datums) v = v ∧ (∀ o ∈ os, v.Quiet o.datums 0) ∨
      (os.foldl (fun v o => v.items none o.datums) v).change = true := by
  induction os with
  | nil => exact Or.inl ⟨rfl, fun o ho => by cases ho⟩
  | cons o os ih =>
    rw [List.foldl_cons]
    rcases @items_quiet α _ v hboth [] o.datums with ⟨heq, hquiet⟩ | hchange
    · rw [List.getLast?_nil] at heq
      rw [heq]
      refine ih.imp_left fun h => ⟨h.1, fun o' ho' => ?_⟩
      rcases List.mem_cons.1 ho' with rfl | ho'
      · exact hquiet
      · exact h.2 o' ho'
    · exact Or.inr (pass_change hchange os)

omit [DecidableEq α] in
private theorem not_checked_of_quiet {v : OrderedVerify α} (hv : v.FlagsOk orderedLists)
    (hquiet : ∀ o ∈ orderedLists, v.Quiet o.datums 0) {c : α} {cs : List α} (hrest : v.rest = c :: cs) :
    ¬OrderChecked orderedLists v.prev v.rest := by
  rw [hrest]
  rintro ⟨⟨o, ho, a, b, he, hp⟩, ⟨o', ho', a', b', he', hn⟩, -⟩
  exact hv.notBoth ⟨(hquiet o ho c cs a b hrest he (Nat.zero_le _)).1 hp.symm,
    (hquiet o' ho' c cs a' b' hrest he' (Nat.zero_le _)).2 hn.symm⟩

end OrderedVerify

/-! ### All rounds -/

variable [DecidableEq α]

private theorem cilVerifyRounds_spec {v : OrderedVerify α} (hv : v.FlagsOk orderedLists) {fuel : Nat}
    (hfuel : v.todo < fuel) (rc : Bool) :
    ∃ r, cilVerifyRounds orderedLists fuel v rc = some r ∧
      (r = true ↔ rc = true ∧ OrderChecked orderedLists v.prev v.rest) := by
  induction fuel generalizing v rc with
  | zero => omega
  | succ fuel ih =>
    unfold cilVerifyRounds
    cases hrest : v.rest with
    | nil =>
      rw [if_pos rfl]
      exact ⟨rc, rfl, by simp [OrderChecked]⟩
    | cons c cs =>
      rw [if_neg (List.cons_ne_nil c cs), ← hrest]
      have hv' : OrderedVerify.FlagsOk orderedLists { v with change := false } := ⟨hv.notBoth, hv.prev, hv.next⟩
      have hstep := OrderedVerify.pass_step hv' (List.Subset.refl orderedLists)
      have hquiet := OrderedVerify.pass_quiet hv'.notBoth orderedLists
      dsimp only [OrderedVerify.pass]
      generalize orderedLists.foldl (fun v o => v.items none o.datums) { v with change := false } = v' at *
      by_cases hchange : v'.change = true
      · have hless : v'.todo < v.todo := (hstep.change hchange).resolve_left (fun h => by cases h)
        obtain ⟨r, hr, hiff⟩ := ih hstep.flags (by omega) rc
        rw [if_pos hchange]
        exact ⟨r, hr, hiff.trans (and_congr_right fun _ => hstep.checked)⟩
      · obtain ⟨rfl, hq⟩ := hquiet.resolve_right hchange
        have hnot := OrderedVerify.not_checked_of_quiet hv' hq hrest
        have htodo :
            OrderedVerify.todo (⟨v.rest.head?, v.rest.tail, false, false, false⟩ : OrderedVerify α) < fuel := by
          unfold OrderedVerify.todo at hfuel ⊢
          rw [hrest] at hfuel ⊢
          simp only [List.tail_cons, List.length_cons] at hfuel ⊢
          simp
          omega
        obtain ⟨r, hr, hiff⟩ := ih (v := ⟨v.rest.head?, v.rest.tail, false, false, false⟩)
          ⟨by simp, fun _ _ _ h => (by cases h), fun _ _ _ h => (by cases h)⟩ htodo false
        rw [if_neg hchange]
        refine ⟨r, hr, hiff.trans ⟨fun h => (by cases h.1), fun h => absurd h.2 hnot⟩⟩

/-- The check ends, and accepts exactly the lists whose items come as in the statements. -/
theorem cilVerifyCompletedOrderedList_iff (complete : List α) (orderedLists : List (CilOrdered α)) {fuel : Nat}
    (hfuel : 3 * complete.length + 2 < fuel) :
    ∃ r, cilVerifyCompletedOrderedList fuel complete orderedLists = some r ∧
      (r = true ↔ OrderChecked orderedLists none complete) := by
  have hv : OrderedVerify.FlagsOk orderedLists (⟨none, complete, false, false, false⟩ : OrderedVerify α) :=
    ⟨by simp, fun _ _ _ h => (by cases h), fun _ _ _ h => (by cases h)⟩
  have hfuel' : OrderedVerify.todo (⟨none, complete, false, false, false⟩ : OrderedVerify α) < fuel := by
    simpa [OrderedVerify.todo] using hfuel
  obtain ⟨r, hr, hiff⟩ := cilVerifyRounds_spec hv hfuel' true
  exact ⟨r, hr, hiff.trans (by simp)⟩

end Sepol
