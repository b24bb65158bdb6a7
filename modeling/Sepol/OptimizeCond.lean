import Sepol.OptimizeRule

/-!
# Optimization of the unconditional rules

Every rule that is removed is covered by rules that are in the table at that time, and so is what is taken away from a
rule; so the rules of the table grant the same after every step.
-/

namespace Sepol

open Coverage (Covered Shrinks Granted)

variable {p : Policydb} {tab : Avtab} {x : AccessPoint} {a : AccessAtom} {i : Nat}

/-! ### Chains -/

/-- The nodes in the other chains of a table. -/
def otherNodes (tab : Avtab) (i : Nat) : Set AvtabNode := {n | ∃ j < tab.nslot, j ≠ i ∧ n ∈ tab.htable j}

private theorem mem_avtabNodes_setChain (hi : i < tab.nslot) (chain : List AvtabNode) (n : AvtabNode) :
    n ∈ avtabNodes (avtabSetChain tab i chain) ↔ n ∈ otherNodes tab i ∨ n ∈ chain := by
  simp only [avtabNodes, avtabSetChain, List.mem_flatMap, List.mem_range, otherNodes]
  constructor
  · rintro ⟨j, hj, hn⟩
    split at hn
    · exact Or.inr hn
    · exact Or.inl ⟨j, hj, ‹_›, hn⟩
  · rintro (⟨j, hj, hne, hn⟩ | hn)
    · exact ⟨j, hj, by rwa [if_neg hne]⟩
    · exact ⟨i, hi, by rwa [if_pos rfl]⟩

private theorem mem_of_avtabSearch {key : AvtabKey} {q : AvtabNode} (hbound : ∀ j, tab.nslot ≤ j → tab.htable j = [])
    (h : avtabSearch tab key = some q) : q ∈ avtabNodes tab := by
  rw [avtabSearch, avtabSearchNode, List.head?_eq_some_iff] at h
  obtain ⟨l, hl⟩ := h
  have hq := (SortedChain.mem_of_seekUntil hl).1
  refine List.mem_flatMap.2 ⟨_, List.mem_range.2 ?_, hq⟩
  by_contra hge
  rw [hbound _ (by omega)] at hq
  cases hq

/-- The nodes of a chain that is partly walked through, without the current one. -/
def restNodes (tab : Avtab) (i : Nat) (done next : List AvtabNode) : Set AvtabNode :=
  {n | n ∈ otherNodes tab i ∨ n ∈ done ∨ n ∈ next}

/-- What a step of the walk through a chain may do with the current rule. -/
private theorem optimizeChain_coverStep (hp : TypeMaps p) (hfit : TypesFit p) (hi : i < tab.nslot)
    (hbound : ∀ j, tab.nslot ≤ j → tab.htable j = []) {done next : List AvtabNode} {cur : AvtabNode}
    (hkeys : ∀ n ∈ restNodes tab i done next, KeyOk p n.key) (hcur : KeyOk p cur.key) :
    CoverStep p (restNodes tab i done next) cur (isAvruleRedundant cur
      (fun d key => avtabSearch (avtabSetChain tab i (done ++ { cur with datum := d } :: next)) key)
      (buildTypeMap p) true) := by
  refine isAvruleRedundant_coverStep hp hcur.single fun d st hst tt htt q hself hq => ?_
  have hmem := mem_of_avtabSearch (fun j hj => by
    have hne : j ≠ i := fun e => by
      subst e
      exact absurd hi (Nat.not_lt.2 hj)
    simp only [avtabSetChain, if_neg hne]
    exact hbound j hj) hq
  rw [mem_avtabNodes_setChain hi, List.mem_append, List.mem_cons] at hmem
  have hq' : q = { cur with datum := d } ∨ q ∈ restNodes tab i done next := by
    rcases hmem with h | h | h | h
    · exact Or.inr (Or.inl h)
    · exact Or.inr (Or.inr (Or.inl h))
    · exact Or.inl h
    · exact Or.inr (Or.inr (Or.inr h))
  have hsingle : SingleSpecifier q.key.specified := by
    rcases hq' with rfl | h
    · exact hcur.single
    · exact (hkeys q h).single
  obtain ⟨hcover, hs, ht⟩ := mayCover_of_search hp hfit hcur.single hst htt hq hsingle
  refine ⟨?_, hcover⟩
  rcases hq' with rfl | h
  · -- the rule itself is passed over
    exact absurd ⟨rfl, hs, ht⟩ hself
  · exact h

/-- A walk through a chain leaves a table that grants the same and has the same keys. -/
structure ChainStep (p : Policydb) (R : Set AvtabNode) (tab' : Avtab) : Prop where
  bound : ∀ j, tab'.nslot ≤ j → tab'.htable j = []
  keys : ∀ n ∈ avtabNodes tab', KeyOk p n.key
  granted : ∀ x a, RulesGrant p {n | n ∈ avtabNodes tab'} x a ↔ RulesGrant p R x a

private theorem insert_restNodes (tab : Avtab) (i : Nat) (done next : List AvtabNode) (cur : AvtabNode) :
    insert cur (restNodes tab i done next) = restNodes tab i done (cur :: next) := by
  ext n
  simp only [restNodes, Set.mem_insert_iff, Set.mem_ofPred_eq, List.mem_cons]
  tauto

private theorem optimizeChain_step (hp : TypeMaps p) (hfit : TypesFit p) (hi : i < tab.nslot)
    (hbound : ∀ j, tab.nslot ≤ j → tab.htable j = []) (done next : List AvtabNode)
    (hkeys : ∀ n ∈ restNodes tab i done next, KeyOk p n.key) :
    (optimizeChain i (buildTypeMap p) tab done next).nslot = tab.nslot ∧
      ChainStep p (restNodes tab i done next) (optimizeChain i (buildTypeMap p) tab done next) := by
  induction next generalizing tab done with
  | nil =>
    refine ⟨rfl, fun j hj => ?_, fun n hn => ?_, fun x a => ?_⟩
    · have hne : j ≠ i := fun e => by
        subst e
        exact absurd hi (Nat.not_lt.2 hj)
      simp only [optimizeChain, avtabSetChain, if_neg hne]
      exact hbound j hj
    · rw [optimizeChain, mem_avtabNodes_setChain hi] at hn
      exact hkeys n (hn.imp_right Or.inl)
    · have hset : {n | n ∈ avtabNodes (optimizeChain i (buildTypeMap p) tab done [])} = restNodes tab i done [] := by
        ext n
        simp only [optimizeChain, Set.mem_ofPred_eq, mem_avtabNodes_setChain hi, restNodes, List.not_mem_nil,
          or_false]
      rw [hset]
  | cons cur next ih =>
    have hcur : KeyOk p cur.key := hkeys cur (Or.inr (Or.inr (List.mem_cons_self ..)))
    have hrest : ∀ n ∈ restNodes tab i done next, KeyOk p n.key := fun n hn =>
      hkeys n (hn.imp_right fun h => h.imp_right (List.mem_cons_of_mem _))
    have hstep := optimizeChain_coverStep hp hfit hi hbound hrest hcur
    have hins := insert_restNodes tab i done next cur
    rw [optimizeChain]
    split
    · rename_i hr
      have hrest' : ∀ n ∈ restNodes { tab with nel := tab.nel - 1 } i done next, KeyOk p n.key := hrest
      obtain ⟨hslot, hb, hk, hg⟩ := @ih { tab with nel := tab.nel - 1 } hi hbound done hrest'
      refine ⟨hslot, hb, hk, fun x a => (hg x a).trans ?_⟩
      rw [← hins]
      exact (Coverage.granted_remove (hstep.1 hr)).symm
    · rename_i hr
      have hshrink := hstep.2 (Bool.eq_false_iff.2 hr)
      revert hshrink
      generalize (isAvruleRedundant cur _ (buildTypeMap p) true).2 = d
      intro hshrink
      have hmid : restNodes tab i (done ++ [{ cur with datum := d }]) next =
          insert { cur with datum := d } (restNodes tab i done next) := by
        ext n
        simp only [restNodes, Set.mem_insert_iff, Set.mem_ofPred_eq, List.mem_append, List.mem_singleton]
        tauto
      have hkeys' : ∀ n ∈ restNodes tab i (done ++ [{ cur with datum := d }]) next, KeyOk p n.key := fun n hn => by
        rw [hmid] at hn
        rcases hn with rfl | hn
        · exact hcur
        · exact hrest n hn
      obtain ⟨hslot, hb, hk, hg⟩ := ih hi hbound _ hkeys'
      refine ⟨hslot, hb, hk, fun x a => (hg x a).trans ?_⟩
      rw [hmid, ← hins]
      exact (Coverage.granted_shrink hshrink).symm

/-- The unconditional rules grant the same after the optimization. -/
theorem optimizeAvtab_step (hp : TypeMaps p) (hfit : TypesFit p)
    (hbound : ∀ j, tab.nslot ≤ j → tab.htable j = []) (hkeys : ∀ n ∈ avtabNodes tab, KeyOk p n.key) :
    ChainStep p {n | n ∈ avtabNodes tab} (optimizeAvtab tab (buildTypeMap p)) := by
  have hfold : ∀ (l : List Nat) (tab' : Avtab), (∀ i ∈ l, i < tab'.nslot) →
      ChainStep p {n | n ∈ avtabNodes tab} tab' →
      ChainStep p {n | n ∈ avtabNodes tab}
        (l.foldl (fun tab i => optimizeChain i (buildTypeMap p) tab [] (tab.htable i)) tab') := by
    intro l
    induction l with
    | nil => exact fun _ _ h => h
    | cons i l ih =>
      intro tab' hl h
      have hi := hl i (List.mem_cons_self ..)
      have hall : restNodes tab' i [] (tab'.htable i) = {n | n ∈ avtabNodes tab'} := by
        ext n
        simp only [restNodes, otherNodes, avtabNodes, Set.mem_ofPred_eq, List.mem_flatMap, List.mem_range,
          List.not_mem_nil, false_or]
        constructor
        · rintro (⟨j, hj, _, hn⟩ | hn)
          · exact ⟨j, hj, hn⟩
          · exact ⟨i, hi, hn⟩
        · rintro ⟨j, hj, hn⟩
          by_cases hji : j = i
          · exact Or.inr (hji ▸ hn)
          · exact Or.inl ⟨j, hj, hji, hn⟩
      obtain ⟨hslot, hstep⟩ := optimizeChain_step hp hfit hi h.bound [] (tab'.htable i) (fun n hn => by
        rw [hall] at hn
        exact h.keys n hn)
      rw [hall] at hstep
      rw [List.foldl_cons]
      refine ih _ (fun j hj => by rw [hslot]; exact hl j (List.mem_cons_of_mem _ hj)) ?_
      exact ⟨hstep.bound, hstep.keys, fun x a => (hstep.granted x a).trans (h.granted x a)⟩
  exact hfold _ tab (fun i hi => List.mem_range.1 hi) ⟨hbound, hkeys, fun _ _ => Iff.rfl⟩

end Sepol

/-!
## Optimization of a list of a conditional

Together with the unconditional rules, a list grants the same after every step: a rule that is put into `del` is
covered by unconditional rules and by rules of the list, and the rules of other lists stay as they are.
-/

namespace Sepol

open Coverage (Covered Shrinks Granted)

variable {p : Policydb} {te tab tab' : Avtab} {x : AccessPoint} {a : AccessAtom} {list done rest del : List Nat}

/-! ### Nodes by address -/

private theorem avtabNodeAt_setDatum (tab : Avtab) (addr : Nat) (d : AvtabDatum) (b : Nat) :
    avtabNodeAt (avtabSetDatum tab addr d) b =
      (avtabNodeAt tab b).map fun n => if b = addr then { n with datum := d } else n := by
  have hnodes : avtabNodes (avtabSetDatum tab addr d) =
      (avtabNodes tab).map fun n => if n.addr = addr then { n with datum := d } else n := by
    rw [avtabNodes, avtabNodes, List.map_flatMap]
    rfl
  have haddr : (fun n : AvtabNode => decide ((if n.addr = addr then { n with datum := d } else n).addr = b)) =
      fun n => decide (n.addr = b) := by
    funext n
    split <;> rfl
  rw [avtabNodeAt, hnodes, List.find?_map]
  change ((avtabNodes tab).find? fun n : AvtabNode =>
    decide ((if n.addr = addr then { n with datum := d } else n).addr = b)).map _ = _
  rw [haddr]
  change (avtabNodeAt tab b).map _ = _
  refine Option.map_congr fun n hn => ?_
  have hb : n.addr = b := by simpa using List.find?_some hn
  rw [hb]

/-- The rules of a list. -/
def listRules (tab : Avtab) (list : List Nat) : Set AvtabNode := {n | ∃ addr ∈ list, avtabNodeAt tab addr = some n}

theorem listRules_congr (h : ∀ addr ∈ list, avtabNodeAt tab' addr = avtabNodeAt tab addr) :
    listRules tab' list = listRules tab list := by
  ext n
  exact exists_congr fun addr => and_congr_right fun ha => by rw [h addr ha]

theorem listRules_perm {list' : List Nat} (h : list'.Perm list) : listRules tab list' = listRules tab list := by
  ext n
  exact exists_congr fun addr => and_congr_left fun _ => h.mem_iff

private theorem listRules_insert {addr : Nat} {n : AvtabNode} (h : avtabNodeAt tab addr = some n)
    (done rest : List Nat) : listRules tab (done ++ addr :: rest) = insert n (listRules tab (done ++ rest)) := by
  ext m
  simp only [listRules, Set.mem_insert_iff, Set.mem_ofPred_eq, List.mem_append, List.mem_cons]
  constructor
  · rintro ⟨b, hb | rfl | hb, hm⟩
    · exact Or.inr ⟨b, Or.inl hb, hm⟩
    · exact Or.inl (Option.some.inj (hm.symm.trans h))
    · exact Or.inr ⟨b, Or.inr hb, hm⟩
  · rintro (rfl | ⟨b, hb, hm⟩)
    · exact ⟨addr, Or.inr (Or.inl rfl), h⟩
    · exact ⟨b, hb.imp_right Or.inr, hm⟩

/-! ### A list of a conditional -/

/-- The addresses of a list are those of rules with good keys. -/
def AddrsOk (p : Policydb) (tab : Avtab) (list : List Nat) : Prop :=
  ∀ addr ∈ list, ∃ n, avtabNodeAt tab addr = some n ∧ KeyOk p n.key

/-- The unconditional rules. -/
def teRules (te : Avtab) : Set AvtabNode := {n | n ∈ avtabNodes te}

/-- The table of the unconditional rules. -/
structure TableOk (p : Policydb) (te : Avtab) : Prop where
  bound : ∀ j, te.nslot ≤ j → te.htable j = []
  keys : ∀ n ∈ avtabNodes te, KeyOk p n.key

/-- What the optimization of a list may do: it moves rules to `del`, leaves the keys and the rules of other lists as
they are, and what the rules of the list grant with the unconditional ones stays the same. -/
structure ListStep (p : Policydb) (te : Avtab) (list del : List Nat) (tab : Avtab) (r : List Nat × List Nat × Avtab) :
    Prop where
  perm : (r.1 ++ r.2.1).Perm (list ++ del)
  sub : r.1 ⊆ list
  frame : ∀ b, b ∉ list → avtabNodeAt r.2.2 b = avtabNodeAt tab b
  keys : ∀ b, (avtabNodeAt r.2.2 b).map AvtabNode.key = (avtabNodeAt tab b).map AvtabNode.key
  granted : ∀ x a, RulesGrant p (teRules te ∪ listRules r.2.2 r.1) x a ↔
    RulesGrant p (teRules te ∪ listRules tab list) x a

theorem AddrsOk.of_keys (h : AddrsOk p tab list)
    (hkeys : ∀ b, (avtabNodeAt tab' b).map AvtabNode.key = (avtabNodeAt tab b).map AvtabNode.key) :
    AddrsOk p tab' list := fun addr ha => by
  obtain ⟨n, hn, hk⟩ := h addr ha
  have hkey := hkeys addr
  rw [hn, Option.map_some] at hkey
  obtain ⟨n', hn', hk'⟩ := Option.map_eq_some_iff.1 hkey
  exact ⟨n', hn', hk' ▸ hk⟩

theorem AddrsOk.subset {list' : List Nat} (h : AddrsOk p tab list) (hsub : list' ⊆ list) : AddrsOk p tab list' :=
  fun addr ha => h addr (hsub ha)

private theorem coverStep_te (hp : TypeMaps p) (hfit : TypesFit p) (hte : TableOk p te) {node : AvtabNode}
    (hnode : KeyOk p node.key) :
    CoverStep p (teRules te) node (isAvruleRedundant node (fun _ key => avtabSearch te key)
      (buildTypeMap p) false) := by
  refine isAvruleRedundant_coverStep hp hnode.single fun _ st hst tt htt q _ hq => ?_
  have hmem := mem_of_avtabSearch hte.bound hq
  exact ⟨hmem, (mayCover_of_search hp hfit hnode.single hst htt hq (hte.keys q hmem).single).1⟩

private theorem coverStep_list (hp : TypeMaps p) {addr : Nat} {node : AvtabNode} (d : AvtabDatum)
    (hnode : avtabNodeAt tab addr = some node) (hok : AddrsOk p tab (done ++ addr :: rest)) (hkey : KeyOk p node.key)
    (hsub : list ⊆ done ++ addr :: rest) :
    ∃ r, isCondRuleRedundant { node with datum := d } list tab (buildTypeMap p) = some r ∧
      CoverStep p (listRules tab (done ++ rest)) { node with datum := d } r := by
  refine @isCondRuleRedundant_coverStep p { node with datum := d } hp hkey.single _ tab list fun b hb => ?_
  obtain ⟨q, hq, _⟩ := hok b (hsub hb)
  refine ⟨q, hq, fun hne => ⟨b, ?_, hq⟩⟩
  have hba : b ≠ addr := fun e => by
    subst e
    obtain rfl := Option.some.inj (hq.symm.trans hnode)
    exact hne ⟨rfl, rfl⟩
  have := hsub hb
  simp only [List.mem_append, List.mem_cons] at this ⊢
  tauto

/-- The part of the list that is searched for covering rules is a part of the list that is left. -/
private theorem covering_subset {pcov : List Nat} {pcovCur : Option Nat} {addr : Nat}
    (hpcov : pcovCur = none → pcov <:+ addr :: rest) :
    pcovList pcov (if pcov.head? = some addr then some done.length else pcovCur) (done ++ addr :: rest) ⊆
        done ++ addr :: rest ∧
      ((if pcov.head? = some addr then some done.length else pcovCur) = none → pcov <:+ rest) := by
  have hdrop : ∀ k, (done ++ addr :: rest).drop k ⊆ done ++ addr :: rest := fun k => List.drop_subset ..
  unfold pcovList
  split
  · rename_i hnone
    split at hnone
    · cases hnone
    · rename_i hhead
      have hsuf := hpcov hnone
      refine ⟨fun b hb => List.mem_append_right _ (hsuf.subset hb), fun _ => ?_⟩
      rcases List.suffix_cons_iff.1 hsuf with rfl | h
      · exact absurd rfl hhead
      · exact h
  · rename_i k hk
    exact ⟨hdrop k, fun h => by rw [h] at hk; cases hk⟩

theorem optimizeCondLoop_step (hp : TypeMaps p) (hfit : TypesFit p) (hte : TableOk p te) (pcov : List Nat)
    (rest done del : List Nat) (pcovCur : Option Nat) (tab : Avtab) (hnodup : (done ++ rest).Nodup)
    (hok : AddrsOk p tab (done ++ rest)) (hpcov : pcovCur = none → pcov <:+ rest) :
    ∃ r, optimizeCondLoop te (buildTypeMap p) pcov done pcovCur rest del tab = some r ∧
      ListStep p te (done ++ rest) del tab r := by
  induction rest generalizing done del pcovCur tab with
  | nil =>
    refine ⟨_, rfl, ?_⟩
    rw [List.append_nil]
    exact ⟨List.Perm.refl _, List.Subset.refl _, fun _ _ => rfl, fun _ => rfl, fun _ _ => Iff.rfl⟩
  | cons addr rest ih =>
    obtain ⟨node, hnode, hkey⟩ := hok addr (by simp)
    obtain ⟨hsub, hpcov'⟩ := @covering_subset done rest pcov pcovCur addr hpcov
    have hperm := @List.perm_middle _ addr done rest
    have hnot : addr ∉ done ++ rest := (List.nodup_cons.1 (hperm.nodup_iff.1 hnodup)).1
    have hrest : (done ++ rest) ⊆ done ++ addr :: rest := fun b hb => by
      simp only [List.mem_append, List.mem_cons] at hb ⊢
      tauto
    -- changing the datum of the rule leaves the other rules of the list and all keys as they are
    have hset : ∀ (d : AvtabDatum) (b : Nat), b ≠ addr →
        avtabNodeAt (avtabSetDatum tab addr d) b = avtabNodeAt tab b := fun d b hb => by
      rw [avtabNodeAt_setDatum]
      simp [hb]
    have hkeys : ∀ (d : AvtabDatum) (b : Nat),
        (avtabNodeAt (avtabSetDatum tab addr d) b).map AvtabNode.key = (avtabNodeAt tab b).map AvtabNode.key :=
      fun d b => by
        rw [avtabNodeAt_setDatum, Option.map_map]
        refine Option.map_congr fun n _ => ?_
        simp only [Function.comp]
        split <;> rfl
    have hothers : ∀ d, listRules (avtabSetDatum tab addr d) (done ++ rest) = listRules tab (done ++ rest) := fun d =>
      listRules_congr fun b hb => hset d b fun e => hnot (e ▸ hb)
    have hinsert : teRules te ∪ listRules tab (done ++ addr :: rest) =
        insert node (teRules te ∪ listRules tab (done ++ rest)) := by
      rw [listRules_insert hnode, Set.union_insert]
    -- the case of a covered rule
    have hremove : ∀ d, RuleCovered p (teRules te ∪ listRules tab (done ++ rest)) node →
        ∃ r, optimizeCondLoop te (buildTypeMap p) pcov done
            (if pcov.head? = some addr then some done.length else pcovCur) rest (addr :: del)
            (avtabSetDatum tab addr d) = some r ∧ ListStep p te (done ++ addr :: rest) del tab r := fun d hcov => by
      obtain ⟨r, hr, hstep⟩ := ih done (addr :: del) _ (avtabSetDatum tab addr d)
        (List.nodup_cons.1 (hperm.nodup_iff.1 hnodup)).2 ((hok.subset hrest).of_keys (hkeys d)) hpcov'
      refine ⟨r, hr, ?_, fun b hb => hrest (hstep.sub hb), fun b hb => ?_, fun b => ?_, fun x a => ?_⟩
      · refine hstep.perm.trans ?_
        exact (List.perm_middle).trans (hperm.symm.append_right del)
      · rw [hstep.frame b fun h => hb (hrest h), hset d b fun e => hb (by simp [e])]
      · rw [hstep.keys b, hkeys d b]
      · rw [hstep.granted x a, hothers, hinsert]
        exact (Coverage.granted_remove hcov).symm
    rw [optimizeCondLoop, hnode]
    simp only [Option.bind_eq_bind, Option.bind_some]
    have hte1 := (coverStep_te hp hfit hte hkey).mono
      (@Set.subset_union_left _ (teRules te) (listRules tab (done ++ rest)))
    generalize isAvruleRedundant node (fun _ key => avtabSearch te key) (buildTypeMap p) false = r1 at hte1 ⊢
    split
    · exact hremove r1.2 (hte1.1 ‹_›)
    · rename_i hr1
      obtain ⟨r2, hr2, hlist⟩ := coverStep_list hp r1.2 hnode hok hkey hsub
      have hstep2 := hte1.trans (Bool.eq_false_iff.2 hr1) (hlist.mono Set.subset_union_right)
      rw [hr2]
      simp only [Option.bind_some]
      split
      · exact hremove r2.2 (hstep2.1 ‹_›)
      · rename_i hr2'
        have hshrink := hstep2.2 (Bool.eq_false_iff.2 hr2')
        have happ : done ++ addr :: rest = done ++ [addr] ++ rest := by simp
        obtain ⟨r, hr, hstep⟩ := ih (done ++ [addr]) del _ (avtabSetDatum tab addr r2.2)
          (happ ▸ hnodup) ((happ ▸ hok).of_keys (hkeys r2.2)) hpcov'
        rw [← happ] at hstep
        refine ⟨r, hr, hstep.perm, hstep.sub, fun b hb => ?_, fun b => ?_, fun x a => ?_⟩
        · rw [hstep.frame b hb, hset r2.2 b fun e => hb (by simp [e])]
        · rw [hstep.keys b, hkeys r2.2 b]
        · have hnode' : avtabNodeAt (avtabSetDatum tab addr r2.2) addr = some { node with datum := r2.2 } := by
            rw [avtabNodeAt_setDatum, hnode]
            simp
          rw [hstep.granted x a, hinsert, listRules_insert hnode', hothers, Set.union_insert]
          exact (Coverage.granted_shrink hshrink).symm

end Sepol
