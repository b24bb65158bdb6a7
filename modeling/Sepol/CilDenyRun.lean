import Sepol.CilDenyTree

/-!
# The run over all deny rules

While the matching rules of one deny rule are replaced, the only rules that still overlap it are the matching ones
that are left; at the end no rule does, and nothing else was lost.  From one deny rule the result carries over to a
list of them.
-/

namespace Sepol

open Outcome

/-- The rule is one of the allow rules of the search. -/
def CilAvrule.Allow (r : CilAvrule) : Prop := r.ruleKind = .allowed ∧ r.isExtended = false

/-- Some allow rule of the tree grants the permission. -/
def TreeGrants (n : Nat) (tree : List CilTreeNode) (s t : Nat) (x : CilClass × CilPerm) : Prop :=
  ∃ node ∈ cilTreeAvrules tree, node.2.Allow ∧ node.2.Grants n s t x

/-- The rules of the tree are told apart by their addresses, the next free one is above them, and their data are those
of the policy. -/
structure CilDenyState.Ok (n : Nat) (state : CilDenyState) : Prop where
  db : state.db.Ok n
  nodup : (cilAddresses state.tree).Nodup
  next : ∀ a ∈ cilAddresses state.tree, a < state.nextNode
  rules : ∀ node ∈ cilTreeAvrules state.tree, node.2.Ok n

/-- A state of a run that started with the names free, if `free` holds. -/
structure CilDenyState.OkIf (n : Nat) (free : Prop) (state : CilDenyState) : Prop extends
    CilDenyState.Ok n state where
  names : free → state.db.NamesFree

variable {free : Prop}

private theorem CilDenyState.OkIf.dbIf {n : Nat} {state : CilDenyState} (h : state.OkIf n free) :
    state.db.OkIf n free :=
  ⟨h.db, h.names⟩

/-! ### The search -/

private theorem cilFindMatchingAvrule_isSome {n : Nat} (hn : n < 2 ^ 31) {allow : CilAvrule} {deny : CilDenyRule}
    (hallow : allow.Ok n) (hdeny : deny.Ok n) : ∃ rc, cilFindMatchingAvrule allow deny.target = some rc := by
  rw [cilFindMatchingAvrule]
  split
  · exact ⟨_, rfl⟩
  · split
    · exact ⟨_, rfl⟩
    · split
      · exact ⟨_, rfl⟩
      · obtain ⟨rc, hrc⟩ := cilTargetsMatchAny_isSome hn hallow.1 hdeny.1 hallow.2 hdeny.2
        exact ⟨_, congrArg (Option.map _) hrc⟩

private theorem allow_of_cilFindMatchingAvrule {allow : CilAvrule} {deny : CilDenyRule}
    (h : cilFindMatchingAvrule allow deny.target = some true) : allow.Allow := by
  rw [cilFindMatchingAvrule] at h
  split at h
  · cases h
  · rename_i hkind
    split at h
    · cases h
    · rename_i hext
      exact ⟨not_not.1 hkind, not_not.1 hext⟩

private theorem cilFindMatchingAvrule_of_overlap {n : Nat} (hn : n < 2 ^ 31) {allow : CilAvrule} {deny : CilDenyRule}
    (hallow : allow.Ok n) (hdeny : deny.Ok n) (hkind : allow.Allow) {s t : Nat} {x : CilClass × CilPerm}
    (hg : allow.Grants n s t x) (hd : deny.Denies n s t x) : cilFindMatchingAvrule allow deny.target = some true := by
  have hsrc : cilTypeMatchAny allow.src deny.target.src = true :=
    cilTypeMatchAny_of_has hallow.1 hdeny.1 hg.1.1 hd.1.1
  have hk : ¬ allow.ruleKind ≠ deny.target.ruleKind := not_not.2 hkind.1
  have he : ¬ allow.isExtended ≠ deny.target.isExtended := not_not.2 hkind.2
  rw [cilFindMatchingAvrule, if_neg hk, if_neg he, if_neg (by simp [hsrc])]
  rw [show cilTargetsMatchAny allow.src allow.tgt deny.target.src deny.target.tgt = some true from
    cilTargetsMatchAny_of_pair hn hallow.1 hdeny.1 hallow.2 hdeny.2 hg.1 hd.1]
  rw [Option.map_some, Bool.true_and, findClasspermsListMatchAny_eq, Option.some_inj, classpermsMatchAny_iff]
  exact ⟨x, hg.2, hd.2⟩

private theorem cilFindMatchingAllowRules_spec {n : Nat} (hn : n < 2 ^ 31) {deny : CilDenyRule} (hdeny : deny.Ok n)
    (nodes : List (Nat × CilAvrule)) (hnodes : ∀ node ∈ nodes, node.2.Ok n) :
    cilFindMatchingAllowRules deny nodes =
      .ok (nodes.filter fun node => cilFindMatchingAvrule node.2 deny.target = some true) := by
  induction nodes with
  | nil => rfl
  | cons node rest ih =>
    obtain ⟨rc, hrc⟩ := cilFindMatchingAvrule_isSome hn (hnodes node (List.mem_cons_self ..)) hdeny
    rw [cilFindMatchingAllowRules, hrc, ih fun m hm => hnodes m (List.mem_cons_of_mem _ hm)]
    cases rc with
    | true => rw [List.filter_cons_of_pos (by simp [hrc])]; rfl
    | false => rw [List.filter_cons_of_neg (by simp [hrc])]; rfl

/-! ### One rule is replaced -/

/-- The new rules with their addresses. -/
def numberedRules : List CilAvrule → Nat → List (Nat × CilAvrule)
  | [], _ => []
  | rule :: rules, next => (next, rule) :: numberedRules rules (next + 1)

private theorem mem_numberedRules {rules : List CilAvrule} {node : Nat × CilAvrule} : ∀ next,
    node ∈ numberedRules rules next → node.2 ∈ rules ∧ next ≤ node.1 ∧ node.1 < next + rules.length := by
  induction rules with
  | nil => intro next h; cases h
  | cons rule rules ih =>
    intro next h
    rcases List.mem_cons.1 h with rfl | h
    · exact ⟨List.mem_cons_self .., le_rfl, by simp⟩
    · obtain ⟨h1, h2, h3⟩ := ih (next + 1) h
      refine ⟨List.mem_cons_of_mem _ h1, by omega, ?_⟩
      rw [List.length_cons]
      omega

private theorem exists_mem_numberedRules {rules : List CilAvrule} {rule : CilAvrule} (h : rule ∈ rules) : ∀ next,
    ∃ a, (a, rule) ∈ numberedRules rules next := by
  induction rules with
  | nil => cases h
  | cons r rules ih =>
    intro next
    rcases List.mem_cons.1 h with rfl | h
    · exact ⟨next, List.mem_cons_self ..⟩
    · obtain ⟨a, ha⟩ := ih h (next + 1)
      exact ⟨a, List.mem_cons_of_mem _ ha⟩

private theorem cilInsertRules_spec (rules : List CilAvrule) : ∀ (prev next : Nat) (tree : List CilTreeNode),
    (cilAddresses tree).Nodup → (∃ r, (prev, r) ∈ cilTreeAvrules tree) → (∀ a ∈ cilAddresses tree, a < next) →
      (cilTreeAvrules (cilInsertRules prev rules next tree)).Perm (numberedRules rules next ++ cilTreeAvrules tree) ∧
        (cilAddresses (cilInsertRules prev rules next tree)).Perm
          ((numberedRules rules next).map Prod.fst ++ cilAddresses tree) ∧
        (cilAddresses (cilInsertRules prev rules next tree)).Nodup := by
  induction rules with
  | nil =>
    intro prev next tree hnd _ _
    exact ⟨List.Perm.refl _, List.Perm.refl _, hnd⟩
  | cons rule rules ih =>
    intro prev next tree hnd hprev hnext
    obtain ⟨h1, h2⟩ := @cilTreeAvrules_insertNode prev next rule tree hnd hprev
    have hnd' : (cilAddresses (cilInsertNode prev (.avrule next rule) tree)).Nodup := by
      rw [h2.nodup_iff, List.nodup_cons]
      exact ⟨fun h => absurd (hnext next h) (lt_irrefl _), hnd⟩
    have hnext' : ∀ a ∈ cilAddresses (cilInsertNode prev (.avrule next rule) tree), a < next + 1 := by
      intro a ha
      rcases List.mem_cons.1 (h2.mem_iff.1 ha) with rfl | ha
      · omega
      · have := hnext a ha
        omega
    obtain ⟨h3, h4, h5⟩ := ih next (next + 1) _ hnd' ⟨rule, h1.mem_iff.2 (List.mem_cons_self ..)⟩ hnext'
    rw [cilInsertRules, numberedRules]
    refine ⟨h3.trans ((h1.append_left _).trans List.perm_middle), ?_, h5⟩
    rw [List.map_cons]
    exact h4.trans ((h2.append_left _).trans List.perm_middle)

private theorem map_fst_sublist_cilAddresses (tree : List CilTreeNode) :
    ((cilTreeAvrules tree).map Prod.fst).Sublist (cilAddresses tree) := by
  induction tree using CilTreeNode.listInduction with
  | nil => exact List.Sublist.refl _
  | avrule address rule rest ih => exact ih.cons_cons _
  | denyRule address rule rest ih => exact ih.trans (List.sublist_cons_self ..)
  | other skipHead children rest ihc ih =>
    rw [cilTreeAvrules_other, cilAddresses_other, List.map_append]
    refine List.Sublist.append ?_ ih
    cases skipHead with
    | true => exact List.nil_sublist _
    | false => exact ihc

/-- The rules of the tree after one of them was replaced: the new ones and the others. -/
private theorem replaceRule_spec {n : Nat} {state : CilDenyState} (hok : state.OkIf n free) {node : Nat × CilAvrule}
    (hnode : node ∈ cilTreeAvrules state.tree) {rules : List CilAvrule} {db : CilDb} (hdb : db.OkIf n free)
    (hrules : RulesOk n rules) :
    CilDenyState.OkIf n free ⟨db, cilTreeNodeRemove node.1 (cilInsertRules node.1 rules state.nextNode state.tree),
      state.nextNode + rules.length⟩ ∧
    ∃ others, (cilTreeAvrules state.tree).Perm (node :: others) ∧
      (cilTreeAvrules (cilTreeNodeRemove node.1 (cilInsertRules node.1 rules state.nextNode state.tree))).Perm
        (numberedRules rules state.nextNode ++ others) := by
  obtain ⟨h1, h2, h3⟩ := cilInsertRules_spec rules node.1 state.nextNode state.tree hok.nodup ⟨node.2, hnode⟩ hok.next
  have hmem : (node.1, node.2) ∈ cilTreeAvrules (cilInsertRules node.1 rules state.nextNode state.tree) :=
    h1.mem_iff.2 (List.mem_append_right _ hnode)
  have h4 := cilTreeAvrules_remove _ h3 hmem
  obtain ⟨l, r, hlr⟩ := List.append_of_mem hnode
  have hothers : (cilTreeAvrules state.tree).Perm (node :: (l ++ r)) := hlr ▸ List.perm_middle
  have hperm :
      (cilTreeAvrules (cilTreeNodeRemove node.1 (cilInsertRules node.1 rules state.nextNode state.tree))).Perm
      (numberedRules rules state.nextNode ++ (l ++ r)) := by
    refine List.Perm.cons_inv (h4.symm.trans (h1.trans ?_))
    exact (hothers.append_left _).trans List.perm_middle
  have hsub := @cilAddresses_remove_sublist node.1 (cilInsertRules node.1 rules state.nextNode state.tree)
  refine ⟨⟨⟨hdb.toOk, h3.sublist hsub, fun a ha => ?_, fun m hm => ?_⟩, hdb.names⟩, l ++ r, hothers, hperm⟩
  · change a < state.nextNode + rules.length
    rcases List.mem_append.1 (h2.mem_iff.1 (hsub.subset ha)) with ha | ha
    · obtain ⟨m, hm, rfl⟩ := List.mem_map.1 ha
      exact (mem_numberedRules _ hm).2.2
    · exact Nat.lt_add_right _ (hok.next a ha)
  · rcases List.mem_append.1 (hperm.mem_iff.1 hm) with hm | hm
    · exact (hrules _ (mem_numberedRules _ hm).1).1
    · exact hok.rules m (hothers.mem_iff.2 (List.mem_cons_of_mem _ hm))

/-- An address of the state before that is not that of a rule stays so. -/
def KeepsAddresses (state state' : CilDenyState) : Prop :=
  ∀ a, a < state.nextNode → (∀ r, (a, r) ∉ cilTreeAvrules state.tree) →
    a < state'.nextNode ∧ ∀ r, (a, r) ∉ cilTreeAvrules state'.tree

/-- While the matching rules of a deny rule are replaced: the rules of `rest` are left, and only they overlap the deny
rule; nothing is granted that was not granted at first, and only what is denied was taken away. -/
structure Replacing (n : Nat) (free : Prop) (deny : CilDenyRule) (first : CilDenyState)
    (rest : List (Nat × CilAvrule))
    (state : CilDenyState) : Prop where
  ok : state.OkIf n free
  left : ∀ node ∈ rest, node ∈ cilTreeAvrules state.tree ∧ cilFindMatchingAvrule node.2 deny.target = some true
  nodup : (rest.map Prod.fst).Nodup
  sound : ∀ s t x, TreeGrants n state.tree s t x → TreeGrants n first.tree s t x
  complete : ∀ s t x, TreeGrants n first.tree s t x → ¬ deny.Denies n s t x → TreeGrants n state.tree s t x
  overlap : ∀ node ∈ cilTreeAvrules state.tree, node.2.Allow → ∀ s t x, node.2.Grants n s t x → deny.Denies n s t x →
    node ∈ rest
  keeps : KeepsAddresses first state

private theorem cilReplaceAllowRule_spec {n : Nat} {deny : CilDenyRule} (hdeny : deny.Ok n) {first : CilDenyState}
    (node : Nat × CilAvrule) (rest : List (Nat × CilAvrule)) (state : CilDenyState)
    (h : Replacing n free deny first (node :: rest) state) :
    Ensures (DenyStops free) (Replacing n free deny first rest) (cilReplaceAllowRule deny state node) := by
  obtain ⟨hnode, hmatch⟩ := h.left node (List.mem_cons_self ..)
  have hallow := allow_of_cilFindMatchingAvrule hmatch
  refine (cilRemovePermissionsFromRule_spec h.ok.dbIf (h.ok.rules node hnode) hdeny hmatch).bind ?_
  rintro ⟨rules, db⟩ ⟨hdb, hrules, hgrant⟩
  obtain ⟨hok, others, hbefore, hafter⟩ := replaceRule_spec h.ok hnode hdb hrules
  have hnd := List.nodup_cons.1 h.nodup
  have haddr : ((node :: others).map Prod.fst).Nodup := by
    rw [← (hbefore.map Prod.fst).nodup_iff]
    exact h.ok.nodup.sublist (map_fst_sublist_cilAddresses _)
  have hne : ∀ m ∈ others, m.1 ≠ node.1 := by
    intro m hm heq
    exact (List.nodup_cons.1 haddr).1 (heq ▸ List.mem_map_of_mem hm)
  refine ⟨hok, fun m hm => ⟨?_, (h.left m (List.mem_cons_of_mem _ hm)).2⟩, hnd.2, fun s t x => ?_,
    fun s t x h0 hd => ?_,
    fun m hm hma s t x hg hd => ?_, fun a ha hn => ?_⟩
  · -- the rules that are left are other ones
    refine hafter.mem_iff.2 (List.mem_append_right _ ?_)
    rcases List.mem_cons.1 (hbefore.mem_iff.1 (h.left m (List.mem_cons_of_mem _ hm)).1) with rfl | hmo
    · exact absurd (List.mem_map_of_mem hm) hnd.1
    · exact hmo
  · rintro ⟨m, hm, hma, hg⟩
    refine h.sound s t x ?_
    rcases List.mem_append.1 (hafter.mem_iff.1 hm) with hm | hm
    · have := (hgrant s t x).1 ⟨m.2, (mem_numberedRules _ hm).1, hg⟩
      exact ⟨node, hnode, hallow, this.1⟩
    · exact ⟨m, hbefore.mem_iff.2 (List.mem_cons_of_mem _ hm), hma, hg⟩
  · obtain ⟨m, hm, hma, hg⟩ := h.complete s t x h0 hd
    rcases List.mem_cons.1 (hbefore.mem_iff.1 hm) with rfl | hm
    · obtain ⟨r, hr, hrg⟩ := (hgrant s t x).2 ⟨hg, hd⟩
      obtain ⟨a, ha⟩ := exists_mem_numberedRules hr state.nextNode
      exact ⟨(a, r), hafter.mem_iff.2 (List.mem_append_left _ ha), (hrules r hr).2, hrg⟩
    · exact ⟨m, hafter.mem_iff.2 (List.mem_append_right _ hm), hma, hg⟩
  · rcases List.mem_append.1 (hafter.mem_iff.1 hm) with hmn | hmo
    · exact absurd hd ((hgrant s t x).1 ⟨m.2, (mem_numberedRules _ hmn).1, hg⟩).2
    · have hold := h.overlap m (hbefore.mem_iff.2 (List.mem_cons_of_mem _ hmo)) hma s t x hg hd
      rcases List.mem_cons.1 hold with heq | hrest
      · exact absurd (congrArg Prod.fst heq) (hne m hmo)
      · exact hrest
  · obtain ⟨hlt, hnot⟩ := h.keeps a ha hn
    refine ⟨Nat.lt_add_right _ hlt, fun r hr => ?_⟩
    rcases List.mem_append.1 (hafter.mem_iff.1 hr) with hr | hr
    · exact absurd hlt (Nat.not_lt.2 (mem_numberedRules _ hr).2.1)
    · exact hnot r (hbefore.mem_iff.2 (List.mem_cons_of_mem _ hr))

/-- What the processing of some deny rules ensures: what is granted is what was granted and is not denied. -/
def Subtracts (n : Nat) (free : Prop) (denied : Nat → Nat → CilClass × CilPerm → Prop) (state state' : CilDenyState) :
    Prop :=
  state'.OkIf n free ∧ KeepsAddresses state state' ∧
    ∀ s t x, TreeGrants n state'.tree s t x ↔ TreeGrants n state.tree s t x ∧ ¬ denied s t x

private theorem cilProcessDenyRule_spec {n : Nat} {deny : CilDenyRule} (hdeny : deny.Ok n) {state : CilDenyState}
    (hok : state.OkIf n free) : Ensures (DenyStops free) (Subtracts n free (deny.Denies n) state)
    (cilProcessDenyRule state deny) := by
  have hn := hok.db.numTypes_lt
  rw [cilProcessDenyRule, cilFindMatchingAllowRules_spec hn hdeny _ hok.rules]
  -- at first every rule that overlaps is among those that were found
  have hfirst : Replacing n free deny state ((cilTreeAvrules state.tree).filter fun node =>
      cilFindMatchingAvrule node.2 deny.target = some true) state := by
    refine ⟨hok, fun node hnode => ?_, ?_, fun _ _ _ h => h, fun _ _ _ h _ => h, fun node hnode hma s t x hg hd => ?_,
      fun a ha h => ⟨ha, h⟩⟩
    · obtain ⟨h1, h2⟩ := List.mem_filter.1 hnode
      exact ⟨h1, by simpa using h2⟩
    · exact (hok.nodup.sublist (map_fst_sublist_cilAddresses _)).sublist (List.filter_sublist.map _)
    · refine List.mem_filter.2 ⟨hnode, ?_⟩
      exact decide_eq_true (cilFindMatchingAvrule_of_overlap hn (hok.rules node hnode) hdeny hma hg hd)
  refine (Ensures.foldlM (cilReplaceAllowRule_spec hdeny) _ _ hfirst).mono fun state' h => ?_
  refine ⟨h.ok, h.keeps, fun s t x => ⟨fun hg => ⟨h.sound s t x hg, fun hd => ?_⟩,
    fun hg => h.complete s t x hg.1 hg.2⟩⟩
  obtain ⟨node, hnode, hma, hg⟩ := hg
  cases h.overlap node hnode hma s t x hg hd

/-! ### All deny rules -/

/-- The node of a deny rule is no node of an allow rule. -/
private theorem denyRule_address {node : Nat × CilDenyRule} (tree : List CilTreeNode) : (cilAddresses tree).Nodup →
    node ∈ cilFindDenyRules tree → node.1 ∈ cilAddresses tree ∧ ∀ r, (node.1, r) ∉ cilTreeAvrules tree := by
  induction tree using CilTreeNode.listInduction with
  | nil => intro _ h; cases h
  | avrule address rule rest ih =>
    intro hnd h
    rw [cilAddresses_avrule, List.nodup_cons] at hnd
    obtain ⟨h1, h2⟩ := ih hnd.2 h
    refine ⟨List.mem_cons_of_mem _ h1, fun r hr => ?_⟩
    rcases List.mem_cons.1 hr with hr | hr
    · obtain ⟨rfl, -⟩ := Prod.mk.inj hr
      exact hnd.1 h1
    · exact h2 r hr
  | denyRule address rule rest ih =>
    intro hnd h
    rw [cilAddresses_denyRule, List.nodup_cons] at hnd
    rcases List.mem_cons.1 h with rfl | h
    · exact ⟨List.mem_cons_self .., fun r hr => hnd.1 (mem_cilAddresses_of_avrule rest hr)⟩
    · obtain ⟨h1, h2⟩ := ih hnd.2 h
      exact ⟨List.mem_cons_of_mem _ h1, h2⟩
  | other skipHead children rest ihc ih =>
    intro hnd h
    rw [cilAddresses_other, List.nodup_append'] at hnd
    obtain ⟨hndc, hndr, hdisj⟩ := hnd
    rw [cilAddresses_other, cilTreeAvrules_other]
    rcases List.mem_append.1 h with h | h
    · cases skipHead with
      | true => cases h
      | false =>
        obtain ⟨h1, h2⟩ := ihc hndc h
        refine ⟨List.mem_append_left _ h1, fun r hr => ?_⟩
        rcases List.mem_append.1 hr with hr | hr
        · exact h2 r hr
        · exact hdisj h1 (mem_cilAddresses_of_avrule rest hr)
    · obtain ⟨h1, h2⟩ := ih hndr h
      refine ⟨List.mem_append_right _ h1, fun r hr => ?_⟩
      rcases List.mem_append.1 hr with hr | hr
      · cases skipHead with
        | true => cases hr
        | false => exact hdisj (mem_cilAddresses_of_avrule children hr) h1
      · exact h2 r hr

private theorem cilProcessAndRemoveDenyRule_spec {n : Nat} {node : Nat × CilDenyRule} (hdeny : node.2.Ok n)
    {state : CilDenyState} (hok : state.OkIf n free)
    (hnode : node.1 < state.nextNode ∧ ∀ r, (node.1, r) ∉ cilTreeAvrules state.tree) :
    Ensures (DenyStops free) (Subtracts n free (node.2.Denies n) state) (cilProcessAndRemoveDenyRule state node) := by
  refine (cilProcessDenyRule_spec hdeny hok).bind ?_
  rintro state' ⟨hok', hkeep, hgrant⟩
  have hsame := cilTreeAvrules_removeDenyRule state'.tree (hkeep node.1 hnode.1 hnode.2).2
  have hsub := @cilAddresses_remove_sublist node.1 state'.tree
  refine ⟨⟨⟨hok'.db, hok'.nodup.sublist hsub, fun a ha => hok'.next a (hsub.subset ha), ?_⟩, hok'.names⟩, ?_,
    fun s t x => ?_⟩
  · change ∀ m ∈ cilTreeAvrules (cilTreeNodeRemove node.1 state'.tree), m.2.Ok n
    rw [hsame]
    exact hok'.rules
  · intro a ha hn
    change a < state'.nextNode ∧ ∀ r, (a, r) ∉ cilTreeAvrules (cilTreeNodeRemove node.1 state'.tree)
    rw [hsame]
    exact hkeep a ha hn
  · rw [← hgrant s t x]
    change (∃ m ∈ cilTreeAvrules (cilTreeNodeRemove node.1 state'.tree), _) ↔ _
    rw [hsame]
    rfl

theorem Subtracts.trans {n : Nat} {D D' : Nat → Nat → CilClass × CilPerm → Prop} {a b c : CilDenyState}
    (h : Subtracts n free D a b) (h' : Subtracts n free D' b c) :
    Subtracts n free (fun s t x => D s t x ∨ D' s t x) a c := by
  refine ⟨h'.1, fun i hi hn => ?_, fun s t x => ?_⟩
  · obtain ⟨h1, h2⟩ := h.2.1 i hi hn
    exact h'.2.1 i h1 h2
  · rw [h'.2.2, h.2.2, not_or, and_assoc]

private theorem cilProcessDenyRules_spec {n : Nat} (denyRules : List (Nat × CilDenyRule)) :
    ∀ state : CilDenyState, state.OkIf n free → (∀ node ∈ denyRules, node.2.Ok n ∧ node.1 < state.nextNode ∧
        ∀ r, (node.1, r) ∉ cilTreeAvrules state.tree) →
      Ensures (DenyStops free) (Subtracts n free (fun s t x => ∃ node ∈ denyRules, node.2.Denies n s t x) state)
        (cilProcessDenyRules state denyRules) := by
  induction denyRules with
  | nil =>
    intro state hok _
    exact ⟨hok, fun a ha h => ⟨ha, h⟩, fun s t x => by simp⟩
  | cons node rest ih =>
    intro state hok hdeny
    obtain ⟨hd, haddr⟩ := hdeny node (List.mem_cons_self ..)
    rw [cilProcessDenyRules, List.foldlM_cons]
    refine (cilProcessAndRemoveDenyRule_spec hd hok haddr).bind fun state' h' => ?_
    have hrest : ∀ m ∈ rest, m.2.Ok n ∧ m.1 < state'.nextNode ∧ ∀ r, (m.1, r) ∉ cilTreeAvrules state'.tree := by
      intro m hm
      obtain ⟨h1, h2, h3⟩ := hdeny m (List.mem_cons_of_mem _ hm)
      exact ⟨h1, h'.2.1 m.1 h2 h3⟩
    refine (ih state' h'.1 hrest).mono fun state'' h'' => ?_
    have htrans := h'.trans h''
    refine ⟨htrans.1, htrans.2.1, fun s t x => ?_⟩
    rw [htrans.2.2]
    simp

/-- All deny rules of the tree. -/
theorem cilProcessDenyRulesInAst_spec {n : Nat} {state : CilDenyState} (hok : state.OkIf n free)
    (hdeny : ∀ node ∈ cilFindDenyRules state.tree, node.2.Ok n) :
    Ensures (DenyStops free)
      (Subtracts n free (fun s t x => ∃ node ∈ cilFindDenyRules state.tree, node.2.Denies n s t x) state)
      (cilProcessDenyRulesInAst state) := by
  refine cilProcessDenyRules_spec (cilFindDenyRules state.tree) state hok fun node hnode => ?_
  obtain ⟨haddr, hnot⟩ := denyRule_address state.tree hok.nodup hnode
  exact ⟨hdeny node hnode, hok.next _ haddr, hnot⟩

end Sepol
