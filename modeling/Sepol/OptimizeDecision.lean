import Sepol.OptimizeCond

/-!
# Optimization preserves decisions

The lists of the conditionals have no nodes in common, so what is done to one of them leaves the other ones as they
are, and the rules that are deleted from the table at the end are in no list.
-/

namespace Sepol

variable {p : Policydb} {te tab tab' : Avtab} {list del : List Nat} {conds : List CondNode}

/-! ### The two loops over a list -/

private theorem isAvruleWithAttr_isSome {n : AvtabNode} (h : KeyOk p n.key) : ∃ b, isAvruleWithAttr n p = some b := by
  have hattr : ∀ i, IsType p i ∨ IsAttr p i → ∃ b, isTypeAttr p i = some b := by
    rintro i (⟨d, hd, _⟩ | ⟨d, hd, _⟩)
    · exact ⟨_, by rw [isTypeAttr, hd, Option.map_some]⟩
    · exact ⟨_, by rw [isTypeAttr, hd, Option.map_some]⟩
  obtain ⟨b, hb⟩ := hattr _ h.source.2
  obtain ⟨c, hc⟩ := hattr _ h.target.2
  rw [isAvruleWithAttr, hb]
  cases b with
  | true => exact ⟨true, rfl⟩
  | false => exact ⟨c, hc⟩

private theorem separateCond_perm (hok : AddrsOk p tab list) (pcov : List Nat) :
    ∃ r, separateCond p tab list pcov = some r ∧ (r.1 ++ r.2).Perm (list ++ pcov) := by
  induction list generalizing pcov with
  | nil => exact ⟨_, rfl, List.Perm.refl _⟩
  | cons addr list ih =>
    have ih := ih fun b hb => hok b (List.mem_cons_of_mem _ hb)
    obtain ⟨n, hn, hkey⟩ := hok addr (List.mem_cons_self ..)
    obtain ⟨b, hb⟩ := isAvruleWithAttr_isSome hkey
    rw [separateCond, hn]
    simp only [Option.bind_eq_bind, Option.bind_some, hb]
    cases b with
    | true =>
      obtain ⟨r, hr, hperm⟩ := ih (addr :: pcov)
      exact ⟨r, by simpa using hr, hperm.trans List.perm_middle⟩
    | false =>
      obtain ⟨r, hr, hperm⟩ := ih pcov
      exact ⟨(addr :: r.1, r.2), by simp [hr], hperm.cons addr⟩

private theorem optimizeCondAvList_step (hp : TypeMaps p) (hfit : TypesFit p) (hte : TableOk p te)
    (hnodup : list.Nodup) (hok : AddrsOk p tab list) (del : List Nat) :
    ∃ r, optimizeCondAvList { p with teAvtab := te } (buildTypeMap p) list del tab = some r ∧
      ListStep p te list del tab r := by
  have hok' : AddrsOk { p with teAvtab := te } tab list := fun b hb => by
    obtain ⟨n, hn, hk⟩ := hok b hb
    exact ⟨n, hn, hk.single, hk.source, hk.target⟩
  obtain ⟨⟨plain, pcov⟩, hsep, hperm⟩ := separateCond_perm hok' []
  rw [List.append_nil] at hperm
  obtain ⟨r, hr, hstep⟩ := optimizeCondLoop_step hp hfit hte pcov (plain ++ pcov) [] del none tab
    (hperm.nodup_iff.2 hnodup) (hok.subset hperm.subset) fun _ => List.suffix_append ..
  refine ⟨r, ?_, ?_⟩
  · rw [optimizeCondAvList, hsep]
    exact hr
  · exact ⟨hstep.perm.trans (hperm.append_right del), fun b hb => hperm.subset (hstep.sub hb),
      fun b hb => hstep.frame b fun h => hb (hperm.subset h), hstep.keys, fun x a => by
        rw [hstep.granted x a, List.nil_append, listRules_perm hperm]⟩

/-! ### The conditionals -/

/-- The addresses in the lists of conditionals. -/
def condAddrs (conds : List CondNode) : List Nat := conds.flatMap fun cl => cl.trueList ++ cl.falseList

/-- The rules of the list that is active in a conditional. -/
def branchRules (tab : Avtab) (σ : List CondExpr → Option Bool) (cl : CondNode) : Set AvtabNode :=
  {n | ∃ b, σ cl.expr = some b ∧ n ∈ listRules tab (cl.branch b)}

/-- The rules of the lists that are active in conditionals. -/
def activeCond (tab : Avtab) (σ : List CondExpr → Option Bool) (conds : List CondNode) : Set AvtabNode :=
  {n | ∃ cl ∈ conds, n ∈ branchRules tab σ cl}

private theorem activeRules_eq (p : Policydb) (σ : List CondExpr → Option Bool) :
    activeRules p σ = teRules p.teAvtab ∪ activeCond p.teCondAvtab σ p.condList := rfl

private theorem activeCond_cons (tab : Avtab) (σ : List CondExpr → Option Bool) (cl : CondNode)
    (conds : List CondNode) : activeCond tab σ (cl :: conds) = branchRules tab σ cl ∪ activeCond tab σ conds := by
  ext n
  simp only [activeCond, Set.mem_union, Set.mem_ofPred_eq, List.mem_cons, exists_eq_or_imp]

private theorem branch_subset (cl : CondNode) (b : Bool) : cl.branch b ⊆ cl.trueList ++ cl.falseList := by
  cases b with
  | true => exact List.subset_append_left ..
  | false => exact List.subset_append_right ..

private theorem activeCond_congr (σ : List CondExpr → Option Bool)
    (h : ∀ addr ∈ condAddrs conds, avtabNodeAt tab' addr = avtabNodeAt tab addr) :
    activeCond tab' σ conds = activeCond tab σ conds := by
  ext n
  refine exists_congr fun cl => and_congr_right fun hcl => exists_congr fun b => and_congr_right fun _ => ?_
  rw [listRules_congr fun addr ha => h addr (List.mem_flatMap.2 ⟨cl, hcl, branch_subset cl b ha⟩)]

/-- What the optimization of conditionals may do: it moves rules to `del`, leaves the keys and the rules of other
lists as they are, and what the active rules grant with the unconditional ones stays the same. -/
structure CondStep (p : Policydb) (te : Avtab) (conds : List CondNode) (del : List Nat) (tab : Avtab)
    (r : List CondNode × List Nat × Avtab) : Prop where
  perm : (condAddrs r.1 ++ r.2.1).Perm (condAddrs conds ++ del)
  sub : condAddrs r.1 ⊆ condAddrs conds
  frame : ∀ b, b ∉ condAddrs conds → avtabNodeAt r.2.2 b = avtabNodeAt tab b
  granted : ∀ σ x a, RulesGrant p (teRules te ∪ activeCond r.2.2 σ r.1) x a ↔
    RulesGrant p (teRules te ∪ activeCond tab σ conds) x a

/-- The conditional with other lists, which is left out when both are empty. -/
def relinkCond (cl : CondNode) (trueList falseList : List Nat) (conds : List CondNode) : List CondNode :=
  if trueList.isEmpty && falseList.isEmpty then conds
  else { cl with trueList := trueList, falseList := falseList } :: conds

private theorem condAddrs_relinkCond (cl : CondNode) (trueList falseList : List Nat) :
    condAddrs (relinkCond cl trueList falseList conds) = trueList ++ falseList ++ condAddrs conds := by
  rw [relinkCond]
  split
  · rename_i h
    simp only [Bool.and_eq_true, List.isEmpty_iff] at h
    simp [h.1, h.2]
  · simp [condAddrs]

private theorem activeCond_relinkCond (tab : Avtab) (σ : List CondExpr → Option Bool) (cl : CondNode)
    (trueList falseList : List Nat) :
    activeCond tab σ (relinkCond cl trueList falseList conds) =
      branchRules tab σ { cl with trueList := trueList, falseList := falseList } ∪ activeCond tab σ conds := by
  rw [relinkCond]
  split
  · rename_i h
    simp only [Bool.and_eq_true, List.isEmpty_iff] at h
    have hempty : branchRules tab σ { cl with trueList := trueList, falseList := falseList } = ∅ := by
      refine Set.eq_empty_of_forall_notMem ?_
      rintro n ⟨b, _, addr, ha, _⟩
      have := branch_subset { cl with trueList := trueList, falseList := falseList } b ha
      simp [h.1, h.2] at this
    rw [hempty, Set.empty_union]
  · exact activeCond_cons ..

private theorem rulesGrant_union {R R' : Set AvtabNode} {x : AccessPoint} {a : AccessAtom} :
    RulesGrant p (R ∪ R') x a ↔ RulesGrant p R x a ∨ RulesGrant p R' x a := Coverage.granted_union

private theorem granted_union_congr {A A' B B' : Set AvtabNode} {x : AccessPoint} {a : AccessAtom}
    (hA : RulesGrant p (teRules te ∪ A) x a ↔ RulesGrant p (teRules te ∪ A') x a)
    (hB : RulesGrant p (teRules te ∪ B) x a ↔ RulesGrant p (teRules te ∪ B') x a) :
    RulesGrant p (teRules te ∪ (A ∪ B)) x a ↔ RulesGrant p (teRules te ∪ (A' ∪ B')) x a := by
  rw [Set.union_union_distrib_left _ A B, Set.union_union_distrib_left _ A' B']
  exact rulesGrant_union.trans ((or_congr hA hB).trans rulesGrant_union.symm)

private theorem optimizeCondList_step (hp : TypeMaps p) (hfit : TypesFit p) (hte : TableOk p te)
    (hnodup : (condAddrs conds).Nodup) (hok : AddrsOk p tab (condAddrs conds)) (del : List Nat) :
    ∃ r, optimizeCondList { p with teAvtab := te } (buildTypeMap p) conds del tab = some r ∧
      CondStep p te conds del tab r := by
  induction conds generalizing del tab with
  | nil => exact ⟨_, rfl, List.Perm.refl _, List.Subset.refl _, fun _ _ => rfl, fun _ _ _ => Iff.rfl⟩
  | cons cl conds ih =>
    have hcons : condAddrs (cl :: conds) = cl.trueList ++ (cl.falseList ++ condAddrs conds) := by simp [condAddrs]
    rw [hcons] at hnodup hok
    obtain ⟨hnodup1, hnodup23, hdisj1⟩ := List.nodup_append'.1 hnodup
    obtain ⟨hnodup2, hnodup3, hdisj2⟩ := List.nodup_append'.1 hnodup23
    have hok1 := hok.subset (List.subset_append_left ..)
    have hok23 := hok.subset (List.subset_append_right ..)
    -- the two lists of the conditional, and then the other conditionals
    obtain ⟨⟨l1, del1, tab1⟩, hr1, hs1⟩ := optimizeCondAvList_step hp hfit hte hnodup1 hok1 del
    have hok23 := hok23.of_keys hs1.keys
    obtain ⟨⟨l2, del2, tab2⟩, hr2, hs2⟩ := optimizeCondAvList_step hp hfit hte hnodup2
      (hok23.subset (List.subset_append_left ..)) del1
    have hok3 := (hok23.subset (List.subset_append_right ..)).of_keys hs2.keys
    obtain ⟨⟨l3, del3, tab3⟩, hr3, hs3⟩ := ih hnodup3 hok3 del2
    have hperm1 := hs1.perm
    have hperm2 := hs2.perm
    have hperm3 := hs3.perm
    have hsub1 := hs1.sub
    have hsub2 := hs2.sub
    have hframe1 := hs1.frame
    have hframe2 := hs2.frame
    have hframe3 := hs3.frame
    dsimp only at hperm1 hperm2 hperm3 hsub1 hsub2 hframe1 hframe2 hframe3
    refine ⟨(relinkCond cl l1 l2 l3, del3, tab3), ?_, ?_, ?_, ?_, ?_⟩
    · rw [optimizeCondList, hr1]
      simp only [Option.bind_eq_bind, Option.bind_some, hr2, hr3, relinkCond]
      split <;> rfl
    · rw [condAddrs_relinkCond, hcons, List.perm_iff_count]
      intro b
      have h1 := List.perm_iff_count.1 hperm1 b
      have h2 := List.perm_iff_count.1 hperm2 b
      have h3 := List.perm_iff_count.1 hperm3 b
      simp only [List.count_append] at h1 h2 h3 ⊢
      omega
    · rw [condAddrs_relinkCond, hcons]
      intro b hb
      simp only [List.mem_append, or_assoc] at hb ⊢
      exact hb.imp (fun h => hsub1 h) (Or.imp (fun h => hsub2 h) fun h => hs3.sub h)
    · intro b hb
      rw [hcons, List.mem_append, List.mem_append, not_or, not_or] at hb
      rw [hframe3 b hb.2.2, hframe2 b hb.2.1, hframe1 b hb.1]
    · intro σ x a
      dsimp only
      rw [activeCond_relinkCond, activeCond_cons]
      have h3 : activeCond tab2 σ conds = activeCond tab σ conds := activeCond_congr σ fun b hb => by
        rw [hframe2 b fun h => hdisj2 h hb, hframe1 b fun h => hdisj1 h (List.mem_append_right _ hb)]
      have hg3 := hs3.granted σ x a
      rw [h3] at hg3
      refine granted_union_congr ?_ hg3
      -- the lists that are left are as they were after their own optimization
      have hl1 : listRules tab3 l1 = listRules tab1 l1 := listRules_congr fun b hb => by
        have hb1 := mt List.mem_append.2 (hdisj1 (hsub1 hb))
        rw [not_or] at hb1
        rw [hframe3 b hb1.2, hframe2 b hb1.1]
      have hl2 : listRules tab3 l2 = listRules tab2 l2 := listRules_congr fun b hb => hframe3 b (hdisj2 (hsub2 hb))
      have hf2 : listRules tab1 cl.falseList = listRules tab cl.falseList := listRules_congr fun b hb =>
        hframe1 b fun h => hdisj1 h (List.mem_append_left _ hb)
      have hg1 := hs1.granted x a
      have hg2 := hs2.granted x a
      dsimp only at hg1 hg2
      rw [← hl1] at hg1
      rw [← hl2, hf2] at hg2
      cases hσ : σ cl.expr with
      | none => simp [branchRules, hσ]
      | some b =>
        cases b with
        | true => simpa [branchRules, hσ, CondNode.branch] using hg1
        | false => simpa [branchRules, hσ, CondNode.branch] using hg2

/-! ### The rules that are deleted -/

private theorem deleteFromChain_find (chain : List AvtabNode) (del : List Nat) :
    (deleteFromChain chain del).2.1 ⊆ del ∧ ∀ addr, addr ∉ del →
      (deleteFromChain chain del).1.find? (fun n => n.addr = addr) = chain.find? fun n => n.addr = addr := by
  induction chain generalizing del with
  | nil => exact ⟨List.Subset.refl _, fun _ _ => rfl⟩
  | cons cur next ih =>
    rw [deleteFromChain]
    split
    · rename_i hmem
      obtain ⟨hsub, hfind⟩ := ih (del.erase cur.addr)
      refine ⟨fun b hb => List.mem_of_mem_erase (hsub hb), fun addr ha => ?_⟩
      have hne : ¬ cur.addr = addr := fun e => ha (e ▸ hmem)
      rw [List.find?_cons_of_neg (by simpa using hne)]
      exact hfind addr fun h => ha (List.mem_of_mem_erase h)
    · obtain ⟨hsub, hfind⟩ := ih del
      refine ⟨hsub, fun addr ha => ?_⟩
      dsimp only
      rw [List.find?_cons, List.find?_cons, hfind addr ha]

private theorem avtabNodeAt_deleteFromAvtab (tab : Avtab) {addr : Nat} (ha : addr ∉ del) :
    avtabNodeAt (deleteFromAvtab tab del) addr = avtabNodeAt tab addr := by
  have hfold : ∀ (l : List Nat) (s : Avtab × List Nat), s.1.nslot = tab.nslot → s.2 ⊆ del →
      (∀ i, (s.1.htable i).find? (fun n => n.addr = addr) = (tab.htable i).find? fun n => n.addr = addr) →
      let s' := l.foldl (fun s i =>
        let r := deleteFromChain (s.1.htable i) s.2
        ({ avtabSetChain s.1 i r.1 with nel := s.1.nel - r.2.2 }, r.2.1)) s
      s'.1.nslot = tab.nslot ∧
        ∀ i, (s'.1.htable i).find? (fun n => n.addr = addr) = (tab.htable i).find? fun n => n.addr = addr := by
    intro l
    induction l with
    | nil => exact fun s hslot _ hfind => ⟨hslot, hfind⟩
    | cons i l ih =>
      intro s hslot hsub hfind
      obtain ⟨hsub', hfind'⟩ := deleteFromChain_find (s.1.htable i) s.2
      refine ih _ hslot (fun b hb => hsub (hsub' hb)) fun j => ?_
      dsimp only [avtabSetChain]
      split
      · rename_i hji
        rw [hfind' addr fun h => ha (hsub h), hji, hfind i]
      · exact hfind j
  obtain ⟨hslot, hfind⟩ := hfold (List.range tab.nslot) (tab, del) rfl (List.Subset.refl _) fun _ => rfl
  rw [avtabNodeAt, avtabNodeAt, avtabNodes, avtabNodes, List.find?_flatMap, List.find?_flatMap]
  change List.findSome? _ (List.range (deleteFromAvtab tab del).nslot) = _
  rw [show (deleteFromAvtab tab del).nslot = tab.nslot from hslot]
  exact congrArg (fun f => List.findSome? f (List.range tab.nslot)) (funext hfind)

/-! ### The whole policy -/

/-- Kernel policies of the supported versions, with the maps that the optimization relies on, whose rules have good
keys and whose conditionals have nodes of their own. -/
structure OptimizeOk (p : Policydb) : Prop where
  policyType : p.policyType = policyKern
  version : ¬ (policydbVersionAvtab ≤ p.policyvers ∧ p.policyvers ≤ policydbVersionPermissive)
  maps : TypeMaps p
  te : TableOk p p.teAvtab
  cond : AddrsOk p p.teCondAvtab (condAddrs p.condList)
  nodup : (condAddrs p.condList).Nodup

/-- The optimization preserves all decisions, when the values of all types fit in a key. -/
theorem policydbOptimize_accessDecision (h : OptimizeOk p) (hfit : TypesFit p) :
    ∃ p', policydbOptimize p = some p' ∧ ∀ σ x, IsType p x.source → IsType p x.target →
      accessDecision p' σ x = accessDecision p σ x := by
  have hte := optimizeAvtab_step h.maps hfit h.te.bound h.te.keys
  obtain ⟨⟨conds, del, tab⟩, hr, hstep⟩ := optimizeCondList_step h.maps hfit ⟨hte.bound, hte.keys⟩ h.nodup h.cond []
  have hdisj := (List.nodup_append'.1 ((hstep.perm.nodup_iff).2 (by simpa using h.nodup))).2.2
  refine ⟨{ p with teAvtab := optimizeAvtab p.teAvtab (buildTypeMap p), condList := conds, teCondAvtab :=
    if del.isEmpty then tab else deleteFromAvtab tab del }, ?_, fun σ x hs ht => ?_⟩
  · have hver : ¬ (policydbVersionAvtab ≤ p.policyvers && p.policyvers ≤ policydbVersionPermissive) = true := by
      simpa using h.version
    rw [policydbOptimize, if_neg (not_not.2 h.policyType), if_neg hver]
    dsimp only [optimizeCondAvtab]
    rw [hr]
    rfl
  · refine accessDecision_eq_of_granted (by rfl) hs ht fun a => ?_
    rw [activeRules_eq, activeRules_eq]
    dsimp only
    have hdel : activeCond (if del.isEmpty then tab else deleteFromAvtab tab del) σ conds = activeCond tab σ conds :=
      activeCond_congr σ fun b hb => by
        split
        · rfl
        · exact avtabNodeAt_deleteFromAvtab tab (hdisj hb)
    rw [hdel]
    refine (hstep.granted σ x a).trans ?_
    rw [rulesGrant_union, rulesGrant_union]
    exact or_congr_left (hte.granted x a)

/-- A kernel policy with the types below `n` and the attribute `n` of the type `t`. -/
def oneAttrPolicy (n t : Nat) (rules condRules : List AvtabNode) (conds : List CondNode) : Policydb where
  __ := policydbInit
  policyvers := 33
  pTypes := ⟨[], n + 1⟩
  typeValToStruct := fun i =>
    if i < n then some ⟨i + 1, .type, 0⟩ else if i = n then some ⟨i + 1, .attrib, 0⟩ else none
  typeAttrMap := fun i => if i = t then ebitmapOfList [t, n] else selfMap n i
  attrTypeMap := fun a => if a = n then ebitmapOfList [t] else selfMap n a
  teAvtab := oneChain rules
  teCondAvtab := oneChain condRules
  condList := conds

section oneAttrPolicy

variable {n t : Nat} {rules condRules : List AvtabNode}

private theorem oneAttrPolicy_isType {i : Nat} : IsType (oneAttrPolicy n t rules condRules conds) i ↔ i < n := by
  simp only [IsType, oneAttrPolicy]
  split
  · rename_i hi
    exact iff_of_true ⟨_, rfl, fun h => by cases h⟩ hi
  · rename_i hi
    refine iff_of_false ?_ hi
    split
    · rintro ⟨d, hd, hflavor⟩
      obtain rfl := Option.some.inj hd
      exact hflavor rfl
    · rintro ⟨d, hd, _⟩
      cases hd

private theorem oneAttrPolicy_isAttr {a : Nat} : IsAttr (oneAttrPolicy n t rules condRules conds) a ↔ a = n := by
  simp only [IsAttr, oneAttrPolicy]
  split
  · rename_i ha
    refine iff_of_false ?_ (by omega)
    rintro ⟨d, hd, hflavor⟩
    obtain rfl := Option.some.inj hd
    cases hflavor
  · split
    · rename_i ha
      exact iff_of_true ⟨_, rfl, rfl⟩ ha
    · rename_i ha
      refine iff_of_false ?_ ha
      rintro ⟨d, hd, _⟩
      cases hd

private theorem oneAttrPolicy_typeAttrMap (hn : n < 2 ^ 32 - 64) (ht : t < n) {i a : Nat} :
    a ∈ (oneAttrPolicy n t rules condRules conds).typeAttrMap i ↔ i < n ∧ (a = i ∨ i = t ∧ a = n) := by
  simp only [oneAttrPolicy]
  split
  · rename_i hi
    rw [mem_ebitmapOfList (by simp; omega)]
    simp only [List.mem_cons, List.not_mem_nil, or_false]
    omega
  · rw [mem_selfMap (by omega)]
    omega

private theorem oneAttrPolicy_maps (hn : n < 2 ^ 32 - 64) (ht : t < n) :
    TypeMaps (oneAttrPolicy n t rules condRules conds) where
  typeAttrMap := fun i => by
    simp only [oneAttrPolicy]
    split
    · exact ebitmapOfList_canonical _
    · exact selfMap_canonical ..
  attrTypeMap := fun a => by
    simp only [oneAttrPolicy]
    split
    · exact ebitmapOfList_canonical _
    · exact selfMap_canonical ..
  bound := fun i a ha => by
    rw [oneAttrPolicy_typeAttrMap hn ht] at ha
    simp only [oneAttrPolicy]
    omega
  self := fun i hi => (oneAttrPolicy_typeAttrMap hn ht).2 ⟨oneAttrPolicy_isType.1 hi, Or.inl rfl⟩
  attr := fun i _ a ha => by
    rw [oneAttrPolicy_typeAttrMap hn ht] at ha
    exact ha.2.imp_right fun h => oneAttrPolicy_isAttr.2 h.2
  dual := fun i a hi ha => by
    obtain rfl := oneAttrPolicy_isAttr.1 ha
    have hi := oneAttrPolicy_isType.1 hi
    have hmem : i ∈ (oneAttrPolicy a t rules condRules conds).attrTypeMap a ↔ i = t := by
      simp only [oneAttrPolicy, if_true]
      rw [mem_ebitmapOfList (by simp; omega), List.mem_singleton]
    rw [oneAttrPolicy_typeAttrMap hn ht, hmem]
    omega

private theorem oneAttrPolicy_keyOk {k : AvtabKey} (hk : SingleSpecifier k.specified)
    (hs : 1 ≤ k.sourceType.toNat ∧ k.sourceType.toNat - 1 ≤ n)
    (ht : 1 ≤ k.targetType.toNat ∧ k.targetType.toNat - 1 ≤ n) :
    KeyOk (oneAttrPolicy n t rules condRules conds) k where
  single := hk
  source := ⟨hs.1, by rw [oneAttrPolicy_isType, oneAttrPolicy_isAttr]; omega⟩
  target := ⟨ht.1, by rw [oneAttrPolicy_isType, oneAttrPolicy_isAttr]; omega⟩

end oneAttrPolicy

private theorem tableOk_pair {n m : AvtabNode} (hn : KeyOk p n.key) (hm : KeyOk p m.key) :
    TableOk p (oneChain [n, m]) := by
  refine ⟨fun j hj => if_neg (by simp only [oneChain] at hj; omega), fun k hk => ?_⟩
  simp only [avtabNodes_oneChain, List.mem_cons, List.not_mem_nil, or_false] at hk
  rcases hk with rfl | rfl
  · exact hn
  · exact hm

private theorem singleSpecifier_allowed : SingleSpecifier avtabAllowed := by
  unfold SingleSpecifier
  decide

/-- A rule that allows permission 0 of class 1. -/
def allowNode (source target : BitVec 16) (addr : Nat) : AvtabNode :=
  ⟨⟨source, target, 1, avtabAllowed⟩, ⟨1, ⟨0, 0, fun _ => 0⟩⟩, addr⟩

/-- The rules are `allow 0 1` and `allow 2 1` for the attribute 2 of type 0, and `allow 0 0` if a boolean is set. -/
def coveredPolicy : Policydb :=
  oneAttrPolicy 2 0 [allowNode 1 2 0, allowNode 3 2 1] [allowNode 1 1 2] [⟨[⟨condBool, 1⟩], [2], []⟩]

private theorem coveredPolicy_ok : OptimizeOk coveredPolicy where
  policyType := rfl
  version := by decide
  maps := oneAttrPolicy_maps (by decide) (by decide)
  te := tableOk_pair (oneAttrPolicy_keyOk singleSpecifier_allowed (by decide) (by decide))
    (oneAttrPolicy_keyOk singleSpecifier_allowed (by decide) (by decide))
  cond := fun addr ha => by
    obtain rfl : addr = 2 := by simpa [condAddrs, coveredPolicy, oneAttrPolicy] using ha
    exact ⟨allowNode 1 1 2, by decide, oneAttrPolicy_keyOk singleSpecifier_allowed (by decide) (by decide)⟩
  nodup := by decide

theorem policydbOptimize_accessDecision_covered :
    ∃ p', policydbOptimize coveredPolicy = some p' ∧ ∀ σ x, IsType coveredPolicy x.source →
      IsType coveredPolicy x.target → accessDecision p' σ x = accessDecision coveredPolicy σ x :=
  policydbOptimize_accessDecision coveredPolicy_ok (by decide)

/-- A policy in which type 4 has the attribute 65536, whose key is that of type 0: the rules are `allow 0 4` and
`allow 4 4`. -/
def wideKeysPolicy : Policydb := oneAttrPolicy 65536 4 [allowNode 1 5 0, allowNode 5 5 1] [] []

private theorem wideKeysPolicy_ok : OptimizeOk wideKeysPolicy where
  policyType := rfl
  version := by decide
  maps := oneAttrPolicy_maps (by decide) (by decide)
  te := tableOk_pair (oneAttrPolicy_keyOk singleSpecifier_allowed (by decide) (by decide))
    (oneAttrPolicy_keyOk singleSpecifier_allowed (by decide) (by decide))
  cond := fun addr ha => by cases ha
  nodup := List.nodup_nil

/-- With attribute 65536, the rule `allow 4 4` is taken for one that `allow 0 4` covers, and is removed. -/
theorem policydbOptimize_wideKeys :
    ¬ ∀ p, OptimizeOk p → ∃ p', policydbOptimize p = some p' ∧ ∀ σ x, IsType p x.source → IsType p x.target →
      accessDecision p' σ x = accessDecision p σ x := by
  intro h
  obtain ⟨p', hp', hsame⟩ := h wideKeysPolicy wideKeysPolicy_ok
  have hnodes : avtabNodes (optimizeAvtab wideKeysPolicy.teAvtab (buildTypeMap wideKeysPolicy)) =
      [allowNode 1 5 0] := by decide +kernel
  have hp' :
      { wideKeysPolicy with teAvtab := optimizeAvtab wideKeysPolicy.teAvtab (buildTypeMap wideKeysPolicy) } = p' :=
    Option.some.inj hp'
  subst hp'
  have h4 : IsType wideKeysPolicy 4 := oneAttrPolicy_isType.2 (by decide)
  have hself : 4 ∈ wideKeysPolicy.typeAttrMap 4 :=
    (oneAttrPolicy_typeAttrMap (by decide) (by decide)).2 ⟨by decide, Or.inl rfl⟩
  have hallowed := congrArg AccessDecision.allowed (hsame (fun _ => none) ⟨4, 4, 1⟩ h4 h4)
  have hmem : (0 : Fin 32) ∈ (accessDecision wideKeysPolicy (fun _ => none) ⟨4, 4, 1⟩).allowed := by
    refine ⟨allowNode 5 5 1, Or.inl ?_, ⟨hself, hself, rfl⟩, by decide, by decide⟩
    change _ ∈ avtabNodes (oneChain _)
    rw [avtabNodes_oneChain]
    exact List.mem_cons_of_mem _ (List.mem_singleton_self _)
  rw [← hallowed] at hmem
  obtain ⟨n, hn | ⟨cl, hcl, _⟩, happ, _⟩ := hmem
  · have hn : n ∈ avtabNodes (optimizeAvtab wideKeysPolicy.teAvtab (buildTypeMap wideKeysPolicy)) := hn
    rw [hnodes, List.mem_singleton] at hn
    subst hn
    have h0 : 0 ∈ wideKeysPolicy.typeAttrMap 4 := happ.source
    rw [wideKeysPolicy, oneAttrPolicy_typeAttrMap (by decide) (by decide)] at h0
    omega
  · cases hcl

end Sepol
