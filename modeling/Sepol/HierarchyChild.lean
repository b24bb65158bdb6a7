import Sepol.HierarchyParent

/-!
# Soundness of the bounds check

The check adds nothing to the list of bad rules exactly when, for every choice of the active lists, each permission of
the child is one that the parent has, where the rules of every kind in the lists of the conditionals count for the
parent: `bounds_expand_cond_rules` does not test for rules that allow, as the other loops do.
-/

namespace Sepol

variable {p : Policydb} {child parent : Nat} {global : Option Avtab} {cur : Avtab}
  {args args' args'' : BoundsCheckArgs}
  {k : AvtabKey} {data : BitVec 32} {P Q : Prop} {τ : Nat → Bool} {x : TypePerm}

/-! ### What the check counts -/

/-- A step of the check adds bad rules and counts them, and adds none exactly when `P` holds. -/
structure BoundsTally (P : Prop) (args args' : BoundsCheckArgs) : Prop where
  length : args'.numbad - args.numbad = args'.bad.length - args.bad.length
  le : args.numbad ≤ args'.numbad
  none_iff : args'.numbad = args.numbad ↔ P

theorem BoundsTally.refl (args : BoundsCheckArgs) (h : P) : BoundsTally P args args :=
  ⟨by omega, le_refl _, iff_of_true rfl h⟩

theorem BoundsTally.trans (h : BoundsTally P args args') (h' : BoundsTally Q args' args'') :
    BoundsTally (P ∧ Q) args args'' := by
  refine ⟨by have := h.length; have := h'.length; omega, le_trans h.le h'.le, ?_⟩
  rw [← h.none_iff, ← h'.none_iff]
  have := h.le
  have := h'.le
  omega

theorem BoundsTally.congr (h : BoundsTally P args args') (hiff : P ↔ Q) : BoundsTally Q args args' :=
  ⟨h.length, h.le, h.none_iff.trans hiff⟩

private theorem boundsTally_foldlM {α : Type} {f : BoundsCheckArgs → α → Option BoundsCheckArgs} {R : α → Prop}
    {l : List α} (hstep : ∀ a ∈ l, ∀ args, ∃ args', f args a = some args' ∧ BoundsTally (R a) args args')
    (args : BoundsCheckArgs) :
    ∃ args', l.foldlM f args = some args' ∧ BoundsTally (∀ a ∈ l, R a) args args' := by
  refine EarlyExit.exists_foldlM (I := fun done args' => BoundsTally (∀ a ∈ done, R a) args args')
    (fun done args1 a ha h1 => ?_) (BoundsTally.refl args fun a ha => by cases ha)
  obtain ⟨args2, h2, hs⟩ := hstep a ha args1
  refine ⟨args2, h2, (h1.trans hs).congr ?_⟩
  simp [or_imp, forall_and]

/-! ### One rule of the child -/

/-- The permission that the parent needs for one of the child: on the bounds of a target that is bounded. -/
def boundsPerm (p : Policydb) (x : TypePerm) : TypePerm := { x with target := boundsTarget p x.target - 1 }

/-- The permissions in two tables. -/
def coveredPerms (global : Option Avtab) (cur : Avtab) (parent : Nat) : Set TypePerm :=
  {x | x ∈ tablePerms cur parent ∨ ∃ tab, global = some tab ∧ x ∈ tablePerms tab parent}

private theorem boundsClear_bit (tab : Avtab) (key : AvtabKey) (data : BitVec 32) (i : Nat) :
    (boundsClear tab key data).getLsbD i = true ↔
      data.getLsbD i = true ∧ (avtabData tab key).getLsbD i = false := by
  rw [boundsClear, avtabData]
  cases avtabSearch tab key with
  | none => simp
  | some n =>
    simp only [BitVec.getLsbD_and, BitVec.getLsbD_not, Bool.and_eq_true, Bool.not_eq_true', decide_eq_true_eq]
    constructor
    · rintro ⟨hd, _, hn⟩
      exact ⟨hd, hn⟩
    · rintro ⟨hd, hn⟩
      exact ⟨hd, BitVec.lt_of_getLsbD hd, hn⟩

private theorem boundsNotCovered_bit (global : Option Avtab) (cur : Avtab) (key : AvtabKey) (data : BitVec 32)
    (i : Nat) : (boundsNotCovered global cur key data).getLsbD i = true ↔ data.getLsbD i = true ∧
      (avtabData cur key).getLsbD i = false ∧ ∀ tab, global = some tab → (avtabData tab key).getLsbD i = false := by
  rw [← and_assoc, ← boundsClear_bit cur key data]
  unfold boundsNotCovered
  cases global with
  | none => simp
  | some tab =>
    dsimp only
    split
    · rw [boundsClear_bit]
      simp
    · rename_i hzero
      rw [not_not.1 hzero]
      simp

private theorem boundsTarget_lt (h : BoundsOk p) {i t : Nat} (ht : t ∈ p.attrTypeMap i) :
    boundsTarget p t - 1 < 65535 ∧ boundsTarget p t - 1 + 1 = boundsTarget p t := by
  have hlt := h.lt ht
  rw [boundsTarget]
  split
  · rename_i td htd
    have hb := le_trans (h.bounds t td htd) h.fit
    split <;> omega
  · omega

/-- Nothing of the data is left exactly when the tables have all of it. -/
private theorem boundsNotCovered_eq_zero_iff (h : BoundsOk p) {i t : Nat} (ht : t ∈ p.attrTypeMap i)
    (global : Option Avtab) (cur : Avtab) (parent : Nat) (c : BitVec 16) (data : BitVec 32) :
    boundsNotCovered global cur (boundsKey parent (boundsTarget p t) c) data = 0 ↔
      ∀ j : Fin 32, data.getLsbD j = true → boundsPerm p ⟨t, c, j⟩ ∈ coveredPerms global cur parent := by
  obtain ⟨hlt, hsucc⟩ := boundsTarget_lt h ht
  have hmem : ∀ (tab : Avtab) (j : Fin 32), boundsPerm p ⟨t, c, j⟩ ∈ tablePerms tab parent ↔
      (avtabData tab (boundsKey parent (boundsTarget p t) c)).getLsbD j = true := fun tab j => by
    simp only [tablePerms, boundsPerm, Set.mem_ofPred_eq, hsucc]
    exact and_iff_right hlt
  rw [← not_iff_not, ← ne_eq, Words.ne_zero_iff]
  simp only [boundsNotCovered_bit, coveredPerms, Set.mem_ofPred_eq, hmem]
  constructor
  · rintro ⟨j, hj, hd, hcur, hglobal⟩ hall
    rcases hall ⟨j, hj⟩ hd with hc | ⟨tab, htab, hc⟩
    · rw [hcur] at hc
      cases hc
    · rw [hglobal tab htab] at hc
      cases hc
  · intro hno
    simp only [not_forall, not_or, not_exists, not_and, Bool.not_eq_true] at hno
    obtain ⟨j, hd, hcur, hglobal⟩ := hno
    exact ⟨j, j.2, hd, hcur, hglobal⟩

/-- The rule of the child is checked against the two tables. -/
private theorem boundsCheckRule_tally (h : BoundsOk p) (global : Option Avtab) (cur : Avtab) (child parent : Nat)
    (k : AvtabKey)
    (data : BitVec 32) (args : BoundsCheckArgs) :
    BoundsTally (∀ x ∈ rulePerms p (child - 1) k data, boundsPerm p x ∈ coveredPerms global cur parent) args
      (boundsCheckRule p global cur child parent k data args) := by
  rw [boundsCheckRule]
  split
  · rename_i hsrc
    have hsrc := (ebitmapGetBit_iff (h.attrTypeMap _) _).1 hsrc
    have hloop := boundsTally_foldlM (l := ebitmapPositiveBits (p.attrTypeMap (k.targetType.toNat - 1)))
      (R := fun t => ∀ j : Fin 32, data.getLsbD j = true →
        boundsPerm p ⟨t, k.targetClass, j⟩ ∈ coveredPerms global cur parent)
      (f := fun args t => pure (
        let d := boundsNotCovered global cur (boundsKey parent (boundsTarget p t) k.targetClass) data
        if d ≠ 0 then ⟨boundsAddBad child (t + 1) k.targetClass d args.bad, args.numbad + 1⟩ else args))
      (fun t ht args => by
        have ht := (mem_ebitmapPositiveBits (h.attrTypeMap _)).1 ht
        refine ⟨_, rfl, ?_⟩
        have hzero := boundsNotCovered_eq_zero_iff h ht global cur parent k.targetClass data
        dsimp only
        split
        · rename_i hd
          refine ⟨by simp [boundsAddBad], by simp, iff_of_false (by simp) fun hall => hd (hzero.2 hall)⟩
        · rename_i hd
          exact BoundsTally.refl args (hzero.1 (not_not.1 hd))) args
    obtain ⟨args', hargs', htally⟩ := hloop
    rw [List.foldlM_pure] at hargs'
    rw [← Option.some.inj hargs'] at htally
    refine htally.congr ⟨fun hall x hx => ?_, fun hall t ht j hj => ?_⟩
    · have := hall x.target ((mem_ebitmapPositiveBits (h.attrTypeMap _)).2 hx.1.target) x.perm hx.2.2
      rwa [hx.2.1] at this
    · exact hall ⟨t, k.targetClass, j⟩ ⟨⟨hsrc, (mem_ebitmapPositiveBits (h.attrTypeMap _)).1 ht⟩, rfl, hj⟩
  · rename_i hsrc
    exact BoundsTally.refl args fun x hx => absurd ((ebitmapGetBit_iff (h.attrTypeMap _) _).2 hx.1.source) hsrc

/-! ### The whole check -/

private theorem boundsCheckCondRules_tally (h : BoundsOk p) (global cond : Avtab) {cl : CondNode}
    (hcl : cl ∈ p.condList) (b : Bool) (child parent : Nat) (args : BoundsCheckArgs) :
    ∃ args', boundsCheckCondRules p global cond (cl.branch b) child parent args = some args' ∧
      BoundsTally (∀ x ∈ nodesPerms p (child - 1) AvtabNode.IsAllowed (branchNodes p cl b),
        boundsPerm p x ∈ coveredPerms (some global) cond parent) args args' := by
  obtain ⟨args', hargs', htally⟩ := boundsTally_foldlM (l := cl.branch b)
    (f := fun args addr => do
      let n ← condNodeAt p addr
      if !hasSpecified n.key.specified avtabAllowed then return args
      return boundsCheckRule p (some global) cond child parent n.key n.datum.data args)
    (R := fun addr => ∀ n, condNodeAt p addr = some n → n.IsAllowed →
      ∀ x ∈ rulePerms p (child - 1) n.key n.datum.data, boundsPerm p x ∈ coveredPerms (some global) cond parent)
    (fun addr ha args => by
      obtain ⟨n, hn⟩ := h.nodes cl hcl b addr ha
      simp only [hn, Option.bind_eq_bind, Option.bind_some, Option.some.injEq, forall_eq']
      split
      · rename_i hno
        refine ⟨args, rfl, BoundsTally.refl args fun hyes => ?_⟩
        rw [show hasSpecified n.key.specified avtabAllowed = true from hyes] at hno
        cases hno
      · rename_i hyes
        have hyes : n.IsAllowed := by
          rw [AvtabNode.IsAllowed, ← Bool.not_eq_false]
          exact fun hno => hyes (by rw [hno]; rfl)
        exact ⟨_, rfl, (boundsCheckRule_tally h (some global) cond child parent n.key n.datum.data args).congr
          (imp_iff_right hyes).symm⟩) args
  refine ⟨args', hargs', htally.congr ⟨fun hall x hx => ?_, fun hall addr ha n hn hyes x hx => ?_⟩⟩
  · obtain ⟨n, hmem, hyes, hx⟩ := hx
    obtain ⟨addr, ha, hn⟩ := List.mem_map.1 hmem
    exact hall addr ha n hn hyes x hx
  · exact hall x ⟨n, List.mem_map.2 ⟨addr, ha, hn⟩, hyes, hx⟩

private theorem boundsCheckTe_tally (h : BoundsOk p) (global : Avtab) (child parent : Nat) (args : BoundsCheckArgs) :
    ∃ args', avtabMap p.teAvtab (boundsCheckRuleCallback p global child parent) args = (0, args') ∧
      BoundsTally (∀ x ∈ tePerms p (child - 1), boundsPerm p x ∈ tablePerms global parent) args args' := by
  obtain ⟨args', hargs', htally⟩ := boundsTally_foldlM (l := avtabNodes p.teAvtab)
    (f := fun args n => some (boundsCheckRuleCallback p global child parent n.key n.datum args).2)
    (R := fun n => n.IsAllowed → ∀ x ∈ rulePerms p (child - 1) n.key n.datum.data,
      boundsPerm p x ∈ coveredPerms none global parent)
    (fun n _ args => by
      refine ⟨_, rfl, ?_⟩
      rw [boundsCheckRuleCallback]
      split
      · rename_i hno
        refine BoundsTally.refl args fun hyes => ?_
        rw [show hasSpecified n.key.specified avtabAllowed = true from hyes] at hno
        cases hno
      · rename_i hyes
        have hyes : n.IsAllowed := by
          rw [AvtabNode.IsAllowed, ← Bool.not_eq_false]
          exact fun hno => hyes (by rw [hno]; rfl)
        exact (boundsCheckRule_tally h none global child parent n.key n.datum.data args).congr
          (imp_iff_right hyes).symm) args
  refine ⟨args', avtabMap_of_foldlM (fun n s s' hs => ?_) hargs', htally.congr ⟨fun hall x hx => ?_, ?_⟩⟩
  · rw [← Option.some.inj hs, boundsCheckRuleCallback]
    split <;> rfl
  · obtain ⟨n, hn, hyes, hx⟩ := hx
    obtain ⟨m, hm, hmn⟩ := List.mem_map.1 hn
    obtain rfl := Option.some.inj hmn
    rcases hall m hm hyes x hx with hc | ⟨tab, htab, _⟩
    · exact hc
    · cases htab
  · exact fun hall n hn hyes x hx => Or.inl (hall x ⟨n, List.mem_map.2 ⟨n, hn, rfl⟩, hyes, hx⟩)

/-- Nothing is added exactly when the permissions of the child are among those that the parent has for every choice of
the active lists, and those that it has in a list among these and the ones of the parent in the same list. -/
private theorem boundsCheckType_spec (h : BoundsOk p) (child parent : Nat) (numbad : Int) :
    ∃ r, boundsCheckType p child parent numbad = some r ∧ r.2 = numbad + r.1.length ∧
      (r.2 = numbad ↔ ∀ τ, Branches.taken (tePerms p (child - 1)) (condPerms p (child - 1) AvtabNode.IsAllowed) τ ⊆
        Branches.taken (Set.preimage (boundsPerm p) (tePerms p (parent - 1)))
          (fun i b => Set.preimage (boundsPerm p) (condPerms p (parent - 1) (fun _ => True) i b)) τ) := by
  obtain ⟨global, infos, hexpand, hglobal, hinfos, hlist⟩ := boundsExpandParentRules_spec parent h
  obtain ⟨args1, hte, htally1⟩ := boundsCheckTe_tally h global child parent ⟨[], 0⟩
  have hmem : ∀ ci ∈ infos, ci.condList ∈ p.condList := fun ci hci => by
    have := List.mem_map_of_mem (f := BoundsCondInfo.condList) hci
    rwa [hlist, List.mem_reverse] at this
  obtain ⟨args2, hcond, htally2⟩ := boundsTally_foldlM (l := infos)
    (f := fun args cur => do
      let args ← boundsCheckCondRules p global cur.trueAvtab cur.condList.trueList child parent args
      boundsCheckCondRules p global cur.falseAvtab cur.condList.falseList child parent args)
    (R := fun ci => ∀ b, ∀ x ∈ nodesPerms p (child - 1) AvtabNode.IsAllowed (branchNodes p ci.condList b),
      boundsPerm p x ∈ tablePerms global parent ∨ boundsPerm p x ∈ listPerms p (parent - 1) ci.condList b)
    (fun ci hci args => by
      obtain ⟨a1, ha1, ht1⟩ := boundsCheckCondRules_tally h global ci.trueAvtab (hmem ci hci) true child parent args
      obtain ⟨a2, ha2, ht2⟩ := boundsCheckCondRules_tally h global ci.falseAvtab (hmem ci hci) false child parent a1
      have ha1' : boundsCheckCondRules p global ci.trueAvtab ci.condList.trueList child parent args = _ := ha1
      have ha2' : boundsCheckCondRules p global ci.falseAvtab ci.condList.falseList child parent a1 = _ := ha2
      refine ⟨a2, by simp only [ha1', ha2', Option.bind_eq_bind, Option.bind_some], (ht1.trans ht2).congr ?_⟩
      simp only [coveredPerms, Set.mem_ofPred_eq, Option.some.injEq, exists_eq_left', (hinfos ci hci).trueAvtab,
        (hinfos ci hci).falseAvtab, Bool.forall_bool]
      constructor
      · exact fun ⟨h1, h2⟩ => ⟨fun x hx => (h2 x hx).symm, fun x hx => (h1 x hx).symm⟩
      · exact fun ⟨h1, h2⟩ => ⟨fun x hx => (h2 x hx).symm, fun x hx => (h1 x hx).symm⟩) args1
  have htally := htally1.trans htally2
  refine ⟨(args2.bad, numbad + args2.numbad), ?_, ?_, ?_⟩
  · rw [boundsCheckType, hexpand]
    simp only [Option.bind_eq_bind] at hcond
    simp only [Option.bind_eq_bind, Option.bind_some, boundsCheckChildRules, hte, ne_eq, not_true, if_false, hcond]
    rfl
  · have hlen := htally.length
    simp only [List.length_nil] at hlen
    dsimp only
    omega
  · have hnone := htally.none_iff
    dsimp only at hnone ⊢
    rw [show numbad + args2.numbad = numbad ↔ args2.numbad = 0 by omega, hnone, Branches.taken_subset_iff]
    rw [hglobal]
    -- the list of the tables is the list of the conditionals in reverse order
    have hsure : ∀ x, x ∈ Branches.sure (Set.preimage (boundsPerm p) (tePerms p (parent - 1)))
        (fun i b => Set.preimage (boundsPerm p) (condPerms p (parent - 1) (fun _ => True) i b)) ↔
        boundsPerm p x ∈ Branches.sure (tePerms p (parent - 1)) (condPerms p (parent - 1) fun _ => True) :=
      fun x => Iff.rfl
    refine and_congr Iff.rfl ⟨fun hall i b x hx => ?_, fun hall ci hci b x hx => ?_⟩
    · obtain ⟨cl, hi, hx⟩ := hx
      have hcl : cl ∈ infos.map BoundsCondInfo.condList := by
        rw [hlist, List.mem_reverse]
        exact List.mem_of_getElem? hi
      obtain ⟨ci, hci, rfl⟩ := List.mem_map.1 hcl
      refine (hall ci hci b x hx).imp (hsure x).2 fun hp => ?_
      exact ⟨ci.condList, hi, hp⟩
    · obtain ⟨i, hi⟩ := List.mem_iff_getElem?.1 (hmem ci hci)
      rcases hall i b ⟨ci.condList, hi, hx⟩ with hs | ⟨cl, hi', hp⟩
      · exact Or.inl ((hsure x).1 hs)
      · obtain rfl := Option.some.inj (hi.symm.trans hi')
        exact Or.inr hp

/-! ### Soundness -/

/-- The type has the permission by an active rule that allows. -/
def Allowed (p : Policydb) (τ : Nat → Bool) (s : Nat) (x : TypePerm) : Prop :=
  ∃ n, ActiveNode p τ n ∧ n.IsAllowed ∧ x ∈ rulePerms p s n.key n.datum.data

/-- The type has the permission when the rules of every kind in the active lists count as rules that allow. -/
def Taken (p : Policydb) (τ : Nat → Bool) (s : Nat) (x : TypePerm) : Prop :=
  ∃ n, (n ∈ avtabNodes p.teAvtab ∧ n.IsAllowed ∨
    ∃ (i : Nat) (cl : CondNode), p.condList[i]? = some cl ∧ some n ∈ branchNodes p cl (τ i)) ∧
    x ∈ rulePerms p s n.key n.datum.data

/-- Every permission that the child has on a type, the parent has on the bounds of that type, or on the type itself if
it is not bounded. -/
def BoundsSound (p : Policydb) (child parent : Nat) : Prop :=
  ∀ τ x, IsType p x.target → Allowed p τ (child - 1) x → Allowed p τ (parent - 1) (boundsPerm p x)

/-- A permission of the child is one that the parent lacks even when conditional rules of every kind count for it; or
where these rules have a permission of the child, a rule that allows gives it to the parent too. -/
def BoundsKindsHarmless (p : Policydb) (child parent : Nat) : Prop :=
  (∃ τ x, IsType p x.target ∧ Allowed p τ (child - 1) x ∧ ¬ Taken p τ (parent - 1) (boundsPerm p x)) ∨
    ∀ τ x, IsType p x.target → Allowed p τ (child - 1) x → Taken p τ (parent - 1) (boundsPerm p x) →
      Allowed p τ (parent - 1) (boundsPerm p x)

private theorem mem_tePerms {s : Nat} : x ∈ tePerms p s ↔
    ∃ n, n ∈ avtabNodes p.teAvtab ∧ n.IsAllowed ∧ x ∈ rulePerms p s n.key n.datum.data := by
  simp only [tePerms, nodesPerms, Set.mem_ofPred_eq, List.mem_map, Option.some.injEq, exists_eq_right]

private theorem allowed_iff {s : Nat} :
    Allowed p τ s x ↔ x ∈ Branches.taken (tePerms p s) (condPerms p s AvtabNode.IsAllowed) τ := by
  simp only [Branches.taken, Set.mem_ofPred_eq, mem_tePerms, condPerms, nodesPerms, Allowed, ActiveNode]
  constructor
  · rintro ⟨n, hn | ⟨i, cl, hi, hn⟩, hyes, hx⟩
    · exact Or.inl ⟨n, hn, hyes, hx⟩
    · exact Or.inr ⟨i, cl, hi, n, hn, hyes, hx⟩
  · rintro (⟨n, hn, hyes, hx⟩ | ⟨i, cl, hi, n, hn, hyes, hx⟩)
    · exact ⟨n, Or.inl hn, hyes, hx⟩
    · exact ⟨n, Or.inr ⟨i, cl, hi, hn⟩, hyes, hx⟩

private theorem taken_iff {s : Nat} :
    Taken p τ s x ↔ x ∈ Branches.taken (tePerms p s) (condPerms p s fun _ => True) τ := by
  simp only [Branches.taken, Set.mem_ofPred_eq, mem_tePerms, condPerms, nodesPerms, Taken, true_and]
  constructor
  · rintro ⟨n, ⟨hn, hyes⟩ | ⟨i, cl, hi, hn⟩, hx⟩
    · exact Or.inl ⟨n, hn, hyes, hx⟩
    · exact Or.inr ⟨i, cl, hi, n, hn, hx⟩
  · rintro (⟨n, hn, hyes, hx⟩ | ⟨i, cl, hi, n, hn, hx⟩)
    · exact ⟨n, Or.inl ⟨hn, hyes⟩, hx⟩
    · exact ⟨n, Or.inr ⟨i, cl, hi, hn⟩, hx⟩

private theorem isType_of_allowed (h : BoundsOk p) {s : Nat} (hx : Allowed p τ s x) : IsType p x.target := by
  obtain ⟨n, _, _, hx⟩ := hx
  exact (h.types _ _ hx.1.target).1

/-- When the check adds nothing, the child has no more than the parent, exactly when the conditional rules of other
kinds do no harm. -/
theorem boundsCheckType_sound_iff (h : BoundsOk p) (child parent : Nat) (numbad : Int) :
    ∃ r, boundsCheckType p child parent numbad = some r ∧ r.2 = numbad + r.1.length ∧
      ((r.2 = numbad → BoundsSound p child parent) ↔ BoundsKindsHarmless p child parent) := by
  obtain ⟨r, hr, hlen, hnone⟩ := boundsCheckType_spec h child parent numbad
  refine ⟨r, hr, hlen, ?_⟩
  have hnone : r.2 = numbad ↔
      ∀ τ x, Allowed p τ (child - 1) x → Taken p τ (parent - 1) (boundsPerm p x) := by
    rw [hnone]
    refine forall_congr' fun τ => forall_congr' fun x => ?_
    rw [allowed_iff, taken_iff]
    rfl
  rw [hnone]
  constructor
  · intro hsound
    rw [BoundsKindsHarmless, or_iff_not_imp_left]
    intro hno τ x ht hx _
    refine hsound (fun τ' x' hx' => ?_) τ x ht hx
    by_contra hlack
    exact hno ⟨τ', x', isType_of_allowed h hx', hx', hlack⟩
  · rintro (⟨τ, x, _, hx, hlack⟩ | hharmless) hall
    · exact absurd (hall τ x hx) hlack
    · exact fun τ x ht hx => hharmless τ x ht hx (hall τ x hx)

/-- Type 0 is bounded by type 1, and if a boolean is set the rules are `allow 0 2 : c p` and `auditallow 1 2 : c p`.
-/
def auditedPolicy : Policydb where
  __ := policydbInit
  pTypes := ⟨[], 3⟩
  typeValToStruct := fun i =>
    if i = 0 then some ⟨1, .type, 2⟩ else if i < 3 then some ⟨i + 1, .type, 0⟩ else none
  teCondAvtab := oneChain [⟨⟨1, 3, 1, avtabAllowed⟩, boundsDatum 1, 0⟩,
    ⟨⟨2, 3, 1, avtabAuditallow⟩, boundsDatum 1, 1⟩]
  condList := [⟨[⟨condBool, 1⟩], [0, 1], []⟩]
  attrTypeMap := selfMap 3

private theorem auditedPolicy_ok : BoundsOk auditedPolicy where
  attrTypeMap := selfMap_canonical 3
  types := fun i t ht => by
    have := (mem_selfMap (by decide : 3 ≤ 2 ^ 32 - 64)).1 ht
    refine ⟨?_, by simp only [auditedPolicy]; omega⟩
    simp only [IsType, auditedPolicy]
    split
    · exact ⟨_, rfl, fun h => by cases h⟩
    · rw [if_pos (by omega)]
      exact ⟨_, rfl, fun h => by cases h⟩
  bounds := fun i d hd => by
    simp only [auditedPolicy] at hd ⊢
    split at hd
    · obtain rfl := Option.some.inj hd
      decide
    · split at hd
      · obtain rfl := Option.some.inj hd
        exact Nat.zero_le _
      · cases hd
  fit := by decide
  nodes := fun cl hcl b addr ha => by
    obtain rfl : cl = ⟨[⟨condBool, 1⟩], [0, 1], []⟩ := List.mem_singleton.1 hcl
    have hsome : ∀ addr ∈ [0, 1], (condNodeAt auditedPolicy addr).isSome = true := by decide
    cases b with
    | true => exact Option.isSome_iff_exists.1 (hsome addr ha)
    | false => cases ha

theorem boundsCheckType_sound_iff_audited :
    ∃ r, boundsCheckType auditedPolicy 1 2 0 = some r ∧ r.2 = 0 + r.1.length ∧
      ((r.2 = 0 → BoundsSound auditedPolicy 1 2) ↔ BoundsKindsHarmless auditedPolicy 1 2) :=
  boundsCheckType_sound_iff auditedPolicy_ok 1 2 0

/-- The rule `auditallow` of the parent covers the rule `allow` of the child. -/
theorem boundsCheckType_misses_audited :
    ¬ ∀ (p : Policydb) (child parent : Nat) (numbad : Int), BoundsOk p →
      (∃ d, p.typeValToStruct (child - 1) = some d ∧ d.bounds = parent ∧ parent ≠ 0) →
      ∃ r, boundsCheckType p child parent numbad = some r ∧ (r.2 = numbad → BoundsSound p child parent) := by
  intro h
  obtain ⟨r, hr, hsound⟩ := h auditedPolicy 1 2 0 auditedPolicy_ok ⟨⟨1, .type, 2⟩, rfl, rfl, by decide⟩
  have hcheck : boundsCheckType auditedPolicy 1 2 0 = some ([], 0) := by decide +kernel
  obtain rfl := Option.some.inj (hcheck.symm.trans hr)
  have hcover : ∀ i < 3, i ∈ auditedPolicy.attrTypeMap i := fun i hi =>
    (mem_selfMap (by decide : 3 ≤ 2 ^ 32 - 64)).2 ⟨rfl, hi⟩
  have hallowed := hsound rfl (fun _ => true) ⟨2, 1, 0⟩ ⟨⟨3, .type, 0⟩, rfl, fun h => by cases h⟩
    ⟨⟨⟨1, 3, 1, avtabAllowed⟩, boundsDatum 1, 0⟩, Or.inr ⟨0, _, rfl, by decide⟩,
      by unfold AvtabNode.IsAllowed; decide,
      ⟨hcover 0 (by decide), hcover 2 (by decide)⟩, rfl, by decide⟩
  obtain ⟨n, hn | ⟨i, cl, hi, hn⟩, hyes, hcov, _⟩ := hallowed
  · cases hn
  · -- neither rule of the list is one of the parent that allows
    cases i with
    | zero =>
      obtain rfl := Option.some.inj hi
      have hlist : some n ∈ [some (⟨⟨1, 3, 1, avtabAllowed⟩, boundsDatum 1, 0⟩ : AvtabNode),
        some ⟨⟨2, 3, 1, avtabAuditallow⟩, boundsDatum 1, 1⟩] := hn
      simp only [List.mem_cons, Option.some.injEq, List.not_mem_nil, or_false] at hlist
      rcases hlist with rfl | rfl
      · have := (mem_selfMap (by decide : 3 ≤ 2 ^ 32 - 64)).1 hcov.source
        revert this
        decide
      · revert hyes
        unfold AvtabNode.IsAllowed
        decide
    | succ i => cases hi

end Sepol
