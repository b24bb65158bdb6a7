import Sepol.ExtendedPerms
import Sepol.Lib.EarlyExit
import Sepol.Neverallow

/-!
# Neverallow rules with extended permissions

A permission with extended permissions is granted for all ioctl commands as long as no `allowxperm` rule is active
for the types.  `check_assertion` may accept a neverallow rule with extended permissions only when, for every choice
of the active lists, an `allowxperm` rule is active for every pair of types of the rule that has the permission, and
none of them grants a forbidden command.  It looks the rules up by keys of 16 bits, which tells attributes apart when
there are at most 65535 types.
-/

namespace Sepol

variable {p : Policydb} {narule : Avrule} {k key : AvtabKey} {n : AvtabNode} {σ : Nat → Bool} {s t : Nat}

/-- A rule with extended permissions of kind `allow`. -/
def AvtabNode.IsAllowxperm (n : AvtabNode) : Prop := hasSpecified n.key.specified avtabXpermsAllowed = true

/-- An entry of a table: its key has a source and a target, and a rule that allows extended permissions is of ioctl
kind and nothing else. -/
structure NodeOk (n : AvtabNode) : Prop where
  source : 1 ≤ n.key.sourceType.toNat
  target : 1 ≤ n.key.targetType.toNat
  ioctl : n.IsAllowxperm →
    n.datum.xperms.specified = avtabXpermsIoctlfunction ∨ n.datum.xperms.specified = avtabXpermsIoctldriver
  single : n.IsAllowxperm → hasSpecified n.key.specified avtabAllowed = false

/-- A rule of the form that the check of extended permissions is for: the target is a plain set, self alone, or
notself. -/
def XpermsFlagsOk (narule : Avrule) : Prop :=
  narule.flags = 0 ∨ narule.flags = ruleSelf ∧ (∀ i, i ∉ narule.ttypes.types) ∨ narule.flags = ruleNotself

/-- A policy and a neverallow rule with extended permissions. -/
structure XpermsOk (p : Policydb) (narule : Avrule) : Prop where
  bitmaps : BitmapsOk p narule
  typeAttrMap : ∀ i, (p.typeAttrMap i).Canonical
  bound : ∀ i, ∀ a ∈ p.typeAttrMap i, a < p.pTypes.nprim
  dual : DualMaps p
  table : p.teAvtab.Ok
  node : ∀ n ∈ avtabNodes p.teAvtab, NodeOk n
  condNode : ∀ n ∈ avtabNodes p.teCondAvtab, NodeOk n
  specified : narule.specified = avruleXpermsNeverallow
  flags : XpermsFlagsOk narule

/-- For two types and a class, no base permission of the neverallow rule is granted, or some active `allowxperm` rule
applies and none that applies grants a forbidden command. -/
def XpermsSafe (p : Policydb) (narule : Avrule) (σ : Nat → Bool) (s t c : Nat) : Prop :=
  (¬ ∃ n cp, AppliesTo p σ n s t c ∧ Grants narule n.key n.datum cp) ∨
    (∃ n, AppliesTo p σ n s t c ∧ n.IsAllowxperm) ∧
      ∀ n, AppliesTo p σ n s t c → n.IsAllowxperm →
        ∀ driver function, ¬ (narule.xperms.ForbidsIoctl driver function ∧ n.datum.xperms.GrantsIoctl driver function)

private theorem XpermsFlagsOk.flagsOk (h : XpermsFlagsOk narule) : FlagsOk narule := by
  rcases h with h | h | h
  · exact Or.inl h
  · exact Or.inr (Or.inl h.1)
  · exact Or.inr (Or.inr h)

theorem XpermsOk.condNodeAt (h : XpermsOk p narule) {addr : Nat} (ha : condNodeAt p addr = some n) :
    n ∈ avtabNodes p.teCondAvtab ∧ NodeOk n :=
  have hn := List.mem_of_find?_eq_some ha
  ⟨hn, h.condNode n hn⟩

/-! ### The loops over the rules of a pair of attributes -/

/-- The rule has no forbidden command that the check would find. -/
def NoConflict (narule : Avrule) (n : AvtabNode) : Prop :=
  checkExtendedPermissions narule.xperms n.datum.xperms = false

private theorem checkXpermNodes_some {found found' : Bool} {nodes : List AvtabNode}
    (h : checkXpermNodes narule found nodes = some found') :
    (∀ n ∈ nodes, xpermsKnown n.datum.xperms = true → NoConflict narule n) ∧
      (found' = true → found = true ∨ ∃ n ∈ nodes, xpermsKnown n.datum.xperms = true) := by
  induction nodes generalizing found with
  | nil =>
    obtain rfl : found = found' := by simpa [checkXpermNodes] using h
    exact ⟨fun n hn => (List.not_mem_nil hn).elim, Or.inl⟩
  | cons m l ih =>
    rw [checkXpermNodes, List.foldlM_cons] at h
    obtain ⟨found1, h1, h⟩ := Option.bind_eq_some_iff.1 h
    obtain ⟨hall, hsome⟩ := ih h
    cases hk : xpermsKnown m.datum.xperms with
    | false =>
      obtain rfl : found = found1 := by simpa [hk] using h1
      refine ⟨fun n hn hkn => ?_, fun hf => (hsome hf).imp_right fun ⟨n, hn, hkn⟩ => ⟨n, by simp [hn], hkn⟩⟩
      rcases List.mem_cons.1 hn with rfl | hn
      · rw [hk] at hkn; cases hkn
      · exact hall n hn hkn
    | true =>
      simp only [hk, Bool.not_true, Bool.false_eq_true, if_false, Option.ite_none_left_eq_some] at h1
      refine ⟨fun n hn hkn => ?_, fun _ => Or.inr ⟨m, List.mem_cons_self .., hk⟩⟩
      rcases List.mem_cons.1 hn with rfl | hn
      · exact Bool.eq_false_iff.2 h1.1
      · exact hall n hn hkn

/-- A node of a conditional that counts as a base rule for the key. -/
def IsBase (narule : Avrule) (key : AvtabKey) (n : AvtabNode) : Prop :=
  matchNodeKey n key = true ∧ hasSpecified n.key.specified avtabAllowed = true ∧
    matchAnyClassPermissions narule.perms n.key.targetClass.toNat n.datum.data = true

/-- A node of a conditional that counts as an `allowxperm` rule for the key. -/
def IsXperm (narule : Avrule) (key : AvtabKey) (n : AvtabNode) : Prop :=
  matchNodeKey n key = true ∧ ¬ IsBase narule key n ∧ n.IsAllowxperm ∧ xpermsKnown n.datum.xperms = true

/-- What one step of the loop over a list of a conditional can do. -/
private theorem checkXpermCondStep_some {st st' : Bool × Bool} {node : Option AvtabNode}
    (h : checkXpermCondStep narule key st node = some st') :
    (∃ n, node = some n ∧ IsBase narule key n ∧ st' = (true, st.2)) ∨
      (∃ n, node = some n ∧ IsXperm narule key n ∧ NoConflict narule n ∧ st' = (st.1, true)) ∨
        (∀ n, node = some n → ¬ IsBase narule key n ∧ ¬ IsXperm narule key n) ∧ st' = st := by
  cases node with
  | none => exact Or.inr (Or.inr ⟨fun n hn => (by cases hn), (Option.some.inj h).symm⟩)
  | some n =>
    simp only [checkXpermCondStep] at h
    have hbase : IsBase narule key n ↔ matchNodeKey n key = true ∧ (hasSpecified n.key.specified avtabAllowed &&
        matchAnyClassPermissions narule.perms n.key.targetClass.toNat n.datum.data) = true := by
      rw [Bool.and_eq_true]
      rfl
    cases hm : matchNodeKey n key with
    | false =>
      refine Or.inr (Or.inr ⟨fun n' hn => ?_, ?_⟩)
      · obtain rfl := Option.some.inj hn
        exact ⟨fun hb => absurd hb.1 (by simp [hm]), fun hx => absurd hx.1 (by simp [hm])⟩
      · simpa [hm, eq_comm] using h
    | true =>
      rw [hm] at hbase h
      split at h
      · rename_i hno; cases hno
      split at h
      · rename_i hb
        exact Or.inl ⟨n, rfl, hbase.2 ⟨rfl, hb⟩, (Option.some.inj h).symm⟩
      · rename_i hb
        have hnb : ¬ IsBase narule key n := fun hbn => hb (hbase.1 hbn).2
        have hno : ∀ n', some n = some n' → ¬ IsXperm narule key n →
            ¬ IsBase narule key n' ∧ ¬ IsXperm narule key n' := fun n' hn hx => by
          obtain rfl := Option.some.inj hn
          exact ⟨hnb, hx⟩
        split at h
        · rename_i hs
          refine Or.inr (Or.inr ⟨fun n' hn => hno n' hn fun hx => ?_, (Option.some.inj h).symm⟩)
          have hxs : hasSpecified n.key.specified avtabXpermsAllowed = true := hx.2.2.1
          exact absurd hxs (by simpa using hs)
        · rename_i hs
          split at h
          · rename_i hk
            refine Or.inr (Or.inr ⟨fun n' hn => hno n' hn fun hx => ?_, (Option.some.inj h).symm⟩)
            simp [hx.2.2.2] at hk
          · rename_i hk
            split at h
            · cases h
            · rename_i hc
              refine Or.inr (Or.inl ⟨n, rfl, ⟨hm, hnb, ?_, ?_⟩, Bool.eq_false_iff.2 hc, (Option.some.inj h).symm⟩)
              · change hasSpecified n.key.specified avtabXpermsAllowed = true
                simpa using hs
              · simpa using hk

/-- What the loop over a list of a conditional finds. -/
private theorem checkXpermCondList_some {nodes : List (Option AvtabNode)} {b x : Bool}
    (h : checkXpermCondList narule key nodes = some (b, x)) :
    (∀ n, some n ∈ nodes → IsXperm narule key n → NoConflict narule n) ∧
      (∀ n, some n ∈ nodes → IsBase narule key n → b = true) ∧
        (x = true → ∃ n, some n ∈ nodes ∧ IsXperm narule key n) := by
  have hmono : ∀ {node : Option AvtabNode} {st st' : Bool × Bool}, checkXpermCondStep narule key st node = some st' →
      (st.1 = true → st'.1 = true) := fun hstep hb => by
    rcases checkXpermCondStep_some hstep with ⟨_, _, _, rfl⟩ | ⟨_, _, _, _, rfl⟩ | ⟨_, rfl⟩
    · rfl
    · exact hb
    · exact hb
  rw [checkXpermCondList] at h
  obtain ⟨_, hsteps⟩ := @EarlyExit.steps_of_foldlM _ _ _ _ _ _
    (fun st st' : Bool × Bool => st.1 = true → st'.1 = true) (fun _ => id) (fun h1 h2 hb => h2 (h1 hb)) hmono h
  refine ⟨fun n hn hx => ?_, fun n hn hb => ?_, fun hx => ?_⟩
  · obtain ⟨st, st', hstep, _, _⟩ := hsteps _ hn
    rcases checkXpermCondStep_some hstep with ⟨m, hm, hb, _⟩ | ⟨m, hm, _, hc, _⟩ | ⟨hno, _⟩
    · obtain rfl := Option.some.inj hm
      exact absurd hb hx.2.1
    · obtain rfl := Option.some.inj hm
      exact hc
    · exact absurd hx (hno n rfl).2
  · obtain ⟨st, st', hstep, _, hend⟩ := hsteps _ hn
    rcases checkXpermCondStep_some hstep with ⟨m, hm, _, rfl⟩ | ⟨m, hm, hx, _, _⟩ | ⟨hno, _⟩
    · exact hend rfl
    · obtain rfl := Option.some.inj hm
      exact absurd hb hx.2.1
    · exact absurd hb (hno n rfl).1
  · have hchange := @EarlyExit.exists_step_of_foldlM _ _ _ _ _ _ (fun st : Bool × Bool => st.2 = true) h (by simp) hx
    obtain ⟨node, hn, st, st', hstep, h1, h2⟩ := hchange
    rcases checkXpermCondStep_some hstep with ⟨_, _, _, rfl⟩ | ⟨m, rfl, hx, _, _⟩ | ⟨_, rfl⟩
    · exact absurd h2 h1
    · exact ⟨m, hn, hx⟩
    · exact absurd h2 h1

/-- What the check of a pair of attributes, or of a part of it, does to the flags: they stay set. -/
def XpermState.Le (st st' : XpermState) : Prop :=
  (st.foundXperm = true → st'.foundXperm = true) ∧ (st.foundCondConflict = true → st'.foundCondConflict = true)

theorem XpermState.Le.refl (st : XpermState) : st.Le st := ⟨id, id⟩

theorem XpermState.Le.trans {st st1 st2 : XpermState} (h : st.Le st1) (h' : st1.Le st2) : st.Le st2 :=
  ⟨fun h0 => h'.1 (h.1 h0), fun h0 => h'.2 (h.2 h0)⟩

/-- What the step over a conditional can do. -/
structure CondNodeStep (p : Policydb) (narule : Avrule) (conditional : Bool) (key : AvtabKey) (cl : CondNode)
    (st st' : XpermState) : Prop where
  le : st.Le st'
  noConflict : ∀ b n, some n ∈ branchNodes p cl b → IsXperm narule key n → NoConflict narule n
  found : st'.foundXperm = true → st.foundXperm = true ∨
    ∀ b, ∃ n, some n ∈ branchNodes p cl b ∧ IsXperm narule key n
  base : conditional = true → st'.foundCondConflict = false → ∀ b n, some n ∈ branchNodes p cl b →
    IsBase narule key n → ∃ n', some n' ∈ branchNodes p cl b ∧ IsXperm narule key n'

private theorem checkXpermCondNode_some {conditional : Bool} {st st' : XpermState} {cl : CondNode}
    (h : checkXpermCondNode p narule conditional key st cl = some st') :
    CondNodeStep p narule conditional key cl st st' := by
  rw [checkXpermCondNode] at h
  obtain ⟨⟨tb, tx⟩, ht, h⟩ := Option.bind_eq_some_iff.1 h
  obtain ⟨⟨fb, fx⟩, hf, h⟩ := Option.bind_eq_some_iff.1 h
  obtain ⟨tconf, tbase, txperm⟩ := checkXpermCondList_some ht
  obtain ⟨fconf, fbase, fxperm⟩ := checkXpermCondList_some hf
  have hconf : ∀ b n, some n ∈ branchNodes p cl b → IsXperm narule key n → NoConflict narule n := by
    intro b
    cases b with
    | true => exact tconf
    | false => exact fconf
  dsimp only at h
  split at h
  · rename_i hboth
    rw [Bool.and_eq_true] at hboth
    have hall : ∀ b, ∃ n, some n ∈ branchNodes p cl b ∧ IsXperm narule key n := by
      intro b
      cases b with
      | true => exact txperm hboth.1
      | false => exact fxperm hboth.2
    obtain rfl := Option.some.inj h
    exact ⟨⟨fun _ => rfl, id⟩, hconf, fun _ => Or.inr hall, fun _ _ b _ _ _ => hall b⟩
  · split at h
    · obtain rfl := Option.some.inj h
      exact ⟨⟨id, fun _ => rfl⟩, hconf, Or.inl, fun _ hno => by cases hno⟩
    · rename_i hno
      obtain rfl := Option.some.inj h
      refine ⟨XpermState.Le.refl _, hconf, Or.inl, fun hc _ b n hn hb => ?_⟩
      simp only [hc, Bool.true_and, Bool.or_eq_true, Bool.and_eq_true, Bool.not_eq_true', not_or, not_and,
        Bool.not_eq_false] at hno
      cases b with
      | true => exact txperm (hno.1 (tbase n hn hb))
      | false => exact fxperm (hno.2 (fbase n hn hb))

/-- What the check of a pair of attributes can do. -/
structure PairStep (p : Policydb) (narule : Avrule) (conditional : Bool) (key : AvtabKey) (st st' : XpermState) :
    Prop where
  le : st.Le st'
  noConflict : ∀ n ∈ avtabSearchNodes p.teAvtab key, xpermsKnown n.datum.xperms = true → NoConflict narule n
  condNoConflict : ∀ cl ∈ p.condList, ∀ b n, some n ∈ branchNodes p cl b → IsXperm narule key n → NoConflict narule n
  found : st'.foundXperm = true → st.foundXperm = true ∨
    (∃ n ∈ avtabSearchNodes p.teAvtab key, xpermsKnown n.datum.xperms = true) ∨
      ∃ cl ∈ p.condList, ∀ b, ∃ n, some n ∈ branchNodes p cl b ∧ IsXperm narule key n
  base : conditional = true → st'.foundCondConflict = false → ∀ cl ∈ p.condList, ∀ b n, some n ∈ branchNodes p cl b →
    IsBase narule key n → ∃ n', some n' ∈ branchNodes p cl b ∧ IsXperm narule key n'

private theorem checkXpermPair_some {conditional : Bool} {i j : Nat} {st st' : XpermState}
    (h : checkXpermPair p narule conditional k i st j = some st') :
    PairStep p narule conditional (xpermsKey k i j) st st' := by
  rw [checkXpermPair] at h
  obtain ⟨found, hf, h⟩ := Option.bind_eq_some_iff.1 h
  obtain ⟨hconf, hfound⟩ := checkXpermNodes_some hf
  have hstep : ∀ {cl : CondNode} {t t' : XpermState},
      checkXpermCondNode p narule conditional (xpermsKey k i j) t cl = some t' → t.Le t' := fun h =>
    (checkXpermCondNode_some h).le
  obtain ⟨hle, hsteps⟩ := EarlyExit.steps_of_foldlM XpermState.Le.refl XpermState.Le.trans hstep h
  refine ⟨⟨fun hx => hle.1 ?_, hle.2⟩, hconf, fun cl hcl => ?_, fun hx => ?_, fun hc hno cl hcl => ?_⟩
  · -- the loop over the unconditional rules keeps the flag set
    have hmono : ∀ {n : AvtabNode} {b b' : Bool}, (if !xpermsKnown n.datum.xperms then some b
        else if checkExtendedPermissions narule.xperms n.datum.xperms then none else some true) = some b' →
        (b = true → b' = true) := fun h hb => by
      split at h
      · exact Option.some.inj h ▸ hb
      · split at h
        · cases h
        · exact (Option.some.inj h).symm
    exact (@EarlyExit.steps_of_foldlM _ _ _ _ _ _ (fun b b' : Bool => b = true → b' = true) (fun _ => id)
      (fun h1 h2 hb => h2 (h1 hb)) hmono hf).1 hx
  · obtain ⟨t, t', ht, _, _⟩ := hsteps cl hcl
    exact (checkXpermCondNode_some ht).noConflict
  · by_cases hfx : found = true
    · rcases hfound hfx with hs | hn
      · exact Or.inl hs
      · exact Or.inr (Or.inl hn)
    · obtain ⟨cl, hcl, t, t', ht, h1, h2⟩ :=
        @EarlyExit.exists_step_of_foldlM _ _ _ _ _ _ (fun st : XpermState => st.foundXperm = true) h hfx hx
      exact Or.inr (Or.inr ⟨cl, hcl, ((checkXpermCondNode_some ht).found h2).resolve_left h1⟩)
  · obtain ⟨t, t', ht, _, hend⟩ := hsteps cl hcl
    refine (checkXpermCondNode_some ht).base hc ?_
    rw [Bool.eq_false_iff]
    intro hconfl
    rw [hend.2 hconfl] at hno
    cases hno

/-! ### The loops over the pairs of attributes -/

/-- What a verdict that the extended permissions are safe says about the keys of the pairs of attributes. -/
structure PairsSafe (p : Policydb) (narule : Avrule) (conditional : Bool) (k : AvtabKey) (s t : Nat) : Prop where
  noConflict : ∀ i ∈ p.typeAttrMap s, ∀ j ∈ p.typeAttrMap t, ∀ n ∈ avtabSearchNodes p.teAvtab (xpermsKey k i j),
    xpermsKnown n.datum.xperms = true → NoConflict narule n
  condNoConflict : ∀ i ∈ p.typeAttrMap s, ∀ j ∈ p.typeAttrMap t, ∀ cl ∈ p.condList, ∀ b n,
    some n ∈ branchNodes p cl b → IsXperm narule (xpermsKey k i j) n → NoConflict narule n
  found : conditional = false → ∃ i ∈ p.typeAttrMap s, ∃ j ∈ p.typeAttrMap t,
    (∃ n ∈ avtabSearchNodes p.teAvtab (xpermsKey k i j), xpermsKnown n.datum.xperms = true) ∨
      ∃ cl ∈ p.condList, ∀ b, ∃ n, some n ∈ branchNodes p cl b ∧ IsXperm narule (xpermsKey k i j) n
  base : conditional = true → ∀ i ∈ p.typeAttrMap s, ∀ j ∈ p.typeAttrMap t, ∀ cl ∈ p.condList, ∀ b n,
    some n ∈ branchNodes p cl b → IsBase narule (xpermsKey k i j) n →
      ∃ n', some n' ∈ branchNodes p cl b ∧ IsXperm narule (xpermsKey k i j) n'

private theorem pairsSafe_of_check {conditional : Bool} (hs : (p.typeAttrMap s).Canonical)
    (ht : (p.typeAttrMap t).Canonical)
    (h : checkAssertionExtendedPermissionsAvtab narule s t k p conditional = false) :
    PairsSafe p narule conditional k s t := by
  rw [checkAssertionExtendedPermissionsAvtab] at h
  split at h
  · cases h
  rename_i st hfold
  simp only [Bool.or_eq_false_iff] at h
  have hpair : ∀ {i j : Nat} {u u' : XpermState}, checkXpermPair p narule conditional k i u j = some u' → u.Le u' :=
    fun h => (checkXpermPair_some h).le
  have hrow : ∀ {i : Nat} {u u' : XpermState},
      (ebitmapPositiveBits (p.typeAttrMap t)).foldlM (checkXpermPair p narule conditional k i) u = some u' →
        u.Le u' :=
    fun h => (EarlyExit.steps_of_foldlM XpermState.Le.refl XpermState.Le.trans hpair h).1
  obtain ⟨_, hsteps⟩ := EarlyExit.steps_of_foldlM XpermState.Le.refl XpermState.Le.trans hrow hfold
  -- every pair of attributes was checked in some state, and what it set is set at the end
  have hall : ∀ i ∈ p.typeAttrMap s, ∀ j ∈ p.typeAttrMap t, ∃ u u',
      PairStep p narule conditional (xpermsKey k i j) u u' ∧ u'.Le st := fun i hi j hj => by
    obtain ⟨v, v', hv, _, hvst⟩ := hsteps i ((mem_ebitmapPositiveBits hs).2 hi)
    obtain ⟨_, hinner⟩ := EarlyExit.steps_of_foldlM XpermState.Le.refl XpermState.Le.trans hpair hv
    obtain ⟨u, u', hu, _, huv⟩ := hinner j ((mem_ebitmapPositiveBits ht).2 hj)
    exact ⟨u, u', checkXpermPair_some hu, huv.trans hvst⟩
  refine ⟨fun i hi j hj => ?_, fun i hi j hj => ?_, fun hc => ?_, fun hc i hi j hj => ?_⟩
  · obtain ⟨u, u', hstep, _⟩ := hall i hi j hj
    exact hstep.noConflict
  · obtain ⟨u, u', hstep, _⟩ := hall i hi j hj
    exact hstep.condNoConflict
  · have hfound : st.foundXperm = true := by simpa [hc] using h.1
    obtain ⟨i, hi, v, v', hv, hv1, hv2⟩ := @EarlyExit.exists_step_of_foldlM _ _ _ _ _ _
      (fun u : XpermState => u.foundXperm = true) hfold (by simp) hfound
    obtain ⟨j, hj, u, u', hu, hu1, hu2⟩ := @EarlyExit.exists_step_of_foldlM _ _ _ _ _ _
      (fun u : XpermState => u.foundXperm = true) hv hv1 hv2
    exact ⟨i, (mem_ebitmapPositiveBits hs).1 hi, j, (mem_ebitmapPositiveBits ht).1 hj,
      ((checkXpermPair_some hu).found hu2).resolve_left hu1⟩
  · obtain ⟨u, u', hstep, hle⟩ := hall i hi j hj
    refine hstep.base hc ?_
    rw [Bool.eq_false_iff]
    intro hconfl
    rw [hle.2 hconfl] at h
    cases h.2

/-! ### Soundness -/

private theorem xpermsKnown_of_ioctl {x : AvtabExtendedPerms}
    (h : x.specified = avtabXpermsIoctlfunction ∨ x.specified = avtabXpermsIoctldriver) : xpermsKnown x = true := by
  rcases h with h | h <;> simp [xpermsKnown, h]

private theorem attrKey_toNat {i : Nat} (hi : i < 65535) : (BitVec.ofNat 16 (i + 1)).toNat - 1 = i := by
  rw [BitVec.toNat_ofNat, Nat.mod_eq_of_lt (by omega), Nat.add_sub_cancel]

private theorem attrKey_of_toNat {x : BitVec 16} (hx : 1 ≤ x.toNat) : BitVec.ofNat 16 (x.toNat - 1 + 1) = x := by
  rw [Nat.sub_add_cancel hx, BitVec.ofNat_toNat, BitVec.setWidth_eq]

private theorem exists_xpermsKey (hd : DualMaps p) (hs : IsType p s) (ht : IsType p t) (hn : NodeOk n)
    (hcov : Covers p n.key s t) (hcls : k.targetClass = n.key.targetClass) :
    ∃ i ∈ p.typeAttrMap s, ∃ j ∈ p.typeAttrMap t, sameTypes (xpermsKey k i j) n.key ∧
      matchNodeKey n (xpermsKey k i j) = true := by
  refine ⟨_, (hd s hs _).2 hcov.source, _, (hd t ht _).2 hcov.target, ?_⟩
  simp [sameTypes, matchNodeKey, xpermsKey, attrKey_of_toNat hn.source, attrKey_of_toNat hn.target, hcls]

private theorem covers_of_xpermsKey (hfit : ∀ i, ∀ a ∈ p.typeAttrMap i, a < 65535) (hd : DualMaps p) (hs : IsType p s)
    (ht : IsType p t) {i j : Nat}
    (hi : i ∈ p.typeAttrMap s) (hj : j ∈ p.typeAttrMap t) (hkey : sameTypes (xpermsKey k i j) n.key) :
    Covers p n.key s t ∧ n.key.targetClass = k.targetClass := by
  obtain ⟨h1, h2, h3⟩ := hkey
  simp only [xpermsKey] at h1 h2 h3
  refine ⟨⟨?_, ?_⟩, h3.symm⟩
  · rw [← h1, attrKey_toNat (hfit s i hi)]
    exact (hd s hs i).1 hi
  · rw [← h2, attrKey_toNat (hfit t j hj)]
    exact (hd t ht j).1 hj

private theorem mem_search_xpermsKey (h : p.teAvtab.Ok) {i j : Nat} :
    n ∈ avtabSearchNodes p.teAvtab (xpermsKey k i j) ↔
      n ∈ avtabNodes p.teAvtab ∧ sameTypes (xpermsKey k i j) n.key ∧ n.IsAllowxperm := by
  have hmask : (xpermsKey k i j).specified &&& ~~~avtabEnabled = avtabXpermsAllowed := by
    change avtabXpermsAllowed &&& ~~~avtabEnabled = avtabXpermsAllowed
    decide
  rw [mem_avtabSearchNodes h, hmask, hasSpecified, BitVec.and_comm]
  rfl

private theorem sameTypes_of_matchNodeKey (h : matchNodeKey n key = true) : sameTypes key n.key := by
  simp only [matchNodeKey, Bool.and_eq_true, decide_eq_true_eq] at h
  exact ⟨h.1.1.symm, h.1.2.symm, h.2.symm⟩

/-- When an entry that grants a base permission passes the check, the extended permissions of its types are safe. -/
private theorem xpermsSafe_of_pairsSafe (h : XpermsOk p narule) (hfit : TypesFit p) (hs : IsType p s)
    (ht : IsType p t) {n : AvtabNode} {cp : ClassPermNode} {conditional : Bool} (hcov : Covers p n.key s t)
    (hg : Grants narule n.key n.datum cp) (hsafe : PairsSafe p narule conditional n.key s t)
    (hact : conditional = false ∨ conditional = true ∧ NodeOk n ∧ ∃ (i : Nat) (cl : CondNode),
      p.condList[i]? = some cl ∧ some n ∈ branchNodes p cl (σ i)) :
    (∃ n', AppliesTo p σ n' s t n.key.targetClass.toNat ∧ n'.IsAllowxperm) ∧
      ∀ n', AppliesTo p σ n' s t n.key.targetClass.toNat → n'.IsAllowxperm →
        ∀ driver function, ¬ (narule.xperms.ForbidsIoctl driver function ∧
          n'.datum.xperms.GrantsIoctl driver function) := by
  have hcond : ∀ {cl : CondNode} {b : Bool} {n' : AvtabNode}, some n' ∈ branchNodes p cl b → NodeOk n' :=
    fun hn' => by
    obtain ⟨addr, _, ha⟩ := List.mem_map.1 hn'
    exact (h.condNodeAt ha).2
  have happlies : ∀ {i j : Nat} {n' : AvtabNode}, i ∈ p.typeAttrMap s → j ∈ p.typeAttrMap t →
      sameTypes (xpermsKey n.key i j) n'.key → ActiveNode p σ n' → AppliesTo p σ n' s t n.key.targetClass.toNat :=
    fun hi hj hkey hact => by
      have hlt : ∀ i, ∀ a ∈ p.typeAttrMap i, a < 65535 := fun i a ha => Nat.lt_of_lt_of_le (h.bound i a ha) hfit
      obtain ⟨hc, hcls⟩ := covers_of_xpermsKey hlt h.dual hs ht hi hj hkey
      exact ⟨hact, hc, by rw [hcls]⟩
  constructor
  · rcases hact with hc | ⟨hc, hn, i, cl, hcl, hbr⟩
    · obtain ⟨i, hi, j, hj, ⟨n', hn', _⟩ | ⟨cl, hcl, hboth⟩⟩ := hsafe.found hc
      · obtain ⟨hmem, hkey, hspec⟩ := (mem_search_xpermsKey h.table).1 hn'
        exact ⟨n', happlies hi hj hkey (Or.inl hmem), hspec⟩
      · -- both lists of the conditional have such a rule, so the active one has
        obtain ⟨m, hm⟩ := List.getElem?_of_mem hcl
        obtain ⟨n', hn', hx⟩ := hboth (σ m)
        exact ⟨n', happlies hi hj (sameTypes_of_matchNodeKey hx.1) (Or.inr ⟨m, cl, hm, hn'⟩), hx.2.2.1⟩
    · obtain ⟨a, ha, b, hb, _, hmatch⟩ := exists_xpermsKey h.dual hs ht hn hcov rfl
      have hbase : IsBase narule (xpermsKey n.key a b) n :=
        ⟨hmatch, hg.allowed, matchAnyClassPermissions_iff.2 ⟨cp, hg.mem, hg.tclass, hg.data⟩⟩
      obtain ⟨n', hn', hx⟩ := hsafe.base hc a ha b hb cl (List.mem_of_getElem? hcl) (σ i) n hbr hbase
      exact ⟨n', happlies ha hb (sameTypes_of_matchNodeKey hx.1) (Or.inr ⟨i, cl, hcl, hn'⟩), hx.2.2.1⟩
  · rintro n' ⟨hactive, hcov', hcls⟩ hallow driver function ⟨hforbid, hgrant⟩
    have hcls : n.key.targetClass = n'.key.targetClass := (BitVec.eq_of_toNat_eq hcls).symm
    have hconf : NoConflict narule n' := by
      rcases hactive with hmem | ⟨m, cl, hcl, hbr⟩
      · have hn' := h.node n' hmem
        obtain ⟨i, hi, j, hj, hkey, _⟩ := exists_xpermsKey h.dual hs ht hn' hcov' hcls
        exact hsafe.noConflict i hi j hj n' ((mem_search_xpermsKey h.table).2 ⟨hmem, hkey, hallow⟩)
          (xpermsKnown_of_ioctl (hn'.ioctl hallow))
      · have hn' := hcond hbr
        obtain ⟨i, hi, j, hj, _, hmatch⟩ := exists_xpermsKey h.dual hs ht hn' hcov' hcls
        refine hsafe.condNoConflict i hi j hj cl (List.mem_of_getElem? hcl) (σ m) n' hbr
          ⟨hmatch, fun hb => ?_, hallow,
          xpermsKnown_of_ioctl (hn'.ioctl hallow)⟩
        have hbase := hb.2.1
        rw [hn'.single hallow] at hbase
        cases hbase
    have := checkExtendedPermissions_of_common hforbid hgrant
    rw [hconf] at this
    cases this

/-- The check of an entry with a base permission that finds nothing found its extended permissions safe. -/
private theorem pairsSafe_of_avtabMatch (h : XpermsOk p narule) {cp : ClassPermNode} {conditional : Bool}
    {errors : Nat} (hg : Grants narule n.key n.datum cp) (hpair : CommonPair p narule n.key s t)
    (hcheck : (checkAssertionAvtabMatch n.key n.datum ⟨p, narule, errors, conditional⟩).1 = 0) :
    PairsSafe p narule conditional n.key s t := by
  have hf := h.flags.flagsOk
  have hself : narule.isSelf = true → t = s := fun hself => by
    rcases h.flags with h0 | ⟨h1, hempty⟩ | h2
    · simp [Avrule.isSelf, h0] at hself
    · have ht := hpair.target
      rw [Targets, if_neg (by simp [Avrule.isNotself, h1])] at ht
      exact (ht.resolve_left (hempty t)).2
    · simp [Avrule.isSelf, h2] at hself
  have henum := (pair_enumerated_iff h.bitmaps hf s t).2 ⟨hpair, hself⟩
  have hmatch := (targetMatches_iff h.bitmaps hf).2 ⟨s, t, hpair⟩
  have hperms := matchAnyClassPermissions_iff.2 ⟨cp, hg.mem, hg.tclass, hg.data⟩
  have hzero : checkAssertionExtendedPermissions narule n.key p conditional = 0 := by
    by_contra hne
    simp only [checkAssertionAvtabMatch, hg.allowed, hperms, hmatch.1, hmatch.2, h.specified, hne, Bool.not_true,
      Bool.false_eq_true, if_false, if_true] at hcheck
    exact absurd hcheck (by decide)
  have hsrc := @srcMatches_canonical _ _ n.key h.bitmaps
  have htgt := @tgtMatches_canonical _ _ n.key h.bitmaps
  have hs : ¬ ebitmapIsEmpty (srcMatches p narule n.key) = true := fun he => (ebitmapIsEmpty_iff hsrc).1 he s henum.1
  have ht : ¬ ebitmapIsEmpty (tgtMatches p narule n.key) = true :=
    fun he => (ebitmapIsEmpty_iff htgt).1 he t henum.2.1
  rw [checkAssertionExtendedPermissions, if_neg hs, if_neg ht] at hzero
  refine pairsSafe_of_check (h.typeAttrMap s) (h.typeAttrMap t) ?_
  rw [Bool.eq_false_iff]
  intro hx
  rw [if_pos] at hzero
  · cases hzero
  · rw [List.any_eq_true]
    refine ⟨s, (mem_ebitmapPositiveBits hsrc).2 henum.1, ?_⟩
    rw [List.any_eq_true]
    exact ⟨t, (mem_ebitmapPositiveBits htgt).2 henum.2.1, by simp [henum.2.2, hx]⟩

private theorem avtabMapNodes_eq_zero {apply : AvtabKey → AvtabDatum → AvtabMatchArgs → Int × AvtabMatchArgs}
    {a : AvtabMatchArgs} {l : List AvtabNode} (happly : ∀ k d, (apply k d a).2 = a)
    (h : (avtabMapNodes apply l a).1 = 0) : ∀ n ∈ l, (apply n.key n.datum a).1 = 0 := by
  induction l with
  | nil => exact fun n hn => (List.not_mem_nil hn).elim
  | cons m l ih =>
    rw [avtabMapNodes] at h
    split at h
    · exact absurd h ‹_›
    · rename_i hm
      rw [happly] at h
      intro n hn
      rcases List.mem_cons.1 hn with rfl | hn
      · simpa using hm
      · exact ih h n hn

private theorem checkAssertionAvtabMatch_snd (k : AvtabKey) (d : AvtabDatum) (a : AvtabMatchArgs) :
    (checkAssertionAvtabMatch k d a).2 = a := by
  rw [checkAssertionAvtabMatch]
  repeat' split
  all_goals rfl

private theorem avtabMapNodes_snd {apply : AvtabKey → AvtabDatum → AvtabMatchArgs → Int × AvtabMatchArgs}
    {a : AvtabMatchArgs}
    (happly : ∀ k d, (apply k d a).2 = a) (l : List AvtabNode) : (avtabMapNodes apply l a).2 = a := by
  induction l with
  | nil => rfl
  | cons m l ih =>
    rw [avtabMapNodes]
    split
    · exact happly ..
    · rw [happly, ih]

private theorem check_entries_of_checkAssertion (h : checkAssertion p narule = 0) :
    (∀ n ∈ avtabNodes p.teAvtab, (checkAssertionAvtabMatch n.key n.datum ⟨p, narule, 0, false⟩).1 = 0) ∧
      ∀ n ∈ avtabNodes p.teCondAvtab, (checkAssertionAvtabMatch n.key n.datum ⟨p, narule, 0, true⟩).1 = 0 := by
  have hsnd : ∀ {a : AvtabMatchArgs} k d, (checkAssertionAvtabMatch k d a).2 = a := fun k d =>
    checkAssertionAvtabMatch_snd k d _
  rw [checkAssertion] at h
  dsimp only at h
  split at h
  · rename_i hzero
    have hargs : (avtabMap p.teAvtab checkAssertionAvtabMatch ⟨p, narule, 0, false⟩).2 = ⟨p, narule, 0, false⟩ :=
      avtabMapNodes_snd hsnd _
    rw [hargs] at h
    exact ⟨avtabMapNodes_eq_zero hsnd hzero, avtabMapNodes_eq_zero hsnd h⟩
  · exact absurd h ‹_›

/-- When `check_assertion` accepts a rule with extended permissions, they are safe under every assignment of the
conditionals, provided that all types and attributes fit in a key. -/
theorem checkAssertion_xpermsSafe (h : XpermsOk p narule) (hfit : TypesFit p) (hcheck : checkAssertion p narule = 0)
    (σ : Nat → Bool) {s t : Nat} (hs : IsType p s) (ht : IsType p t) (hsrc : s ∈ narule.stypes.types)
    (htgt : Targets narule s t) (c : Nat) : XpermsSafe p narule σ s t c := by
  obtain ⟨hte, hcond⟩ := check_entries_of_checkAssertion hcheck
  rw [XpermsSafe, or_iff_not_imp_left, not_not]
  rintro ⟨n, cp, ⟨hact, hcov, rfl⟩, hg⟩
  have hpair : CommonPair p narule n.key s t := ⟨hcov, hsrc, htgt⟩
  rcases hact with hmem | ⟨i, cl, hcl, hbr⟩
  · exact xpermsSafe_of_pairsSafe h hfit hs ht hcov hg (pairsSafe_of_avtabMatch h hg hpair (hte n hmem)) (Or.inl rfl)
  · obtain ⟨addr, _, ha⟩ := List.mem_map.1 hbr
    obtain ⟨hmem, hn⟩ := h.condNodeAt ha
    exact xpermsSafe_of_pairsSafe h hfit hs ht hcov hg (pairsSafe_of_avtabMatch h hg hpair (hcond n hmem))
      (Or.inr ⟨rfl, hn, i, cl, hcl, hbr⟩)

/-- A policy with the types 0 to 65534, no attributes, and the rules `allow 4 4 : c p` and
`allowxperm 4 4 : c ioctl 1`. -/
def xpermsPolicy : Policydb where
  __ := policydbInit
  pTypes := ⟨[], 65535⟩
  typeValToStruct := fun i => if i < 65535 then some ⟨i + 1, .type, 0⟩ else none
  teAvtab := oneChain
    [⟨⟨5, 5, 1, avtabXpermsAllowed⟩, ⟨0, ⟨avtabXpermsIoctldriver, 0, fun i => if i.val = 0 then 1 else 0⟩⟩, 0⟩,
      ⟨⟨5, 5, 1, avtabAllowed⟩, ⟨1, ⟨0, 0, fun _ => 0⟩⟩, 1⟩]
  typeAttrMap := selfMap 65535
  attrTypeMap := selfMap 65535

/-- The rule `neverallowxperm 4 4 : c ioctl 2`, where all commands of a driver are meant. -/
def neverallowxperm44 : Avrule where
  specified := avruleXpermsNeverallow
  flags := 0
  stypes := ⟨ebitmapOfList [4]⟩
  ttypes := ⟨ebitmapOfList [4]⟩
  perms := [⟨1, 1⟩]
  xperms := ⟨avruleXpermsIoctldriver, 0, fun i => if i.val = 0 then 4 else 0⟩

private theorem nodeOk_pair {l : List AvtabNode} {x y n : AvtabNode} (hl : l = [x, y]) (hx : NodeOk x)
    (hy : NodeOk y) (hn : n ∈ avtabNodes (oneChain l)) : NodeOk n := by
  rw [avtabNodes_oneChain, hl] at hn
  rcases List.mem_cons.1 hn with rfl | hn
  · exact hx
  · obtain rfl := List.mem_singleton.1 hn
    exact hy

private theorem nodeOk_ioctl {key : AvtabKey} {perms : Fin extendedPermsLen → BitVec 32} {addr : Nat}
    (h1 : 1 ≤ key.sourceType.toNat) (h2 : 1 ≤ key.targetType.toNat) (h3 : key.specified = avtabXpermsAllowed) :
    NodeOk ⟨key, ⟨0, ⟨avtabXpermsIoctldriver, 0, perms⟩⟩, addr⟩ :=
  ⟨h1, h2, fun _ => Or.inr rfl, fun _ => by rw [h3]; decide⟩

private theorem nodeOk_allow {key : AvtabKey} {d : AvtabDatum} {addr : Nat} (h1 : 1 ≤ key.sourceType.toNat)
    (h2 : 1 ≤ key.targetType.toNat) (h3 : key.specified = avtabAllowed) : NodeOk ⟨key, d, addr⟩ := by
  have hno : ¬ (⟨key, d, addr⟩ : AvtabNode).IsAllowxperm := by
    unfold AvtabNode.IsAllowxperm
    rw [h3]
    decide
  exact ⟨h1, h2, fun h => absurd h hno, fun h => absurd h hno⟩

private theorem xpermsPolicy_ok : XpermsOk xpermsPolicy neverallowxperm44 where
  bitmaps := ⟨selfMap_canonical _, ebitmapOfList_canonical _, ebitmapOfList_canonical _⟩
  typeAttrMap := selfMap_canonical _
  bound := fun i a ha => by
    have := (mem_selfMap (by decide : 65535 ≤ 2 ^ 32 - 64)).1 ha
    simp only [xpermsPolicy]
    omega
  dual := fun i _ a => by
    simp only [xpermsPolicy, mem_selfMap (by decide : 65535 ≤ 2 ^ 32 - 64)]
    omega
  table := oneChain_ok (by decide)
  node := fun _ => nodeOk_pair rfl (nodeOk_ioctl (by decide) (by decide) rfl)
    (nodeOk_allow (by decide) (by decide) rfl)
  condNode := fun n hn => by cases hn
  specified := rfl
  flags := Or.inl rfl

theorem checkAssertion_xpermsSafe_example : XpermsSafe xpermsPolicy neverallowxperm44 (fun _ => true) 4 4 1 := by
  have h4 : 4 ∈ neverallowxperm44.stypes.types := by decide +kernel
  have htype : IsType xpermsPolicy 4 := ⟨⟨5, .type, 0⟩, rfl, by decide⟩
  exact checkAssertion_xpermsSafe xpermsPolicy_ok (Nat.le_refl _) (by decide +kernel) _ htype htype h4 (Or.inl h4) 1

/-- A policy in which type 4 has the attribute 65536, whose key is that of type 0: the rules are
`allowxperm 0 4 : c ioctl 1` and `allow 4 4 : c p`. -/
def wideTypesPolicy : Policydb where
  __ := policydbInit
  pTypes := ⟨[], 65537⟩
  typeValToStruct := fun i =>
    if i < 65536 then some ⟨i + 1, .type, 0⟩ else if i = 65536 then some ⟨i + 1, .attrib, 0⟩ else none
  teAvtab := oneChain
    [⟨⟨1, 5, 1, avtabXpermsAllowed⟩, ⟨0, ⟨avtabXpermsIoctldriver, 0, fun i => if i.val = 0 then 1 else 0⟩⟩, 0⟩,
      ⟨⟨5, 5, 1, avtabAllowed⟩, ⟨1, ⟨0, 0, fun _ => 0⟩⟩, 1⟩]
  typeAttrMap := fun i => if i = 4 then ebitmapOfList [4, 65536] else selfMap 65536 i
  attrTypeMap := fun a => if a = 65536 then ebitmapOfList [4] else selfMap 65536 a

private theorem wideTypes_isType {i : Nat} (h : IsType wideTypesPolicy i) : i < 65536 := by
  obtain ⟨d, hd, hflavor⟩ := h
  simp only [wideTypesPolicy] at hd
  split at hd
  · assumption
  · split at hd
    · obtain rfl := Option.some.inj hd
      exact absurd rfl hflavor
    · cases hd

private theorem wideTypes_dual : DualMaps wideTypesPolicy := by
  intro i hi a
  have hi := wideTypes_isType hi
  have hself : ∀ {i j : Nat}, j ∈ selfMap 65536 i ↔ j = i ∧ i < 65536 := mem_selfMap (by decide)
  simp only [wideTypesPolicy]
  by_cases ha : a = 65536 <;> by_cases h4 : i = 4
  · rw [if_pos h4, if_pos ha, mem_ebitmapOfList (by simp), mem_ebitmapOfList (by simp)]
    simp [ha, h4]
  · rw [if_neg h4, if_pos ha, mem_ebitmapOfList (by simp), hself, List.mem_singleton]
    omega
  · rw [if_pos h4, if_neg ha, mem_ebitmapOfList (by simp), hself]
    simp [h4]
    omega
  · rw [if_neg h4, if_neg ha, hself, hself]
    omega

private theorem wideTypes_ok : XpermsOk wideTypesPolicy neverallowxperm44 where
  bitmaps :=
    { attrTypeMap := fun i => by
        simp only [wideTypesPolicy]
        split <;> first | exact ebitmapOfList_canonical _ | exact selfMap_canonical ..
      stypes := ebitmapOfList_canonical _
      ttypes := ebitmapOfList_canonical _ }
  typeAttrMap := fun i => by
    simp only [wideTypesPolicy]; split <;> first | exact ebitmapOfList_canonical _ | exact selfMap_canonical ..
  bound := fun i a ha => by
    simp only [wideTypesPolicy] at ha ⊢
    split at ha
    · have : a = 4 ∨ a = 65536 := by simpa using (mem_ebitmapOfList (by simp) a).1 ha
      omega
    · have := (mem_selfMap (by decide : 65536 ≤ 2 ^ 32 - 64)).1 ha
      omega
  dual := wideTypes_dual
  table := oneChain_ok (by decide)
  node := fun _ => nodeOk_pair rfl (nodeOk_ioctl (by decide) (by decide) rfl)
    (nodeOk_allow (by decide) (by decide) rfl)
  condNode := fun n hn => by cases hn
  specified := rfl
  flags := Or.inl rfl

/-- With attribute 65536, the rule `allowxperm 0 4` is taken for one of type 4, so the grant of all commands by
`allow 4 4` is accepted. -/
theorem checkAssertion_accepts_wideTypes :
    ¬ ∀ (p : Policydb) (narule : Avrule), XpermsOk p narule → checkAssertion p narule = 0 →
      ∀ (σ : Nat → Bool) (s t : Nat), IsType p s → IsType p t → s ∈ narule.stypes.types → Targets narule s t →
        ∀ c, XpermsSafe p narule σ s t c := by
  intro h
  have hcheck : checkAssertion wideTypesPolicy neverallowxperm44 = 0 := by decide +kernel
  have h4 : 4 ∈ neverallowxperm44.stypes.types := by decide +kernel
  have hatt : 4 ∈ wideTypesPolicy.attrTypeMap 4 := by decide +kernel
  have htype : IsType wideTypesPolicy 4 := ⟨⟨5, .type, 0⟩, rfl, by decide⟩
  have hnodes : avtabNodes wideTypesPolicy.teAvtab = _ := avtabNodes_oneChain _
  have hsafe := h wideTypesPolicy neverallowxperm44 wideTypes_ok hcheck (fun _ => true) 4 4 htype htype h4
    (Or.inl h4) 1
  rcases hsafe with hno | ⟨⟨n, ⟨hact, hcov, _⟩, hallow⟩, _⟩
  · refine hno ⟨⟨⟨5, 5, 1, avtabAllowed⟩, ⟨1, ⟨0, 0, fun _ => 0⟩⟩, 1⟩, ⟨1, 1⟩, ⟨Or.inl ?_, ⟨hatt, hatt⟩, rfl⟩,
      ⟨by decide, List.mem_singleton_self _, rfl, by decide⟩⟩
    rw [hnodes]
    exact List.mem_cons_of_mem _ (List.mem_singleton_self _)
  · rcases hact with hmem | ⟨i, cl, hcl, _⟩
    · rw [hnodes] at hmem
      rcases List.mem_cons.1 hmem with rfl | hmem
      · have : 4 ∉ wideTypesPolicy.attrTypeMap 0 := by decide +kernel
        exact this hcov.source
      · obtain rfl := List.mem_singleton.1 hmem
        revert hallow
        unfold AvtabNode.IsAllowxperm
        decide
    · cases hcl

end Sepol
