import Sepol.CondCopy

/-!
# Normalization of conditionals

Whether an expression has a value does not depend on the states of the booleans, so the loop of `cond_normalize_expr`
over the table fails at its first entry or not at all.  When it fails, the booleans keep the states of that entry,
which are all false.  When it succeeds, the booleans have their states back, and the branch that is selected is the
same as before, unless an operator `!` was dropped that does not negate the value.
-/

namespace Sepol

variable {α β : Type} {σ τ : Nat → Bool} {expr : List CondExpr} {cn : CondNodeT α β}

/-- The distinct booleans of an expression. -/
def exprBools (expr : List CondExpr) : List Nat :=
  ((expr.filter fun e => e.exprType = condBool).map fun e => e.boolean).dedup

private theorem mem_exprBools {id : Nat} : id ∈ exprBools expr ↔ exprHasBool expr id := by
  simp only [exprBools, exprHasBool, List.mem_dedup, List.mem_map, List.mem_filter, decide_eq_true_eq, and_assoc]

private theorem exprBools_length_le_iff {ids : List Nat} (hnodup : ids.Nodup)
    (hmem : ∀ id, id ∈ ids ↔ exprHasBool expr id) : (exprBools expr).length = ids.length := by
  refine List.Perm.length_eq ((List.perm_ext_iff_of_nodup (List.nodup_dedup _) hnodup).2 fun id => ?_)
  rw [hmem]
  exact mem_exprBools

/-- As long as at most five booleans have been met, all of them are in the list, so the next one is counted only when
it is new. -/
private theorem condCountBools_le (expr : List CondExpr) (n : Nat) (ids : List Nat) (hlen : ids.length = n)
    (hnodup : ids.Nodup) (hn : n ≤ condMaxBools)
    (hmax : ∀ all : List Nat, all.Nodup → (∀ id ∈ all, id ∈ ids ∨ exprHasBool expr id) → all.length ≤ condMaxBools) :
    (condCountBools expr (n, ids)).1 ≤ condMaxBools := by
  induction expr generalizing n ids with
  | nil => exact hn
  | cons e expr ih =>
    have hpresent : boolPresent e.boolean ids n = decide (e.boolean ∈ ids) := by
      rw [boolPresent, if_neg (by omega), ← hlen, List.take_length]
    have hrest : ∀ {id : Nat}, exprHasBool expr id → exprHasBool (e :: expr) id := by
      intro id h
      obtain ⟨e', he', hid⟩ := h
      exact ⟨e', List.mem_cons_of_mem _ he', hid⟩
    rw [condCountBools, hpresent]
    split
    · rename_i hnew
      have hnot : e.boolean ∉ ids := by simpa using hnew.2
      have hnodup' : (ids ++ [e.boolean]).Nodup := by
        refine List.nodup_append.2 ⟨hnodup, List.nodup_singleton _, fun x hx y hy => ?_⟩
        rw [List.mem_singleton.1 hy]
        exact fun h => hnot (h ▸ hx)
      have hown : exprHasBool (e :: expr) e.boolean := ⟨e, List.mem_cons_self .., hnew.1, rfl⟩
      have hsucc : (ids ++ [e.boolean]).length ≤ condMaxBools := by
        refine hmax _ hnodup' fun id hid => ?_
        rcases List.mem_append.1 hid with hid | hid
        · exact Or.inl hid
        · rw [List.mem_singleton.1 hid]
          exact Or.inr hown
      rw [List.length_append, List.length_singleton] at hsucc
      rw [if_pos (by omega)]
      refine ih (n + 1) _ (by simp [hlen]) hnodup' (by omega) fun all hall hsub => hmax all hall fun id hid => ?_
      rcases hsub id hid with hid | hid
      · rcases List.mem_append.1 hid with hid | hid
        · exact Or.inl hid
        · rw [List.mem_singleton.1 hid]
          exact Or.inr hown
      · exact Or.inr (hrest hid)
    · refine ih n ids hlen hnodup hn fun all hall hsub => hmax all hall fun id hid => ?_
      rcases hsub id hid with hid | hid
      · exact Or.inl hid
      · exact Or.inr (hrest hid)

private theorem condCountBools_le_iff (expr : List CondExpr) :
    (condCountBools expr (0, [])).1 ≤ condMaxBools ↔ (exprBools expr).length ≤ condMaxBools := by
  constructor
  · intro h
    obtain ⟨hlen, hnodup, hmem⟩ := condCountBools_spec expr 0 [] rfl List.nodup_nil h
    rw [exprBools_length_le_iff hnodup fun id => by simp [hmem], hlen]
    exact h
  · intro h
    refine condCountBools_le expr 0 [] rfl List.nodup_nil (Nat.zero_le _) fun all hall hsub => ?_
    refine Nat.le_trans (List.Subperm.length_le (hall.subperm fun id hid => ?_)) h
    exact mem_exprBools.2 ((hsub id hid).resolve_left (List.not_mem_nil))

/-! ### Definedness -/

private theorem condEvaluateStep_height (σ τ : Nat → Bool) (e : CondExpr) {s s' : List Bool}
    (h : s.length = s'.length) :
    (condEvaluateStep σ e s).map List.length = (condEvaluateStep τ e s').map List.length := by
  obtain ⟨exprType, boolean⟩ := e
  by_cases hbool : exprType = condBool
  · subst hbool
    simp only [condEvaluateStep, h]
    split
    · rfl
    · simp [h]
  · unfold condEvaluateStep
    rcases exprType with _ | _ | _ | _ | _ | _ | _ | _ | exprType
    case neg.succ.zero => exact absurd rfl hbool
    all_goals
      rcases s with _ | ⟨a, _ | ⟨b, s⟩⟩ <;> rcases s' with _ | ⟨a', _ | ⟨b', s'⟩⟩ <;> simp at h
      all_goals simp [h]

private theorem condEvaluateExpr_isSome (σ τ : Nat → Bool) (expr : List CondExpr) :
    (condEvaluateExpr σ expr).isSome = (condEvaluateExpr τ expr).isSome := by
  have hfold : ∀ s s' : List Bool, s.length = s'.length →
      (expr.foldlM (fun s cur => condEvaluateStep σ cur s) s).map List.length =
        (expr.foldlM (fun s cur => condEvaluateStep τ cur s) s').map List.length := by
    induction expr with
    | nil => exact fun s s' h => congrArg some h
    | cons e expr ih =>
      intro s s' h
      have hstep := condEvaluateStep_height σ τ e h
      rw [List.foldlM_cons, List.foldlM_cons]
      cases hσ : condEvaluateStep σ e s with
      | none =>
        rw [hσ, Option.map_none, eq_comm, Option.map_eq_none_iff] at hstep
        rw [hstep]
        rfl
      | some t =>
        rw [hσ, Option.map_some, eq_comm, Option.map_eq_some_iff] at hstep
        obtain ⟨t', hτ, hlen⟩ := hstep
        rw [hτ]
        exact ih t t' hlen.symm
  have h := hfold [] [] rfl
  unfold condEvaluateExpr
  cases hσ : expr.foldlM (fun s cur => condEvaluateStep σ cur s) [] with
  | none =>
    rw [hσ, Option.map_none, eq_comm, Option.map_eq_none_iff] at h
    rw [h]
  | some t =>
    rw [hσ, Option.map_some, eq_comm, Option.map_eq_some_iff] at h
    obtain ⟨t', hτ, hlen⟩ := h
    rw [hτ, Option.bind_some, Option.bind_some, Bool.eq_iff_iff, List.getLast?_isSome, List.getLast?_isSome]
    simp only [ne_eq, ← List.length_eq_zero_iff, hlen]

/-- An expression is defined under every assignment or under none. -/
private theorem exprDefined_iff (σ : Nat → Bool) : ExprDefined expr ↔ (condEvaluateExpr σ expr).isSome = true := by
  constructor
  · intro h
    exact h σ
  · intro h τ
    rw [condEvaluateExpr_isSome τ σ]
    exact h

/-! ### A successful normalization -/

/-- The lists of the branch that the value of the expression selects. -/
def CondNodeT.selectedLists (σ : Nat → Bool) (cn : CondNodeT α β) : Option (List β × List α) :=
  (condEvaluateExpr σ cn.expr).map fun v => if v then (cn.trueList, cn.avtrueList) else (cn.falseList, cn.avfalseList)

private theorem condStripNot_last {front : List CondExpr} {e : CondExpr} (hexpr : cn.expr = front ++ [e]) :
    condStripNot cn = if e.exprType = condNot then if front = [] then none else some { cn with
        expr := front
        trueList := cn.falseList
        falseList := cn.trueList
        avtrueList := cn.avfalseList
        avfalseList := cn.avtrueList }
      else some cn := by
  have hlast : cn.expr.getLast? = some e := by rw [hexpr, List.getLast?_concat]
  have hdrop : cn.expr.dropLast = front := by rw [hexpr, List.dropLast_concat]
  have hlen : cn.expr.length = 1 ↔ front = [] := by
    rw [hexpr, List.length_append, List.length_singleton, Nat.add_eq_right, List.length_eq_zero_iff]
  unfold condStripNot
  simp only [hlast, hdrop, hlen]

/-- Without its last operator `!` an expression is defined when it was defined before, and has the same booleans. -/
private theorem condStripNot_keeps {cn' : CondNodeT α β} (h : condStripNot cn = some cn') (σ : Nat → Bool) :
    (condEvaluateExpr σ cn'.expr).isSome = (condEvaluateExpr σ cn.expr).isSome ∧
      ∀ id, exprHasBool cn'.expr id ↔ exprHasBool cn.expr id := by
  rcases List.eq_nil_or_concat' cn.expr with hnil | ⟨front, e, hexpr⟩
  · unfold condStripNot at h
    rw [hnil] at h
    cases h
  · rw [condStripNot_last hexpr] at h
    split at h
    · rename_i hnot
      split at h
      · cases h
      · cases h
        rw [hexpr, condEvaluateExpr_concat_not σ front hnot, Option.isSome_map]
        refine ⟨rfl, fun id => ?_⟩
        simp only [exprHasBool, List.mem_append, List.mem_singleton]
        constructor
        · intro ⟨e', he', hid⟩
          exact ⟨e', Or.inl he', hid⟩
        · intro ⟨e', he', hty, hid⟩
          refine ⟨e', he'.resolve_right fun heq => ?_, hty, hid⟩
          rw [heq, hnot] at hty
          cases hty
    · cases h
      exact ⟨rfl, fun id => Iff.rfl⟩

/-- An operator `!` that negates the value is dropped without a change of what is selected. -/
private theorem condStripNot_selected {cn' : CondNodeT α β} (h : condStripNot cn = some cn')
    (hdepth : trailingNots cn.expr = 0 ∨ condExprDepth cn.expr = 1) (σ : Nat → Bool) :
    cn'.selectedLists σ = cn.selectedLists σ := by
  rcases List.eq_nil_or_concat' cn.expr with hnil | ⟨front, e, hexpr⟩
  · unfold condStripNot at h
    rw [hnil] at h
    cases h
  · rw [condStripNot_last hexpr] at h
    split at h
    · rename_i hnot
      rw [hexpr, trailingNots_concat, if_pos hnot, condExprDepth_concat_not _ hnot] at hdepth
      have hone : condExprDepth front = 1 := hdepth.resolve_left (by omega)
      split at h
      · cases h
      · cases h
        simp only [CondNodeT.selectedLists, hexpr, condEvaluateExpr_concat_not σ front hnot, hone, if_true,
          Option.map_map]
        cases condEvaluateExpr σ front with
        | none => rfl
        | some v => cases v <;> rfl
    · cases h
      rfl

/-- `cond_normalize_expr` for a node whose expression has a value under every assignment: it succeeds and gives the
booleans their states back; in every assignment it leaves the lists that are selected, unless the expression ends with
an operator `!` that does not negate its value; and when there are at most five booleans, it lists each of them once
and the table holds the values of the expression. -/
theorem condNormalizeExpr_preserves (state : Nat → Bool) (cn : CondNodeT α β) (hvalid : BoolsValid cn.expr)
    (hdef : ExprDefined cn.expr) :
    ∃ cn' : CondNodeT α β, condNormalizeExpr state cn = (true, state, cn') ∧
      (trailingNots cn.expr = 0 ∨ condExprDepth cn.expr = 1 →
        ∀ σ : Nat → Bool, cn'.selectedLists σ = cn.selectedLists σ) ∧
      ((exprBools cn.expr).length ≤ condMaxBools →
        cn'.nbools = cn'.boolIds.length ∧ cn'.boolIds.Nodup ∧ (∀ id, id ∈ cn'.boolIds ↔ exprHasBool cn.expr id) ∧
          ∀ t < 2 ^ cn'.nbools, ∀ σ : Nat → Bool,
            (∀ (i : Nat) (hi : i < cn'.boolIds.length), σ (cn'.boolIds[i] - 1) = t.testBit i) →
              condEvaluateExpr σ cn'.expr = some (cn'.exprPreComp.getLsbD t)) := by
  obtain ⟨cn₁, hnorm, hdef₁, -⟩ := condNormalizeExpr_defined state hdef
  have hok : (condNormalizeExpr state cn).1 = true := by rw [hnorm]
  obtain ⟨cn', hstrip, pre, heq, -⟩ := condNormalizeExpr_ok hok
  have htable := condNormalizeExpr_normalized hvalid hok
  obtain ⟨-, hbools⟩ := condStripNot_keeps hstrip state
  rw [hnorm] at heq htable
  change cn₁ = _ at heq
  refine ⟨cn₁, hnorm, fun hdepth σ => ?_, fun hmax => ?_⟩
  · have hsel := condStripNot_selected hstrip (by exact hdepth) σ
    rw [heq]
    exact hsel
  · -- the booleans of the stripped expression are those of the expression
    have hlen : (exprBools cn'.expr).length = (exprBools cn.expr).length :=
      exprBools_length_le_iff (List.nodup_dedup _) fun id => mem_exprBools.trans (hbools id).symm
    rw [← hlen, ← condCountBools_le_iff] at hmax
    have hmem := (condCountBools_spec cn'.expr 0 [] rfl List.nodup_nil hmax).2.2
    have hle : cn₁.nbools ≤ condMaxBools := by rw [heq]; exact hmax
    have hlisted : ∀ id, id ∈ cn₁.boolIds ↔ exprHasBool cn.expr id := by
      intro id
      rw [heq]
      refine (hmem id).trans ?_
      simp only [List.not_mem_nil, false_or]
      exact hbools id
    have hcount := htable.length hle
    have hnodup := htable.nodup hle
    refine ⟨hcount.symm, hnodup, hlisted, fun t ht σ hσ => ?_⟩
    rw [htable.table hle σ]
    -- the assignment is the one of entry `t`
    have hindex : TruthTable.index (fun id => σ (id - 1)) cn₁.boolIds = t := by
      have hlt : t < 2 ^ cn₁.boolIds.length := by rw [show cn₁.boolIds.length = cn₁.nbools from hcount]; exact ht
      refine Eq.trans (TruthTable.index_congr fun id hid => ?_) (TruthTable.index_assign hnodup hlt)
      have hlt := List.idxOf_lt_length_of_mem hid
      have hbit := hσ (cn₁.boolIds.idxOf id) hlt
      rw [List.getElem_idxOf hlt] at hbit
      rw [hbit, TruthTable.assign]
    rw [hindex]

/-- A node with the expression `b₁ b₂`, which ends with `k` operators `!` for `b₂`. -/
def condTwoValues (k : Nat) : CondNodeT Nat Nat where
  curState := none
  expr := [⟨condBool, 1⟩, ⟨condBool, 2⟩] ++ List.replicate k ⟨condNot, 0⟩
  trueList := [1]
  falseList := [2]
  avtrueList := [1]
  avfalseList := [2]
  nbools := 0
  boolIds := []
  exprPreComp := 0
  flags := 0

private theorem condTwoValues_defined (k : Nat) (hk : k ≤ 1) : ExprDefined (condTwoValues k).expr := by
  intro σ
  obtain rfl | rfl : k = 0 ∨ k = 1 := by omega
  · rfl
  · rfl

private theorem condTwoValues_valid (k : Nat) : BoolsValid (condTwoValues k).expr := by
  intro id ⟨e, he, hty, hid⟩
  rcases List.mem_append.1 he with he | he
  · simp only [List.mem_cons, List.not_mem_nil, or_false] at he
    rcases he with rfl | rfl
    · rw [← hid]
    · rw [← hid]
      exact Nat.le_succ 1
  · rw [(List.mem_replicate.1 he).2] at hty
    cases hty

/-- The lists that the expression `b₁ b₂` selects stay. -/
theorem condNormalizeExpr_preserves_two :
    ∃ cn', condNormalizeExpr (fun _ => true) (condTwoValues 0) = (true, (fun _ => true), cn') ∧
      ∀ σ : Nat → Bool, cn'.selectedLists σ = (condTwoValues 0).selectedLists σ := by
  obtain ⟨cn', hnorm, hsel, -⟩ := condNormalizeExpr_preserves (fun _ => true) (condTwoValues 0)
    (condTwoValues_valid 0) (condTwoValues_defined 0 (by decide))
  exact ⟨cn', hnorm, hsel (Or.inl (by decide))⟩

/-- The operator of the expression `b₁ b₂ !` does not reach the value, which is that of `b₁`, but it is dropped and
the lists are exchanged. -/
theorem condNormalizeExpr_swaps :
    ExprDefined (condTwoValues 1).expr ∧ BoolsValid (condTwoValues 1).expr ∧
      (condNormalizeExpr (fun _ => true) (condTwoValues 1)).1 = true ∧
      (condNormalizeExpr (fun _ => true) (condTwoValues 1)).2.2.selectedLists (fun _ => true) ≠
        (condTwoValues 1).selectedLists fun _ => true :=
  ⟨condTwoValues_defined 1 (by decide), condTwoValues_valid 1, by decide, by decide⟩

/-! ### A failing normalization -/

/-- The states of the booleans for the first entry of the table. -/
private theorem condSetBools_zero (boolIds : List Nat) (j : Nat) (state : Nat → Bool) :
    condSetBools 0 j boolIds state = state ↔ ∀ id ∈ boolIds, state (id - 1) = false := by
  have hzero : ∀ (boolIds : List Nat) (j : Nat) (state : Nat → Bool) (i : Nat),
      state i = false → condSetBools 0 j boolIds state i = false := by
    intro boolIds
    induction boolIds with
    | nil => exact fun j state i h => h
    | cons id boolIds ih =>
      intro j state i h
      refine ih _ _ _ ?_
      by_cases hi : i = id - 1
      · rw [hi, Function.update_self, Nat.zero_testBit]
      · rw [Function.update_of_ne hi, h]
  constructor
  · intro h id hid
    rw [← h]
    clear h
    induction boolIds generalizing j state with
    | nil => cases hid
    | cons id' boolIds ih =>
      rw [condSetBools]
      rcases List.mem_cons.1 hid with rfl | hid
      · exact hzero _ _ _ _ (by rw [Function.update_self, Nat.zero_testBit])
      · exact ih _ _ hid
  · intro h
    induction boolIds generalizing j with
    | nil => rfl
    | cons id boolIds ih =>
      have hkeep : Function.update state (id - 1) (Nat.testBit 0 j) = state := by
        rw [Nat.zero_testBit, ← h id (List.mem_cons_self ..), Function.update_eq_self]
      rw [condSetBools, hkeep]
      exact ih _ fun id' hid' => h id' (List.mem_cons_of_mem _ hid')

private theorem condPrecompute_undefined (hundef : ¬ ExprDefined expr) (boolIds : List Nat) (n : Nat)
    (state : Nat → Bool) (pre : BitVec 32) :
    condPrecompute expr boolIds (List.range (2 ^ n)) state pre = (false, condSetBools 0 0 boolIds state, pre) := by
  obtain ⟨m, hm⟩ : ∃ m, 2 ^ n = m + 1 := ⟨2 ^ n - 1, by have := Nat.two_pow_pos n; omega⟩
  have hnone : condEvaluateExpr (condSetBools 0 0 boolIds state) expr = none := by
    rw [exprDefined_iff (condSetBools 0 0 boolIds state), Option.not_isSome_iff_eq_none] at hundef
    exact hundef
  rw [hm, List.range_succ_eq_map, condPrecompute]
  simp only [hnone]

/-- A call that fails has left the booleans alone exactly when it did not fail in the loop over the table, or all
booleans of the expression were false. -/
theorem condNormalizeExpr_restores_iff (state : Nat → Bool) (cn : CondNodeT α β) (_hbools : BoolsValid cn.expr) :
    ((condNormalizeExpr state cn).1 = false → (condNormalizeExpr state cn).2.1 = state) ↔
      (condEvaluateExpr state cn.expr).isSome ∨ condMaxBools < (exprBools cn.expr).length ∨
        ∀ id, exprHasBool cn.expr id → state (id - 1) = false := by
  cases hstrip : condStripNot { cn with nbools := 0, boolIds := [], exprPreComp := 0 } with
  | none =>
    have hres : (condNormalizeExpr state cn).2.1 = state := by
      unfold condNormalizeExpr
      extract_lets reset
      rw [show condStripNot reset = none from hstrip]
    refine iff_of_true (fun _ => hres) (Or.inr (Or.inr fun id hid => ?_))
    -- such an expression is empty or a lone operator
    exfalso
    obtain ⟨e, he, hty, _⟩ := hid
    rcases List.eq_nil_or_concat' cn.expr with hnil | ⟨front, e', hexpr⟩
    · rw [hnil] at he
      cases he
    · rw [condStripNot_last (by exact hexpr)] at hstrip
      split at hstrip
      · rename_i hnot
        split at hstrip
        · rename_i hfront
          rw [hexpr, hfront, List.nil_append, List.mem_singleton] at he
          rw [he, hnot] at hty
          cases hty
        · cases hstrip
      · cases hstrip
  | some cn' =>
    obtain ⟨hsome, hbools⟩ := condStripNot_keeps hstrip state
    change (condEvaluateExpr state cn'.expr).isSome = (condEvaluateExpr state cn.expr).isSome at hsome
    change ∀ id, exprHasBool cn'.expr id ↔ exprHasBool cn.expr id at hbools
    have hlen : (exprBools cn'.expr).length = (exprBools cn.expr).length :=
      exprBools_length_le_iff (List.nodup_dedup _) fun id => mem_exprBools.trans (hbools id).symm
    by_cases hdef : (condEvaluateExpr state cn.expr).isSome
    · have hdef' : ExprDefined cn'.expr := (exprDefined_iff state).2 (hsome.trans hdef)
      obtain ⟨nbools, boolIds, pre, heq⟩ := condNormalizeExpr_of_strip state hstrip hdef'
      rw [heq]
      exact iff_of_true (fun _ => rfl) (Or.inl hdef)
    · have hundef : ¬ ExprDefined cn'.expr := fun h => hdef (hsome ▸ (exprDefined_iff state).1 h)
      unfold condNormalizeExpr
      extract_lets reset
      rw [show condStripNot reset = some cn' from hstrip]
      dsimp only
      by_cases hmax : (condCountBools cn'.expr (0, [])).1 ≤ condMaxBools
      · have hmem := (condCountBools_spec cn'.expr 0 [] rfl List.nodup_nil hmax).2.2
        rw [if_pos hmax, condPrecompute_undefined hundef, if_neg Bool.false_ne_true]
        rw [condCountBools_le_iff, hlen] at hmax
        simp only [forall_const, condSetBools_zero, hmem, List.not_mem_nil, false_or, hbools]
        constructor
        · intro h
          exact Or.inr (Or.inr h)
        · intro h
          exact (h.resolve_left hdef).resolve_left (by omega)
      · rw [if_neg hmax]
        rw [condCountBools_le_iff, hlen] at hmax
        exact iff_of_true (fun h => by cases h) (Or.inr (Or.inl (by omega)))

/-- A node whose expression pushes the first boolean eleven times. -/
def condDeep : CondNodeT Nat Nat where
  curState := none
  expr := List.replicate 11 ⟨condBool, 1⟩
  trueList := []
  falseList := []
  avtrueList := []
  avfalseList := []
  nbools := 0
  boolIds := []
  exprPreComp := 0
  flags := 0

private theorem condDeep_boolsValid : BoolsValid condDeep.expr := by
  rintro id ⟨e, he, _, rfl⟩
  rw [List.eq_of_mem_replicate he]

/-- The boolean was false before. -/
theorem condNormalizeExpr_restores_iff_deep :
    (condNormalizeExpr (fun _ => false) condDeep).1 = false ∧
      (condNormalizeExpr (fun _ => false) condDeep).2.1 = fun _ => false := by
  have hfails : (condNormalizeExpr (fun _ => false) condDeep).1 = false := by decide
  exact ⟨hfails, (condNormalizeExpr_restores_iff (fun _ => false) condDeep condDeep_boolsValid).2
    (Or.inr (Or.inr fun _ _ => rfl)) hfails⟩

/-- The stack overflows while the table is computed, and the boolean that was true is false afterwards. -/
theorem condNormalizeExpr_not_restored :
    (condNormalizeExpr (fun _ => true) condDeep).1 = false ∧
      (condNormalizeExpr (fun _ => true) condDeep).2.1 ≠ fun _ => true := by
  refine ⟨by decide, fun h => ?_⟩
  have hzero := congrFun h 0
  revert hzero
  decide

end Sepol
