import Sepol.Conditional

/-!
# Comparing normalized expressions

`cond_normalize_expr` computes the truth table of an expression of at most five booleans, in the order in which the
booleans first appear (`CondNormalized`).  `cond_expr_equal` compares two tables as numbers and the booleans as sets:
that is right exactly when the table stays the same in the order of the other expression (`TablesAgree`).
-/

namespace Sepol

variable {α β : Type} {σ τ : Nat → Bool} {expr : List CondExpr} {cn a b : CondNodeT α β} {boolIds : List Nat}

/-! ### Evaluation -/

/-- A step depends on the value of the boolean that it pushes, if it pushes one. -/
theorem condEvaluateStep_congr (σ τ : Nat → Bool) {cur cur' : CondExpr} (hty : cur.exprType = cur'.exprType)
    (h : cur.exprType = condBool → σ (cur.boolean - 1) = τ (cur'.boolean - 1)) (s : List Bool) :
    condEvaluateStep σ cur s = condEvaluateStep τ cur' s := by
  obtain ⟨exprType, boolean⟩ := cur
  obtain ⟨exprType', boolean'⟩ := cur'
  obtain rfl : exprType = exprType' := hty
  by_cases hbool : exprType = condBool
  · have heq : σ (boolean - 1) = τ (boolean' - 1) := h hbool
    subst hbool
    simp only [condEvaluateStep, heq]
  · unfold condEvaluateStep
    -- beyond the operators both steps are undefined
    rcases exprType with _ | _ | _ | _ | _ | _ | _ | _ | exprType
    case neg.succ.zero => exact absurd rfl hbool
    all_goals rcases s with _ | ⟨b, _ | ⟨a, s⟩⟩
    all_goals rfl

private theorem condEvaluateExpr_congr (h : ∀ id, exprHasBool expr id → σ (id - 1) = τ (id - 1)) :
    condEvaluateExpr σ expr = condEvaluateExpr τ expr := by
  have hfold : ∀ s, expr.foldlM (fun s cur => condEvaluateStep σ cur s) s =
      expr.foldlM (fun s cur => condEvaluateStep τ cur s) s := by
    induction expr with
    | nil => exact fun s => rfl
    | cons e expr ih =>
      intro s
      have htail : ∀ id, exprHasBool expr id → σ (id - 1) = τ (id - 1) := by
        rintro id ⟨e', he', hid⟩
        exact h id ⟨e', List.mem_cons_of_mem _ he', hid⟩
      have hstep := condEvaluateStep_congr σ τ rfl
        (fun hty => h e.boolean ⟨e, List.mem_cons_self .., hty, rfl⟩) s
      rw [List.foldlM_cons, List.foldlM_cons, hstep]
      simp only [ih htail]
  rw [condEvaluateExpr, condEvaluateExpr, hfold]

/-- Entry by entry equal expressions have the same values. -/
private theorem condEvaluateExpr_of_same {expr expr' : List CondExpr} (h : condExprSame expr expr' = true)
    (σ : Nat → Bool) : condEvaluateExpr σ expr = condEvaluateExpr σ expr' := by
  have hfold : ∀ s, expr.foldlM (fun s cur => condEvaluateStep σ cur s) s =
      expr'.foldlM (fun s cur => condEvaluateStep σ cur s) s := by
    induction expr generalizing expr' with
    | nil =>
      cases expr' with
      | nil => exact fun s => rfl
      | cons e' expr' => cases h
    | cons e expr ih =>
      cases expr' with
      | nil => cases h
      | cons e' expr' =>
        intro s
        rw [condExprSame] at h
        split at h
        · cases h
        · rename_i hty
          split at h
          · cases h
          · rename_i hbool
            have hstep := condEvaluateStep_congr σ σ (not_not.1 hty) (fun hb => by
              have heq : e.boolean = e'.boolean := by
                by_contra hne
                exact hbool ⟨hb, hne⟩
              rw [heq]) s
            rw [List.foldlM_cons, List.foldlM_cons, hstep]
            simp only [ih h]
  rw [condEvaluateExpr, condEvaluateExpr, hfold]

/-! ### The booleans of an expression -/

private theorem le_condCountBools (expr : List CondExpr) (n : Nat) (ids : List Nat) :
    n ≤ (condCountBools expr (n, ids)).1 := by
  induction expr generalizing n ids with
  | nil => exact Nat.le_refl _
  | cons e expr ih =>
    rw [condCountBools]
    split
    · exact Nat.le_trans (Nat.le_succ n) (ih _ _)
    · exact ih _ _

private theorem exprHasBool_cons {e : CondExpr} {id : Nat} :
    exprHasBool (e :: expr) id ↔ e.exprType = condBool ∧ e.boolean = id ∨ exprHasBool expr id := by
  simp [exprHasBool]

/-- When there are at most five booleans all of them are recorded, once each. -/
theorem condCountBools_spec (expr : List CondExpr) (n : Nat) (ids : List Nat) (hlen : ids.length = n)
    (hnodup : ids.Nodup) (hmax : (condCountBools expr (n, ids)).1 ≤ condMaxBools) :
    (condCountBools expr (n, ids)).2.length = (condCountBools expr (n, ids)).1 ∧
      (condCountBools expr (n, ids)).2.Nodup ∧
      ∀ id, id ∈ (condCountBools expr (n, ids)).2 ↔ id ∈ ids ∨ exprHasBool expr id := by
  induction expr generalizing n ids with
  | nil => exact ⟨hlen, hnodup, fun id => by simp [condCountBools, exprHasBool]⟩
  | cons e expr ih =>
    have hn : n ≤ condMaxBools := Nat.le_trans (le_condCountBools _ n ids) hmax
    have hpresent : boolPresent e.boolean ids n = decide (e.boolean ∈ ids) := by
      rw [boolPresent, if_neg (by omega), ← hlen, List.take_length]
    rw [condCountBools, hpresent] at hmax ⊢
    split at hmax
    · rename_i hnew
      have hnew' : e.boolean ∉ ids := by simpa using hnew.2
      have hlt : n < condMaxBools := by
        have := le_condCountBools expr (n + 1) (if n < condMaxBools then ids ++ [e.boolean] else ids)
        omega
      rw [if_pos hnew]
      rw [if_pos hlt] at hmax ⊢
      obtain ⟨h1, h2, h3⟩ := ih (n + 1) (ids ++ [e.boolean]) (by simp [hlen])
        (List.nodup_append.2 ⟨hnodup, List.nodup_singleton _, fun x hx y hy => by
          rw [List.mem_singleton.1 hy]
          exact fun h => hnew' (h ▸ hx)⟩) hmax
      refine ⟨h1, h2, fun id => ?_⟩
      rw [h3, exprHasBool_cons, List.mem_append, List.mem_singleton]
      constructor
      · rintro ((h | h) | h)
        · exact Or.inl h
        · exact Or.inr (Or.inl ⟨hnew.1, h.symm⟩)
        · exact Or.inr (Or.inr h)
      · rintro (h | ⟨_, h⟩ | h)
        · exact Or.inl (Or.inl h)
        · exact Or.inl (Or.inr h.symm)
        · exact Or.inr h
    · rename_i hold
      rw [if_neg hold]
      obtain ⟨h1, h2, h3⟩ := ih n ids hlen hnodup hmax
      refine ⟨h1, h2, fun id => ?_⟩
      rw [h3, exprHasBool_cons]
      constructor
      · rintro (h | h)
        · exact Or.inl h
        · exact Or.inr (Or.inr h)
      · rintro (h | ⟨hty, h⟩ | h)
        · exact Or.inl h
        · by_contra hno
          push Not at hno
          exact hold ⟨hty, by simpa [h] using hno.1⟩
        · exact Or.inr h

/-! ### The table -/

/-- The states of the booleans for an entry of the table. -/
def tableState (boolIds : List Nat) (test i : Nat) : Bool := TruthTable.assign boolIds test (i + 1)

theorem condSetBools_of_notMem {test i : Nat} (h : ∀ id ∈ boolIds, i ≠ id - 1) (j : Nat)
    (state : Nat → Bool) : condSetBools test j boolIds state i = state i := by
  induction boolIds generalizing j state with
  | nil => rfl
  | cons id boolIds ih =>
    rw [condSetBools, ih (fun id' hid' => h id' (List.mem_cons_of_mem _ hid')),
      Function.update_of_ne (h id (List.mem_cons_self ..))]

private theorem condSetBools_of_mem {test id : Nat} (hnodup : boolIds.Nodup) (hpos : ∀ id ∈ boolIds, 1 ≤ id)
    (hid : id ∈ boolIds) (j : Nat) (state : Nat → Bool) :
    condSetBools test j boolIds state (id - 1) = test.testBit (j + boolIds.idxOf id) := by
  induction boolIds generalizing j state with
  | nil => cases hid
  | cons id' boolIds ih =>
    have hnodup' := List.nodup_cons.1 hnodup
    rw [condSetBools]
    by_cases heq : id' = id
    · subst heq
      have hkeep : ∀ x ∈ boolIds, id' - 1 ≠ x - 1 := by
        intro x hx h
        have hx1 := hpos x (List.mem_cons_of_mem _ hx)
        have hid1 := hpos id' (List.mem_cons_self ..)
        have hxid : x = id' := by omega
        exact hnodup'.1 (hxid ▸ hx)
      rw [condSetBools_of_notMem hkeep, Function.update_self, List.idxOf_cons_self, Nat.add_zero]
    · have hmem := (List.mem_cons.1 hid).resolve_left (Ne.symm heq)
      rw [ih hnodup'.2 (fun x hx => hpos x (List.mem_cons_of_mem _ hx)) hmem, List.idxOf_cons_ne _ heq]
      congr 1
      omega

/-- What the loop sets is the assignment of the entry, as far as the expression goes. -/
private theorem condEvaluateExpr_setBools (hnodup : boolIds.Nodup) (hvalid : BoolsValid expr)
    (hmem : ∀ id, id ∈ boolIds ↔ exprHasBool expr id) (test : Nat) (state : Nat → Bool) :
    condEvaluateExpr (condSetBools test 0 boolIds state) expr = condEvaluateExpr (tableState boolIds test) expr := by
  refine condEvaluateExpr_congr fun id hid => ?_
  have hpos : ∀ id ∈ boolIds, 1 ≤ id := fun id hid => hvalid id ((hmem id).1 hid)
  rw [condSetBools_of_mem hnodup hpos ((hmem id).2 hid), Nat.zero_add, tableState, TruthTable.assign,
    Nat.sub_add_cancel (hvalid id hid)]

private theorem getLsbD_setBit (pre : BitVec 32) {test t : Nat} (ht : t < 32) (k : Bool) :
    (if k then pre ||| 1#32 <<< test else pre).getLsbD t = (pre.getLsbD t || (decide (t = test) && k)) := by
  cases k with
  | false => simp
  | true =>
    rw [if_pos rfl, BitVec.getLsbD_or, BitVec.getLsbD_shiftLeft, BitVec.getLsbD_one, Bool.and_true]
    congr 1
    rw [Bool.eq_iff_iff]
    simp only [Bool.and_eq_true, Bool.not_eq_true', decide_eq_true_eq, decide_eq_false_iff_not]
    omega

/-- A successful loop saw a defined value at every test and has set the bits of the true ones. -/
private theorem condPrecompute_spec (hnodup : boolIds.Nodup) (hvalid : BoolsValid expr)
    (hmem : ∀ id, id ∈ boolIds ↔ exprHasBool expr id) {tests : List Nat} {state : Nat → Bool} {pre : BitVec 32}
    (hok : (condPrecompute expr boolIds tests state pre).1 = true) :
    (∀ t ∈ tests, (condEvaluateExpr (tableState boolIds t) expr).isSome) ∧
      ∀ t < 32, (condPrecompute expr boolIds tests state pre).2.2.getLsbD t =
        (pre.getLsbD t || (decide (t ∈ tests) &&
          decide (condEvaluateExpr (tableState boolIds t) expr = some true))) := by
  induction tests generalizing state pre with
  | nil => exact ⟨fun t ht => (List.not_mem_nil ht).elim, fun t _ => by simp [condPrecompute]⟩
  | cons test tests ih =>
    simp only [condPrecompute] at hok ⊢
    have heval := condEvaluateExpr_setBools hnodup hvalid hmem test state
    cases hk : condEvaluateExpr (condSetBools test 0 boolIds state) expr with
    | none => simp [hk] at hok
    | some k =>
      rw [hk] at heval
      simp only [hk] at hok ⊢
      obtain ⟨h1, h2⟩ := ih hok
      refine ⟨fun t ht => ?_, fun t ht => ?_⟩
      · rcases List.mem_cons.1 ht with rfl | ht
        · rw [← heval]
          rfl
        · exact h1 t ht
      · rw [h2 t ht, getLsbD_setBit pre ht]
        by_cases heq : t = test
        · subst heq
          rw [← heval]
          cases k <;> simp
        · simp [heq]

/-! ### Normal forms -/

/-- A node with at most five booleans has them all in `bool_ids`, and its table holds the values of its expression. -/
structure CondNormalized (cn : CondNodeT α β) : Prop where
  length : cn.nbools ≤ condMaxBools → cn.boolIds.length = cn.nbools
  nodup : cn.nbools ≤ condMaxBools → cn.boolIds.Nodup
  pos : cn.nbools ≤ condMaxBools → ∀ id ∈ cn.boolIds, 1 ≤ id
  table : cn.nbools ≤ condMaxBools → ∀ σ : Nat → Bool, condEvaluateExpr σ cn.expr =
    some (cn.exprPreComp.getLsbD (TruthTable.index (fun id => σ (id - 1)) cn.boolIds))

private theorem exprHasBool_dropLast {id : Nat} (h : exprHasBool expr.dropLast id) : exprHasBool expr id := by
  obtain ⟨e, he, hid⟩ := h
  exact ⟨e, List.mem_of_mem_dropLast he, hid⟩

private theorem condStripNot_expr {cn' : CondNodeT α β} (h : condStripNot cn = some cn') :
    cn'.expr = cn.expr ∨ cn'.expr = cn.expr.dropLast := by
  unfold condStripNot at h
  split at h
  · cases h
  · split at h
    · split at h
      · cases h
      · exact Or.inr (by rw [← Option.some.inj h])
    · exact Or.inl (by rw [← Option.some.inj h])

private theorem boolsValid_condStripNot {cn' : CondNodeT α β} (hvalid : BoolsValid cn.expr)
    (h : condStripNot cn = some cn') : BoolsValid cn'.expr := by
  rcases condStripNot_expr h with heq | heq
  · rwa [heq]
  · rw [heq]
    exact fun id hid => hvalid id (exprHasBool_dropLast hid)

/-- A successful normalization has stripped the expression, counted its booleans and, when they are few, computed the
table. -/
theorem condNormalizeExpr_ok {state : Nat → Bool} (hok : (condNormalizeExpr state cn).1 = true) :
    ∃ cn' : CondNodeT α β, condStripNot { cn with nbools := 0, boolIds := [], exprPreComp := 0 } = some cn' ∧
      ∃ pre : BitVec 32, (condNormalizeExpr state cn).2.2 =
          { cn' with nbools := (condCountBools cn'.expr (0, [])).1, boolIds := (condCountBools cn'.expr (0, [])).2,
                     exprPreComp := pre } ∧
        ((condCountBools cn'.expr (0, [])).1 ≤ condMaxBools → ∃ state' : Nat → Bool,
          condPrecompute cn'.expr (condCountBools cn'.expr (0, [])).2
            (List.range (2 ^ (condCountBools cn'.expr (0, [])).1)) state 0 = (true, state', pre)) := by
  unfold condNormalizeExpr at hok ⊢
  extract_lets at hok ⊢
  split at hok
  · cases hok
  · rename_i cn' hstrip
    refine ⟨cn', hstrip, ?_⟩
    extract_lets at hok ⊢
    split at hok
    · split at hok
      · rename_i hmax hpre
        refine ⟨_, ?_, fun _ => ⟨_, Prod.ext hpre rfl⟩⟩
        rw [if_pos hmax, if_pos hpre]
      · cases hok
    · rename_i hmax
      refine ⟨cn'.exprPreComp, ?_, fun h => absurd h hmax⟩
      rw [if_neg hmax]

/-- What `cond_normalize_expr` leaves when it succeeds. -/
theorem condNormalizeExpr_normalized {state : Nat → Bool} (hvalid : BoolsValid cn.expr)
    (hok : (condNormalizeExpr state cn).1 = true) : CondNormalized (condNormalizeExpr state cn).2.2 := by
  obtain ⟨cn', hstrip, pre, heq, hpre⟩ := condNormalizeExpr_ok hok
  have hvalid' : BoolsValid cn'.expr := boolsValid_condStripNot (by exact hvalid) hstrip
  rw [heq]
  by_cases hmax : (condCountBools cn'.expr (0, [])).1 ≤ condMaxBools
  · obtain ⟨state', hloop⟩ := hpre hmax
    obtain ⟨hlen, hnodup, hmem⟩ := condCountBools_spec cn'.expr 0 [] rfl List.nodup_nil hmax
    generalize condCountBools cn'.expr (0, []) = bools at hmax hloop hlen hnodup hmem ⊢
    have hmem' : ∀ id, id ∈ bools.2 ↔ exprHasBool cn'.expr id := by
      intro id
      rw [hmem]
      simp
    have hspec := condPrecompute_spec hnodup hvalid' hmem' (by rw [hloop])
    rw [hloop] at hspec
    obtain ⟨hsome, hbits⟩ := hspec
    refine ⟨fun _ => hlen, fun _ => hnodup, fun _ id hid => hvalid' id ((hmem' id).1 hid), fun _ σ => ?_⟩
    -- the assignment is that of the entry with its number
    have hlt := TruthTable.index_lt (fun id => σ (id - 1)) bools.2
    rw [hlen] at hlt
    have hpow : 2 ^ bools.1 ≤ 32 := Nat.le_trans (Nat.pow_le_pow_right (by omega) hmax) (by decide)
    have heval : condEvaluateExpr σ cn'.expr =
        condEvaluateExpr (tableState bools.2 (TruthTable.index (fun id => σ (id - 1)) bools.2)) cn'.expr := by
      refine condEvaluateExpr_congr fun id hid => ?_
      rw [tableState, Nat.sub_add_cancel (hvalid' id hid), TruthTable.assign_index ((hmem' id).2 hid)]
    obtain ⟨k, hk⟩ := Option.isSome_iff_exists.1 (hsome _ (List.mem_range.2 hlt))
    have hbit := hbits _ (show TruthTable.index (fun id => σ (id - 1)) bools.2 < 32 by omega)
    simp only
    rw [hbit, heval, hk]
    cases k <;> simp [hlt]
  · exact ⟨fun h => absurd h hmax, fun h => absurd h hmax, fun h => absurd h hmax, fun h => absurd h hmax⟩

/-! ### Equal tables -/

/-- The table that two expressions of the same booleans share stays the same when it is read in the order of the
booleans of the second expression. -/
def TablesAgree (a b : CondNodeT α β) : Prop :=
  a.nbools = b.nbools → a.nbools ≤ condMaxBools → sameBools a b = true → a.exprPreComp = b.exprPreComp →
    ∀ test < 2 ^ a.nbools,
      a.exprPreComp.getLsbD test = a.exprPreComp.getLsbD (TruthTable.reindex a.boolIds b.boolIds test)

private theorem sameBools_perm (ha : CondNormalized a) (hb : CondNormalized b) (hmax : a.nbools ≤ condMaxBools)
    (h : sameBools a b = true) : a.boolIds.Perm b.boolIds := by
  unfold sameBools at h
  split at h
  · cases h
  · rename_i hne
    have heq : a.nbools = b.nbools := not_not.1 hne
    have hmaxb : b.nbools ≤ condMaxBools := heq ▸ hmax
    have hsub : a.boolIds ⊆ b.boolIds := by
      intro id hid
      have hid' := List.all_eq_true.1 h id (by rwa [← ha.length hmax, List.take_length])
      rw [boolPresent, if_neg (by omega), heq, ← hb.length hmaxb, List.take_length] at hid'
      exact of_decide_eq_true hid'
    refine ((ha.nodup hmax).subperm hsub).perm_of_length_le ?_
    rw [ha.length hmax, hb.length hmaxb, heq]

/-- Expressions of the same few booleans have the same values when their tables agree in every assignment. -/
private theorem evaluate_eq_iff_index (ha : CondNormalized a) (hb : CondNormalized b)
    (hmaxa : a.nbools ≤ condMaxBools)
    (hmaxb : b.nbools ≤ condMaxBools) :
    (∀ σ, condEvaluateExpr σ a.expr = condEvaluateExpr σ b.expr) ↔
      ∀ τ : Nat → Bool, a.exprPreComp.getLsbD (TruthTable.index τ a.boolIds) = true ↔
        b.exprPreComp.getLsbD (TruthTable.index τ b.boolIds) = true := by
  have hshift : ∀ (cn : CondNodeT α β) (τ : Nat → Bool), CondNormalized cn → cn.nbools ≤ condMaxBools →
      TruthTable.index (fun id => τ (id - 1 + 1)) cn.boolIds = TruthTable.index τ cn.boolIds := by
    intro cn τ hcn hmax
    refine TruthTable.index_congr fun id hid => ?_
    rw [Nat.sub_add_cancel (hcn.pos hmax id hid)]
  constructor
  · intro h τ
    have hτ := h fun i => τ (i + 1)
    rw [ha.table hmaxa, hb.table hmaxb, hshift a τ ha hmaxa, hshift b τ hb hmaxb, Option.some_inj] at hτ
    rw [hτ]
  · intro h σ
    rw [ha.table hmaxa, hb.table hmaxb, Option.some_inj]
    exact Bool.eq_iff_iff.2 (h _)

/-- Two nodes that `cond_expr_equal` takes for equal have the same values exactly when their tables agree. -/
theorem condExprEqual_iff_tablesAgree (ha : CondNormalized a) (hb : CondNormalized b) :
    (condExprEqual a b = true → ∀ σ, condEvaluateExpr σ a.expr = condEvaluateExpr σ b.expr) ↔ TablesAgree a b := by
  unfold condExprEqual TablesAgree
  by_cases hlen : a.nbools = b.nbools
  · rw [if_neg (not_not.2 hlen)]
    by_cases hmax : a.nbools ≤ condMaxBools
    · have hmaxb : b.nbools ≤ condMaxBools := hlen ▸ hmax
      rw [if_pos ⟨hmax, hmaxb⟩]
      by_cases hsame : sameBools a b = true
      · have hperm := sameBools_perm ha hb hmax hsame
        have hiff := TruthTable.forall_index_iff (ha.nodup hmax) (fun id hid => hperm.mem_iff.2 hid)
          (fun i => a.exprPreComp.getLsbD i = true) (fun i => b.exprPreComp.getLsbD i = true)
        rw [evaluate_eq_iff_index ha hb hmax hmaxb, hiff, ha.length hmax]
        constructor
        · intro h _ _ _ hpre test htest
          have htest' := h (by simp [hsame, hpre]) test htest
          rw [← hpre] at htest'
          exact Bool.eq_iff_iff.2 htest'
        · intro h heq test htest
          have hpre : a.exprPreComp = b.exprPreComp := by simpa [hsame] using heq
          rw [← hpre]
          exact Bool.eq_iff_iff.1 (h hlen hmax hsame hpre test htest)
      · constructor
        · intro _ _ _ h
          exact absurd h hsame
        · intro _ h
          simp [hsame] at h
    · rw [if_neg fun h => hmax h.1]
      constructor
      · intro _ _ h
        exact absurd h hmax
      · intro _ h σ
        exact condEvaluateExpr_of_same h σ
  · rw [if_pos hlen]
    constructor
    · intro _ h
      exact absurd h hlen
    · intro _ h
      cases h

/-! ### Finding a node -/

/-- A node that `cond_normalize_expr` has brought into its normal form. -/
def IsNormalized (a : CondNodeT α β) : Prop :=
  ∃ (state : Nat → Bool) (cn : CondNodeT α β), BoolsValid cn.expr ∧ (condNormalizeExpr state cn).1 = true ∧
    (condNormalizeExpr state cn).2.2 = a

private theorem IsNormalized.condNormalized (ha : IsNormalized a) : CondNormalized a := by
  obtain ⟨state, cn, hvalid, hok, heq⟩ := ha
  exact heq ▸ condNormalizeExpr_normalized hvalid hok

theorem condNodeFind_eq_inl {state : Nat → Bool} {list : List (CondNodeT α β)} {i : Nat}
    (h : condNodeFind state a list = .inl i) : ∃ b, list[i]? = some b ∧ condExprEqual a b = true := by
  unfold condNodeFind at h
  split at h
  · rename_i j hj
    cases h
    obtain ⟨hlt, heq, _⟩ := List.findIdx?_eq_some_iff_getElem.1 hj
    exact ⟨list[i], List.getElem?_eq_getElem hlt, heq⟩
  · cases h

/-- `cond_expr_equal` is sound for normalized nodes exactly when their tables agree, and so is the merge with the node
that `cond_node_find` finds. -/
theorem condExprEqual_sound_iff (ha : IsNormalized a) :
    (∀ b, IsNormalized b →
      ((condExprEqual a b = true → ∀ σ, condEvaluateExpr σ a.expr = condEvaluateExpr σ b.expr) ↔ TablesAgree a b)) ∧
    ∀ (state : Nat → Bool) (list : List (CondNodeT α β)) (i : Nat), (∀ b ∈ list, IsNormalized b) →
      condNodeFind state a list = .inl i →
      ∃ b, list[i]? = some b ∧
        ((∀ σ, condEvaluateExpr σ a.expr = condEvaluateExpr σ b.expr) ↔ TablesAgree a b) := by
  refine ⟨fun b hb => condExprEqual_iff_tablesAgree ha.condNormalized hb.condNormalized, ?_⟩
  intro state list i hlist hfind
  obtain ⟨b, hb, heq⟩ := condNodeFind_eq_inl hfind
  refine ⟨b, hb, ?_⟩
  have hiff := condExprEqual_iff_tablesAgree ha.condNormalized
    (hlist b (List.mem_of_getElem? hb)).condNormalized
  rwa [forall_prop_of_true heq] at hiff

/-- The conditional of `x && !y`. -/
def condAndNot (x y : Nat) : CondNodeT Nat Nat where
  curState := none
  expr := [⟨condBool, x⟩, ⟨condBool, y⟩, ⟨condNot, 0⟩, ⟨condAnd, 0⟩]
  trueList := []
  falseList := []
  avtrueList := [x]
  avfalseList := [y]
  nbools := 0
  boolIds := []
  exprPreComp := 0
  flags := 0

private theorem condAndNot_isNormalized {x y : Nat} (hx : 1 ≤ x) (hy : 1 ≤ y)
    (hok : (condNormalizeExpr (fun _ => false) (condAndNot x y)).1 = true) :
    IsNormalized (condNormalizeExpr (fun _ => false) (condAndNot x y)).2.2 := by
  refine ⟨_, _, ?_, hok, rfl⟩
  rintro id ⟨e, he, hty, rfl⟩
  simp only [condAndNot, List.mem_cons, List.not_mem_nil, or_false] at he
  rcases he with rfl | rfl | rfl | rfl
  · exact hx
  · exact hy
  · cases hty
  · cases hty

/-- In a list with `2 && !1`, the node of that expression is found for `1 && !2`. -/
theorem condExprEqual_sound_iff_andNot :
    ∃ b, [(condNormalizeExpr (fun _ => false) (condAndNot 2 1)).2.2][0]? = some b ∧
      ((∀ σ, condEvaluateExpr σ (condNormalizeExpr (fun _ => false) (condAndNot 1 2)).2.2.expr =
          condEvaluateExpr σ b.expr) ↔
        TablesAgree (condNormalizeExpr (fun _ => false) (condAndNot 1 2)).2.2 b) :=
  (condExprEqual_sound_iff (condAndNot_isNormalized (by decide) (by decide) (by decide))).2 (fun _ => false) _ 0
    (fun b hb => by
      rw [List.mem_singleton.1 hb]
      exact condAndNot_isNormalized (by decide) (by decide) (by decide)) rfl

/-- `1 && !2` and `2 && !1` have the table 2 over the same booleans, so the second conditional is merged into the
first one. -/
theorem condExprEqual_andNot :
    ∃ a b : CondNodeT Nat Nat, IsNormalized a ∧ IsNormalized b ∧ condExprEqual a b = true ∧
      (∃ σ, condEvaluateExpr σ a.expr = some true ∧ condEvaluateExpr σ b.expr = some false) ∧
      condNodeSearch (fun _ => false) [b] a = some (0, [b]) := by
  refine ⟨(condNormalizeExpr (fun _ => false) (condAndNot 1 2)).2.2,
    (condNormalizeExpr (fun _ => false) (condAndNot 2 1)).2.2,
    condAndNot_isNormalized (by decide) (by decide) (by decide),
    condAndNot_isNormalized
    (by decide) (by decide) (by decide), by decide, ⟨fun i => i == 0, by decide, by decide⟩, ?_⟩
  rfl

end Sepol
