import Sepol.CondEqual

/-!
# Normalizing copied conditionals

The first half of `cond_node_copy`: a conditional of the base module is normalized, copied without its rules, and the
copy is normalized again over the booleans of the output.  Each step may drop an operator `!`, and only the first one
has lists to exchange for it.
-/

namespace Sepol

abbrev condNodeFlagsTunable : Nat := 1

/-- The booleans of `expand_state_t`: their states in the base and in the output, and the map between them. -/
structure ExpandBools where
  baseState : Nat → Bool
  outState : Nat → Bool
  boolmap : Nat → Nat

variable {α β : Type}

/-- The entry of an expression for the booleans of the output. -/
def condMapBool (boolmap : Nat → Nat) (cur : CondExpr) : CondExpr :=
  if cur.boolean ≠ 0 then { cur with boolean := boolmap (cur.boolean - 1) } else cur

/-- `cond_node_map_bools`, with the states of the booleans of the output. -/
def condNodeMapBools (boolmap : Nat → Nat) (outState : Nat → Bool) (cn : CondNodeT α β) :
    Bool × (Nat → Bool) × CondNodeT α β :=
  condNormalizeExpr outState { cn with
    expr := cn.expr.map (condMapBool boolmap)
    boolIds := cn.boolIds.map fun id => boolmap (id - 1) }

/-- The first half of `cond_node_copy`: the normalized node, the temporary node with the booleans of the output, and
the states. -/
def condNodeCopyMap (st : ExpandBools) (cn : CondNodeT α β) :
    Option (CondNodeT α β × CondNodeT α β × ExpandBools) :=
  match condNormalizeExpr st.baseState cn with
  | (false, _, _) => none
  | (true, baseState, cn) =>
    match condNodeCreate baseState cn with
    | none => none
    | some tmp =>
      match condNodeMapBools st.boolmap st.outState tmp with
      | (false, _, _) => none
      | (true, outState, tmp) => some (cn, tmp, { st with baseState, outState })

variable {σ τ : Nat → Bool} {expr : List CondExpr} {cn : CondNodeT α β}

/-! ### The last operators -/

/-- How many operators `!` an expression ends with. -/
def trailingNots (expr : List CondExpr) : Nat := (expr.reverse.takeWhile fun e => e.exprType = condNot).length

/-- How many values a defined expression leaves on the stack. -/
def condExprDepth (expr : List CondExpr) : Nat :=
  expr.foldl (fun d e => if e.exprType = condBool then d + 1 else if e.exprType = condNot then d else d - 1) 0

theorem trailingNots_concat (expr : List CondExpr) (e : CondExpr) :
    trailingNots (expr ++ [e]) = if e.exprType = condNot then trailingNots expr + 1 else 0 := by
  unfold trailingNots
  by_cases h : e.exprType = condNot
  · simp [h]
  · simp [h]

private theorem condEvaluateStep_length {e : CondExpr} {s s' : List Bool} (h : condEvaluateStep σ e s = some s') :
    s'.length = if e.exprType = condBool then s.length + 1 else
      if e.exprType = condNot then s.length else s.length - 1 := by
  unfold condEvaluateStep at h
  split at h
  · rename_i hty
    split at h
    · cases h
    · rw [← Option.some.inj h, if_pos hty]
      rfl
  · rename_i hty
    rw [← Option.some.inj h, if_neg (by rw [hty]; decide), if_pos hty]
    rfl
  case h_8 => cases h
  all_goals
    rename_i hty
    rw [← Option.some.inj h, if_neg (by rw [hty]; decide), if_neg (by rw [hty]; decide)]
    rfl

private theorem condEvaluate_length (expr : List CondExpr) {s s' : List Bool}
    (h : expr.foldlM (fun s cur => condEvaluateStep σ cur s) s = some s') :
    s'.length = expr.foldl (fun d e => if e.exprType = condBool then d + 1 else
      if e.exprType = condNot then d else d - 1) s.length := by
  induction expr generalizing s with
  | nil =>
    rw [← Option.some.inj h]
    rfl
  | cons e expr ih =>
    rw [List.foldlM_cons] at h
    obtain ⟨s₁, hstep, hrest⟩ := Option.bind_eq_some_iff.1 h
    rw [ih hrest, condEvaluateStep_length hstep]
    rfl

/-- An operator `!` at the end negates the value when there is only one on the stack; otherwise it does not reach the
value, which is at the bottom. -/
theorem condEvaluateExpr_concat_not (σ : Nat → Bool) (expr : List CondExpr) {e : CondExpr}
    (he : e.exprType = condNot) :
    condEvaluateExpr σ (expr ++ [e]) =
      (condEvaluateExpr σ expr).map fun v => if condExprDepth expr = 1 then !v else v := by
  unfold condEvaluateExpr
  rw [List.foldlM_append]
  cases hs : expr.foldlM (fun s cur => condEvaluateStep σ cur s) [] with
  | none => rfl
  | some s =>
    have hdepth : s.length = condExprDepth expr := condEvaluate_length expr hs
    have hstep : [e].foldlM (fun s cur => condEvaluateStep σ cur s) s = condEvaluateStep σ e s := by
      rw [List.foldlM_cons]
      cases condEvaluateStep σ e s with
      | none => rfl
      | some s' => rfl
    obtain ⟨exprType, boolean⟩ := e
    obtain rfl : exprType = condNot := he
    simp only [Option.bind_eq_bind, Option.bind_some, hstep, ← hdepth]
    rcases s with _ | ⟨a, _ | ⟨b, s⟩⟩
    · rfl
    · rfl
    · simp [condEvaluateStep]

/-! ### Normalization of defined expressions -/

/-- The expression has a value under every assignment of the booleans. -/
def ExprDefined (expr : List CondExpr) : Prop := ∀ σ : Nat → Bool, (condEvaluateExpr σ expr).isSome

private theorem condPrecompute_defined (hdef : ExprDefined expr) (boolIds tests : List Nat) (state : Nat → Bool)
    (pre : BitVec 32) :
    (condPrecompute expr boolIds tests state pre).1 = true ∧
      ∀ i, (∀ id ∈ boolIds, i ≠ id - 1) → (condPrecompute expr boolIds tests state pre).2.1 i = state i := by
  induction tests generalizing state pre with
  | nil => exact ⟨rfl, fun i _ => rfl⟩
  | cons test tests ih =>
    rw [condPrecompute]
    obtain ⟨k, hk⟩ := Option.isSome_iff_exists.1 (hdef (condSetBools test 0 boolIds state))
    simp only [hk]
    obtain ⟨hok, hkeep⟩ := ih (condSetBools test 0 boolIds state) (if k then pre ||| 1#32 <<< test else pre)
    refine ⟨hok, fun i hi => ?_⟩
    rw [hkeep i hi, condSetBools_of_notMem hi]

private theorem condRestoreBools_eq (orig : Nat → Bool) (boolIds : List Nat) (state : Nat → Bool)
    (h : ∀ i, (∀ id ∈ boolIds, i ≠ id - 1) → state i = orig i) : condRestoreBools orig boolIds state = orig := by
  unfold condRestoreBools
  induction boolIds generalizing state with
  | nil => exact funext fun i => h i fun id hid => (List.not_mem_nil hid).elim
  | cons id boolIds ih =>
    rw [List.foldl_cons]
    refine ih _ fun i hi => ?_
    by_cases heq : i = id - 1
    · rw [heq, Function.update_self]
    · rw [Function.update_of_ne heq]
      refine h i fun id' hid' => ?_
      rcases List.mem_cons.1 hid' with rfl | hid'
      · exact heq
      · exact hi id' hid'

/-- An expression that is defined after the last `!` is dropped is normalized, and the booleans get their states back.
-/
theorem condNormalizeExpr_of_strip {cn' : CondNodeT α β} (state : Nat → Bool)
    (hstrip : condStripNot { cn with nbools := 0, boolIds := [], exprPreComp := 0 } = some cn')
    (hdef : ExprDefined cn'.expr) :
    ∃ (nbools : Nat) (boolIds : List Nat) (pre : BitVec 32), condNormalizeExpr state cn =
      (true, state, { cn' with nbools := nbools, boolIds := boolIds, exprPreComp := pre }) := by
  unfold condNormalizeExpr
  extract_lets reset
  rw [show condStripNot reset = some cn' from hstrip]
  dsimp only
  by_cases hmax : (condCountBools cn'.expr (0, [])).1 ≤ condMaxBools
  · obtain ⟨hok, hkeep⟩ := condPrecompute_defined hdef (condCountBools cn'.expr (0, [])).2
      (List.range (2 ^ (condCountBools cn'.expr (0, [])).1)) state 0
    rw [if_pos hmax, if_pos hok, condRestoreBools_eq state _ _ hkeep]
    exact ⟨_, _, _, rfl⟩
  · rw [if_neg hmax]
    exact ⟨_, _, _, rfl⟩

private theorem ExprDefined.ne_nil (hdef : ExprDefined expr) : expr ≠ [] := by
  intro h
  have := hdef fun _ => false
  rw [h] at this
  cases this

private theorem ExprDefined.of_concat_not {e : CondExpr} (he : e.exprType = condNot)
    (hdef : ExprDefined (expr ++ [e])) : ExprDefined expr := by
  intro σ
  have hσ := hdef σ
  rw [condEvaluateExpr_concat_not σ expr he, Option.isSome_map] at hσ
  exact hσ

/-- Normalization of a defined expression: nothing is changed when it does not end with `!`, otherwise one `!` is
dropped and the lists are exchanged. -/
theorem condNormalizeExpr_defined (state : Nat → Bool) (hdef : ExprDefined cn.expr) :
    ∃ cn' : CondNodeT α β, condNormalizeExpr state cn = (true, state, cn') ∧ ExprDefined cn'.expr ∧
      (trailingNots cn.expr = 0 ∧ cn'.expr = cn.expr ∧ cn'.avtrueList = cn.avtrueList ∧
          cn'.avfalseList = cn.avfalseList ∨
        trailingNots cn.expr = trailingNots cn'.expr + 1 ∧ (∃ e, e.exprType = condNot ∧ cn.expr = cn'.expr ++ [e]) ∧
          cn'.avtrueList = cn.avfalseList ∧ cn'.avfalseList = cn.avtrueList) := by
  obtain ⟨front, e, hexpr⟩ : ∃ front e, cn.expr = front ++ [e] :=
    ⟨_, _, (List.dropLast_append_getLast hdef.ne_nil).symm⟩
  have hlast : cn.expr.getLast? = some e := by rw [hexpr, List.getLast?_concat]
  by_cases hnot : e.exprType = condNot
  · have hfront : ExprDefined front := ExprDefined.of_concat_not hnot (hexpr ▸ hdef)
    have hlen : cn.expr.length ≠ 1 := by
      have := List.length_pos_of_ne_nil hfront.ne_nil
      rw [hexpr, List.length_append, List.length_singleton]
      omega
    have hdrop : cn.expr.dropLast = front := by rw [hexpr, List.dropLast_concat]
    have hstrip : condStripNot { cn with nbools := 0, boolIds := [], exprPreComp := 0 } =
        some { cn with nbools := 0, boolIds := [], exprPreComp := 0, expr := front, trueList := cn.falseList,
                       falseList := cn.trueList, avtrueList := cn.avfalseList, avfalseList := cn.avtrueList } := by
      unfold condStripNot
      simp only [hlast]
      rw [if_pos hnot, if_neg hlen, hdrop]
    obtain ⟨nbools, boolIds, pre, heq⟩ := condNormalizeExpr_of_strip state hstrip hfront
    refine ⟨_, heq, hfront, Or.inr ⟨?_, ⟨e, hnot, hexpr⟩, rfl, rfl⟩⟩
    rw [hexpr, trailingNots_concat, if_pos hnot]
  · have hstrip : condStripNot { cn with nbools := 0, boolIds := [], exprPreComp := 0 } =
        some { cn with nbools := 0, boolIds := [], exprPreComp := 0 } := by
      unfold condStripNot
      simp only [hlast]
      rw [if_neg hnot]
    obtain ⟨nbools, boolIds, pre, heq⟩ := condNormalizeExpr_of_strip state hstrip hdef
    refine ⟨_, heq, hdef, Or.inl ⟨?_, rfl, rfl, rfl⟩⟩
    rw [hexpr, trailingNots_concat, if_neg hnot]

/-! ### The booleans of the output -/

/-- Two assignments give the same states to a boolean of the base and to the one of the output that it is mapped to.
-/
def StatesAgree (boolmap : Nat → Nat) (expr : List CondExpr) (σ τ : Nat → Bool) : Prop :=
  ∀ id, exprHasBool expr id → σ (id - 1) = τ (boolmap (id - 1) - 1)

private theorem condMapBool_exprType (boolmap : Nat → Nat) (cur : CondExpr) :
    (condMapBool boolmap cur).exprType = cur.exprType := by
  unfold condMapBool
  split
  · rfl
  · rfl

/-- The value of the mapped expression. -/
private theorem condEvaluateExpr_map {boolmap : Nat → Nat} (hvalid : BoolsValid expr)
    (h : StatesAgree boolmap expr σ τ) :
    condEvaluateExpr τ (expr.map (condMapBool boolmap)) = condEvaluateExpr σ expr := by
  have hfold : ∀ s, (expr.map (condMapBool boolmap)).foldlM (fun s cur => condEvaluateStep τ cur s) s =
      expr.foldlM (fun s cur => condEvaluateStep σ cur s) s := by
    induction expr with
    | nil => exact fun s => rfl
    | cons e expr ih =>
      intro s
      have hstep : condEvaluateStep τ (condMapBool boolmap e) s = condEvaluateStep σ e s := by
        refine condEvaluateStep_congr τ σ (condMapBool_exprType boolmap e) (fun hty => ?_) s
        rw [condMapBool_exprType] at hty
        have hid : exprHasBool (e :: expr) e.boolean := ⟨e, List.mem_cons_self .., hty, rfl⟩
        have hpos := hvalid _ hid
        rw [h _ hid, condMapBool, if_pos (by omega)]
      have htail : ∀ {id}, exprHasBool expr id → exprHasBool (e :: expr) id := by
        rintro id ⟨e', he', hid⟩
        exact ⟨e', List.mem_cons_of_mem _ he', hid⟩
      rw [List.map_cons, List.foldlM_cons, List.foldlM_cons, hstep]
      simp only [ih (fun id hid => hvalid id (htail hid)) (fun id hid => h id (htail hid))]
  rw [condEvaluateExpr, condEvaluateExpr, hfold]

private theorem ExprDefined.map (boolmap : Nat → Nat) (hvalid : BoolsValid expr) (hdef : ExprDefined expr) :
    ExprDefined (expr.map (condMapBool boolmap)) := by
  intro τ
  have hagree : StatesAgree boolmap expr (fun i => τ (boolmap i - 1)) τ := fun id _ => rfl
  rw [condEvaluateExpr_map hvalid hagree]
  exact hdef _

private theorem trailingNots_map (boolmap : Nat → Nat) (expr : List CondExpr) :
    trailingNots (expr.map (condMapBool boolmap)) = trailingNots expr := by
  induction expr using List.reverseRecOn with
  | nil => rfl
  | append_singleton expr e ih =>
    rw [List.map_append, List.map_singleton, trailingNots_concat, trailingNots_concat, condMapBool_exprType, ih]

theorem condExprDepth_concat_not (expr : List CondExpr) {e : CondExpr} (he : e.exprType = condNot) :
    condExprDepth (expr ++ [e]) = condExprDepth expr := by
  unfold condExprDepth
  rw [List.foldl_append, List.foldl_cons, List.foldl_nil, if_neg (by rw [he]; decide), if_pos he]

/-! ### The copied node -/

/-- The first half of the copy: how the value of the mapped expression and the lists of the normalized node are
related to those of the source. -/
theorem condNodeCopyMap_defined (st : ExpandBools) {cn : CondNodeT α β} (hvalid : BoolsValid cn.expr)
    (hdef : ExprDefined cn.expr) :
    ∃ (cn' tmp : CondNodeT α β) (negated swapped : Bool), condNodeCopyMap st cn = some (cn', tmp, st) ∧
      tmp.expr ≠ [] ∧
      (∀ σ τ, StatesAgree st.boolmap cn.expr σ τ →
        ∃ w, condEvaluateExpr τ tmp.expr = some w ∧ condEvaluateExpr σ cn.expr = some (w ^^ negated)) ∧
      cn'.avtrueList = (if swapped then cn.avfalseList else cn.avtrueList) ∧
      cn'.avfalseList = (if swapped then cn.avtrueList else cn.avfalseList) ∧
      (negated = swapped ↔ trailingNots cn.expr = 0 ∨ trailingNots cn.expr = 1 ∧ condExprDepth cn.expr = 1) := by
  obtain ⟨cn', hnorm, hdef', hcn⟩ := condNormalizeExpr_defined st.baseState hdef
  have hvalid' : BoolsValid cn'.expr := by
    intro id hid
    rcases hcn with ⟨_, heq, _⟩ | ⟨_, ⟨e, _, heq⟩, _⟩
    · exact hvalid id (heq ▸ hid)
    · obtain ⟨e', he', hid'⟩ := hid
      exact hvalid id ⟨e', heq ▸ List.mem_append_left _ he', hid'⟩
  have hagree' : ∀ {σ τ}, StatesAgree st.boolmap cn.expr σ τ → StatesAgree st.boolmap cn'.expr σ τ := by
    intro σ τ h id hid
    rcases hcn with ⟨_, heq, _⟩ | ⟨_, ⟨e, _, heq⟩, _⟩
    · exact h id (heq ▸ hid)
    · obtain ⟨e', he', hid'⟩ := hid
      exact h id ⟨e', heq ▸ List.mem_append_left _ he', hid'⟩
  have hcreate : condNodeCreate st.baseState cn' = some _ := if_neg hdef'.ne_nil
  -- the temporary node after its booleans are mapped
  let mapped : CondNodeT α β :=
    { curState := condEvaluateExpr st.baseState cn'.expr
      expr := cn'.expr.map (condMapBool st.boolmap)
      trueList := []
      falseList := []
      avtrueList := []
      avfalseList := []
      nbools := cn'.nbools
      boolIds := (cn'.boolIds.take (min cn'.nbools condMaxBools)).map fun id => st.boolmap (id - 1)
      exprPreComp := cn'.exprPreComp
      flags := cn'.flags }
  have hmapdef : ExprDefined mapped.expr := hdef'.map st.boolmap hvalid'
  obtain ⟨tmp, hmap, hdeft, htmp⟩ := condNormalizeExpr_defined st.outState hmapdef
  have hcopy : condNodeCopyMap st cn = some (cn', tmp, st) := by
    unfold condNodeCopyMap condNodeMapBools
    simp only [hnorm, hcreate]
    rw [show condNormalizeExpr st.outState _ = (true, st.outState, tmp) from hmap]
  have hvalue : ∀ {σ τ}, StatesAgree st.boolmap cn.expr σ τ →
      condEvaluateExpr τ (cn'.expr.map (condMapBool st.boolmap)) = condEvaluateExpr σ cn'.expr :=
    fun h => condEvaluateExpr_map hvalid' (hagree' h)
  change trailingNots (cn'.expr.map _) = 0 ∧ tmp.expr = cn'.expr.map _ ∧ _ ∨
    trailingNots (cn'.expr.map _) = _ ∧ (∃ e, _ ∧ cn'.expr.map _ = _) ∧ _ at htmp
  rw [trailingNots_map] at htmp
  rcases hcn with ⟨hzero, heq, h1, h2⟩ | ⟨hsucc, ⟨e, he, heq⟩, h1, h2⟩
  · -- no operator is dropped in either step
    rw [heq, hzero] at htmp
    rcases htmp with ⟨_, htmp, _⟩ | ⟨hne, _⟩
    · refine ⟨cn', tmp, false, false, hcopy, hdeft.ne_nil, fun σ τ h => ?_, h1, h2, by simp [hzero]⟩
      obtain ⟨v, hv⟩ := Option.isSome_iff_exists.1 (hdef σ)
      refine ⟨v, ?_, by rw [hv, Bool.xor_false]⟩
      rw [htmp, ← heq, hvalue h, heq, hv]
    · omega
  · have hdepth : condExprDepth cn.expr = condExprDepth cn'.expr := by rw [heq, condExprDepth_concat_not _ he]
    have hsource : ∀ σ, condEvaluateExpr σ cn.expr =
        (condEvaluateExpr σ cn'.expr).map fun v => if condExprDepth cn.expr = 1 then !v else v := by
      intro σ
      rw [heq, condEvaluateExpr_concat_not σ _ he, ← heq, hdepth]
    rcases htmp with ⟨hone, htmp, _⟩ | ⟨hmore, ⟨e', he', htmp⟩, _⟩
    · -- one operator is dropped with the lists, in the first step
      refine ⟨cn', tmp, decide (condExprDepth cn.expr = 1), true, hcopy, hdeft.ne_nil, fun σ τ h => ?_, h1, h2, ?_⟩
      · obtain ⟨v, hv⟩ := Option.isSome_iff_exists.1 (hdef' σ)
        refine ⟨v, by rw [htmp, hvalue h, hv], ?_⟩
        rw [hsource, hv]
        by_cases hd : condExprDepth cn.expr = 1 <;> simp [hd]
      · rw [hsucc, hone]
        simp
    · -- the second step drops an operator of a node without rules
      refine ⟨cn', tmp, false, true, hcopy, hdeft.ne_nil, fun σ τ h => ?_, h1, h2, ?_⟩
      · have hmapped := hvalue h
        have hdepth' : condExprDepth tmp.expr = condExprDepth cn.expr := by
          have hmapdepth : condExprDepth (cn'.expr.map (condMapBool st.boolmap)) = condExprDepth cn'.expr := by
            unfold condExprDepth
            simp only [List.foldl_map, condMapBool_exprType]
          rw [hdepth, ← hmapdepth, htmp, condExprDepth_concat_not _ he']
        rw [htmp, condEvaluateExpr_concat_not τ _ he', hdepth'] at hmapped
        obtain ⟨w, hw⟩ := Option.isSome_iff_exists.1 (hdeft τ)
        refine ⟨w, hw, ?_⟩
        rw [hsource, ← hmapped, hw]
        by_cases hd : condExprDepth cn.expr = 1 <;> simp [hd]
      · rw [hsucc, hmore]
        simp

end Sepol
