import Sepol.CilBoolean

/-!
# The expression of a conditional

The postfix list of a `booleanif` is that of a tree with the value of its expression, and normalization leaves a tree
with this value or with its negation; the lists of the node are exchanged exactly in the second case.
-/

namespace Sepol

open Postfix

variable {p : CilPolicydb} {x : CilBoolExpr} {expr : List CondExpr} {σ : Nat → Bool}

/-- The states `σ` in the policy are the values `τ` of the booleans. -/
def CilPolicydb.Assigns (p : CilPolicydb) (τ : CString → Bool) (σ : Nat → Bool) : Prop :=
  ∀ fqn b, hashtabSearch p.pBools.table fqn = some b → σ (b.value - 1) = τ fqn

/-- A tree whose booleans are numbered from 1 on and which has the value `value` in every assignment. -/
structure CondTree.Denotes (p : CilPolicydb) (value : (CString → Bool) → Bool) (t : CondTree) : Prop where
  pos : BoolsValid t.toExpr
  value : ∀ τ σ, p.Assigns τ σ → t.value σ = value τ

private theorem boolsValid_append {e1 e2 : List CondExpr} (h1 : BoolsValid e1) (h2 : BoolsValid e2) :
    BoolsValid (e1 ++ e2) := by
  rintro id ⟨e, he, hid⟩
  rcases List.mem_append.1 he with he | he
  · exact h1 id ⟨e, he, hid⟩
  · exact h2 id ⟨e, he, hid⟩

private theorem boolsValid_operator {e : CondExpr} (he : e.exprType ≠ condBool) : BoolsValid [e] := by
  rintro id ⟨e', he', hty, _⟩
  rw [List.mem_singleton.1 he'] at hty
  exact absurd hty he

private theorem CondOp.exprType_ne_bool (op : CondOp) : op.exprType ≠ condBool := by
  cases op <;> decide

theorem CondTree.Denotes.not {v : (CString → Bool) → Bool} {t : CondTree} (ht : t.Denotes p v) :
    CondTree.Denotes p (fun τ => !v τ) (Tree.unary () t) := by
  refine ⟨?_, fun τ σ h => ?_⟩
  · have happ : CondTree.toExpr (Tree.unary () t) = t.toExpr ++ [⟨condNot, 0⟩] := by
      simp [CondTree.toExpr, Tree.tokens, condEntry]
    rw [happ]
    exact boolsValid_append ht.pos (boolsValid_operator (by decide))
  · show (!t.value σ) = !v τ
    rw [ht.value τ σ h]

theorem CondTree.Denotes.binary {v w : (CString → Bool) → Bool} {t u : CondTree} (op : CondOp)
    (ht : t.Denotes p v) (hu : u.Denotes p w) :
    CondTree.Denotes p (fun τ => op.apply (v τ) (w τ)) (Tree.binary op t u) := by
  refine ⟨?_, fun τ σ h => ?_⟩
  · have happ : CondTree.toExpr (Tree.binary op t u) = t.toExpr ++ u.toExpr ++ [⟨op.exprType, 0⟩] := by
      simp [CondTree.toExpr, Tree.tokens, condEntry]
    rw [happ]
    exact boolsValid_append (boolsValid_append ht.pos hu.pos) (boolsValid_operator op.exprType_ne_bool)
  · show op.apply (t.value σ) (u.value σ) = op.apply (v τ) (w τ)
    rw [ht.value τ σ h, hu.value τ σ h]

theorem CondTree.Denotes.bool {fqn : CString} {b : CondBoolDatum} (hb : hashtabSearch p.pBools.table fqn = some b) :
    CondTree.Denotes p (fun τ => τ fqn) (Tree.leaf b.value) := by
  refine ⟨?_, fun τ σ h => h fqn b hb⟩
  rintro id ⟨e, he, _, rfl⟩
  rw [List.mem_singleton.1 he]
  exact p.boolsPos _ (mem_of_hashtabSearch hb)

/-- The loop over the items behind a tree makes the disjunction of its value and those of the items. -/
private def ListDenotes (p : CilPolicydb) (items : List CilBoolExpr) : Prop :=
  ∀ (t : CondTree) (v : (CString → Bool) → Bool) expr, t.Denotes p v →
    cilCondListToSepolExpr p items t.toExpr = some expr →
    ∃ t' : CondTree, t'.toExpr = expr ∧ t'.Denotes p fun τ => v τ || anyValue τ items

private theorem ListDenotes.cons {items : List CilBoolExpr}
    (hx : ∀ expr, cilCondExprToSepolExpr p x = some expr →
      ∃ t : CondTree, t.toExpr = expr ∧ t.Denotes p fun τ => x.value τ)
    (hitems : ListDenotes p items) : ListDenotes p (x :: items) := by
  intro t v expr ht h
  rw [cilCondListToSepolExpr] at h
  obtain ⟨h2, hh2, h⟩ := Option.bind_eq_some_iff.1 h
  obtain ⟨u, rfl, hu⟩ := hx h2 hh2
  have hop : t.toExpr ++ u.toExpr ++ [⟨condOr, 0⟩] = CondTree.toExpr (Tree.binary CondOp.or t u) := by
    simp [CondTree.toExpr, Tree.tokens, condEntry, CondOp.exprType]
  rw [hop] at h
  obtain ⟨t', rfl, ht'⟩ := hitems _ _ expr (.binary .or ht hu) h
  refine ⟨t', rfl, ht'.pos, fun τ σ hτ => ?_⟩
  rw [ht'.value τ σ hτ, anyValue, ← Bool.or_assoc]
  rfl

/-- The list of an expression is that of a tree with its value. -/
theorem exists_tree_of_cilCondExpr (h : cilCondExprToSepolExpr p x = some expr) :
    ∃ t : CondTree, t.toExpr = expr ∧ t.Denotes p fun τ => x.value τ := by
  -- the first item of a list starts the tree that the loop goes on with
  refine (CilBoolExpr.listInduction (P := fun x => ∀ expr, cilCondExprToSepolExpr p x = some expr →
      ∃ t : CondTree, t.toExpr = expr ∧ t.Denotes p fun τ => x.value τ)
    (Q := fun items => ListDenotes p items ∧ ∀ expr, cilCondExprToSepolExpr p (.list items) = some expr →
      ∃ t : CondTree, t.toExpr = expr ∧ t.Denotes p fun τ => anyValue τ items)
    ?datum ?not ?binary ?list ?nil ?cons).1 x expr h
  case datum =>
    intro fqn expr h
    rw [cilCondExprToSepolExpr] at h
    obtain ⟨b, hb, h⟩ := Option.bind_eq_some_iff.1 h
    obtain rfl := Option.some.inj h
    exact ⟨.leaf b.value, rfl, .bool hb⟩
  case not =>
    intro x ih expr h
    rw [cilCondExprToSepolExpr] at h
    obtain ⟨h1, hx, h⟩ := Option.bind_eq_some_iff.1 h
    obtain rfl := Option.some.inj h
    obtain ⟨t, rfl, ht⟩ := ih h1 hx
    exact ⟨.unary () t, by simp [CondTree.toExpr, Tree.tokens, condEntry], ht.not⟩
  case binary =>
    intro op x y ihx ihy expr h
    rw [cilCondExprToSepolExpr] at h
    obtain ⟨h1, hx, h⟩ := Option.bind_eq_some_iff.1 h
    obtain ⟨h2, hy, h⟩ := Option.bind_eq_some_iff.1 h
    obtain rfl := Option.some.inj h
    obtain ⟨t, rfl, ht⟩ := ihx h1 hx
    obtain ⟨u, rfl, hu⟩ := ihy h2 hy
    exact ⟨.binary op t u, by simp [CondTree.toExpr, Tree.tokens, condEntry], .binary op ht hu⟩
  case list => exact fun items ih => ih.2
  case nil =>
    refine ⟨fun t v expr ht h => ?_, fun expr h => by cases h⟩
    obtain rfl := Option.some.inj h
    refine ⟨t, rfl, ht.pos, fun τ σ hτ => ?_⟩
    rw [ht.value τ σ hτ, anyValue, Bool.or_false]
  case cons =>
    intro x rest ihx ihrest
    refine ⟨ihrest.1.cons ihx, fun expr h => ?_⟩
    rw [cilCondExprToSepolExpr] at h
    obtain ⟨head, hhead, h⟩ := Option.bind_eq_some_iff.1 h
    obtain ⟨t, rfl, ht⟩ := ihx head hhead
    exact ihrest.1 t _ expr ht h

/-! ### Validation and normalization -/

private theorem validate_operand (depth : Int) (b : Nat) (next : List CondExpr) :
    cilValidateCondExprFrom depth (condEntry (.operand b) :: next) =
      if depth = condExprMaxdepth - 1 then false else cilValidateCondExprFrom (depth + 1) next := rfl

private theorem validate_unary (depth : Int) (next : List CondExpr) :
    cilValidateCondExprFrom depth (condEntry (.unary ()) :: next) =
      if depth < 0 then false else cilValidateCondExprFrom depth next := rfl

private theorem validate_binary (depth : Int) (op : CondOp) (next : List CondExpr) :
    cilValidateCondExprFrom depth (condEntry (.binary op) :: next) =
      if depth < 1 then false else cilValidateCondExprFrom (depth - 1) next := by
  cases op <;> rfl

/-- The check counts the stack of the evaluator. -/
private theorem cilValidate_iff_depth {ts : List (Token Nat Unit CondOp)} {d : Nat} (hd : d ≤ condExprMaxdepth) :
    cilValidateCondExprFrom ((d : Int) - 1) (ts.map condEntry) = true ↔
      Postfix.depth condExprMaxdepth d ts = some 1 := by
  induction ts generalizing d with
  | nil =>
    rw [List.map_nil, cilValidateCondExprFrom, decide_eq_true_eq, Postfix.depth, Option.some_inj]
    omega
  | cons tok ts ih =>
    rw [List.map_cons]
    cases tok with
    | operand b =>
      rw [validate_operand, Postfix.depth]
      by_cases hlt : d < condExprMaxdepth
      · rw [if_neg (by omega), if_pos hlt, ← ih hlt]
        congr! 2
        omega
      · rw [if_pos (by omega), if_neg hlt]
        simp
    | unary u =>
      rw [validate_unary]
      cases d with
      | zero => simp [Postfix.depth]
      | succ d =>
        rw [if_neg (by omega)]
        exact ih hd
    | binary op =>
      rw [validate_binary]
      rcases d with _ | _ | d
      · simp [Postfix.depth]
      · simp [Postfix.depth]
      · rw [if_neg (by omega)]
        show _ ↔ Postfix.depth condExprMaxdepth (d + 1) ts = some 1
        rw [← ih (by omega)]
        congr! 2
        omega

theorem cilValidateCondExpr_iff_depth (t : CondTree) :
    cilValidateCondExpr t.toExpr = true ↔ Postfix.depth condExprMaxdepth 0 t.tokens = some 1 :=
  cilValidate_iff_depth (Nat.zero_le _)

private theorem depth_append (limit d : Nat) (ts us : List (Token Nat Unit CondOp)) :
    Postfix.depth limit d (ts ++ us) = (Postfix.depth limit d ts).bind fun d => Postfix.depth limit d us := by
  induction ts generalizing d with
  | nil => rfl
  | cons tok ts ih =>
    rw [List.cons_append]
    cases tok with
    | operand b =>
      rw [Postfix.depth, Postfix.depth]
      split
      · exact ih (d + 1)
      · rfl
    | unary u =>
      cases d with
      | zero => rfl
      | succ d => exact ih (d + 1)
    | binary op =>
      rcases d with _ | _ | d
      · rfl
      · rfl
      · exact ih (d + 1)

private theorem depth_of_unary {t : CondTree}
    (h : Postfix.depth condExprMaxdepth 0 (Tree.tokens (Tree.unary () t)) = some 1) :
    Postfix.depth condExprMaxdepth 0 t.tokens = some 1 := by
  rw [Tree.tokens, depth_append] at h
  obtain ⟨d, hd, h⟩ := Option.bind_eq_some_iff.1 h
  cases d with
  | zero => cases h
  | succ d =>
    rw [hd]
    exact h

private theorem exprDefined_toExpr {t : CondTree} (hdepth : Postfix.depth condExprMaxdepth 0 t.tokens = some 1) :
    ExprDefined t.toExpr := fun σ => by
  rw [condEvaluateExpr_toExpr hdepth]
  rfl

private theorem toExpr_ne_nil (t : CondTree) : t.toExpr ≠ [] := by
  cases t <;> simp [CondTree.toExpr, Tree.tokens]

/-- The temporary node for a tree after normalization: its expression has the value of the tree, negated when the
lists were exchanged. -/
structure NormalizedFor (t : CondTree) (swapped : Bool) (tmp : CilCondNode) : Prop where
  normalized : CondNormalized tmp
  ne_nil : tmp.expr ≠ []
  exchanged : (!tmp.falseList.isEmpty) = swapped
  value : ∀ σ, condEvaluateExpr σ tmp.expr = some (t.value σ ^^ swapped)

private theorem normalizedFor_of_strip {t t' : CondTree} {cn : CilCondNode} (state : Nat → Bool) (swapped : Bool)
    (hpos : BoolsValid t.toExpr) (hstrip : condStripNot (cilTmpCond t.toExpr) = some cn) (hexpr : cn.expr = t'.toExpr)
    (hdepth : Postfix.depth condExprMaxdepth 0 t'.tokens = some 1) (hswapped : (!cn.falseList.isEmpty) = swapped)
    (hvalue : ∀ σ, t'.value σ = (t.value σ ^^ swapped)) :
    ∃ tmp, condNormalizeExpr state (cilTmpCond t.toExpr) = (true, state, tmp) ∧ NormalizedFor t swapped tmp := by
  obtain ⟨nbools, boolIds, pre, heq⟩ := @condNormalizeExpr_of_strip _ _ (cilTmpCond t.toExpr) cn state hstrip
    (hexpr ▸ exprDefined_toExpr hdepth)
  have hnorm := @condNormalizeExpr_normalized _ _ (cilTmpCond t.toExpr) state hpos (by rw [heq])
  rw [heq] at hnorm
  refine ⟨_, heq, hnorm, ?_, hswapped, fun σ => ?_⟩
  · rw [hexpr]
    exact toExpr_ne_nil t'
  · rw [hexpr, condEvaluateExpr_toExpr hdepth, hvalue]

private theorem condStripNot_concat {front : List CondExpr} (e : CondExpr) (hne : front ≠ []) :
    condStripNot (cilTmpCond (front ++ [e])) = some (if e.exprType = condNot then
      { cilTmpCond front with trueList := [], falseList := (cilTmpCond front).trueList }
      else cilTmpCond (front ++ [e])) := by
  have hlast : (cilTmpCond (front ++ [e])).expr.getLast? = some e := List.getLast?_concat
  unfold condStripNot
  rw [hlast]
  dsimp only
  split
  · have hlen : (cilTmpCond (front ++ [e])).expr.length ≠ 1 := by
      have := List.length_pos_of_ne_nil hne
      show (front ++ [e]).length ≠ 1
      rw [List.length_append, List.length_singleton]
      omega
    rw [if_neg hlen]
    show some _ = some _
    congr 1
    show CondNodeT.mk _ _ _ _ _ _ _ _ _ _ = _
    rw [show (cilTmpCond (front ++ [e])).expr.dropLast = front from List.dropLast_concat]
    rfl
  · rfl

/-- Normalization of the temporary node succeeds. -/
theorem condNormalizeExpr_tmpCond (state : Nat → Bool) {t : CondTree}
    (hdepth : Postfix.depth condExprMaxdepth 0 t.tokens = some 1) (hpos : BoolsValid t.toExpr) :
    ∃ tmp swapped, condNormalizeExpr state (cilTmpCond t.toExpr) = (true, state, tmp) ∧
      NormalizedFor t swapped tmp := by
  cases t with
  | leaf a =>
    obtain ⟨tmp, h⟩ := @normalizedFor_of_strip _ _ (cilTmpCond _) state false hpos rfl rfl hdepth rfl
      fun σ => (Bool.xor_false _).symm
    exact ⟨tmp, false, h⟩
  | unary u t' =>
    have happ : CondTree.toExpr (Tree.unary u t') = CondTree.toExpr t' ++ [⟨condNot, 0⟩] := by
      simp [CondTree.toExpr, Tree.tokens, condEntry]
    have hstrip := condStripNot_concat ⟨condNot, 0⟩ (toExpr_ne_nil t')
    rw [← happ, if_pos rfl] at hstrip
    obtain ⟨tmp, h⟩ := normalizedFor_of_strip state true hpos hstrip rfl (depth_of_unary hdepth) rfl
      fun σ => by
        show CondTree.value σ t' = (!CondTree.value σ t' ^^ true)
        simp
    exact ⟨tmp, true, h⟩
  | binary op l r =>
    have happ : CondTree.toExpr (Tree.binary op l r) =
        (CondTree.toExpr l ++ CondTree.toExpr r) ++ [⟨op.exprType, 0⟩] := by
      simp [CondTree.toExpr, Tree.tokens, condEntry]
    have hne : op.exprType ≠ condNot := by cases op <;> decide
    have hstrip := condStripNot_concat ⟨op.exprType, 0⟩
      (show CondTree.toExpr l ++ CondTree.toExpr r ≠ [] by simp [toExpr_ne_nil l])
    rw [← happ, if_neg hne] at hstrip
    obtain ⟨tmp, h⟩ := normalizedFor_of_strip state false hpos hstrip rfl hdepth rfl
      fun σ => (Bool.xor_false _).symm
    exact ⟨tmp, false, h⟩

end Sepol
