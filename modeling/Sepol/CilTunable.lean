import Sepol.CilBooleanRun

/-!
# Conditions of booleanif and tunableif

The condition of a `booleanif` or a `tunableif` as the front end makes it: `cil_gen_expr` turns the nodes of the parse
tree into a list of items, and `cil_resolve_expr` replaces the names by what they stand for.  A tunable is decided on
this list by `__cil_evaluate_tunable_expr`; for a boolean the list becomes a postfix list, which the kernel evaluates.
With preserved tunables the same text takes the second way instead of the first.
-/

namespace Sepol

open Postfix

/-! ### Lists of items -/

/-- The operators that `__cil_get_expr_operator_flavor` knows. -/
inductive CilExprOp where
  | and
  | or
  | not
  | eq
  | neq
  | xor
  | all
  | range
  deriving DecidableEq

/-- `__cil_get_expr_operator_flavor`, without an operator for `CIL_NONE`. -/
def cilGetExprOperatorFlavor (op : CString) : Option CilExprOp :=
  if op = ['a', 'n', 'd'] then some .and
  else if op = ['o', 'r'] then some .or
  else if op = ['n', 'o', 't'] then some .not
  else if op = ['e', 'q'] then some .eq
  else if op = ['n', 'e', 'q'] then some .neq
  else if op = ['x', 'o', 'r'] then some .xor
  else if op = ['a', 'l', 'l'] then some .all
  else if op = ['r', 'a', 'n', 'g', 'e'] then some .range
  else none

/-- The flavors `CIL_BOOL` and `CIL_TUNABLE` of the list of a condition. -/
inductive CilCondFlavor where
  | bool
  | tunable
  deriving DecidableEq

/-- An item of a list: an operator, a string before and a datum after the names are resolved, or a list. -/
inductive CilExprItem where
  | op (op : CilExprOp)
  | leaf (name : CString)
  | list (flavor : CilCondFlavor) (items : List CilExprItem)

/-- `cil_verify_expr_syntax` for the two flavors of conditions, which it treats alike. -/
def cilVerifyExprSyntax (current : List CilParse) : Option CilExprOp → Bool
  | some .not => cilVerifySyntax [cilSynString, cilSynString ||| cilSynList, cilSynEnd] current
  | some .and | some .or | some .xor | some .eq | some .neq =>
    cilVerifySyntax [cilSynString, cilSynString ||| cilSynList, cilSynString ||| cilSynList, cilSynEnd] current
  | some .all | some .range => false
  | none => cilVerifySyntax [cilSynNStrings ||| cilSynNLists, cilSynEnd] current

mutual

/-- `__cil_fill_expr`.  No empty list comes here: the syntax of a statement and that of an expression refuse it. -/
def cilFillExpr (flavor : CilCondFlavor) : CilParse → Option CilExprItem
  | .string data => if (cilGetExprOperatorFlavor data).isSome then none else some (.leaf data)
  | .list [] => none
  | .list (current :: rest) => (cilFillExprHelper flavor (current :: rest)).map (.list flavor)

/-- `__cil_fill_expr_helper`. -/
def cilFillExprHelper (flavor : CilCondFlavor) : List CilParse → Option (List CilExprItem)
  | [] => none
  | current :: rest =>
    let op := current.data.bind cilGetExprOperatorFlavor
    if !cilVerifyExprSyntax (current :: rest) op then none
    else
      match op with
      | some op => (cilFillExprs flavor rest).map (.op op :: ·)
      | none => do
        let item ← cilFillExpr flavor current
        let items ← cilFillExprs flavor rest
        return item :: items

/-- The loop over the nodes of an expression. -/
def cilFillExprs (flavor : CilCondFlavor) : List CilParse → Option (List CilExprItem)
  | [] => some []
  | current :: rest => do
    let item ← cilFillExpr flavor current
    let items ← cilFillExprs flavor rest
    return item :: items

end

/-- `cil_gen_expr`: the items of the list with the given flavor. -/
def cilGenExpr (flavor : CilCondFlavor) : CilParse → Option (List CilExprItem)
  | .string data => (cilFillExpr flavor (.string data)).map fun item => [item]
  | .list current => cilFillExprHelper flavor current

mutual

/-- `cil_resolve_expr` on the items of the list of a condition; the flavor says in which table `cil_resolve_name`
looks. -/
def cilResolveCondExpr (resolveName : CilCondFlavor → CString → Option CString) (flavor : CilCondFlavor) :
    List CilExprItem → Option (List CilExprItem)
  | [] => some []
  | curr :: rest => do
    let item ← cilResolveCondItem resolveName flavor curr
    let items ← cilResolveCondExpr resolveName flavor rest
    return item :: items

def cilResolveCondItem (resolveName : CilCondFlavor → CString → Option CString) (flavor : CilCondFlavor) :
    CilExprItem → Option CilExprItem
  | .op op => some (.op op)
  | .leaf name => (resolveName flavor name).map .leaf
  | .list flavor items => (cilResolveCondExpr resolveName flavor items).map (.list flavor)

end

/-! ### Evaluation as a tunable -/

def CilExprOp.tunableValue (v1 v2 : Bool) : CilExprOp → Bool
  | .and => v1 && v2
  | .or => v1 || v2
  | .xor => v1 ^^ v2
  | .eq => v1 == v2
  | .neq => v1 != v2
  | .not | .all | .range => false

mutual

/-- `__cil_evaluate_tunable_expr_helper` on an item; the tunables have the values `τ`. -/
def cilEvaluateTunableExprHelper (τ : CString → Bool) : CilExprItem → Option Bool
  | .leaf fqn => some (τ fqn)
  | .list _ items => cilEvaluateTunableExpr τ items
  | .op _ => some false

/-- `__cil_evaluate_tunable_expr`; `none` is an access through a null pointer behind an operator. -/
def cilEvaluateTunableExpr (τ : CString → Bool) : List CilExprItem → Option Bool
  | [] => some false
  | .op op :: [] => if op = .not then some true else none
  | .op op :: x :: rest => do
    let v1 ← cilEvaluateTunableExprHelper τ x
    if op = .not then return !v1
    else
      match rest with
      | [] => return op.tunableValue v1 false
      | y :: _ => do
        let v2 ← cilEvaluateTunableExprHelper τ y
        return op.tunableValue v1 v2
  | curr :: rest => do
    let v ← cilEvaluateTunableExprHelper τ curr
    if v then return v else cilEvaluateTunableItems τ rest

/-- The loop over the items of a list without operator. -/
def cilEvaluateTunableItems (τ : CString → Bool) : List CilExprItem → Option Bool
  | [] => some false
  | curr :: rest => do
    let v ← cilEvaluateTunableExprHelper τ curr
    if v then return v else cilEvaluateTunableItems τ rest

end

/-! ### The postfix list -/

/-- The type of the entry for an operator. -/
def CilExprOp.condExprType : CilExprOp → Option Nat
  | .not => some condNot
  | .or => some condOr
  | .and => some condAnd
  | .xor => some condXor
  | .eq => some condEq
  | .neq => some condNeq
  | .all | .range => none

mutual

/-- `__cil_cond_item_to_sepol_expr`. -/
def cilCondItemToSepolExpr (p : CilPolicydb) : CilExprItem → Option (List CondExpr)
  | .op _ => none
  | .leaf fqn => do
    let sepolBool ← hashtabSearch p.pBools.table fqn
    return [⟨condBool, sepolBool.value⟩]
  | .list flavor items => cilCondExprToSepolExprHelper p flavor items

/-- `__cil_cond_expr_to_sepol_expr_helper`. -/
def cilCondExprToSepolExprHelper (p : CilPolicydb) : CilCondFlavor → List CilExprItem → Option (List CondExpr)
  | .tunable, _ => none
  | .bool, [] => none
  | .bool, .op _ :: [] => none
  | .bool, .op op :: x :: rest => do
    let exprType ← op.condExprType
    let h1 ← cilCondItemToSepolExpr p x
    if op = .not then return h1 ++ [⟨exprType, 0⟩]
    else
      match rest with
      | [] => none
      | y :: _ => do
        let h2 ← cilCondItemToSepolExpr p y
        return h1 ++ h2 ++ [⟨exprType, 0⟩]
  | .bool, item :: rest => do
    let h1 ← cilCondItemToSepolExpr p item
    cilCondItemsToSepolExpr p rest h1

/-- The loop over the other items of a list without operator. -/
def cilCondItemsToSepolExpr (p : CilPolicydb) : List CilExprItem → List CondExpr → Option (List CondExpr)
  | [], h1 => some h1
  | item :: rest, h1 => do
    let h2 ← cilCondItemToSepolExpr p item
    cilCondItemsToSepolExpr p rest (h1 ++ h2 ++ [⟨condOr, 0⟩])

end

/-! ### What an accepted list stands for -/

variable {p : CilPolicydb} {op : CilExprOp} {o : CondOp} {a b : CilExprItem} {items : List CilExprItem}
  {x y : CilBoolExpr} {xs : List CilBoolExpr}

/-- The value of the expression is that of the item as a tunable. -/
structure CilExprItem.StandsFor (item : CilExprItem) (x : CilBoolExpr) : Prop where
  ne_op : ∀ op, item ≠ .op op
  value : ∀ τ, cilEvaluateTunableExprHelper τ item = some (x.value τ)

/-- The item and the expression have the same postfix list. -/
def CilExprItem.Emits (p : CilPolicydb) (item : CilExprItem) (x : CilBoolExpr) : Prop :=
  ∃ expr, cilCondItemToSepolExpr p item = some expr ∧ cilCondExprToSepolExpr p x = some expr

def CilExprOp.condOp : CilExprOp → Option CondOp
  | .and => some .and
  | .or => some .or
  | .xor => some .xor
  | .eq => some .eq
  | .neq => some .neq
  | .not | .all | .range => none

private theorem tunableValue_condOp (h : op.condOp = some o) (v1 v2 : Bool) :
    op.tunableValue v1 v2 = o.apply v1 v2 := by
  cases op <;> cases h <;> rfl

private theorem condExprType_condOp (h : op.condOp = some o) : op.condExprType = some o.exprType := by
  cases op <;> cases h <;> rfl

private theorem ne_not_of_condOp (h : op.condOp = some o) : op ≠ .not := by
  rintro rfl
  cases h

private theorem evaluate_not (h : a.StandsFor x) (τ : CString → Bool) :
    cilEvaluateTunableExpr τ [.op .not, a] = some ((CilBoolExpr.not x).value τ) := by
  rw [cilEvaluateTunableExpr, h.value, CilBoolExpr.value]
  rfl

private theorem evaluate_binary (hop : op.condOp = some o) (ha : a.StandsFor x) (hb : b.StandsFor y)
    (τ : CString → Bool) :
    cilEvaluateTunableExpr τ [.op op, a, b] = some ((CilBoolExpr.binary o x y).value τ) := by
  rw [cilEvaluateTunableExpr, ha.value, CilBoolExpr.value]
  simp [ne_not_of_condOp hop, hb.value, tunableValue_condOp hop]

private theorem evaluate_items (h : List.Forall₂ CilExprItem.StandsFor items xs) (τ : CString → Bool) :
    cilEvaluateTunableItems τ items = some (anyValue τ xs) := by
  induction h with
  | nil => rw [cilEvaluateTunableItems, anyValue]
  | cons hx _ ih =>
    rw [cilEvaluateTunableItems, hx.value, anyValue, ih]
    cases CilBoolExpr.value τ _ <;> rfl

private theorem evaluate_of_ne_op (h : ∀ op, a ≠ .op op) (τ : CString → Bool) :
    cilEvaluateTunableExpr τ (a :: items) = cilEvaluateTunableItems τ (a :: items) := by
  rw [cilEvaluateTunableExpr, cilEvaluateTunableItems]
  · intro op heq _
    exact h op heq
  · intro op _ _ heq _
    exact h op heq

private theorem evaluate_list (h : List.Forall₂ CilExprItem.StandsFor items xs) (τ : CString → Bool) :
    cilEvaluateTunableExpr τ items = some ((CilBoolExpr.list xs).value τ) := by
  rw [CilBoolExpr.value, ← evaluate_items h τ]
  cases h with
  | nil => rw [cilEvaluateTunableExpr, cilEvaluateTunableItems]
  | cons hx _ => exact evaluate_of_ne_op hx.ne_op τ

private theorem emits_not (h : a.Emits p x) :
    ∃ expr, cilCondExprToSepolExprHelper p .bool [.op .not, a] = some expr ∧
      cilCondExprToSepolExpr p (.not x) = some expr := by
  obtain ⟨h1, ha, hx⟩ := h
  refine ⟨h1 ++ [⟨condNot, 0⟩], ?_, ?_⟩
  · rw [cilCondExprToSepolExprHelper, ha]
    rfl
  · rw [cilCondExprToSepolExpr, hx]
    rfl

private theorem emits_binary (hop : op.condOp = some o) (ha : a.Emits p x) (hb : b.Emits p y) :
    ∃ expr, cilCondExprToSepolExprHelper p .bool [.op op, a, b] = some expr ∧
      cilCondExprToSepolExpr p (.binary o x y) = some expr := by
  obtain ⟨h1, ha, hx⟩ := ha
  obtain ⟨h2, hb, hy⟩ := hb
  refine ⟨h1 ++ h2 ++ [⟨o.exprType, 0⟩], ?_, ?_⟩
  · rw [cilCondExprToSepolExprHelper, ha, condExprType_condOp hop]
    simp [ne_not_of_condOp hop, hb]
  · rw [cilCondExprToSepolExpr, hx, hy]
    rfl

private theorem emits_items (h : List.Forall₂ (CilExprItem.Emits p) items xs) (head : List CondExpr) :
    ∃ expr, cilCondItemsToSepolExpr p items head = some expr ∧ cilCondListToSepolExpr p xs head = some expr := by
  induction h generalizing head with
  | nil => exact ⟨head, by rw [cilCondItemsToSepolExpr], by rw [cilCondListToSepolExpr]⟩
  | cons hx _ ih =>
    obtain ⟨h2, ha, hx⟩ := hx
    rw [cilCondItemsToSepolExpr, cilCondListToSepolExpr, ha, hx]
    exact ih (head ++ h2 ++ [⟨condOr, 0⟩])

private theorem ne_op_of_emits (h : a.Emits p x) (op : CilExprOp) : a ≠ .op op := by
  rintro rfl
  obtain ⟨expr, h, _⟩ := h
  rw [cilCondItemToSepolExpr] at h
  cases h

private theorem emits_list (ha : a.Emits p x) (h : List.Forall₂ (CilExprItem.Emits p) items xs) :
    ∃ expr, cilCondExprToSepolExprHelper p .bool (a :: items) = some expr ∧
      cilCondExprToSepolExpr p (.list (x :: xs)) = some expr := by
  have hne := ne_op_of_emits ha
  obtain ⟨h1, ha, hx⟩ := ha
  obtain ⟨expr, hitems, hxs⟩ := emits_items h h1
  refine ⟨expr, ?_, ?_⟩
  · rw [cilCondExprToSepolExprHelper, ha]
    · exact hitems
    · intro op heq _
      exact hne op heq
    · intro op _ _ heq _
      exact hne op heq
  · rw [cilCondExprToSepolExpr, hx]
    exact hxs

/-! ### Filling and resolving -/

/-- An induction over nodes of the parse tree and lists of them at once. -/
theorem CilParse.listInduction {P : CilParse → Prop} {Q : List CilParse → Prop} (string : ∀ data, P (.string data))
    (list : ∀ cl, Q cl → P (.list cl)) (nil : Q []) (cons : ∀ c rest, P c → Q rest → Q (c :: rest)) :
    (∀ c, P c) ∧ ∀ cl, Q cl :=
  ⟨node, nodes⟩
where
  node : ∀ c, P c
    | .string data => string data
    | .list cl => list cl (nodes cl)
  nodes : ∀ cl, Q cl
    | [] => nil
    | c :: rest => cons c rest (node c) (nodes rest)

section Reading

variable (resolveName : CilCondFlavor → CString → Option CString) (flavor : CilCondFlavor)

/-- The resolved item of a node. -/
private def readItem (current : CilParse) : Option CilExprItem :=
  (cilFillExpr flavor current).bind (cilResolveCondItem resolveName flavor)

private def readItems (current : List CilParse) : Option (List CilExprItem) :=
  (cilFillExprs flavor current).bind (cilResolveCondExpr resolveName flavor)

private def readExpr (current : List CilParse) : Option (List CilExprItem) :=
  (cilFillExprHelper flavor current).bind (cilResolveCondExpr resolveName flavor)

private theorem readItem_string (data : CString) : readItem resolveName flavor (.string data) =
    if (cilGetExprOperatorFlavor data).isSome then none else (resolveName flavor data).map .leaf := by
  rw [readItem, cilFillExpr]
  split
  · rfl
  · rw [Option.bind_some, cilResolveCondItem]

private theorem readItem_list (current : CilParse) (rest : List CilParse) :
    readItem resolveName flavor (.list (current :: rest)) =
      (readExpr resolveName flavor (current :: rest)).map (.list flavor) := by
  rw [readItem, readExpr, cilFillExpr]
  cases cilFillExprHelper flavor (current :: rest) with
  | none => rfl
  | some items => rw [Option.map_some, Option.bind_some, Option.bind_some, cilResolveCondItem]

private theorem readItems_nil : readItems resolveName flavor [] = some [] := by
  rw [readItems, cilFillExprs, Option.bind_some, cilResolveCondExpr]

private theorem readItems_cons (current : CilParse) (rest : List CilParse) :
    readItems resolveName flavor (current :: rest) = (readItem resolveName flavor current).bind fun item =>
      (readItems resolveName flavor rest).map (item :: ·) := by
  rw [readItems, readItems, readItem, cilFillExprs]
  cases cilFillExpr flavor current with
  | none => rfl
  | some item =>
    cases cilFillExprs flavor rest with
    | none =>
      show none = (cilResolveCondItem resolveName flavor item).bind fun _ => none
      cases cilResolveCondItem resolveName flavor item <;> rfl
    | some items =>
      show cilResolveCondExpr resolveName flavor (item :: items) = _
      rw [cilResolveCondExpr, Option.bind_some, Option.bind_some]
      cases cilResolveCondItem resolveName flavor item with
      | none => rfl
      | some d => cases cilResolveCondExpr resolveName flavor items <;> rfl

private theorem readExpr_cons (current : CilParse) (rest : List CilParse) :
    readExpr resolveName flavor (current :: rest) =
      if !cilVerifyExprSyntax (current :: rest) (current.data.bind cilGetExprOperatorFlavor) then none
      else match current.data.bind cilGetExprOperatorFlavor with
        | some op => (readItems resolveName flavor rest).map (.op op :: ·)
        | none => readItems resolveName flavor (current :: rest) := by
  rw [readExpr, cilFillExprHelper]
  split
  · rfl
  · cases hop : current.data.bind cilGetExprOperatorFlavor with
    | none =>
      show _ = readItems resolveName flavor (current :: rest)
      rw [readItems, cilFillExprs]
    | some op =>
      show _ = (readItems resolveName flavor rest).map (.op op :: ·)
      rw [readItems]
      cases cilFillExprs flavor rest with
      | none => rfl
      | some items =>
        show cilResolveCondExpr resolveName flavor (.op op :: items) = _
        rw [cilResolveCondExpr, cilResolveCondItem]
        show (cilResolveCondExpr resolveName flavor items).bind _ =
          (cilResolveCondExpr resolveName flavor items).map _
        cases cilResolveCondExpr resolveName flavor items <;> rfl

end Reading

private theorem operands_of_verify {current : CilParse} {rest : List CilParse} {op : CilExprOp}
    (h : cilVerifyExprSyntax (current :: rest) (some op) = true) :
    (op = .not ∧ ∃ c, rest = [c]) ∨ (∃ o, op.condOp = some o) ∧ ∃ c d, rest = [c, d] := by
  rcases rest with _ | ⟨c, _ | ⟨d, _ | ⟨e, rest⟩⟩⟩ <;> cases op <;>
    simp [cilVerifyExprSyntax, cilVerifySyntax, CilSyntax.has, CilExprOp.condOp] at h ⊢

/-! ### Accepted expressions -/

/-- A name in a list of this flavor stands for a boolean of the policy: itself or, with preserved tunables, the one
that the tunable became. -/
def CilPolicydb.Preserves (p : CilPolicydb) (resolveName : CilCondFlavor → CString → Option CString)
    (flavor : CilCondFlavor) : Prop :=
  ∀ name fqn, resolveName flavor name = some fqn →
    resolveName .bool name = some fqn ∧ ∃ sepolBool, hashtabSearch p.pBools.table fqn = some sepolBool

section Accepted

variable {resolveName : CilCondFlavor → CString → Option CString} {flavor : CilCondFlavor} {current : List CilParse}

variable (p resolveName flavor) in
/-- What the nodes are in their flavor has the value of an expression, and in a list of booleans its postfix list. -/
private def ItemsRead (current : List CilParse) : Prop :=
  ∀ ds, readItems resolveName flavor current = some ds →
    ∃ xs ds', readItems resolveName .bool current = some ds' ∧
      List.Forall₂ CilExprItem.StandsFor ds xs ∧ List.Forall₂ (CilExprItem.Emits p) ds' xs

variable (p resolveName flavor) in
private def ExprRead (current : List CilParse) : Prop :=
  ∀ ds, readExpr resolveName flavor current = some ds →
    ∃ x ds', readExpr resolveName .bool current = some ds' ∧
      (∀ τ, cilEvaluateTunableExpr τ ds = some (x.value τ)) ∧
      ∃ expr, cilCondExprToSepolExprHelper p .bool ds' = some expr ∧ cilCondExprToSepolExpr p x = some expr

variable (p resolveName flavor) in
private def ItemRead (current : CilParse) : Prop :=
  ∀ d, readItem resolveName flavor current = some d →
    ∃ x d', readItem resolveName .bool current = some d' ∧ d.StandsFor x ∧ d'.Emits p x

private theorem ItemRead.string (h : p.Preserves resolveName flavor) (data : CString) :
    ItemRead p resolveName flavor (.string data) := by
  intro d hd
  rw [readItem_string] at hd
  split at hd
  · cases hd
  · next hop =>
    obtain ⟨fqn, hname, rfl⟩ := Option.map_eq_some_iff.1 hd
    obtain ⟨hbool, sepolBool, hfind⟩ := h data fqn hname
    refine ⟨.datum fqn, .leaf fqn, ?_, ⟨fun op heq => (by cases heq), fun τ => ?_⟩,
      [⟨condBool, sepolBool.value⟩], ?_, ?_⟩
    · rw [readItem_string, if_neg hop, hbool, Option.map_some]
    · rw [cilEvaluateTunableExprHelper, CilBoolExpr.value]
    · rw [cilCondItemToSepolExpr, hfind]
      rfl
    · rw [cilCondExprToSepolExpr, hfind]
      rfl

private theorem ItemRead.list {c : CilParse} {rest : List CilParse} (h : ExprRead p resolveName flavor (c :: rest)) :
    ItemRead p resolveName flavor (.list (c :: rest)) := by
  intro d hd
  rw [readItem_list] at hd
  obtain ⟨ds, hds, rfl⟩ := Option.map_eq_some_iff.1 hd
  obtain ⟨x, ds', hds', hvalue, expr, hitem, hexpr⟩ := h ds hds
  refine ⟨x, .list .bool ds', ?_, ⟨fun op heq => (by cases heq), fun τ => ?_⟩, expr, ?_, hexpr⟩
  · rw [readItem_list, hds', Option.map_some]
  · rw [cilEvaluateTunableExprHelper, hvalue]
  · rw [cilCondItemToSepolExpr, hitem]

private theorem ItemsRead.cons {c : CilParse} {rest : List CilParse} (hc : ItemRead p resolveName flavor c)
    (hrest : ItemsRead p resolveName flavor rest) : ItemsRead p resolveName flavor (c :: rest) := by
  intro ds hds
  rw [readItems_cons] at hds
  obtain ⟨d, hd, hds⟩ := Option.bind_eq_some_iff.1 hds
  obtain ⟨ds, htail, rfl⟩ := Option.map_eq_some_iff.1 hds
  obtain ⟨x, d', hd', hx, hemit⟩ := hc d hd
  obtain ⟨xs, ds', hds', hxs, hemits⟩ := hrest ds htail
  refine ⟨x :: xs, d' :: ds', ?_, .cons hx hxs, .cons hemit hemits⟩
  rw [readItems_cons, hd', hds']
  rfl

private theorem length_readItems {ds : List CilExprItem} (h : readItems resolveName flavor current = some ds) :
    ds.length = current.length := by
  induction current generalizing ds with
  | nil =>
    rw [readItems_nil] at h
    obtain rfl := Option.some.inj h
    rfl
  | cons c rest ih =>
    rw [readItems_cons] at h
    obtain ⟨d, _, h⟩ := Option.bind_eq_some_iff.1 h
    obtain ⟨ds, hds, rfl⟩ := Option.map_eq_some_iff.1 h
    rw [List.length_cons, List.length_cons, ih hds]

/-- The operands of an operator are the items behind it, and a list without operator is the disjunction. -/
private theorem ExprRead.of_items {c : CilParse} {rest : List CilParse}
    (hall : ItemsRead p resolveName flavor (c :: rest)) (hrest : ItemsRead p resolveName flavor rest) :
    ExprRead p resolveName flavor (c :: rest) := by
  intro ds hds
  rw [readExpr_cons] at hds
  split at hds
  · cases hds
  · next hverify =>
    cases hop : c.data.bind cilGetExprOperatorFlavor with
    | none =>
      rw [hop] at hds hverify
      obtain ⟨xs, ds', hds', hxs, hemits⟩ := hall ds hds
      cases hemits with
      | nil => have := length_readItems hds'; simp at this
      | @cons a x items xs hemit hemits =>
        refine ⟨.list (x :: xs), a :: items, ?_, evaluate_list hxs, emits_list hemit hemits⟩
        rw [readExpr_cons, hop, if_neg hverify]
        exact hds'
    | some op =>
      rw [hop] at hds hverify
      obtain ⟨items, hitems, rfl⟩ := Option.map_eq_some_iff.1 hds
      obtain ⟨xs, ds', hds', hxs, hemits⟩ := hrest items hitems
      have hlen := length_readItems hitems
      have hread : readExpr resolveName .bool (c :: rest) = some (.op op :: ds') := by
        rw [readExpr_cons, hop, if_neg hverify]
        dsimp only
        rw [hds', Option.map_some]
      rcases operands_of_verify (by simpa using hverify) with ⟨rfl, c1, rfl⟩ | ⟨⟨o, ho⟩, c1, c2, rfl⟩
      · obtain ⟨a, rfl⟩ := List.length_eq_one_iff.1 hlen
        obtain ⟨x, rfl⟩ := List.length_eq_one_iff.1 hxs.length_eq.symm
        obtain ⟨a', rfl⟩ := List.length_eq_one_iff.1 hemits.length_eq
        have ha := (List.forall₂_cons.1 hxs).1
        have ha' := (List.forall₂_cons.1 hemits).1
        exact ⟨.not x, [.op .not, a'], hread, evaluate_not ha, emits_not ha'⟩
      · obtain ⟨a, b, rfl⟩ := List.length_eq_two.1 hlen
        obtain ⟨x, y, rfl⟩ := List.length_eq_two.1 hxs.length_eq.symm
        obtain ⟨a', b', rfl⟩ := List.length_eq_two.1 hemits.length_eq
        obtain ⟨ha, hb⟩ := List.forall₂_cons.1 hxs
        obtain ⟨ha', hb'⟩ := List.forall₂_cons.1 hemits
        exact ⟨.binary o x y, [.op op, a', b'], hread, evaluate_binary ho ha (List.forall₂_cons.1 hb).1,
          emits_binary ho ha' (List.forall₂_cons.1 hb').1⟩

private theorem exprRead (h : p.Preserves resolveName flavor) (c : CilParse) (rest : List CilParse) :
    ExprRead p resolveName flavor (c :: rest) := by
  have hall := CilParse.listInduction (P := ItemRead p resolveName flavor)
    (Q := fun current => ItemsRead p resolveName flavor current ∧
      (current ≠ [] → ExprRead p resolveName flavor current))
    ?string ?list ?nil ?cons
  · exact (hall.2 (c :: rest)).2 (List.cons_ne_nil c rest)
  case string => exact ItemRead.string h
  case list =>
    intro cl ih
    cases cl with
    | nil =>
      intro d hd
      rw [readItem, cilFillExpr] at hd
      cases hd
    | cons c rest => exact ItemRead.list (ih.2 (List.cons_ne_nil c rest))
  case nil =>
    refine ⟨fun ds hds => ⟨[], [], readItems_nil .., ?_, .nil⟩, fun hne => absurd rfl hne⟩
    rw [readItems_nil] at hds
    obtain rfl := Option.some.inj hds
    exact .nil
  case cons =>
    intro c rest hc ih
    have hitems := ih.1.cons hc
    exact ⟨hitems, fun _ => .of_items hitems ih.1⟩

end Accepted

private theorem condEvaluateExpr_eq_none {t : CondTree} (h : cilValidateCondExpr t.toExpr ≠ true) (σ : Nat → Bool) :
    condEvaluateExpr σ t.toExpr = none := by
  have hnone : Postfix.depth condExprMaxdepth 0 t.tokens = none := by
    rw [Option.eq_none_iff_forall_ne_some]
    intro k hk
    obtain rfl := depth_tokens hk
    exact h ((cilValidateCondExpr_iff_depth t).2 hk)
  have hlen := depth_length (condInterp σ) condExprMaxdepth [] t.tokens
  rw [List.length_nil, hnone, eq_comm, Option.map_eq_none_iff] at hlen
  unfold condEvaluateExpr CondTree.toExpr
  rw [condEvaluateStep_foldlM σ (Nat.zero_le _), hlen]
  rfl

private theorem evaluates_of_emits {τ : CString → Bool} {σ : Nat → Bool} {expr : List CondExpr}
    (h : cilCondExprToSepolExpr p x = some expr) (hσ : p.Assigns τ σ) :
    condEvaluateExpr σ expr = if cilValidateCondExpr expr then some (x.value τ) else none := by
  obtain ⟨t, rfl, ht⟩ := exists_tree_of_cilCondExpr h
  split
  · next hvalid =>
    rw [condEvaluateExpr_toExpr ((cilValidateCondExpr_iff_depth t).1 hvalid), ht.value τ σ hσ]
  · next hvalid => exact condEvaluateExpr_eq_none hvalid σ

/-- A condition that is accepted in either flavor is accepted as one of booleans, too.  Its value as a tunable is what
`cond_evaluate_expr` returns for its postfix list, unless the list exceeds the depth that `__cil_validate_cond_expr`
allows: the evaluator returns -1 then. -/
theorem cilCondExpr_evaluates (p : CilPolicydb) (resolveName : CilCondFlavor → CString → Option CString)
    (flavor : CilCondFlavor) (current : CilParse) (strExpr datumExpr : List CilExprItem)
    (hpreserves : p.Preserves resolveName flavor) (hgen : cilGenExpr flavor current = some strExpr)
    (hresolve : cilResolveCondExpr resolveName flavor strExpr = some datumExpr) :
    ∃ strBool datumBool expr, cilGenExpr .bool current = some strBool ∧
      cilResolveCondExpr resolveName .bool strBool = some datumBool ∧
      cilCondExprToSepolExprHelper p .bool datumBool = some expr ∧
      ∀ τ, ∃ v, cilEvaluateTunableExpr τ datumExpr = some v ∧
        ∀ σ, p.Assigns τ σ →
          condEvaluateExpr σ expr = if cilValidateCondExpr expr then some v else none := by
  cases current with
  | string data =>
    obtain ⟨item, hitem, rfl⟩ := Option.map_eq_some_iff.1 hgen
    rw [cilResolveCondExpr, cilResolveCondExpr] at hresolve
    obtain ⟨d, hd, hresolve⟩ := Option.bind_eq_some_iff.1 hresolve
    obtain rfl := Option.some.inj hresolve
    have hread : readItem resolveName flavor (.string data) = some d := by
      rw [readItem, hitem]
      exact hd
    obtain ⟨x, d', hread', hx, hemit⟩ := ItemRead.string hpreserves data d hread
    obtain ⟨item', hitem', hd'⟩ := Option.bind_eq_some_iff.1 hread'
    -- a string alone is a list of one item
    obtain ⟨expr, hexpr, hx'⟩ := emits_list hemit .nil
    refine ⟨[item'], [d'], expr, ?_, ?_, hexpr, fun τ => ⟨_, evaluate_list (.cons hx .nil) τ, fun σ hσ => ?_⟩⟩
    · rw [cilGenExpr, hitem', Option.map_some]
    · rw [cilResolveCondExpr, cilResolveCondExpr, hd']
      rfl
    · exact evaluates_of_emits hx' hσ
  | list cl =>
    cases cl with
    | nil => cases hgen
    | cons c rest =>
      have hread : readExpr resolveName flavor (c :: rest) = some datumExpr := by
        rw [readExpr, show cilFillExprHelper flavor (c :: rest) = some strExpr from hgen]
        exact hresolve
      obtain ⟨x, datumBool, hread', hvalue, expr, hexpr, hx⟩ := exprRead hpreserves c rest datumExpr hread
      obtain ⟨strBool, hfill, hbool⟩ := Option.bind_eq_some_iff.1 hread'
      exact ⟨strBool, datumBool, expr, hfill, hbool, hexpr, fun τ =>
        ⟨x.value τ, hvalue τ, fun σ hσ => evaluates_of_emits hx hσ⟩⟩

/-! ### A disjunction nested to the right -/

/-- `(or a (or a … a))` with `n` operators. -/
def nestedOr : Nat → CilParse
  | 0 => .string ['a']
  | n + 1 => .list [.string ['o', 'r'], .string ['a'], nestedOr n]

/-- Only the boolean or tunable `a` is declared. -/
def resolveOnlyA (_ : CilCondFlavor) (name : CString) : Option CString := if name = ['a'] then some ['a'] else none

private theorem preserves_resolveOnlyA (flavor : CilCondFlavor) : twoBoolsPolicydb.Preserves resolveOnlyA flavor := by
  intro name fqn h
  refine ⟨h, ?_⟩
  unfold resolveOnlyA at h
  split at h
  · obtain rfl := Option.some.inj h
    exact ⟨⟨1, false⟩, rfl⟩
  · cases h

/-- The items of `(or a (or a a))` as a tunable. -/
private def nestedOrItems : List CilExprItem :=
  [.op .or, .leaf ['a'], .list .tunable [.op .or, .leaf ['a'], .leaf ['a']]]

theorem cilCondExpr_evaluates_or :
    (twoBoolsPolicydb.Preserves resolveOnlyA .tunable ∧ cilGenExpr .tunable (nestedOr 2) = some nestedOrItems ∧
      cilResolveCondExpr resolveOnlyA .tunable nestedOrItems = some nestedOrItems) ∧
    ∃ strBool datumBool expr, cilGenExpr .bool (nestedOr 2) = some strBool ∧
      cilResolveCondExpr resolveOnlyA .bool strBool = some datumBool ∧
      cilCondExprToSepolExprHelper twoBoolsPolicydb .bool datumBool = some expr ∧
      ∀ τ, ∃ v, cilEvaluateTunableExpr τ nestedOrItems = some v ∧
        ∀ σ, twoBoolsPolicydb.Assigns τ σ →
          condEvaluateExpr σ expr = if cilValidateCondExpr expr then some v else none :=
  ⟨⟨preserves_resolveOnlyA .tunable, rfl, rfl⟩,
    cilCondExpr_evaluates twoBoolsPolicydb resolveOnlyA .tunable (nestedOr 2) nestedOrItems nestedOrItems
      (preserves_resolveOnlyA .tunable) rfl rfl⟩

/-- With eleven operands the disjunction is accepted, and its value as a tunable is not what the evaluator returns. -/
theorem not_cilCondExpr_evaluates_nested :
    ¬ ∀ (p : CilPolicydb) (resolveName : CilCondFlavor → CString → Option CString) (current : CilParse)
      (strExpr datumExpr : List CilExprItem), p.Preserves resolveName .bool →
      cilGenExpr .bool current = some strExpr → cilResolveCondExpr resolveName .bool strExpr = some datumExpr →
      ∃ expr, cilCondExprToSepolExprHelper p .bool datumExpr = some expr ∧
        ∀ τ σ, p.Assigns τ σ → condEvaluateExpr σ expr = cilEvaluateTunableExpr τ datumExpr := by
  intro h
  have hgen : (cilGenExpr .bool (nestedOr 10)).isSome = true := by decide +kernel
  obtain ⟨strExpr, hstr⟩ := Option.isSome_iff_exists.1 hgen
  have hsame : (cilGenExpr .bool (nestedOr 10)).bind (cilResolveCondExpr resolveOnlyA .bool) =
      cilGenExpr .bool (nestedOr 10) := by rfl
  rw [hstr] at hsame
  obtain ⟨expr, hexpr, heval⟩ := h twoBoolsPolicydb resolveOnlyA (nestedOr 10) strExpr strExpr
    (preserves_resolveOnlyA .bool) hstr hsame
  have hlist : (cilGenExpr .bool (nestedOr 10)).bind (cilCondExprToSepolExprHelper twoBoolsPolicydb .bool) =
      some (List.replicate 11 ⟨condBool, 1⟩ ++ List.replicate 10 ⟨condOr, 0⟩) := by decide +kernel
  have hvalue : (cilGenExpr .bool (nestedOr 10)).bind (cilEvaluateTunableExpr fun _ => true) = some true := by
    decide +kernel
  rw [hstr, Option.bind_some] at hlist hvalue
  rw [hexpr] at hlist
  obtain rfl := Option.some.inj hlist
  have hnone := heval (fun _ => true) (fun _ => true) fun _ _ _ => rfl
  rw [hvalue] at hnone
  exact absurd hnone (by decide)

end Sepol
