import Sepol.AvtabWrite
import Sepol.CilAvrule
import Sepol.CondCopy
import Sepol.CondDenote

/-!
# Conditional blocks of a CIL policy

`cil_booleanif_to_policydb`: the expression of a `booleanif` becomes a postfix list, which is normalized and looked up
among the conditionals that the policy has; then the rules of the blocks are written to the lists of the node.  A
conditional is a node here whose lists hold nodes of `te_cond_avtab`.
-/

namespace Sepol

open Postfix

/-! ### Expressions -/

/-- An item of a resolved expression: a boolean, by its name, or a list. -/
inductive CilBoolExpr where
  | datum (fqn : CString)
  | not (x : CilBoolExpr)
  | binary (op : CondOp) (x y : CilBoolExpr)
  | list (items : List CilBoolExpr)

/-- An induction over expressions and lists of them at once. -/
theorem CilBoolExpr.listInduction {P : CilBoolExpr → Prop} {Q : List CilBoolExpr → Prop}
    (datum : ∀ fqn, P (.datum fqn))
    (not : ∀ x, P x → P (.not x)) (binary : ∀ op x y, P x → P y → P (.binary op x y))
    (list : ∀ items, Q items → P (.list items)) (nil : Q []) (cons : ∀ x rest, P x → Q rest → Q (x :: rest)) :
    (∀ x, P x) ∧ ∀ items, Q items :=
  ⟨expr, exprs⟩
where
  expr : ∀ x, P x
    | .datum fqn => datum fqn
    | .not x => not x (expr x)
    | .binary op x y => binary op x y (expr x) (expr y)
    | .list items => list items (exprs items)
  exprs : ∀ items, Q items
    | [] => nil
    | x :: rest => cons x rest (expr x) (exprs rest)

mutual

/-- The value of an expression when the booleans have the values `τ`; a list without operator is the disjunction. -/
def CilBoolExpr.value (τ : CString → Bool) : CilBoolExpr → Bool
  | .datum fqn => τ fqn
  | .not x => !x.value τ
  | .binary op x y => op.apply (x.value τ) (y.value τ)
  | .list items => anyValue τ items

def anyValue (τ : CString → Bool) : List CilBoolExpr → Bool
  | [] => false
  | x :: rest => x.value τ || anyValue τ rest

end

mutual

/-- `__cil_cond_item_to_sepol_expr` and `__cil_cond_expr_to_sepol_expr_helper`. -/
def cilCondExprToSepolExpr (p : CilPolicydb) : CilBoolExpr → Option (List CondExpr)
  | .datum fqn => do
    let sepolBool ← hashtabSearch p.pBools.table fqn
    return [⟨condBool, sepolBool.value⟩]
  | .not x => do
    let h1 ← cilCondExprToSepolExpr p x
    return h1 ++ [⟨condNot, 0⟩]
  | .binary op x y => do
    let h1 ← cilCondExprToSepolExpr p x
    let h2 ← cilCondExprToSepolExpr p y
    return h1 ++ h2 ++ [⟨op.exprType, 0⟩]
  | .list [] => none
  | .list (item :: rest) => do
    let head ← cilCondExprToSepolExpr p item
    cilCondListToSepolExpr p rest head

/-- The loop over the other items of a list, behind what the items before became. -/
def cilCondListToSepolExpr (p : CilPolicydb) : List CilBoolExpr → List CondExpr → Option (List CondExpr)
  | [], head => some head
  | item :: rest, head => do
    let h2 ← cilCondExprToSepolExpr p item
    cilCondListToSepolExpr p rest (head ++ h2 ++ [⟨condOr, 0⟩])

end

/-- `__cil_validate_cond_expr`, from a depth on. -/
def cilValidateCondExprFrom : Int → List CondExpr → Bool
  | depth, [] => depth = 0
  | depth, e :: next =>
    match e.exprType with
    | condBool => if depth = condExprMaxdepth - 1 then false else cilValidateCondExprFrom (depth + 1) next
    | condNot => if depth < 0 then false else cilValidateCondExprFrom depth next
    | condOr | condAnd | condXor | condEq | condNeq =>
      if depth < 1 then false else cilValidateCondExprFrom (depth - 1) next
    | _ => false

def cilValidateCondExpr (condExpr : List CondExpr) : Bool := cilValidateCondExprFrom (-1) condExpr

/-! ### Blocks -/

/-- A statement in a conditional block. -/
inductive CilCondStmt where
  | nametypetransition (rule : CilNametypetransition)
  | typeRule (rule : CilTypeRule)
  | avrule (rule : CilPolicyAvrule)
  | avrulex (rule : CilPolicyAvrulex)
  | call (body : List CilCondStmt)
  | tunableif (body : List CilCondStmt)
  | other

mutual

/-- The walk with `__cil_cond_to_policydb_helper` through the statements of a block. -/
def cilCondToPolicydb (p : CilPolicydb) (db : CilBinaryDb) (condFlavor : Bool) :
    List CilCondStmt → CilTables × CilXpermTables → Option (CilTables × CilXpermTables)
  | [], st => some st
  | node :: rest, st => do
    let st ← cilCondToPolicydbHelper p db condFlavor node st
    cilCondToPolicydb p db condFlavor rest st

def cilCondToPolicydbHelper (p : CilPolicydb) (db : CilBinaryDb) (condFlavor : Bool) :
    CilCondStmt → CilTables × CilXpermTables → Option (CilTables × CilXpermTables)
  | .nametypetransition rule, st =>
    if rule.name ≠ cilKeyStar then none
    else (cilTypetransitionToAvtab p.toPolicydb db rule (some condFlavor) st.1).map fun tables => (tables, st.2)
  | .typeRule rule, st =>
    (cilTypeRuleToAvtab p.toPolicydb db rule (some condFlavor) st.1).map fun tables => (tables, st.2)
  | .avrule rule, st =>
    (cilAvruleToAvtab p.toPolicydb db rule (some condFlavor) st.1).map fun tables => (tables, st.2)
  | .avrulex rule, st =>
    if db.policyVersion < policydbVersionCondXperms then none
    else (cilAvrulexToHashtable p.toPolicydb db rule st.2).map fun xt => (st.1, xt)
  | .call body, st => cilCondToPolicydb p db condFlavor body st
  | .tunableif body, st => cilCondToPolicydb p db condFlavor body st
  | .other, _ => none

end

/-- The part of `cil_booleanif_to_policydb` for one of the two blocks. -/
def cilCondblockToPolicydb (p : CilPolicydb) (db : CilBinaryDb) (condFlavor : Bool)
    (block : Option (List CilCondStmt)) (st : CilTables) : Option CilTables :=
  match block with
  | none => some st
  | some body => do
    let (st, xt) ← cilCondToPolicydb p db condFlavor body (st, cilXpermTablesCreate)
    cilXpermTablesToPolicydb p (some condFlavor) xt st

/-! ### The statement -/

/-- A resolved `booleanif`, with the flavors and the statements of its blocks. -/
structure CilBooleanif where
  datumExpr : CilBoolExpr
  blocks : List (Bool × List CilCondStmt)

/-- The last block of a flavor. -/
def CilBooleanif.block (boolif : CilBooleanif) (flavor : Bool) : Option (List CilCondStmt) :=
  ((boolif.blocks.filter fun b => b.1 = flavor).getLast?).map Prod.snd

abbrev CilCondNode : Type := CondNodeT Unit AvtabNode

/-- The tables of the policy that rules change. -/
structure CilPassState where
  teAvtab : Avtab
  teCondAvtab : Avtab
  condList : List CilCondNode
  boolState : Nat → Bool
  xt : CilXpermTables

/-- The temporary node for an expression; the entry of its list only shows whether the lists were exchanged. -/
def cilTmpCond (expr : List CondExpr) : CilCondNode where
  curState := some false
  expr := expr
  trueList := [⟨⟨0, 0, 0, 0⟩, ⟨0, avtabExtendedPermsInit⟩, 0⟩]
  falseList := []
  avtrueList := []
  avfalseList := []
  nbools := 0
  boolIds := []
  exprPreComp := 0
  flags := 0

/-- The conditionals with the node for a normalized expression, which is put in front when it is new, and its place.
-/
def cilCondNode (state : Nat → Bool) (tmpCond : CilCondNode) (condList : List CilCondNode) :
    Option (Nat × List CilCondNode) :=
  match condNodeFind state { tmpCond with trueList := [] } condList with
  | .inl place => some (place, condList)
  | .inr none => none
  | .inr (some condNode) => some (0, condNode :: condList)

/-- What a block has generated: the nodes of `te_cond_avtab` from the address `first` on and before `last`. -/
structure CilCondRules where
  expr : CilBoolExpr
  flavor : Bool
  first : Nat
  last : Nat

/-- `cil_booleanif_to_policydb`, with what the two blocks generated. -/
def cilBooleanifToPolicydb (p : CilPolicydb) (db : CilBinaryDb) (boolif : CilBooleanif) (s : CilPassState) :
    Option (CilPassState × List CilCondRules) := do
  let expr ← cilCondExprToSepolExpr p boolif.datumExpr
  if !cilValidateCondExpr expr then none
  else
    let (ok, boolState, tmpCond) := condNormalizeExpr s.boolState (cilTmpCond expr)
    if !ok then none
    else
      let swapped := !tmpCond.falseList.isEmpty
      let (place, condList) ← cilCondNode boolState tmpCond s.condList
      let condNode ← condList[place]?
      let st : CilTables := ⟨s.teAvtab, s.teCondAvtab, condNode.trueList, condNode.falseList⟩
      let st1 ← cilCondblockToPolicydb p db true (boolif.block (true ^^ swapped)) st
      let st2 ← cilCondblockToPolicydb p db false (boolif.block (false ^^ swapped)) st1
      return ({ s with
          teAvtab := st2.teAvtab
          teCondAvtab := st2.teCondAvtab
          condList := condList.set place { condNode with trueList := st2.trueList, falseList := st2.falseList }
          boolState := boolState },
        [⟨boolif.datumExpr, true ^^ swapped, st.teCondAvtab.fresh, st1.teCondAvtab.fresh⟩,
          ⟨boolif.datumExpr, false ^^ swapped, st1.teCondAvtab.fresh, st2.teCondAvtab.fresh⟩])

/-- The statements of the pass that writes access vector rules and conditionals. -/
inductive CilPassStmt where
  | booleanif (boolif : CilBooleanif)
  | avrule (rule : CilPolicyAvrule)
  | avrulex (rule : CilPolicyAvrulex)

/-- The third pass of `__cil_node_to_policydb`. -/
def cilNodeToPolicydb (p : CilPolicydb) (db : CilBinaryDb) (s : CilPassState) :
    CilPassStmt → Option (CilPassState × List CilCondRules)
  | .booleanif boolif => cilBooleanifToPolicydb p db boolif s
  | .avrule rule =>
    if rule.ruleKind = .neverallow then some (s, [])
    else (cilAvruleToAvtab p.toPolicydb db rule none ⟨s.teAvtab, s.teCondAvtab, [], []⟩).map fun st =>
      ({ s with teAvtab := st.teAvtab, teCondAvtab := st.teCondAvtab }, [])
  | .avrulex rule =>
    if rule.ruleKind = .neverallow then some (s, [])
    else (cilAvrulexToHashtable p.toPolicydb db rule s.xt).map fun xt => ({ s with xt := xt }, [])

/-- The pass over some statements, with what the blocks in them generated. -/
def cilNodesToPolicydb (p : CilPolicydb) (db : CilBinaryDb) :
    List CilPassStmt → CilPassState → Option (CilPassState × List CilCondRules)
  | [], s => some (s, [])
  | stmt :: rest, s => do
    let (s, rules) ← cilNodeToPolicydb p db s stmt
    let (s, next) ← cilNodesToPolicydb p db rest s
    return (s, rules ++ next)

/-- The state before the pass: there are no conditionals yet. -/
def cilPassInit (teAvtab : Avtab) (boolState : Nat → Bool) : CilPassState where
  teAvtab := teAvtab
  teCondAvtab := avtabAlloc maxAvtabSize
  condList := []
  boolState := boolState
  xt := cilXpermTablesCreate

end Sepol
