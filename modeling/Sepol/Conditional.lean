import Sepol.Policydb
import Sepol.Lib.TruthTable

/-!
# Conditional nodes

The functions of `conditional.c` that bring the expression of a conditional into its normal form, compare expressions,
and find or create the node of an expression.  The booleans of a policy are a function from their index to their
state. The array `bool_ids` is the list of the entries that were written to it.
-/

namespace Sepol

abbrev condMaxBools : Nat := 5

/-- `cond_node_t`, with access-vector rules `α` and entries `β` of the lists that point into `te_cond_avtab`; the
state of an undefined expression (-1) is `none`. -/
structure CondNodeT (α β : Type) where
  curState : Option Bool
  expr : List CondExpr
  trueList : List β
  falseList : List β
  avtrueList : List α
  avfalseList : List α
  nbools : Nat
  boolIds : List Nat
  exprPreComp : BitVec 32
  flags : Nat

variable {α β : Type}

/-! ### Comparing expressions -/

def boolPresent (target : Nat) (bools : List Nat) (numBools : Nat) : Bool :=
  if numBools > condMaxBools then false else target ∈ bools.take numBools

def sameBools (a b : CondNodeT α β) : Bool :=
  if a.nbools ≠ b.nbools then false
  else (a.boolIds.take a.nbools).all fun id => boolPresent id b.boolIds a.nbools

/-- The loop of `cond_expr_equal` over two long expressions. -/
def condExprSame : List CondExpr → List CondExpr → Bool
  | [], [] => true
  | curA :: nextA, curB :: nextB =>
    if curA.exprType ≠ curB.exprType then false
    else if curA.exprType = condBool ∧ curA.boolean ≠ curB.boolean then false
    else condExprSame nextA nextB
  | _, _ => false

def condExprEqual (a b : CondNodeT α β) : Bool :=
  if a.nbools ≠ b.nbools then false
  else if a.nbools ≤ condMaxBools ∧ b.nbools ≤ condMaxBools then
    if !sameBools a b then false else a.exprPreComp = b.exprPreComp
  else condExprSame a.expr b.expr

/-! ### Finding and creating nodes -/

/-- `cond_node_create` for an existing node; an expression without entries has no copy. -/
def condNodeCreate (state : Nat → Bool) (node : CondNodeT α β) : Option (CondNodeT α β) :=
  if node.expr = [] then none
  else some {
    curState := condEvaluateExpr state node.expr
    expr := node.expr
    trueList := []
    falseList := []
    avtrueList := []
    avfalseList := []
    nbools := node.nbools
    boolIds := node.boolIds.take (min node.nbools condMaxBools)
    exprPreComp := node.exprPreComp
    flags := node.flags }

/-- `cond_node_find`: the place of the node in the list when there is one, otherwise a new node. -/
def condNodeFind (state : Nat → Bool) (needle : CondNodeT α β) (haystack : List (CondNodeT α β)) :
    Sum Nat (Option (CondNodeT α β)) :=
  match haystack.findIdx? (condExprEqual needle) with
  | some i => .inl i
  | none => .inr (condNodeCreate state needle)

/-- `cond_node_search`: the place of the node in the list of the policy, and the list, which a new node is put in
front of. -/
def condNodeSearch (state : Nat → Bool) (list : List (CondNodeT α β)) (cn : CondNodeT α β) :
    Option (Nat × List (CondNodeT α β)) :=
  match condNodeFind state cn list with
  | .inl i => some (i, list)
  | .inr result => result.map fun result => (0, result :: list)

/-! ### The normal form -/

/-- The booleans of an expression, counted in the order in which they appear; only the first ones are recorded. -/
def condCountBools : List CondExpr → Nat × List Nat → Nat × List Nat
  | [], r => r
  | e :: next, (nbools, boolIds) =>
    if e.exprType = condBool ∧ !boolPresent e.boolean boolIds nbools then
      condCountBools next (nbools + 1, if nbools < condMaxBools then boolIds ++ [e.boolean] else boolIds)
    else condCountBools next (nbools, boolIds)

/-- The loop over `j` that gives every boolean the value of its bit of `test`, from bit `j` on. -/
def condSetBools (test : Nat) : Nat → List Nat → (Nat → Bool) → Nat → Bool
  | _, [], state => state
  | j, id :: boolIds, state => condSetBools test (j + 1) boolIds (Function.update state (id - 1) (test.testBit j))

/-- The loop over `test` that computes `expr_pre_comp`: whether all values were defined, the states of the booleans it
leaves, and the table. -/
def condPrecompute (expr : List CondExpr) (boolIds : List Nat) :
    List Nat → (Nat → Bool) → BitVec 32 → Bool × (Nat → Bool) × BitVec 32
  | [], state, preComp => (true, state, preComp)
  | test :: tests, state, preComp =>
    let state := condSetBools test 0 boolIds state
    match condEvaluateExpr state expr with
    | none => (false, state, preComp)
    | some k => condPrecompute expr boolIds tests state (if k then preComp ||| 1#32 <<< test else preComp)

/-- The loop that gives the booleans their states back. -/
def condRestoreBools (orig : Nat → Bool) (boolIds : List Nat) (state : Nat → Bool) : Nat → Bool :=
  boolIds.foldl (fun state id => Function.update state (id - 1) (orig (id - 1))) state

/-- The part of `cond_normalize_expr` before the booleans are counted: a last operator `!` is dropped and the lists
are exchanged.  The result is `none` for an expression that is only `!`, and for an empty one, which has no last
entry. -/
def condStripNot (cn : CondNodeT α β) : Option (CondNodeT α β) :=
  match cn.expr.getLast? with
  | none => none
  | some e =>
    if e.exprType = condNot then
      if cn.expr.length = 1 then none
      else some { cn with
        expr := cn.expr.dropLast
        trueList := cn.falseList
        falseList := cn.trueList
        avtrueList := cn.avfalseList
        avfalseList := cn.avtrueList }
    else some cn

/-- `cond_normalize_expr`: whether it succeeds, the states of the booleans and the node. -/
def condNormalizeExpr (state : Nat → Bool) (cn : CondNodeT α β) : Bool × (Nat → Bool) × CondNodeT α β :=
  let cn := { cn with nbools := 0, boolIds := [], exprPreComp := 0 }
  match condStripNot cn with
  | none => (false, state, cn)
  | some cn =>
    let bools := condCountBools cn.expr (0, [])
    let cn := { cn with nbools := bools.1, boolIds := bools.2 }
    if cn.nbools ≤ condMaxBools then
      let r := condPrecompute cn.expr cn.boolIds (List.range (2 ^ cn.nbools)) state 0
      let cn := { cn with exprPreComp := r.2.2 }
      if r.1 then (true, condRestoreBools state cn.boolIds r.2.1, cn) else (false, r.2.1, cn)
    else (true, state, cn)

end Sepol
