import Sepol.AvtabRead
import Sepol.AvtabUpdate

/-!
# Reading and evaluating the conditionals of a kernel policy

`cond_read_list` for a kernel policy, and `evaluate_conds`, which sets the flags of the rules in the lists after the
booleans have changed.  The booleans are a function from their index to their state; the type rules of the
unconditional table are only looked up.
-/

namespace Sepol

/-- A `cond_node_t` of a kernel policy: `cur_state` is an `int`. -/
structure KernelCondNode extends CondNode where
  curState : Int

/-! ### Reading -/

/-- The checks of `cond_insertf` for type rules; `other` is the true list when the false list is read. -/
def condTypeRuleOk (teAvtab teCondAvtab : Avtab) (other : List Nat) (k : AvtabKey) : Bool :=
  (avtabSearch teAvtab k).isNone &&
    if other ≠ [] then
      match avtabSearchNode teCondAvtab k with
      | [] => true
      | node :: next => (avtabSearchNodeNext (node :: next) k.specified).isEmpty && node.addr ∈ other
    else (avtabSearch teCondAvtab k).isNone

/-- `cond_insertf`, on the table of the conditional rules and the list that is read. -/
def condInsertf (teAvtab : Avtab) (other : List Nat) (k : AvtabKey) (d : AvtabDatum) (data : Avtab × List Nat) :
    Option (Avtab × List Nat) :=
  if hasSpecified k.specified avtabType && !condTypeRuleOk teAvtab data.1 other k then none
  else (avtabInsertNonunique data.1 k d).map fun r => (r.1, data.2 ++ [r.2.addr])

/-- `cond_read_av_list`. -/
def condReadAvList (teAvtab : Avtab) (vers : Nat) (fp : List Byte) (other : List Nat) (teCondAvtab : Avtab) :
    Option ((Avtab × List Nat) × List Byte) := do
  let (buf, fp) ← nextEntry fp 4
  avtabReadItems vers (condInsertf teAvtab other) (le32ToCpu buf 0) fp (teCondAvtab, [])

abbrev condLast : Nat := condNeq

def exprIsvalid (boolsNprim : Nat) (expr : CondExpr) : Bool :=
  !(expr.exprType = 0 || expr.exprType > condLast) && !(expr.boolean > boolsNprim)

/-- The loop of `cond_read_node` over the expression. -/
def condReadExpr (boolsNprim : Nat) : Nat → List Byte → Option (List CondExpr × List Byte)
  | 0, fp => some ([], fp)
  | len + 1, fp => do
    let (buf, fp) ← nextEntry fp (4 * 2)
    let expr : CondExpr := ⟨le32ToCpu buf 0, le32ToCpu buf 1⟩
    guard (exprIsvalid boolsNprim expr)
    let (next, fp) ← condReadExpr boolsNprim len fp
    return (expr :: next, fp)

/-- `cond_read_node` for a kernel policy. -/
def condReadNode (teAvtab : Avtab) (vers boolsNprim : Nat) (fp : List Byte) (teCondAvtab : Avtab) :
    Option (Avtab × KernelCondNode × List Byte) := do
  let (buf, fp) ← nextEntry fp 4
  let curState := (BitVec.ofNat 32 (le32ToCpu buf 0)).toInt
  let (buf, fp) ← nextEntry fp 4
  let (expr, fp) ← condReadExpr boolsNprim (le32ToCpu buf 0) fp
  let ((teCondAvtab, trueList), fp) ← condReadAvList teAvtab vers fp [] teCondAvtab
  let ((teCondAvtab, falseList), fp) ← condReadAvList teAvtab vers fp trueList teCondAvtab
  return (teCondAvtab, ⟨⟨expr, trueList, falseList⟩, curState⟩, fp)

/-- The table of the conditional rules and the conditionals. -/
structure CondPolicy where
  teCondAvtab : Avtab
  condList : List KernelCondNode

/-- The loop of `cond_read_list`. -/
def condReadNodes (teAvtab : Avtab) (vers boolsNprim : Nat) :
    Nat → List Byte → Avtab → Option (CondPolicy × List Byte)
  | 0, fp, teCondAvtab => some (⟨teCondAvtab, []⟩, fp)
  | len + 1, fp, teCondAvtab => do
    let (teCondAvtab, node, fp) ← condReadNode teAvtab vers boolsNprim fp teCondAvtab
    let (p, fp) ← condReadNodes teAvtab vers boolsNprim len fp teCondAvtab
    return (⟨p.teCondAvtab, node :: p.condList⟩, fp)

/-- `cond_read_list` for a kernel policy. -/
def condReadList (teAvtab : Avtab) (vers boolsNprim : Nat) (fp : List Byte) : Option (CondPolicy × List Byte) := do
  let (buf, fp) ← nextEntry fp 4
  condReadNodes teAvtab vers boolsNprim (le32ToCpu buf 0) fp (avtabAlloc teAvtab.nel.toNat)

/-! ### Evaluation -/

/-- The value of `cond_evaluate_expr` as an `int`. -/
def condExprState (state : Nat → Bool) (expr : List CondExpr) : Int :=
  match condEvaluateExpr state expr with
  | none => -1
  | some v => if v then 1 else 0

/-- A loop that turns the rules of a list on or off. -/
def condSetEnabled (enabled : Bool) : List Nat → Avtab → Avtab
  | [], tab => tab
  | cur :: next, tab => condSetEnabled enabled next (avtabUpdateNode tab cur fun n => n.setEnabled enabled)

def evaluateCondNode (state : Nat → Bool) (tab : Avtab) (node : KernelCondNode) : Avtab × KernelCondNode :=
  let newState := condExprState state node.expr
  if newState ≠ node.curState then
    let tab := condSetEnabled (0 < newState) node.trueList tab
    let tab := condSetEnabled (newState = 0) node.falseList tab
    (tab, { node with curState := newState })
  else (tab, node)

/-- `evaluate_conds` over a list of conditionals. -/
def evaluateCondNodes (state : Nat → Bool) : Avtab → List KernelCondNode → CondPolicy
  | tab, [] => ⟨tab, []⟩
  | tab, cur :: next =>
    let r := evaluateCondNode state tab cur
    let p := evaluateCondNodes state r.1 next
    ⟨p.teCondAvtab, r.2 :: p.condList⟩

def evaluateConds (state : Nat → Bool) (p : CondPolicy) : CondPolicy :=
  evaluateCondNodes state p.teCondAvtab p.condList

/-- Changes of the booleans, with an evaluation after each. -/
def evaluateRun (states : List (Nat → Bool)) (p : CondPolicy) : CondPolicy :=
  states.foldl (fun p state => evaluateConds state p) p

end Sepol
