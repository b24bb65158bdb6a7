import Sepol.CilConstraint
import Sepol.ConstraintRun
import Sepol.MlsGrammar

/-!
# The meaning of a CIL constraint

What a constraint of a CIL policy says of a source, a target and a third context, and what the compiler reads it as.
The front end lets `l1` stand on the right of every operand, which no rule of the language allows; the compiler writes
such a comparison as one with `u2`, `r2`, `t2` or `h2`, and a name list with whatever operator stands in front of it.
-/

namespace Sepol

open Postfix

/-! ### Meaning -/

/-- What an operand stands for: the value of a user, role or type, or a level. -/
inductive CilConsValue where
  | symbol (kind : CilConsKind) (value : Nat)
  | level (l : MlsLevel)

def CilConsValue.Same : CilConsValue → CilConsValue → Prop
  | .symbol kind value, .symbol kind' value' => kind = kind' ∧ value = value'
  | .level l, .level l' => l.Same l'
  | _, _ => False

def CilConsValue.Dominates (p : ConstraintPolicydb) : CilConsValue → CilConsValue → Prop
  | .symbol .role value, .symbol .role value' => value' - 1 ∈ p.dominates (value - 1)
  | .level l, .level l' => l.Dominates l'
  | _, _ => False

def CilConsOperand.value (s t : Context) (x : Option Context) : CilConsOperand → Option CilConsValue
  | .u1 => some (.symbol .user s.user)
  | .u2 => some (.symbol .user t.user)
  | .u3 => x.map fun x => .symbol .user x.user
  | .r1 => some (.symbol .role s.role)
  | .r2 => some (.symbol .role t.role)
  | .r3 => x.map fun x => .symbol .role x.role
  | .t1 => some (.symbol .type s.type)
  | .t2 => some (.symbol .type t.type)
  | .t3 => x.map fun x => .symbol .type x.type
  | .l1 => some (.level s.range.level0)
  | .l2 => some (.level t.range.level0)
  | .h1 => some (.level s.range.level1)
  | .h2 => some (.level t.range.level1)

/-- What an operator says, given what equality and the two directions of dominance say. -/
def CilConsOp.Says (eq dom domby : Prop) : CilConsOp → Prop
  | .eq => eq
  | .neq => ¬ eq
  | .dom => dom
  | .domby => domby
  | .incomp => ¬ dom ∧ ¬ domby
  | _ => False

/-- The value is in a set of values of a user, role or type, or of an attribute. -/
def CilConsDatum.Has : CilConsDatum → Nat → Prop
  | .value v, i => i = v
  | .attr _ _ members _, i => i ∈ members

/-- The symbol is one of those that the datum names. -/
def CilConsDatum.Names (p : Policydb) (db : CilConsDb) (kind : CilConsKind) (d : CilConsDatum) (v : CilConsValue) :
    Prop :=
  ∃ i, d.Has i ∧ ∃ value, cilGetSepolValue p kind (db.valToFqn kind i) = some value ∧ v = .symbol kind value

def CilConsRight.datums {δ : Type} : CilConsRight δ → List δ
  | .operand _ => []
  | .name d => [d]
  | .names ds => ds

/-- A comparison holds of the contexts. -/
def cilLeafHolds (p : ConstraintPolicydb) (db : CilConsDb) (s t : Context) (x : Option Context) (kind : CilConsKind)
    (op : CilConsOp) (l : CilConsOperand) : CilConsRight CilConsDatum → Prop
  | .operand o =>
    ∃ v ∈ l.value s t x, ∃ w ∈ o.value s t x, op.Says (v.Same w) (v.Dominates p w) (w.Dominates p v)
  | r => ∃ v ∈ l.value s t x, op.Says (∃ d ∈ r.datums, d.Names p.toPolicydb db kind v) False False

/-- The expression holds of the contexts. -/
def CilConsExpr.Holds (p : ConstraintPolicydb) (db : CilConsDb) (s t : Context) (x : Option Context) :
    CilConsExpr CilConsDatum → Prop
  | .leaf kind op l r => cilLeafHolds p db s t x kind op l r
  | .not e => ¬ e.Holds p db s t x
  | .binary .and l r => l.Holds p db s t x ∧ r.Holds p db s t x
  | .binary .or l r => l.Holds p db s t x ∨ r.Holds p db s t x
  | .binary _ _ _ => False

/-! ### What the compiler makes of it -/

/-- The operand that the compiler takes `l1` for, on the right of an operand. -/
def CilConsOperand.readL1 : CilConsOperand → Option CilConsOperand
  | .u1 => some .u2
  | .r1 => some .r2
  | .t1 => some .t2
  | .l1 | .l2 | .h1 => some .h2
  | _ => none

/-- The right side with `l1` as the compiler reads it. -/
def CilConsRight.asRead (l : CilConsOperand) : CilConsRight CilConsDatum → CilConsRight CilConsDatum
  | .operand .l1 => .operand (l.readL1.getD .l1)
  | r => r

def CilConsExpr.asRead : CilConsExpr CilConsDatum → CilConsExpr CilConsDatum
  | .leaf kind op l r => .leaf kind op l (r.asRead l)
  | .not e => .not e.asRead
  | .binary op l r => .binary op l.asRead r.asRead

/-- The comparison is one that the validator knows: `l1` is read as an operand that the front end allows there, and
names are only equal or not equal. -/
def cilLeafFits (flavor : CilConsFlavor) (op : CilConsOp) (l : CilConsOperand) : CilConsRight CilConsDatum → Prop
  | .operand .l1 => ∃ o ∈ l.readL1, cilVerifyConstraintLeafExprSyntax l (some o) op flavor = true
  | .operand _ => True
  | _ => op = .eq ∨ op = .neq

def CilConsExpr.Fits (flavor : CilConsFlavor) : CilConsExpr CilConsDatum → Prop
  | .leaf _ op l r => cilLeafFits flavor op l r
  | .not e => e.Fits flavor
  | .binary _ l r => l.Fits flavor ∧ r.Fits flavor

def CilConsRight.operand? {δ : Type} : CilConsRight δ → Option CilConsOperand
  | .operand o => some o
  | _ => none

/-- Each comparison stands in a list of its kind and has passed the check of its operands. -/
def CilConsExpr.Checked {δ : Type} (flavor : CilConsFlavor) : CilConsExpr δ → Prop
  | .leaf kind op l r => kind = l.kind ∧ cilVerifyConstraintLeafExprSyntax l r.operand? op flavor = true
  | .not e => e.Checked flavor
  | .binary _ l r => l.Checked flavor ∧ r.Checked flavor

private theorem checked_of_fillLeaf {flavor : CilConsFlavor} {op : CilConsOp} {left right : CilParse}
    {e : CilConsExpr CString} (h : cilFillConstraintLeafExpr flavor op left right = some e) : e.Checked flavor := by
  unfold cilFillConstraintLeafExpr at h
  split at h
  · cases h
  · next l _ =>
    dsimp only at h
    generalize right.data.bind cilConstraintOperandFlavor = r at h
    split_ifs at h with hverify
    rw [Bool.not_eq_true, Bool.not_eq_false'] at hverify
    split at h
    · obtain rfl := Option.some.inj h
      exact ⟨rfl, hverify⟩
    · obtain rfl := Option.some.inj h
      exact ⟨rfl, hverify⟩
    · obtain ⟨names, _, rfl⟩ := Option.map_eq_some_iff.1 h
      exact ⟨rfl, hverify⟩

private theorem checked_of_cilFillConstraintExpr {flavor : CilConsFlavor} (current : CilParse)
    {e : CilConsExpr CString} (h : cilFillConstraintExpr flavor current = some e) : e.Checked flavor := by
  fun_induction cilFillConstraintExpr flavor current generalizing e with
  | case1 op x hop hverify ih =>
    obtain ⟨e', he', rfl⟩ := Option.map_eq_some_iff.1 h
    show e'.Checked flavor
    exact ih he'
  | case6 op x y op' hop hverify hlogic ihl ihr =>
    obtain ⟨l, hl, h⟩ := Option.bind_eq_some_iff.1 h
    obtain ⟨r, hr, h⟩ := Option.bind_eq_some_iff.1 h
    obtain rfl := Option.some.inj h
    exact ⟨ihl hl, ihr hr⟩
  | case7 op x y op' hop hverify hlogic => exact checked_of_fillLeaf h
  | _ => cases h

private theorem operand_cilResolveRight {resolveName : CString → Option CilConsDatum} {r : CilConsRight CString}
    {r' : CilConsRight CilConsDatum} (h : cilResolveRight resolveName r = some r') : r'.operand? = r.operand? := by
  cases r with
  | operand o =>
    obtain rfl := Option.some.inj h
    rfl
  | name d =>
    obtain ⟨_, _, rfl⟩ := Option.map_eq_some_iff.1 h
    rfl
  | names ds =>
    obtain ⟨_, _, rfl⟩ := Option.map_eq_some_iff.1 h
    rfl

private theorem CilConsExpr.Checked.resolve {flavor : CilConsFlavor}
    {resolveName : CilConsKind → CString → Option CilConsDatum}
    {e : CilConsExpr CString} {e' : CilConsExpr CilConsDatum} (he : e.Checked flavor)
    (h : cilResolveExpr resolveName e = some e') : e'.Checked flavor := by
  induction e generalizing e' with
  | leaf kind op l r =>
    obtain ⟨r', hr, rfl⟩ := Option.map_eq_some_iff.1 h
    exact ⟨he.1, (operand_cilResolveRight hr).symm ▸ he.2⟩
  | not e ih =>
    obtain ⟨e', he', rfl⟩ := Option.map_eq_some_iff.1 h
    show e'.Checked flavor
    exact ih he he'
  | binary op l r ihl ihr =>
    obtain ⟨l', hl, h⟩ := Option.bind_eq_some_iff.1 h
    obtain ⟨r', hr, h⟩ := Option.bind_eq_some_iff.1 h
    obtain rfl := Option.some.inj h
    exact ⟨ihl he.1 hl, ihr he.2 hr⟩

theorem CilConstraint.Accepted.checked {resolveName : CilConsKind → CString → Option CilConsDatum}
    {stmt : CilConstraint}
    (h : stmt.Accepted resolveName) : stmt.datumExpr.Checked stmt.flavor := by
  obtain ⟨current, strExpr, hfill, hresolve⟩ := h
  exact (checked_of_cilFillConstraintExpr current hfill).resolve hresolve

end Sepol
