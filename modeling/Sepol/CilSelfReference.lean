import Sepol.CilExpr
import Sepol.Lib.Equations

/-!
# Attributes that refer to one another

The datums of a set expression are types, roles, users or categories, which have a value, aliases of them, and
attributes or category sets, which have expressions of their own.  `cil_verify_no_self_reference` follows the
references from a datum, with the attributes it has come through on a stack.
-/

namespace Sepol

/-- A datum of a set expression, with the value of what it stands for, or the address of an attribute. -/
inductive CilSetDatum (count : Nat) where
  | actual (value : Fin count)
  | aliased (value : Fin count)
  | attr (address : Nat)
deriving DecidableEq

section Verify

variable {δ : Type}

mutual

/-- `__verify_no_self_reference_in_expr`, where `f` is what is done for a datum. -/
def verifyInExpr (f : δ → Except CilEvalError Unit) : CilExpr δ → Except CilEvalError Unit
  | .all => .ok ()
  | .range d1 d2 => do
    f d1
    f d2
  | .not x => verifyInOperand f x
  | .binary _ x y => do
    verifyInOperand f x
    verifyInOperand f y
  | .list items => verifyInOperands f items

def verifyInOperand (f : δ → Except CilEvalError Unit) : CilOperand δ → Except CilEvalError Unit
  | .datum d => f d
  | .list e => verifyInExpr f e

def verifyInOperands (f : δ → Except CilEvalError Unit) : List (CilOperand δ) → Except CilEvalError Unit
  | [] => .ok ()
  | x :: items => do
    verifyInOperand f x
    verifyInOperands f items

end

private theorem bind_unit_eq_ok {x : Except CilEvalError Unit} {y : Unit → Except CilEvalError Unit}
    (h : (x >>= y) = .ok ()) : x = .ok () ∧ y () = .ok () := by
  cases x with
  | ok u => exact ⟨rfl, h⟩
  | error e => cases h

/-- The walk over an expression meets all its datums. -/
private theorem verifyInExpr_ok {f : δ → Except CilEvalError Unit} (e : CilExpr δ) :
    verifyInExpr f e = .ok () → ∀ d ∈ e.datums, f d = .ok () := by
  induction e using CilExpr.exprInduction (Q := fun x => verifyInOperand f x = .ok () → ∀ d ∈ x.datums, f d = .ok ())
    (T := fun items => verifyInOperands f items = .ok () → ∀ d ∈ datumsOfOperands items, f d = .ok ()) with
  | all => intro _ d hd; cases hd
  | range d1 d2 => intro _ d hd; cases hd
  | not x ih => exact ih
  | binary op x y ihx ihy =>
    intro h d hd
    obtain ⟨hx, hy⟩ := bind_unit_eq_ok h
    exact (List.mem_append.1 hd).elim (ihx hx d) (ihy hy d)
  | list items ih => exact ih
  | datum d h d' hd' =>
    obtain rfl := List.mem_singleton.1 hd'
    exact h
  | sub e ih h d hd => exact ih h d hd
  | nil h d hd => cases hd
  | cons x items ihx ih h d hd =>
    obtain ⟨hx, hitems⟩ := bind_unit_eq_ok h
    exact (List.mem_append.1 hd).elim (ihx hx d) (ih hitems d)

end Verify

section References

variable {count : Nat} {exprs : Nat → List (CilExpr (CilSetDatum count))}

/-- `cil_verify_no_self_reference` for a datum, where `exprs` gives the expressions of an attribute. -/
def cilVerifyNoSelfReference (exprs : Nat → List (CilExpr (CilSetDatum count))) :
    Nat → CilSetDatum count → List Nat → Except CilEvalError Unit
  | 0, _, _ => .error .fuel
  | _ + 1, .actual _, _ => .ok ()
  | _ + 1, .aliased _, _ => .ok ()
  | fuel + 1, .attr a, stack =>
    if a ∈ stack then .error .err
    else (exprs a).forM fun e => verifyInExpr (fun d => cilVerifyNoSelfReference exprs fuel d (a :: stack)) e

/-- The attribute `b` occurs in an expression of `a`. -/
def RefersTo (exprs : Nat → List (CilExpr (CilSetDatum count))) (b a : Nat) : Prop :=
  ∃ e ∈ exprs a, .attr b ∈ e.datums

/-- All attributes have passed the check. -/
def NoSelfReference (exprs : Nat → List (CilExpr (CilSetDatum count))) : Prop :=
  ∀ a, ∃ fuel, cilVerifyNoSelfReference exprs fuel (.attr a) [] = .ok ()

private theorem forM_eq_ok {γ : Type} {l : List γ} {f : γ → Except CilEvalError Unit} (h : l.forM f = .ok ()) :
    ∀ x ∈ l, f x = .ok () := by
  induction l with
  | nil => intro x hx; cases hx
  | cons y l ih =>
    intro x hx
    obtain ⟨hy, hl⟩ := bind_unit_eq_ok h
    rcases List.mem_cons.1 hx with rfl | hx
    · exact hy
    · exact ih hl x hx

/-- What the check of an attribute shows. -/
theorem cilVerifyNoSelfReference_attribute {fuel a : Nat} {stack : List Nat}
    (h : cilVerifyNoSelfReference exprs (fuel + 1) (.attr a) stack = .ok ()) :
    a ∉ stack ∧ ∀ e ∈ exprs a, ∀ d ∈ e.datums, cilVerifyNoSelfReference exprs fuel d (a :: stack) = .ok () := by
  unfold cilVerifyNoSelfReference at h
  by_cases ha : a ∈ stack
  · rw [if_pos ha] at h
    cases h
  · rw [if_neg ha] at h
    exact ⟨ha, fun e he => verifyInExpr_ok e (forM_eq_ok h e he)⟩

private theorem acc_of_verify {fuel a : Nat} {stack : List Nat}
    (h : cilVerifyNoSelfReference exprs fuel (.attr a) stack = .ok ()) : Acc (RefersTo exprs) a := by
  induction fuel generalizing a stack with
  | zero => cases h
  | succ fuel ih =>
    refine ⟨a, ?_⟩
    rintro b ⟨e, he, hb⟩
    exact ih ((cilVerifyNoSelfReference_attribute h).2 e he _ hb)

/-- Attributes that pass the check do not refer to one another in a circle. -/
private theorem NoSelfReference.wellFounded (h : NoSelfReference exprs) : WellFounded (RefersTo exprs) := by
  refine ⟨fun a => ?_⟩
  obtain ⟨fuel, hfuel⟩ := h a
  exact acc_of_verify hfuel

end References

/-! ### Systems of attributes -/

section Values

variable {count : Nat} {exprs : Nat → List (CilExpr (CilSetDatum count))}

/-- The set of a datum, where `D` gives the sets of the attributes. -/
def datumSet (D : Nat → Set Nat) : CilSetDatum count → Set Nat
  | .actual v => {v.val}
  | .aliased v => {v.val}
  | .attr a => D a

/-- The values from the first datum of a range to the second; attributes have no place in a range. -/
def rangeSet : CilSetDatum count → CilSetDatum count → Set Nat
  | .attr _, _ => ∅
  | _, .attr _ => ∅
  | .actual v1, .actual v2 => {i | v1.val ≤ i ∧ i ≤ v2.val}
  | .actual v1, .aliased v2 => {i | v1.val ≤ i ∧ i ≤ v2.val}
  | .aliased v1, .actual v2 => {i | v1.val ≤ i ∧ i ≤ v2.val}
  | .aliased v1, .aliased v2 => {i | v1.val ≤ i ∧ i ≤ v2.val}

/-- The union of the expressions of an attribute. -/
def attributeSet (exprs : Nat → List (CilExpr (CilSetDatum count))) (D : Nat → Set Nat) (a : Nat) : Set Nat :=
  {i | ∃ e ∈ exprs a, i ∈ e.denote (datumSet D) rangeSet count}

/-- Each attribute has the set that its expressions denote. -/
def Solves (exprs : Nat → List (CilExpr (CilSetDatum count))) (D : Nat → Set Nat) : Prop :=
  ∀ a, D a = attributeSet exprs D a

private theorem attributeSet_local (exprs : Nat → List (CilExpr (CilSetDatum count))) :
    Equations.Local (RefersTo exprs) (attributeSet exprs) := by
  intro D D' a h
  unfold attributeSet
  ext i
  simp only [Set.mem_ofPred_eq]
  refine exists_congr fun e => and_congr_right fun he => ?_
  refine iff_of_eq (congrArg (i ∈ ·) (CilExpr.denote_congr rangeSet count e ?_))
  intro d hd
  cases d with
  | actual v => rfl
  | aliased v => rfl
  | attr b => exact h b ⟨e, he, hd⟩

/-- Attributes that pass the check have sets, and only one each. -/
theorem NoSelfReference.existsUnique_solves (h : NoSelfReference exprs) : ∃! D, Solves exprs D := by
  obtain ⟨D, hD⟩ := Equations.exists_solution h.wellFounded (attributeSet_local exprs)
  refine ⟨D, hD, fun D' hD' => ?_⟩
  funext a
  exact Equations.solution_unique h.wellFounded (attributeSet_local exprs) hD' hD a

end Values

end Sepol
