import Sepol.CilConstraintExact

/-!
# The nodes of a CIL constraint

Which nodes a statement adds to the classes of the policy, and when the evaluator finds in each the value that the
statement has in CIL.  The compiler checks the stack of a constraint but not that of a validatetrans rule.
-/

namespace Sepol

open Postfix

variable {p : Policydb} {db : CilConsDb} {e : CilConsExpr CilConsDatum} {n : CilClassConstraint}
  {nodes : List CilClassConstraint} {stmt : CilConstraint} {flavors : ConstraintFlavors}

/-! ### The nodes of a statement -/

/-- What the validator takes for the number of permissions. -/
def CilClassConstraint.nperms (isValidatetrans : Bool) (n : CilClassConstraint) : Nat :=
  if isValidatetrans then uint32Max else n.cls.permissions.nprim

/-- What a node of a statement is. -/
structure NodeOf (p : Policydb) (db : CilConsDb) (stmt : CilConstraint) (n : CilClassConstraint) : Prop where
  expr : cilConstrainExprToSepolExpr p db stmt.datumExpr = some n.node.expr
  nodes : ∀ flavors, validateConstraintNodes (n.nperms stmt.flavor.isValidatetrans) [n.node] flavors =
    validateConstraintExprFrom stmt.flavor.isValidatetrans flavors (-1) n.node.expr
  third : n.nperms stmt.flavor.isValidatetrans = uint32Max → stmt.flavor.isValidatetrans = true
  valid : stmt.flavor.isValidatetrans = false → cilValidateConstrainExpr n.node.expr = true

private theorem Emits.ne_nil {expr : List ConstraintExpr} (h : Emits p db e expr) : expr ≠ [] := by
  cases h <;> simp

/-- The value that the evaluator finds in an accepted node. -/
theorem NodeOf.value {p : ConstraintPolicydb} (hp : p.Indexed) (hn : p.toPolicydb.Numbered)
    (hflavors : validateArrayInit p.toPolicydb = some flavors) (h : NodeOf p.toPolicydb db stmt n)
    (hchecked : stmt.datumExpr.Checked stmt.flavor) (hfits : stmt.datumExpr.Fits stmt.flavor)
    (hvalidate : validateConstraintNodes (n.nperms stmt.flavor.isValidatetrans) [n.node] flavors = true)
    (s t : p.ValidContext) (c : Option p.ValidContext) (hc : stmt.flavor.isValidatetrans = true → c.isSome)
    (stack : TextArray) :
    ∃ result, constraintExprEvalReason p s t (c.map Subtype.val) n.node stack = .ok result ∧
      (result.rc = true ↔ stmt.datumExpr.asRead.Holds p db s t (c.map Subtype.val)) := by
  have hemits := emits_of_cilConstrainExpr hn h.expr
  obtain ⟨tree, htree, hholds⟩ := hemits.exists_tree hn hchecked
  obtain ⟨tree1, haccepted⟩ := exists_tree_of_validateConstraintNodes hvalidate (List.mem_singleton_self n.node)
  have hc' : n.nperms stmt.flavor.isValidatetrans = uint32Max → (c.map Subtype.val).isSome := by
    intro hmax
    rw [Option.isSome_map]
    exact hc (h.third hmax)
  obtain ⟨tree2, ⟨htree2, result, hresult, -, -, hrc⟩, -⟩ := constraintExprEvalReason_run hp hflavors hvalidate
    (List.mem_singleton_self n.node) hemits.canonical (s.2.evaluable hp) (t.2.evaluable hp) hc' stack
  -- a list has one tree
  have heq : tree1 = tree := tokens_inj haccepted.depth (Option.some.inj (haccepted.tokens.symm.trans htree))
  have heq2 : tree1 = tree2 := tokens_inj haccepted.depth (Option.some.inj (haccepted.tokens.symm.trans htree2))
  have hpositive : ∀ c' ∈ c.map Subtype.val, ContextPositive c' := by
    intro c' hc'
    obtain ⟨v, -, rfl⟩ := Option.mem_map.1 hc'
    exact v.2.positive
  rw [← heq2, heq] at hrc
  exact ⟨result, hresult, hrc.trans (hholds hfits s t _ s.2.positive t.2.positive hpositive)⟩

def processClass : ClassDatum := ⟨1, none, ⟨[("transition".toList, ⟨1⟩)], 1⟩⟩

end Sepol
