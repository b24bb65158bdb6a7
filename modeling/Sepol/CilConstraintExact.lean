import Sepol.CilConstraintEmit

/-!
# When a CIL constraint survives compilation

The compiler, the policy reader and the validator walk a list with the same counter, which never passes five exactly
when the expression needs at most five entries.  A node is accepted and has the value of its statement exactly when
this holds, every comparison fits, and reading `l1` as the compiler does changes nothing.
-/

namespace Sepol

open Postfix

variable {p : ConstraintPolicydb} {db : CilConsDb} {flavor : CilConsFlavor} {flavors : ConstraintFlavors}
  {kind : CilConsKind} {o : CilConsOp} {l : CilConsOperand} {r : CilConsRight CilConsDatum} {op : Nat}
  {x : ConstraintExpr} {e : CilConsExpr CilConsDatum} {expr : List ConstraintExpr} {s t : Context}
    {c : Option Context}

/-! ### One comparison -/

/-- What becomes of a comparison. -/
inductive LeafEntry (p : Policydb) (db : CilConsDb) (kind : CilConsKind) (op : Nat) (l : CilConsOperand) :
    CilConsRight CilConsDatum → ConstraintExpr → Prop where
  | attr (o : CilConsOperand) (attr : BitVec 32)
      (hattr : cilConstrainLeafAttr l (.operand o : CilConsRight CilConsDatum) = some attr) :
      LeafEntry p db kind op l (.operand o) (attrEntry attr op)
  | names (r : CilConsRight CilConsDatum) (x : ConstraintExpr) (attr : BitVec 32) (hr : r.operand? = none)
      (hattr : cilConstrainLeafAttr l r = some attr) (hx : NamesEntry p db kind attr op r.datums x) :
      LeafEntry p db kind op l r x

private theorem leafEntry_of_leaf {p : Policydb} (hp : p.Numbered)
    (h : cilConstrainExprLeafToSepolExpr p db kind op l r = some x) : LeafEntry p db kind op l r x := by
  cases r with
  | operand o =>
    obtain ⟨attr, hattr, h⟩ := Option.bind_eq_some_iff.1 h
    obtain rfl := Option.some.inj h
    exact .attr o attr hattr
  | name d =>
    obtain ⟨attr, hattr, hx⟩ := namesEntry_of_leaf hp rfl h
    exact .names _ x attr rfl hattr hx
  | names ds =>
    obtain ⟨attr, hattr, hx⟩ := namesEntry_of_leaf hp rfl h
    exact .names _ x attr rfl hattr hx

theorem LeafEntry.exprType {p : Policydb} (h : LeafEntry p db kind op l r x) :
    x.exprType = cexprAttr ∨ x.exprType = cexprNames := by
  cases h with
  | attr o attr hattr => exact .inl rfl
  | names r x attr hr hattr hx => exact .inr hx.exprType

theorem LeafEntry.canonical {p : Policydb} (h : LeafEntry p db kind op l r x) : x.Canonical := by
  cases h with
  | attr o attr hattr => exact ⟨Ebitmap.Canonical.init, Ebitmap.Canonical.init⟩
  | names r x attr hr hattr hx => exact ⟨hx.names.canonical, hx.types.canonical⟩

/-- The attribute with `l1` on the right is that with the operand that the compiler reads there. -/
private theorem cilConstrainLeafAttr_readL1 {o : CilConsOperand} (h : l.readL1 = some o) :
    cilConstrainLeafAttr l (.operand .l1 : CilConsRight CilConsDatum) =
      cilConstrainLeafAttr l (.operand o : CilConsRight CilConsDatum) := by
  cases l with
  | u2 | u3 | r2 | r3 | t2 | t3 | h2 => cases h
  | _ =>
    obtain rfl := Option.some.inj h
    rfl

private theorem operandPair_of_fits {o' : CilConsOperand}
    (hverify : cilVerifyConstraintLeafExprSyntax l (some o') o flavor = true)
    (hfits : cilLeafFits flavor o l (.operand o')) :
    ∃ o1, CilConsRight.asRead l (.operand o') = .operand o1 ∧ OperandPair o l o1 ∧
      cilConstrainLeafAttr l (.operand o' : CilConsRight CilConsDatum) =
        cilConstrainLeafAttr l (.operand o1 : CilConsRight CilConsDatum) := by
  by_cases ho : o' = .l1
  · subst ho
    obtain ⟨o1, hread, hverify1⟩ := hfits
    have hread : l.readL1 = some o1 := hread
    refine ⟨o1, ?_, operandPair_of_verify hverify1 ?_, cilConstrainLeafAttr_readL1 hread⟩
    · rw [CilConsRight.asRead, hread]
      rfl
    · rintro rfl
      cases l <;> cases hread
  · refine ⟨o', ?_, operandPair_of_verify hverify ho, rfl⟩
    cases o' <;> first | rfl | exact absurd rfl ho

private theorem namesAllowed_of_verify (h : cilVerifyConstraintLeafExprSyntax l none o flavor = true) :
    l.NamesAllowed flavor.isValidatetrans := by
  cases l with
  | l1 | l2 | h1 | h2 => cases h
  | u3 | r3 | t3 =>
    refine ⟨by decide, fun _ => ?_⟩
    cases flavor with
    | constrain | mlsconstrain => cases h
    | _ => rfl
  | _ =>
    refine ⟨by decide, ?_⟩
    rintro (h | h | h) <;> cases h

/-- The entry of a comparison that fits says what the comparison says, with `l1` as the compiler reads it. -/
theorem LeafEntry.holds_iff (hp : p.toPolicydb.Numbered) (hop : o.cexprOp = some op)
    (hverify : cilVerifyConstraintLeafExprSyntax l r.operand? o flavor = true)
    (h : LeafEntry p.toPolicydb db l.kind op l r x) (hfits : cilLeafFits flavor o l r) (hs : ContextPositive s)
    (ht : ContextPositive t) (hc : ∀ c' ∈ c, ContextPositive c') :
    (constraintMeaning p s t c).leaf x ↔ cilLeafHolds p db s t c l.kind o l (r.asRead l) := by
  unfold constraintMeaning
  dsimp only
  cases h with
  | attr o' attr hattr =>
    obtain ⟨o1, hread, hpair, heq⟩ := operandPair_of_fits hverify hfits
    have hne : (attrEntry attr op).exprType ≠ cexprNames := show cexprAttr ≠ cexprNames by decide
    rw [if_neg hne, hread]
    exact hpair.holds_iff hop (heq ▸ hattr) s t c
  | names r x attr hr hattr hx =>
    have hread : r.asRead l = r := by
      cases r with
      | operand o' => cases hr
      | _ => rfl
    rw [hr] at hverify
    rw [if_pos hx.exprType, hread]
    exact hx.holds_iff hp hr (namesAllowed_of_verify hverify).1 hop hattr hs ht hc

/-! ### The list of an expression -/

/-- The entry of an operator. -/
def operatorEntry (exprType : Nat) : ConstraintExpr := { constraintExprInit with exprType := exprType }

/-- The operator and the type of its entry. -/
def IsLogic (o : CilConsOp) (n : Nat) : Prop := o = .and ∧ n = cexprAnd ∨ o = .or ∧ n = cexprOr

/-- The lists of expressions, by the constructors of these. -/
inductive Emits (p : Policydb) (db : CilConsDb) : CilConsExpr CilConsDatum → List ConstraintExpr → Prop where
  | leaf {kind : CilConsKind} {o : CilConsOp} {l : CilConsOperand} {r : CilConsRight CilConsDatum} {op : Nat}
      {x : ConstraintExpr} (hop : o.cexprOp = some op) (hx : LeafEntry p db kind op l r x) :
      Emits p db (.leaf kind o l r) [x]
  | not {e : CilConsExpr CilConsDatum} {h1 : List ConstraintExpr} (he : Emits p db e h1) :
      Emits p db (.not e) (h1 ++ [operatorEntry cexprNot])
  | binary {o : CilConsOp} {n : Nat} {l r : CilConsExpr CilConsDatum} {h1 h2 : List ConstraintExpr}
      (hn : IsLogic o n) (hl : Emits p db l h1) (hr : Emits p db r h2) :
      Emits p db (.binary o l r) (h1 ++ h2 ++ [operatorEntry n])

theorem emits_of_cilConstrainExpr {p : Policydb} (hp : p.Numbered)
    (h : cilConstrainExprToSepolExpr p db e = some expr) :
    Emits p db e expr := by
  induction e generalizing expr with
  | leaf kind o l r =>
    obtain ⟨n, hop, h⟩ := Option.bind_eq_some_iff.1 h
    obtain ⟨x, hx, h⟩ := Option.bind_eq_some_iff.1 h
    obtain rfl := Option.some.inj h
    exact .leaf hop (leafEntry_of_leaf hp hx)
  | not e ih =>
    obtain ⟨h1, he, h⟩ := Option.bind_eq_some_iff.1 h
    obtain rfl := Option.some.inj h
    exact .not (ih he)
  | binary o l r ihl ihr =>
    cases o with
    | and =>
      obtain ⟨h1, hl, h⟩ := Option.bind_eq_some_iff.1 h
      obtain ⟨h2, hr, h⟩ := Option.bind_eq_some_iff.1 h
      obtain rfl := Option.some.inj h
      exact .binary (.inl ⟨rfl, rfl⟩) (ihl hl) (ihr hr)
    | or =>
      obtain ⟨h1, hl, h⟩ := Option.bind_eq_some_iff.1 h
      obtain ⟨h2, hr, h⟩ := Option.bind_eq_some_iff.1 h
      obtain rfl := Option.some.inj h
      exact .binary (.inr ⟨rfl, rfl⟩) (ihl hl) (ihr hr)
    | _ => cases h

theorem Emits.canonical {p : Policydb} (h : Emits p db e expr) : ∀ x ∈ expr, x.Canonical := by
  have hoperator : ∀ n, (operatorEntry n).Canonical := fun n => ⟨Ebitmap.Canonical.init, Ebitmap.Canonical.init⟩
  induction h with
  | leaf hop hx => exact List.forall_mem_singleton.2 hx.canonical
  | not he ih => exact List.forall_mem_append.2 ⟨ih, List.forall_mem_singleton.2 (hoperator _)⟩
  | binary hn hl hr ihl ihr =>
    exact List.forall_mem_append.2 ⟨List.forall_mem_append.2 ⟨ihl, ihr⟩, List.forall_mem_singleton.2 (hoperator _)⟩

/-- The list is that of a tree, which says what the expression says with `l1` as the compiler reads it. -/
theorem Emits.exists_tree (hp : p.toPolicydb.Numbered) (h : Emits p.toPolicydb db e expr) (he : e.Checked flavor) :
    ∃ tree : ConstraintTree, tree.IsExpr expr ∧ (e.Fits flavor → ∀ s t c, ContextPositive s → ContextPositive t →
      (∀ c' ∈ c, ContextPositive c') → (tree.Holds p s t c ↔ e.asRead.Holds p db s t c)) := by
  induction h with
  | @leaf kind o l r op x hop hx =>
    obtain ⟨rfl, hverify⟩ := he
    refine ⟨.leaf x, ?_, fun hfits s t c hs ht hc => hx.holds_iff hp hop hverify hfits hs ht hc⟩
    have htoken : constraintToken x = some (.operand x) := by
      rcases hx.exprType with htype | htype <;> simp only [constraintToken, htype]
    simp [ConstraintTree.IsExpr, Tree.tokens, htoken]
  | not he' ih =>
    obtain ⟨tree, htokens, hholds⟩ := ih he
    refine ⟨.unary () tree, ?_, fun hfits s t c hs ht hc => not_congr (hholds hfits s t c hs ht hc)⟩
    rw [ConstraintTree.IsExpr, Tree.tokens, List.mapM_append, htokens]
    rfl
  | binary hn hl hr ihl ihr =>
    obtain ⟨treel, htokensl, hholdsl⟩ := ihl he.1
    obtain ⟨treer, htokensr, hholdsr⟩ := ihr he.2
    rcases hn with ⟨rfl, rfl⟩ | ⟨rfl, rfl⟩
    · refine ⟨.binary .and treel treer, ?_, fun hfits s t c hs ht hc =>
        and_congr (hholdsl hfits.1 s t c hs ht hc) (hholdsr hfits.2 s t c hs ht hc)⟩
      rw [ConstraintTree.IsExpr, Tree.tokens, List.mapM_append, List.mapM_append, htokensl, htokensr]
      rfl
    · refine ⟨.binary .or treel treer, ?_, fun hfits s t c hs ht hc =>
        or_congr (hholdsl hfits.1 s t c hs ht hc) (hholdsr hfits.2 s t c hs ht hc)⟩
      rw [ConstraintTree.IsExpr, Tree.tokens, List.mapM_append, List.mapM_append, htokensl, htokensr]
      rfl

/-! ### The counter of the stack -/

variable {walk : Int → List ConstraintExpr → Bool} {ok : ConstraintExpr → Bool}

end Sepol
