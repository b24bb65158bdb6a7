import Sepol.ConstraintDenote

/-!
# The loops over a constraint

The two loops of `constraint_expr_eval_reason` follow the same stack machine, one with the values of the entries in
its array and one with their texts.  On a list that `validate_constraint_nodes` accepts, neither stack runs over or
under, and the value is that of the expression that the list denotes.
-/

namespace Sepol

open Postfix ArrayStack

def ConstraintOp.apply : ConstraintOp → Bool → Bool → Bool
  | .and => fun a b => a && b
  | .or => fun a b => a || b

def ConstraintOp.text : ConstraintOp → CString
  | .and => ['a', 'n', 'd']
  | .or => ['o', 'r']

/-- The value and the text of an entry that compares. -/
def constraintLeaf (p : ConstraintPolicydb) (s t : Context) (x : Option Context) (e : ConstraintExpr) :
    Except ConstraintExit ConstraintValue :=
  if e.exprType = cexprNames then constraintNames p s t x e else constraintAttr p s t e

def constraintLeafValue (p : ConstraintPolicydb) (s t : Context) (x : Option Context) (e : ConstraintExpr) :
    ConstraintValue :=
  match constraintLeaf p s t x e with
  | .error _ => (false, [])
  | .ok v => v

def valueInterp (p : ConstraintPolicydb) (s t : Context) (x : Option Context) :
    Interp ConstraintExpr Unit ConstraintOp Bool :=
  ⟨fun e => (constraintLeafValue p s t x e).1, fun _ a => !a, ConstraintOp.apply⟩

def infixInterp (p : ConstraintPolicydb) (s t : Context) (x : Option Context) :
    Interp ConstraintExpr Unit ConstraintOp CString :=
  ⟨fun e => (constraintLeafValue p s t x e).2, fun _ b => notAnswer ['n', 'o', 't'] b, fun o => andOrAnswer o.text⟩

/-- The text in `expr_list`. -/
def tokenText (p : ConstraintPolicydb) (s t : Context) (x : Option Context) :
    Token ConstraintExpr Unit ConstraintOp → CString
  | .operand e => (constraintLeafValue p s t x e).2
  | .unary _ => ['n', 'o', 't']
  | .binary o => o.text

variable {p : ConstraintPolicydb} {s t : Context} {x : Option Context} {expr : List ConstraintExpr}
  {isValidatetrans : Bool} {flavors : ConstraintFlavors} {ts : List (Token ConstraintExpr Unit ConstraintOp)}
  {e : ConstraintExpr} {tok : Token ConstraintExpr Unit ConstraintOp} {st : ConstraintState} {l l' : List Bool}
  {array : TextArray} {old texts texts' : List CString} {text a b : CString}

/-! ### Accepted lists -/

/-- What the validator checks of an entry that compares. -/
def ValidLeaf (isValidatetrans : Bool) (flavors : ConstraintFlavors) (e : ConstraintExpr) : Prop :=
  e.exprType = cexprNames ∧ validateCexprNames isValidatetrans flavors e = true ∨
    e.exprType = cexprAttr ∧ validateCexprAttr e = true

/-- The entries are tokens that leave one value behind when `d` values are on the stack. -/
structure AcceptedFrom (isValidatetrans : Bool) (flavors : ConstraintFlavors) (d : Nat) (expr : List ConstraintExpr)
    (ts : List (Token ConstraintExpr Unit ConstraintOp)) : Prop where
  tokens : expr.mapM constraintToken = some ts
  depth : Postfix.depth cexprMaxdepth d ts = some 1
  leaves : ∀ e, .operand e ∈ ts → e ∈ expr ∧ ValidLeaf isValidatetrans flavors e

theorem AcceptedFrom.cons {d d' : Nat} (h : AcceptedFrom isValidatetrans flavors d' expr ts)
    (htok : constraintToken e = some tok)
    (hdepth : Postfix.depth cexprMaxdepth d (tok :: ts) = Postfix.depth cexprMaxdepth d' ts)
    (hleaf : ∀ e', tok = .operand e' → e' = e ∧ ValidLeaf isValidatetrans flavors e') :
    AcceptedFrom isValidatetrans flavors d (e :: expr) (tok :: ts) where
  tokens := by
    rw [List.mapM_cons, htok, h.tokens]
    rfl
  depth := by rw [hdepth, h.depth]
  leaves e' he' := by
    rcases List.mem_cons.1 he' with he' | he'
    · obtain ⟨rfl, hvalid⟩ := hleaf e' he'.symm
      exact ⟨List.mem_cons_self .., hvalid⟩
    · exact ⟨List.mem_cons_of_mem _ (h.leaves e' he').1, (h.leaves e' he').2⟩

private theorem exists_acceptedFrom (d : Nat)
    (h : validateConstraintExprFrom isValidatetrans flavors (d - 1) expr = true) :
    ∃ ts, AcceptedFrom isValidatetrans flavors d expr ts := by
  induction expr generalizing d with
  | nil =>
    rw [validateConstraintExprFrom, decide_eq_true_iff] at h
    have hd : d = 1 := by omega
    exact ⟨[], rfl, congrArg some hd, fun e he => absurd he List.not_mem_nil⟩
  | cons cexp next ih =>
    have hoperand : constraintToken cexp = some (.operand cexp) → ValidLeaf isValidatetrans flavors cexp →
        ¬ (d : Int) - 1 ≥ cexprMaxdepth - 1 →
        validateConstraintExprFrom isValidatetrans flavors (d - 1 + 1) next = true →
        ∃ ts, AcceptedFrom isValidatetrans flavors d (cexp :: next) ts := by
      intro htok hvalid hlimit hnext
      have hd : d < cexprMaxdepth := by
        unfold cexprMaxdepth at hlimit ⊢
        omega
      obtain ⟨ts, hts⟩ := ih (d + 1) (by rw [← hnext]; congr 1; push_cast; omega)
      refine ⟨_, hts.cons htok (by rw [Postfix.depth, if_pos hd]) fun e he => ?_⟩
      obtain rfl := Token.operand.inj he
      exact ⟨rfl, hvalid⟩
    have hbinary : ∀ o : ConstraintOp, constraintToken cexp = some (.binary o) →
        (if (d : Int) - 1 < 1 then false
          else validateCexprOperator cexp &&
            validateConstraintExprFrom isValidatetrans flavors (d - 1 - 1) next) = true →
        ∃ ts, AcceptedFrom isValidatetrans flavors d (cexp :: next) ts := by
      intro o htok h
      split at h
      · cases h
      · obtain ⟨d, rfl⟩ := Nat.exists_eq_add_of_le' (show 2 ≤ d by omega)
        obtain ⟨ts, hts⟩ := ih (d + 1) (by rw [← (Bool.and_eq_true_iff.1 h).2]; congr 1; push_cast; omega)
        exact ⟨_, hts.cons htok rfl fun e he => by cases he⟩
    unfold validateConstraintExprFrom at h
    split at h
    · next htype =>
      split at h
      · cases h
      · next hlimit =>
        obtain ⟨hnames, hnext⟩ := Bool.and_eq_true_iff.1 h
        exact hoperand (by simp only [constraintToken, htype]) (.inl ⟨htype, hnames⟩) hlimit hnext
    · next htype =>
      split at h
      · cases h
      · next hlimit =>
        obtain ⟨hattr, hnext⟩ := Bool.and_eq_true_iff.1 h
        exact hoperand (by simp only [constraintToken, htype]) (.inr ⟨htype, hattr⟩) hlimit hnext
    · next htype =>
      split at h
      · cases h
      · obtain ⟨d, rfl⟩ := Nat.exists_eq_add_of_le' (show 1 ≤ d by omega)
        obtain ⟨ts, hts⟩ := ih (d + 1) (Bool.and_eq_true_iff.1 h).2
        have htok : constraintToken cexp = some (.unary ()) := by simp only [constraintToken, htype]
        exact ⟨_, hts.cons htok rfl fun e he => by cases he⟩
    · next htype => exact hbinary .and (by simp only [constraintToken, htype]) h
    · next htype => exact hbinary .or (by simp only [constraintToken, htype]) h
    · cases h

/-! ### The loop over the entries -/

private theorem constraintLeaf_answers (hp : p.Indexed) (hs : p.Evaluable s) (ht : p.Evaluable t)
    (hflavors : validateArrayInit p.toPolicydb = some flavors) (hx : isValidatetrans = true → x.isSome)
    (hcanonical : e.Canonical) (h : ValidLeaf isValidatetrans flavors e) :
    Answers (constraintLeaf p s t x e) ((constraintMeaning p s t x).leaf e) := by
  unfold constraintLeaf constraintMeaning
  dsimp only
  rcases h with ⟨htype, hnames⟩ | ⟨htype, hattr⟩
  · rw [if_pos htype, if_pos htype]
    exact constraintNames_answers hflavors hx hcanonical hnames
  · have hne : e.exprType ≠ cexprNames := by
      rw [htype]
      decide
    rw [if_neg hne, if_neg hne]
    exact constraintAttr_answers hp hs ht hattr

private theorem constraintToken_cases (h : constraintToken e = some tok) :
    (tok = .operand e ∧ (e.exprType = cexprAttr ∨ e.exprType = cexprNames)) ∨
      (tok = .unary () ∧ e.exprType = cexprNot) ∨ (tok = .binary .and ∧ e.exprType = cexprAnd) ∨
      (tok = .binary .or ∧ e.exprType = cexprOr) := by
  unfold constraintToken at h
  split at h <;> simp_all

private theorem constraintBinary_holds (f : Bool → Bool → Bool) (text : CString) {a b : Bool}
    (h : ArrayStack.Holds st.stack (b :: a :: l)) :
    ∃ st', constraintBinary f text st = .ok st' ∧ ArrayStack.Holds st'.stack (f a b :: l) ∧
      st'.exprList = st.exprList.push text := by
  have hsp := h.sp
  rw [List.length_cons, List.length_cons] at hsp
  obtain ⟨hpop, hbehind⟩ := h.pop
  obtain ⟨stack', hwrite, hstack'⟩ := hpop.write_top (f a b)
  have htop := hpop.read_top
  refine ⟨⟨stack', st.exprList.push text⟩, ?_, hstack', rfl⟩
  unfold constraintBinary
  rw [if_neg (by omega)]
  dsimp only at htop hbehind hwrite ⊢
  rw [htop, hbehind]
  dsimp only
  rw [hwrite]

private theorem constraintStep_leaf (htype : e.exprType = cexprAttr ∨ e.exprType = cexprNames)
    (hlimit : ¬ st.stack.sp = cexprMaxdepth - 1) :
    constraintStep p s t x st e = (constraintLeaf p s t x e).bind (constraintPush st) := by
  unfold constraintStep constraintLeaf
  rcases htype with htype | htype
  · rw [htype, if_neg (show ¬ cexprAttr = cexprNames by decide)]
    exact if_neg hlimit
  · rw [htype, if_pos rfl]
    exact if_neg hlimit

private theorem constraintStep_not (htype : e.exprType = cexprNot) :
    constraintStep p s t x st e = if st.stack.sp < 0 then .error .einval
      else match st.stack.read st.stack.sp with
        | none => .error .outside
        | some a => match st.stack.write st.stack.sp (!a) with
          | none => .error .outside
          | some stack => .ok ⟨stack, st.exprList.push ['n', 'o', 't']⟩ := by
  unfold constraintStep
  rw [htype]
  rfl

/-- One entry does to the array what its token does to the stack. -/
private theorem constraintStep_holds (htok : constraintToken e = some tok)
    (hleaf : tok = .operand e → ∃ v, constraintLeaf p s t x e = .ok v) (h : ArrayStack.Holds st.stack l)
    (hrun : Postfix.run (valueInterp p s t x) cexprMaxdepth l (tok :: ts) = some l') :
    ∃ st' l₁, constraintStep p s t x st e = .ok st' ∧ ArrayStack.Holds st'.stack l₁ ∧
      st'.exprList.texts = tokenText p s t x tok :: st.exprList.texts ∧
      Postfix.run (valueInterp p s t x) cexprMaxdepth l₁ ts = some l' := by
  have hsp := h.sp
  rcases constraintToken_cases htok with ⟨rfl, htype⟩ | ⟨rfl, htype⟩ | ⟨rfl, htype⟩ | ⟨rfl, htype⟩
  · obtain ⟨v, hv⟩ := hleaf rfl
    have hvalue : constraintLeafValue p s t x e = v := by rw [constraintLeafValue, hv]
    rw [Postfix.run] at hrun
    split at hrun
    · next hlt =>
      obtain ⟨stack', hwrite, hstack'⟩ := h.push hlt v.1
      have hlimit : ¬ st.stack.sp = cexprMaxdepth - 1 := by
        unfold cexprMaxdepth at hlt ⊢
        omega
      have hpush : constraintPush st v = .ok ⟨stack', st.exprList.push v.2⟩ := by rw [constraintPush, hwrite]
      refine ⟨⟨stack', st.exprList.push v.2⟩, v.1 :: l, ?_, hstack', ?_, ?_⟩
      · rw [constraintStep_leaf htype hlimit, hv]
        exact hpush
      · rw [tokenText, hvalue]
        rfl
      · rw [← hrun, valueInterp]
        dsimp only
        rw [hvalue]
    · cases hrun
  · cases l with
    | nil => cases hrun
    | cons a l =>
      obtain ⟨stack', hwrite, hstack'⟩ := h.write_top (!a)
      refine ⟨⟨stack', st.exprList.push ['n', 'o', 't']⟩, (!a) :: l, ?_, hstack', rfl, hrun⟩
      rw [List.length_cons] at hsp
      rw [constraintStep_not htype, if_neg (by omega), h.read_top]
      dsimp only
      rw [hwrite]
  · rcases l with _ | ⟨b, _ | ⟨a, l⟩⟩
    · cases hrun
    · cases hrun
    · obtain ⟨st', hst', hholds, hlist⟩ := constraintBinary_holds (fun a b => a && b) ['a', 'n', 'd'] h
      refine ⟨st', (a && b) :: l, ?_, hholds, by rw [hlist]; rfl, hrun⟩
      unfold constraintStep
      rw [htype]
      exact hst'
  · rcases l with _ | ⟨b, _ | ⟨a, l⟩⟩
    · cases hrun
    · cases hrun
    · obtain ⟨st', hst', hholds, hlist⟩ := constraintBinary_holds (fun a b => a || b) ['o', 'r'] h
      refine ⟨st', (a || b) :: l, ?_, hholds, by rw [hlist]; rfl, hrun⟩
      unfold constraintStep
      rw [htype]
      exact hst'

private theorem constraintRun_holds (htokens : expr.mapM constraintToken = some ts)
    (hleaves : ∀ e, .operand e ∈ ts → ∃ v, constraintLeaf p s t x e = .ok v) (h : ArrayStack.Holds st.stack l)
    (hrun : Postfix.run (valueInterp p s t x) cexprMaxdepth l ts = some l') :
    ∃ st', constraintRun p s t x expr st = .ok st' ∧ ArrayStack.Holds st'.stack l' ∧
      st'.exprList.texts.reverse = st.exprList.texts.reverse ++ ts.map (tokenText p s t x) := by
  induction expr generalizing ts st l with
  | nil =>
    rw [List.mapM_nil] at htokens
    obtain rfl := Option.some.inj htokens
    obtain rfl := Option.some.inj hrun
    exact ⟨st, rfl, h, by rw [List.map_nil, List.append_nil]⟩
  | cons e expr ih =>
    rw [List.mapM_cons] at htokens
    obtain ⟨tok, htok, hrest⟩ := Option.bind_eq_some_iff.1 htokens
    obtain ⟨ts', hts', hcons⟩ := Option.bind_eq_some_iff.1 hrest
    obtain rfl := Option.some.inj hcons
    obtain ⟨st₁, l₁, hstep, hholds, htexts, hrun⟩ :=
      constraintStep_holds htok (fun htok => hleaves e (htok ▸ List.mem_cons_self ..)) h hrun
    obtain ⟨st', hst', hholds', htexts'⟩ := ih hts' (fun e he => hleaves e (List.mem_cons_of_mem _ he)) hholds hrun
    refine ⟨st', ?_, hholds', ?_⟩
    · rw [constraintRun, hstep]
      exact hst'
    · rw [htexts', htexts, List.reverse_cons, List.append_assoc, List.map_cons, List.singleton_append]

/-! ### The loop over the texts -/

private theorem TextArray.pop_of_texts (h : array.texts = text :: texts) :
    ∃ array' : TextArray, array.pop = some (text, array') ∧ array'.texts = texts := by
  unfold TextArray.pop
  split
  · next hnil =>
    rw [hnil] at h
    cases h
  · next hcons =>
    rw [hcons] at h
    obtain ⟨rfl, rfl⟩ := List.cons.inj h
    exact ⟨_, rfl, rfl⟩

private theorem ConstraintOp.text_length (o : ConstraintOp) : o.text.length ≤ 3 := by
  cases o <;> decide

private theorem pushAnswer_ok (array : TextArray) {size : Nat} (h : text.length < size) :
    ∃ array', pushAnswer size text array = .ok array' ∧ array'.texts = text :: array.texts :=
  ⟨array.push text, if_pos h, rfl⟩

private theorem notAnswer_length (b : CString) : (notAnswer ['n', 'o', 't'] b).length < b.length + 8 := by
  unfold notAnswer
  split <;> simp only [List.length_append, List.length_cons, List.length_nil] <;> omega

/-- One text does to the stack of texts what its token does. -/
private theorem infixStep_texts (hleaf : ∀ e, tok = .operand e → ∃ text, tokenText p s t x tok = '(' :: text)
    (h : array.texts = texts ++ old)
    (hrun : Postfix.run (infixInterp p s t x) cexprMaxdepth texts (tok :: ts) = some texts') :
    ∃ array' texts₁, infixStep array (tokenText p s t x tok) = .ok array' ∧ array'.texts = texts₁ ++ old ∧
      Postfix.run (infixInterp p s t x) cexprMaxdepth texts₁ ts = some texts' := by
  cases tok with
  | operand e =>
    obtain ⟨text, htext⟩ := hleaf e rfl
    have hstep : infixStep array (tokenText p s t x (.operand e)) =
        .ok (array.push (tokenText p s t x (.operand e))) := by
      rw [htext]
      rfl
    rw [Postfix.run] at hrun
    split at hrun
    · exact ⟨_, _ :: texts, hstep, by rw [TextArray.push_texts, h]; rfl, hrun⟩
    · cases hrun
  | unary u =>
    cases texts with
    | nil => cases hrun
    | cons b texts =>
      obtain ⟨array₁, hpop, hrest⟩ := TextArray.pop_of_texts (h.trans (List.cons_append ..))
      obtain ⟨array', hpush, htexts⟩ := pushAnswer_ok array₁ (notAnswer_length b)
      refine ⟨array', notAnswer ['n', 'o', 't'] b :: texts, ?_, by rw [htexts, hrest]; rfl, hrun⟩
      have hstep : infixStep array (tokenText p s t x (.unary u)) = infixNot ['n', 'o', 't'] array := rfl
      rw [hstep, infixNot, hpop]
      exact hpush
  | binary o =>
    rcases texts with _ | ⟨b, _ | ⟨a, texts⟩⟩
    · cases hrun
    · cases hrun
    · obtain ⟨array₁, hpop₁, hrest₁⟩ := TextArray.pop_of_texts (h.trans (List.cons_append ..))
      obtain ⟨array₂, hpop₂, hrest₂⟩ := TextArray.pop_of_texts (hrest₁.trans (List.cons_append ..))
      have hlength : (andOrAnswer o.text a b).length < a.length + b.length + 8 := by
        have ho := o.text_length
        simp only [andOrAnswer, List.length_append, List.length_cons, List.length_nil]
        omega
      obtain ⟨array', hpush, htexts⟩ := pushAnswer_ok array₂ hlength
      refine ⟨array', andOrAnswer o.text a b :: texts, ?_, by rw [htexts, hrest₂]; rfl, hrun⟩
      have hstep : infixStep array (tokenText p s t x (.binary o)) = infixAndOr o.text array := by
        cases o <;> rfl
      rw [hstep, infixAndOr, hpop₁]
      dsimp only
      rw [hpop₂]
      exact hpush

private theorem infixRun_texts (hleaves : ∀ e, .operand e ∈ ts → ∃ text, tokenText p s t x (.operand e) = '(' :: text)
    (h : array.texts = texts ++ old)
    (hrun : Postfix.run (infixInterp p s t x) cexprMaxdepth texts ts = some texts') :
    ∃ array', infixRun (ts.map (tokenText p s t x)) array = .ok array' ∧ array'.texts = texts' ++ old := by
  induction ts generalizing array texts with
  | nil =>
    obtain rfl := Option.some.inj hrun
    exact ⟨array, rfl, h⟩
  | cons tok ts ih =>
    have hleaf : ∀ e, tok = .operand e → ∃ text, tokenText p s t x tok = '(' :: text := by
      intro e he
      rw [he]
      exact hleaves e (he ▸ List.mem_cons_self ..)
    obtain ⟨array₁, texts₁, hstep, htexts, hrun⟩ := infixStep_texts hleaf h hrun
    obtain ⟨array', hinfix, htexts'⟩ := ih (fun e he => hleaves e (List.mem_cons_of_mem _ he)) htexts hrun
    refine ⟨array', ?_, htexts'⟩
    rw [List.map_cons, infixRun, hstep]
    exact hinfix

/-! ### Accepted constraints -/

/-- The value of the machine is the truth of the expression. -/
private theorem eval_valueInterp (tree : ConstraintTree)
    (hleaves : ∀ e, .operand e ∈ tree.tokens →
      Answers (constraintLeaf p s t x e) ((constraintMeaning p s t x).leaf e)) :
    tree.eval (valueInterp p s t x) = true ↔ tree.Holds p s t x := by
  induction tree with
  | leaf e =>
    obtain ⟨v, text, hleaf, hv⟩ := hleaves e (List.mem_singleton_self _)
    have hvalue : (Tree.leaf e).eval (valueInterp p s t x) = v := by
      rw [Tree.eval, valueInterp]
      dsimp only
      rw [constraintLeafValue, hleaf]
    rw [hvalue]
    exact hv
  | unary u tree ih =>
    have ih := ih fun e he => hleaves e (List.mem_append_left _ he)
    have hnot : (Tree.unary u tree).eval (valueInterp p s t x) = !tree.eval (valueInterp p s t x) := rfl
    rw [hnot, Bool.not_eq_true', ← Bool.not_eq_true, ih]
    rfl
  | binary o l r ihl ihr =>
    have ihl := ihl fun e he => hleaves e (List.mem_append_left _ (List.mem_append_left _ he))
    have ihr := ihr fun e he => hleaves e (List.mem_append_left _ (List.mem_append_right _ he))
    cases o with
    | and =>
      have hand : (Tree.binary ConstraintOp.and l r).eval (valueInterp p s t x) =
        (l.eval (valueInterp p s t x) && r.eval (valueInterp p s t x)) := rfl
      rw [hand, Bool.and_eq_true, ihl, ihr]
      rfl
    | or =>
      have hor : (Tree.binary ConstraintOp.or l r).eval (valueInterp p s t x) =
        (l.eval (valueInterp p s t x) || r.eval (valueInterp p s t x)) := rfl
      rw [hor, Bool.or_eq_true, ihl, ihr]
      rfl

/-- What is accepted of one constraint. -/
theorem exists_tree_of_validateConstraintNodes {nperms : Nat} {cons : List ConstraintNode} {node : ConstraintNode}
    (h : validateConstraintNodes nperms cons flavors = true) (hnode : node ∈ cons) :
    ∃ tree : ConstraintTree, AcceptedFrom (nperms = uint32Max) flavors 0 node.expr tree.tokens := by
  unfold validateConstraintNodes at h
  dsimp only at h
  split at h
  · cases h
  · have hnode := List.all_eq_true.1 h node hnode
    have hfrom : validateConstraintExprFrom (nperms = uint32Max) flavors (-1) node.expr = true := by
      repeat (split at hnode; · cases hnode)
      exact hnode
    obtain ⟨ts, hts⟩ := exists_acceptedFrom 0 hfrom
    obtain ⟨tree, rfl⟩ := exists_tree hts.depth
    exact ⟨tree, hts⟩

/-- The run of the evaluator on a constraint that the validator accepts. -/
theorem constraintExprEvalReason_run (hp : p.Indexed) (hflavors : validateArrayInit p.toPolicydb = some flavors)
    {nperms : Nat} {cons : List ConstraintNode} (hcons : validateConstraintNodes nperms cons flavors = true)
    {node : ConstraintNode} (hnode : node ∈ cons) (hcanonical : ∀ e ∈ node.expr, e.Canonical) (hs : p.Evaluable s)
    (ht : p.Evaluable t) (hx : nperms = uint32Max → x.isSome) (stack : TextArray) :
    ∃! tree : ConstraintTree, tree.IsExpr node.expr ∧ ∃ result : ConstraintResult,
      constraintExprEvalReason p s t x node stack = .ok result ∧ result.text.isSome ∧
        result.stack.texts = stack.texts ∧ (result.rc = true ↔ tree.Holds p s t x) := by
  obtain ⟨tree, htree⟩ := exists_tree_of_validateConstraintNodes hcons hnode
  have hleaves : ∀ e, .operand e ∈ tree.tokens →
      Answers (constraintLeaf p s t x e) ((constraintMeaning p s t x).leaf e) := by
    intro e he
    obtain ⟨hmem, hvalid⟩ := htree.leaves e he
    exact constraintLeaf_answers hp hs ht hflavors (fun h => hx (of_decide_eq_true h)) (hcanonical e hmem) hvalid
  refine ⟨tree, ⟨htree.tokens, ?_⟩, fun tree' htree' => ?_⟩
  · have hok : ∀ e, .operand e ∈ tree.tokens → ∃ v, constraintLeaf p s t x e = .ok v := by
      intro e he
      obtain ⟨v, text, hleaf, _⟩ := hleaves e he
      exact ⟨_, hleaf⟩
    have htext : ∀ e, .operand e ∈ tree.tokens → ∃ text, tokenText p s t x (.operand e) = '(' :: text := by
      intro e he
      obtain ⟨v, text, hleaf, _⟩ := hleaves e he
      exact ⟨text, by rw [tokenText, constraintLeafValue, hleaf]⟩
    have hvalue := run_tokens htree.depth (valueInterp p s t x)
    have hinfix := run_tokens htree.depth (infixInterp p s t x)
    have hinit : ArrayStack.Holds constraintInit.stack [] := holds_nil _
    obtain ⟨st, hst, hholds, hlist⟩ := constraintRun_holds htree.tokens hok hinit hvalue
    have hstack : stack.texts = [] ++ stack.texts := rfl
    obtain ⟨array, harray, htexts⟩ := infixRun_texts htext hstack hinfix
    obtain ⟨array', hpop, hrest⟩ := TextArray.pop_of_texts htexts
    have hread := hholds.read_bottom (by simp)
    refine ⟨⟨tree.eval (valueInterp p s t x), some (tree.eval (infixInterp p s t x)), array'⟩, ?_, rfl, hrest,
      eval_valueInterp tree hleaves⟩
    unfold constraintExprEvalReason
    rw [hst]
    dsimp only
    rw [hlist, constraintInit, TextArray.empty, List.reverse_nil, List.nil_append, harray, hread]
    dsimp only
    rw [hpop]
    rfl
  · exact (tokens_inj htree.depth (Option.some.inj (htree.tokens.symm.trans htree'.1))).symm

end Sepol
