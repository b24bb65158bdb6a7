import Sepol.CilGenExpr

/-!
# Conditional expressions as texts

Three functions write the postfix list of a condition as a nested text, with a stack of texts: one for the CIL of a
kernel policy, one for policy.conf and one for the CIL of a module.  They differ in how an operand, a negation and a
binary operator are written.  The text of an accepted list is the one of its tree, and in CIL it is read as an
expression with the value of the list.
-/

namespace Sepol

open Postfix Lexing NestedText

/-! ### The printers -/

/-- How operands and operators are written, and the longest text that can be made. -/
structure CondFormat where
  operand : CString → CString
  not : CString → CString
  binary : CondOp → CString → CString → CString
  limit : Nat

/-- The formatted text, whose length is an `int`. -/
def CondFormat.createStr (f : CondFormat) (s : CString) : Option CString :=
  if s.length ≤ f.limit then some s else none

/-- The body of the loops for a binary operator: the second operand is on top. -/
def condBinaryToStr (f : CondFormat) (op : CondOp) : List CString → Option (List CString)
  | val2 :: val1 :: stack => (f.createStr (f.binary op val1 val2)).map (· :: stack)
  | _ => none

/-- The body of the loops. -/
def condStepToStr (f : CondFormat) (pBoolValToName : Nat → Option CString) (stack : List CString) (curr : CondExpr) :
    Option (List CString) :=
  match curr.exprType with
  | condBool => do
    let val1 ← pBoolValToName (curr.boolean - 1)
    let newVal ← f.createStr (f.operand val1)
    some (newVal :: stack)
  | condNot =>
    match stack with
    | val1 :: stack => (f.createStr (f.not val1)).map (· :: stack)
    | [] => none
  | condOr => condBinaryToStr f .or stack
  | condAnd => condBinaryToStr f .and stack
  | condXor => condBinaryToStr f .xor stack
  | condEq => condBinaryToStr f .eq stack
  | condNeq => condBinaryToStr f .neq stack
  | _ => none

/-- The only text that is left on the stack. -/
def condToStr (f : CondFormat) (pBoolValToName : Nat → Option CString) (expr : List CondExpr) : Option CString := do
  let stack ← expr.foldlM (condStepToStr f pBoolValToName) []
  match stack with
  | [str] => some str
  | _ => none

def CondOp.cilStr : CondOp → CString
  | .or => ['o', 'r']
  | .and => ['a', 'n', 'd']
  | .xor => ['x', 'o', 'r']
  | .eq => ['e', 'q']
  | .neq => ['n', 'e', 'q']

def CondOp.confStr : CondOp → CString
  | .or => ['|', '|']
  | .and => ['&', '&']
  | .xor => ['^']
  | .eq => ['=', '=']
  | .neq => ['!', '=']

/-- The operators of CIL, in front of their operands. -/
def cilCondFormat (operand : CString → CString) (limit : Nat) : CondFormat where
  operand := operand
  not val1 := '(' :: ['n', 'o', 't'] ++ ' ' :: val1 ++ [')']
  binary op val1 val2 := '(' :: op.cilStr ++ ' ' :: val1 ++ ' ' :: val2 ++ [')']
  limit := limit

/-- `cond_expr_to_str` of `kernel_to_cil.c`. -/
def cilCondExprToStr (pBoolValToName : Nat → Option CString) (expr : List CondExpr) : Option CString :=
  condToStr (cilCondFormat id intMax) pBoolValToName expr

def confCondFormat : CondFormat where
  operand := id
  not val1 := '!' :: ' ' :: val1
  binary op val1 val2 := '(' :: val1 ++ ' ' :: op.confStr ++ ' ' :: val2 ++ [')']
  limit := intMax

/-- `cond_expr_to_str` of `kernel_to_conf.c`. -/
def confCondExprToStr (pBoolValToName : Nat → Option CString) (expr : List CondExpr) : Option CString :=
  condToStr confCondFormat pBoolValToName expr

/-- The keyword of a conditional. -/
def cilCondKeyword (tunable : Bool) : CString :=
  if tunable then ['t', 'u', 'n', 'a', 'b', 'l', 'e', 'i', 'f'] else ['b', 'o', 'o', 'l', 'e', 'a', 'n', 'i', 'f']

/-- `cond_expr_to_cil`: the line that opens the conditional.  The length with the null byte is an `int`. -/
def condExprToCil (indent : Nat) (pBoolValToName : Nat → Option CString) (condExpr : List CondExpr) (tunable : Bool) :
    Option CString :=
  (condToStr (cilCondFormat (fun val1 => '(' :: val1 ++ [')']) (intMax - 1)) pBoolValToName condExpr).map fun val1 =>
    List.replicate (4 * indent) ' ' ++ '(' :: cilCondKeyword tunable ++ ' ' :: val1 ++ ['\n']

/-! ### The text of a tree -/

/-- The name of a boolean by its place. -/
def condName (pBoolValToName : Nat → Option CString) (i : Nat) : CString := (pBoolValToName i).getD []

/-- The text of an expression. -/
def condTreeStr (f : CondFormat) (name : Nat → CString) (t : CondTree) : CString :=
  t.eval ⟨fun boolean => f.operand (name (boolean - 1)), fun _ val1 => f.not val1, f.binary⟩

/-- The booleans of the list have names with the property. -/
def CondNames (pBoolValToName : Nat → Option CString) (ok : CString → Prop) (expr : List CondExpr) : Prop :=
  ∀ curr ∈ expr, curr.exprType = condBool → ∃ name, pBoolValToName (curr.boolean - 1) = some name ∧ ok name

/-- A text is not shorter than those in it. -/
structure CondFormat.Grows (f : CondFormat) : Prop where
  not : ∀ val1, val1.length ≤ (f.not val1).length
  left : ∀ op val1 val2, val1.length ≤ (f.binary op val1 val2).length
  right : ∀ op val1 val2, val2.length ≤ (f.binary op val1 val2).length

theorem cilCondFormat_grows (operand : CString → CString) (limit : Nat) : (cilCondFormat operand limit).Grows := by
  constructor <;> intros <;> simp [cilCondFormat] <;> omega

theorem confCondFormat_grows : confCondFormat.Grows := by
  constructor <;> intros <;> simp [confCondFormat] <;> omega

variable {f : CondFormat} {pBoolValToName : Nat → Option CString} {ok : CString → Prop} {t t' : CondTree}

private theorem CondFormat.createStr_eq_none {s s' : CString} (hle : s.length ≤ s'.length)
    (h : f.createStr s = none) : f.createStr s' = none := by
  unfold CondFormat.createStr at h ⊢
  split at h
  · cases h
  · rw [if_neg (by omega)]

private theorem CondFormat.eq_of_createStr {s s' : CString} (h : f.createStr s = some s') : s' = s := by
  unfold CondFormat.createStr at h
  split at h
  · exact (Option.some.inj h).symm
  · cases h

@[simp] theorem toExpr_leaf (boolean : Nat) : CondTree.toExpr (.leaf boolean) = [⟨condBool, boolean⟩] := rfl

@[simp] theorem toExpr_unary (u : Unit) (t : CondTree) :
    CondTree.toExpr (.unary u t) = t.toExpr ++ [⟨condNot, 0⟩] := by
  simp [CondTree.toExpr, Tree.tokens, condEntry]

@[simp] theorem toExpr_binary (op : CondOp) (t t' : CondTree) :
    CondTree.toExpr (.binary op t t') = t.toExpr ++ t'.toExpr ++ [⟨op.exprType, 0⟩] := by
  simp [CondTree.toExpr, Tree.tokens, condEntry]

private theorem condStepToStr_bool {boolean : Nat} {name : CString} (h : pBoolValToName (boolean - 1) = some name)
    (stack : List CString) :
    condStepToStr f pBoolValToName stack ⟨condBool, boolean⟩ = (f.createStr (f.operand name)).map (· :: stack) := by
  unfold condStepToStr
  simp only [h, Option.bind_eq_bind, Option.bind_some]
  cases f.createStr (f.operand name) <;> rfl

private theorem condStepToStr_binary (op : CondOp) (stack : List CString) :
    condStepToStr f pBoolValToName stack ⟨op.exprType, 0⟩ = condBinaryToStr f op stack := by
  cases op <;> rfl

theorem CondNames.unary {u : Unit} (h : CondNames pBoolValToName ok (CondTree.toExpr (.unary u t))) :
    CondNames pBoolValToName ok t.toExpr := by
  intro curr hcurr
  exact h curr (by simp [hcurr])

theorem CondNames.left {op : CondOp} (h : CondNames pBoolValToName ok (CondTree.toExpr (.binary op t t'))) :
    CondNames pBoolValToName ok t.toExpr := by
  intro curr hcurr
  exact h curr (by simp [hcurr])

theorem CondNames.right {op : CondOp} (h : CondNames pBoolValToName ok (CondTree.toExpr (.binary op t t'))) :
    CondNames pBoolValToName ok t'.toExpr := by
  intro curr hcurr
  exact h curr (by simp [hcurr])

theorem CondNames.leaf {boolean : Nat} (h : CondNames pBoolValToName ok (CondTree.toExpr (.leaf boolean))) :
    pBoolValToName (boolean - 1) = some (condName pBoolValToName (boolean - 1)) ∧
      ok (condName pBoolValToName (boolean - 1)) := by
  obtain ⟨name, hname, hok⟩ := h ⟨condBool, boolean⟩ (by simp) rfl
  simp only at hname
  rw [condName, hname]
  exact ⟨rfl, hok⟩

section Loop

variable {name : Nat → CString}

@[simp] theorem condTreeStr_leaf (boolean : Nat) :
    condTreeStr f name (.leaf boolean) = f.operand (name (boolean - 1)) := rfl

@[simp] theorem condTreeStr_unary (u : Unit) (t : CondTree) :
    condTreeStr f name (.unary u t) = f.not (condTreeStr f name t) := rfl

@[simp] theorem condTreeStr_binary (op : CondOp) (t t' : CondTree) :
    condTreeStr f name (.binary op t t') = f.binary op (condTreeStr f name t) (condTreeStr f name t') := rfl

end Loop

/-- The loop over the list of a tree puts its text on the stack, unless the text is too long. -/
private theorem foldlM_toExpr (hgrows : f.Grows) (hnames : CondNames pBoolValToName ok t.toExpr)
    (stack : List CString) : t.toExpr.foldlM (condStepToStr f pBoolValToName) stack =
      (f.createStr (condTreeStr f (condName pBoolValToName) t)).map (· :: stack) := by
  induction t generalizing stack with
  | leaf boolean =>
    rw [toExpr_leaf, List.foldlM_cons, condStepToStr_bool hnames.leaf.1, condTreeStr_leaf]
    cases f.createStr (f.operand (condName pBoolValToName (boolean - 1))) <;> rfl
  | unary u t ih =>
    rw [toExpr_unary, List.foldlM_append, ih hnames.unary, condTreeStr_unary]
    cases hstr : f.createStr (condTreeStr f (condName pBoolValToName) t) with
    | none =>
      rw [CondFormat.createStr_eq_none (hgrows.not _) hstr]
      rfl
    | some s =>
      obtain rfl := CondFormat.eq_of_createStr hstr
      simp only [Option.map_some, Option.bind_eq_bind, Option.bind_some, List.foldlM_cons, List.foldlM_nil, bind_pure]
      rfl
  | binary op l r ihl ihr =>
    rw [toExpr_binary, List.foldlM_append, List.foldlM_append, ihl hnames.left, condTreeStr_binary]
    cases hl : f.createStr (condTreeStr f (condName pBoolValToName) l) with
    | none =>
      rw [CondFormat.createStr_eq_none (hgrows.left op _ (condTreeStr f (condName pBoolValToName) r)) hl]
      rfl
    | some s =>
      obtain rfl := CondFormat.eq_of_createStr hl
      rw [Option.map_some, Option.bind_eq_bind, Option.bind_some, ihr hnames.right]
      cases hr : f.createStr (condTreeStr f (condName pBoolValToName) r) with
      | none =>
        rw [CondFormat.createStr_eq_none (hgrows.right op (condTreeStr f (condName pBoolValToName) l) _) hr]
        rfl
      | some s =>
        obtain rfl := CondFormat.eq_of_createStr hr
        simp only [Option.map_some, Option.bind_some, List.foldlM_cons, List.foldlM_nil, bind_pure,
          condStepToStr_binary, condBinaryToStr]

theorem condToStr_toExpr (hgrows : f.Grows) (hnames : CondNames pBoolValToName ok t.toExpr) :
    condToStr f pBoolValToName t.toExpr = f.createStr (condTreeStr f (condName pBoolValToName) t) := by
  rw [condToStr, foldlM_toExpr hgrows hnames]
  cases f.createStr (condTreeStr f (condName pBoolValToName) t) <;> rfl

end Sepol

/-!
## Conditions in CIL

The text of a condition in CIL is one list of nodes, nested as the tree is, and `cil_gen_expr` makes a list of items
of it that has the value of the tree.
-/

namespace Sepol

open Postfix Lexing NestedText

/-! ### Nodes -/

/-- The nodes of a condition. -/
def condTreeNested (leaf : CString → Nested CString) (name : Nat → CString) (t : CondTree) : Nested CString :=
  t.eval ⟨fun boolean => leaf (name (boolean - 1)), fun _ n => .list [.word ['n', 'o', 't'], n],
    fun op n n' => .list [.word op.cilStr, n, n']⟩

/-- A name that can stand for a boolean in CIL. -/
structure CilBoolName (name : CString) : Prop where
  symbol : CilSymbol name
  noOperator : cilGetExprOperatorFlavor name = none

private theorem CondOp.cilStr_symbol (op : CondOp) : CilSymbol op.cilStr := by
  cases op <;> exact cilSymbol_of_all (by simp [CondOp.cilStr]) (by decide)

private theorem cuts_replicate_blank (n : Nat) : Cuts cilLexer (List.replicate n ' ') [] := by
  induction n with
  | zero => exact Cuts.nil
  | succ n ih => exact cuts_blank.append ih

variable {pBoolValToName : Nat → Option CString} {ok : CString → Prop} {t : CondTree}

private theorem lexes_not {s : CString} {n : Nested CString} (h : Lexes cilLexer s n.print) :
    Lexes cilLexer ('(' :: ['n', 'o', 't'] ++ ' ' :: s ++ [')']) (Nested.list [.word ['n', 'o', 't'], n]).print := by
  have hnot : CilSymbol ['n', 'o', 't'] := cilSymbol_of_all (by simp) (by decide)
  have hall := cuts_append_closing ((cuts_opening.append (cuts_append_blank hnot.lexes)).append_lexes h)
  have hprint : (Nested.list [.word ['n', 'o', 't'], n]).print =
      [Piece.opening] ++ [.word ['n', 'o', 't']] ++ n.print ++ [.closing] := by
    simp [Nested.print, printAll]
  rw [hprint]
  simpa using hall.lexes

private theorem lexes_binary (op : CondOp) {s s' : CString} {n n' : Nested CString} (h : Lexes cilLexer s n.print)
    (h' : Lexes cilLexer s' n'.print) :
    Lexes cilLexer ('(' :: op.cilStr ++ ' ' :: s ++ ' ' :: s' ++ [')'])
      (Nested.list [.word op.cilStr, n, n']).print := by
  have hop := cuts_opening.append (cuts_append_blank op.cilStr_symbol.lexes)
  have hall := cuts_append_closing ((hop.append (cuts_append_blank h)).append_lexes h')
  have hprint : (Nested.list [.word op.cilStr, n, n']).print =
      [Piece.opening] ++ [.word op.cilStr] ++ n.print ++ n'.print ++ [.closing] := by
    simp [Nested.print, printAll]
  rw [hprint]
  simpa using hall.lexes

theorem lexes_single {name : CString} (h : CilSymbol name) :
    Lexes cilLexer ('(' :: name ++ [')']) (Nested.list [.word name]).print := by
  have hall := cuts_append_closing (cuts_opening.append_lexes h.lexes)
  have hprint : (Nested.list [.word name]).print = [Piece.opening] ++ [.word name] ++ [.closing] := by
    simp [Nested.print, printAll]
  rw [hprint]
  simpa using hall.lexes

/-- The text of a condition is the text of its nodes. -/
theorem lexes_condTreeStr {operand : CString → CString} {leaf : CString → Nested CString} {limit : Nat}
    (hleaf : ∀ name, ok name → Lexes cilLexer (operand name) (leaf name).print)
    (hnames : CondNames pBoolValToName ok t.toExpr) :
    Lexes cilLexer (condTreeStr (cilCondFormat operand limit) (condName pBoolValToName) t)
      (condTreeNested leaf (condName pBoolValToName) t).print := by
  induction t with
  | leaf boolean => exact hleaf _ hnames.leaf.2
  | unary u t ih => exact lexes_not (ih hnames.unary)
  | binary op l r ihl ihr => exact lexes_binary op (ihl hnames.left) (ihr hnames.right)

/-! ### Values -/

/-- A node is read as an item with the value. -/
def CilCondReads (flavor : CilCondFlavor) (n : CilParse) (value : (CString → Bool) → Bool) : Prop :=
  ∃ item, cilFillExpr flavor n = some item ∧ ∀ τ, cilEvaluateTunableExprHelper τ item = some (value τ)

variable {flavor : CilCondFlavor} {n n' : CilParse} {v v' : (CString → Bool) → Bool}

@[simp] theorem isString_string (data : CString) : (CilParse.string data).isString = true := rfl

private theorem CilCondReads.isOperand (h : CilCondReads flavor n v) : n.isString = true ∨ n.isList = true := by
  obtain ⟨item, hitem, -⟩ := h
  match n, hitem with
  | .string data, _ => exact .inl rfl
  | .list (current :: rest), _ => exact .inr rfl

theorem CilCondReads.string {name : CString} (h : cilGetExprOperatorFlavor name = none) :
    CilCondReads flavor (.string name) fun τ => τ name := by
  refine ⟨.leaf name, ?_, fun τ => ?_⟩
  · rw [cilFillExpr, h]
    rfl
  · rw [cilEvaluateTunableExprHelper]

/-- A name in parentheses. -/
theorem CilCondReads.single {name : CString} (h : cilGetExprOperatorFlavor name = none) :
    CilCondReads flavor (.list [.string name]) fun τ => τ name := by
  refine ⟨.list flavor [.leaf name], ?_, fun τ => ?_⟩
  · have hverify : cilVerifyExprSyntax [.string name] none = true := rfl
    have hop : (CilParse.string name).data.bind cilGetExprOperatorFlavor = none := h
    rw [cilFillExpr, cilFillExprHelper, hop, hverify, cilFillExpr, h, cilFillExprs]
    rfl
  · rw [cilEvaluateTunableExprHelper, cilEvaluateTunableExpr, cilEvaluateTunableExprHelper, cilEvaluateTunableItems]
    · cases hname : τ name <;> simp [hname]
    all_goals simp

theorem CilCondReads.not (h : CilCondReads flavor n v) :
    CilCondReads flavor (.list [.string ['n', 'o', 't'], n]) fun τ => !v τ := by
  have hoperand := h.isOperand
  obtain ⟨item, hitem, hvalue⟩ := h
  have hop : (CilParse.string ['n', 'o', 't']).data.bind cilGetExprOperatorFlavor = some .not := by decide
  have hverify : cilVerifyExprSyntax [.string ['n', 'o', 't'], n] (some .not) = true := by
    simp [cilVerifyExprSyntax, cilVerifySyntax, CilSyntax.has, hoperand]
  refine ⟨.list flavor [.op .not, item], ?_, fun τ => ?_⟩
  · rw [cilFillExpr, cilFillExprHelper, hop, hverify, cilFillExprs, hitem, cilFillExprs]
    rfl
  · rw [cilEvaluateTunableExprHelper, cilEvaluateTunableExpr, hvalue]
    rfl

/-- The operators of the same names. -/
def CondOp.cilOp : CondOp → CilExprOp
  | .or => .or
  | .and => .and
  | .xor => .xor
  | .eq => .eq
  | .neq => .neq

theorem CilCondReads.binary (op : CondOp) (h : CilCondReads flavor n v) (h' : CilCondReads flavor n' v') :
    CilCondReads flavor (.list [.string op.cilStr, n, n']) fun τ => op.apply (v τ) (v' τ) := by
  have hoperand := h.isOperand
  have hoperand' := h'.isOperand
  obtain ⟨item, hitem, hvalue⟩ := h
  obtain ⟨item', hitem', hvalue'⟩ := h'
  have hop : (CilParse.string op.cilStr).data.bind cilGetExprOperatorFlavor = some op.cilOp := by
    cases op <;> decide
  have hverify : cilVerifyExprSyntax [.string op.cilStr, n, n'] (some op.cilOp) = true := by
    cases op <;>
      simp [cilVerifyExprSyntax, CondOp.cilOp, cilVerifySyntax, CilSyntax.has, hoperand, hoperand']
  refine ⟨.list flavor [.op op.cilOp, item, item'], ?_, fun τ => ?_⟩
  · rw [cilFillExpr, cilFillExprHelper, hop, hverify, cilFillExprs, hitem, cilFillExprs, hitem', cilFillExprs]
    rfl
  · rw [cilEvaluateTunableExprHelper, cilEvaluateTunableExpr, hvalue]
    cases op <;> simp [CondOp.cilOp, hvalue', CilExprOp.tunableValue, CondOp.apply]

/-- The node of a condition is read as an item with its value. -/
theorem reads_condTreeNested {leaf : CString → Nested CString}
    (hleaf : ∀ name, ok name → CilCondReads flavor (cilParseOfNested (leaf name)) fun τ => τ name)
    (hnames : CondNames pBoolValToName ok t.toExpr) :
    CilCondReads flavor (cilParseOfNested (condTreeNested leaf (condName pBoolValToName) t))
      fun τ => t.value fun i => τ (condName pBoolValToName i) := by
  induction t with
  | leaf boolean => exact hleaf _ hnames.leaf.2
  | unary u t ih =>
    have hnot := (ih hnames.unary).not
    simpa [condTreeNested, Tree.eval, cilParseOfNested, cilParsesOfNested, CondTree.value, condInterp] using hnot
  | binary op l r ihl ihr =>
    have hbinary := CilCondReads.binary op (ihl hnames.left) (ihr hnames.right)
    simpa [condTreeNested, Tree.eval, cilParseOfNested, cilParsesOfNested, CondTree.value, condInterp] using hbinary

/-- A node that is read as an item is read as a list with the value of the item. -/
private theorem CilCondReads.genExpr (h : CilCondReads flavor n v) :
    ∃ items, cilGenExpr flavor n = some items ∧ ∀ τ, cilEvaluateTunableExpr τ items = some (v τ) := by
  obtain ⟨item, hitem, hvalue⟩ := h
  match n, hitem with
  | .string data, hitem =>
    rw [cilFillExpr] at hitem
    split at hitem
    · cases hitem
    · next hop =>
      obtain rfl := Option.some.inj hitem
      refine ⟨[.leaf data], ?_, fun τ => ?_⟩
      · rw [cilGenExpr, cilFillExpr, if_neg hop]
        rfl
      · rw [cilEvaluateTunableExpr, hvalue, cilEvaluateTunableItems]
        · cases v τ <;> simp
        all_goals simp
  | .list (current :: rest), hitem =>
    rw [cilFillExpr] at hitem
    obtain ⟨items, hitems, rfl⟩ := Option.map_eq_some_iff.1 hitem
    refine ⟨items, hitems, fun τ => ?_⟩
    rw [← hvalue τ, cilEvaluateTunableExprHelper]

/-! ### The texts -/

/-- The booleans have the values `τ` by their names and `σ` by their places. -/
def CondAssigns (pBoolValToName : Nat → Option CString) (τ : CString → Bool) (σ : Nat → Bool) : Prop :=
  ∀ i name, pBoolValToName i = some name → τ name = σ i

/-- A node is read in the flavor as a condition that has the value of the list for all values of the booleans. -/
def CilCondAgrees (pBoolValToName : Nat → Option CString) (expr : List CondExpr) (flavor : CilCondFlavor)
    (n : CilParse) : Prop :=
  ∃ items, cilGenExpr flavor n = some items ∧
    ∀ τ σ, CondAssigns pBoolValToName τ σ → cilEvaluateTunableExpr τ items = condEvaluateExpr σ expr

/-- The value of a tree depends on its booleans only. -/
theorem value_condName {τ : CString → Bool} {σ : Nat → Bool} (hnames : CondNames pBoolValToName ok t.toExpr)
    (h : CondAssigns pBoolValToName τ σ) : (t.value fun i => τ (condName pBoolValToName i)) = t.value σ := by
  induction t with
  | leaf boolean => exact h _ _ hnames.leaf.1
  | unary u t ih =>
    have hvalue := ih hnames.unary
    simp only [CondTree.value, Tree.eval] at hvalue ⊢
    rw [hvalue]
    rfl
  | binary op l r ihl ihr =>
    have hleft := ihl hnames.left
    have hright := ihr hnames.right
    simp only [CondTree.value, Tree.eval] at hleft hright ⊢
    rw [hleft, hright]
    rfl

theorem CilCondReads.agrees {expr : List CondExpr} (hexpr : ∀ σ, condEvaluateExpr σ expr = some (t.value σ))
    (hnames : CondNames pBoolValToName ok t.toExpr)
    (h : CilCondReads flavor n fun τ => t.value fun i => τ (condName pBoolValToName i)) :
    CilCondAgrees pBoolValToName expr flavor n := by
  obtain ⟨items, hitems, hvalue⟩ := h.genExpr
  refine ⟨items, hitems, fun τ σ hassigns => ?_⟩
  rw [hvalue, hexpr, value_condName hnames hassigns]

/-- The text of a condition is one node. -/
theorem cilParseText_node {s : CString} {n : Nested CString} (h : Lexes cilLexer s n.print) :
    cilParseText s = some [cilParseOfNested n] := by
  have hprint : printAll [n] = n.print := by simp [printAll]
  rw [← hprint] at h
  rw [cilParseText_eq h]
  rfl

private theorem cilCondKeyword_symbol (tunable : Bool) : CilSymbol (cilCondKeyword tunable) := by
  cases tunable <;> exact cilSymbol_of_all (by simp [cilCondKeyword]) (by decide)

/-- The line that opens a conditional. -/
def cilCondLine (indent : Nat) (tunable : Bool) (s : CString) : CString :=
  List.replicate (4 * indent) ' ' ++ '(' :: cilCondKeyword tunable ++ ' ' :: s ++ ['\n']

/-- The line of a conditional, once it is closed, is a list of the keyword and the condition. -/
theorem cilParseText_cilCondLine (indent : Nat) (tunable : Bool) {s : CString} {n : Nested CString}
    (h : Lexes cilLexer s n.print) :
    cilParseText (cilCondLine indent tunable s ++ [')']) =
      some [.list [.string (cilCondKeyword tunable), cilParseOfNested n]] := by
  have hkeyword := cuts_opening.append (cuts_append_blank (cilCondKeyword_symbol tunable).lexes)
  have hline := ((cuts_replicate_blank (4 * indent)).append hkeyword).append_lexes h
  have hall := ((hline.append_separator (c := '\n') (by decide) rfl).append cuts_closing).lexes
  have hprint : (Nested.list [.word (cilCondKeyword tunable), n]).print =
      [] ++ ([Piece.opening] ++ [.word (cilCondKeyword tunable)]) ++ n.print ++ [] ++ [.closing] := by
    simp [Nested.print, printAll]
  rw [← hprint] at hall
  have hnode := cilParseText_node hall
  simpa [cilCondLine, cilParseOfNested, cilParsesOfNested] using hnode

end Sepol
