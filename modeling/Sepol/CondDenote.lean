import Sepol.Lib.Postfix
import Sepol.Lib.ArrayStack
import Sepol.Validate

/-!
# The value of a conditional expression

A list that `validate_cond_expr` accepts is the postfix form of exactly one expression, and `cond_evaluate_expr`
returns the value of this expression.  The evaluator is modelled once more here with its array and the index of the
top, so that an access outside the array would show.
-/

namespace Sepol

open Postfix ArrayStack

inductive CondOp where
  | or
  | and
  | xor
  | eq
  | neq

/-- Expressions over the values of booleans; the only unary operator is the negation. -/
abbrev CondTree : Type := Tree Nat Unit CondOp

def CondOp.exprType : CondOp → Nat
  | .or => condOr
  | .and => condAnd
  | .xor => condXor
  | .eq => condEq
  | .neq => condNeq

def CondOp.apply : CondOp → Bool → Bool → Bool
  | .or => fun a b => a || b
  | .and => fun a b => a && b
  | .xor => fun a b => a ^^ b
  | .eq => fun a b => a == b
  | .neq => fun a b => a != b

/-- The entry of a list for a token. -/
def condEntry : Token Nat Unit CondOp → CondExpr
  | .operand boolean => ⟨condBool, boolean⟩
  | .unary _ => ⟨condNot, 0⟩
  | .binary o => ⟨o.exprType, 0⟩

def CondTree.toExpr (t : CondTree) : List CondExpr := t.tokens.map condEntry

def condInterp (state : Nat → Bool) : Interp Nat Unit CondOp Bool :=
  ⟨fun boolean => state (boolean - 1), fun _ a => !a, CondOp.apply⟩

/-- The value of the expression when the booleans have the given states. -/
def CondTree.value (state : Nat → Bool) (t : CondTree) : Bool := t.eval (condInterp state)

/-! ### The evaluator with its array -/

/-- The code returns -1 from its loop, or it would access its array outside the bounds. -/
inductive CondExit where
  | undefined
  | outside

/-- The array `s` with the index `sp`; `none` is -1 or a value that was not written. -/
abbrev CondStack : Type := Stack condExprMaxdepth (Option Bool)

def condStackWrite (st : CondStack) (v : Option Bool) : Except CondExit CondStack :=
  match st.write st.sp v with
  | none => .error .outside
  | some st => .ok st

/-- `sp--; s[sp] = s[sp] op s[sp + 1]`. -/
def condStackBinary (f : Bool → Bool → Bool) (st : CondStack) : Except CondExit CondStack :=
  if st.sp < 1 then .error .undefined
  else
    let st : CondStack := { st with sp := st.sp - 1 }
    match st.read st.sp, st.read (st.sp + 1) with
    | some a, some b => condStackWrite st (Option.map₂ f a b)
    | _, _ => .error .outside

def condStackStep (state : Nat → Bool) (st : CondStack) (cur : CondExpr) : Except CondExit CondStack :=
  match cur.exprType with
  | condBool =>
    if st.sp = condExprMaxdepth - 1 then .error .undefined
    else
      let st : CondStack := { st with sp := st.sp + 1 }
      condStackWrite st (some (state (cur.boolean - 1)))
  | condNot =>
    if st.sp < 0 then .error .undefined
    else
      match st.read st.sp with
      | none => .error .outside
      | some a => condStackWrite st (a.map not)
  | condOr => condStackBinary or st
  | condAnd => condStackBinary and st
  | condXor => condStackBinary xor st
  | condEq => condStackBinary (fun a b => a == b) st
  | condNeq => condStackBinary (fun a b => a != b) st
  | _ => .error .undefined

def condStackRun (state : Nat → Bool) : List CondExpr → CondStack → Except CondExit CondStack
  | [], st => .ok st
  | cur :: next, st =>
    match condStackStep state st cur with
    | .error err => .error err
    | .ok st => condStackRun state next st

/-- `cond_evaluate_expr`, with what the array holds before `s[0]` is set to -1. -/
def condEvaluateStack (state : Nat → Bool) (slots : Fin condExprMaxdepth → Option Bool) (expr : List CondExpr) :
    Except CondExit (Option Bool) :=
  match condStackRun state expr ⟨Function.update slots 0 none, -1⟩ with
  | .error err => .error err
  | .ok st =>
    match st.read 0 with
    | none => .error .outside
    | some v => .ok v

/-! ### Accepted lists -/

variable {state : Nat → Bool} {boolean : Validate} {expr : List CondExpr} {ts : List (Token Nat Unit CondOp)}
  {s s' : List Bool} {st : CondStack}

/-- A list that is accepted with `d` entries on the stack is one of tokens that leave one entry. -/
private theorem tokens_of_validateCondExprFrom (d : Nat) (h : validateCondExprFrom boolean (d - 1) expr = true) :
    ∃ ts : List (Token Nat Unit CondOp), ts.map condEntry = expr ∧ Postfix.depth condExprMaxdepth d ts = some 1 := by
  induction expr generalizing d with
  | nil =>
    rw [validateCondExprFrom, decide_eq_true_iff] at h
    refine ⟨[], rfl, ?_⟩
    rw [Postfix.depth]
    congr 1
    omega
  | cons cur next ih =>
    obtain ⟨exprType, b⟩ := cur
    -- the five binary operators are checked alike
    have hbinary : ∀ o : CondOp, (if (d : Int) - 1 < 1 then false else if b ≠ 0 then false else
        validateCondExprFrom boolean (d - 1 - 1) next) = true → ∃ ts : List (Token Nat Unit CondOp),
          ts.map condEntry = ⟨o.exprType, b⟩ :: next ∧ Postfix.depth condExprMaxdepth d ts = some 1 := by
      intro o h
      by_cases hd : (d : Int) - 1 < 1
      · rw [if_pos hd] at h
        cases h
      · rw [if_neg hd] at h
        by_cases hb : b ≠ 0
        · rw [if_pos hb] at h
          cases h
        · rw [if_neg hb] at h
          obtain ⟨d, rfl⟩ := Nat.exists_eq_add_of_le' (show 2 ≤ d by omega)
          obtain ⟨ts, rfl, hts⟩ := ih (d + 1) (by rw [← h]; congr 1; push_cast; omega)
          exact ⟨.binary o :: ts, by rw [List.map_cons, condEntry, not_not.1 hb], hts⟩
    unfold validateCondExprFrom at h
    dsimp only at h
    split at h
    · split at h
      · cases h
      · split at h
        · cases h
        · next hlimit =>
          have hd : d < condExprMaxdepth := by
            unfold condExprMaxdepth at hlimit ⊢
            omega
          obtain ⟨ts, rfl, hts⟩ := ih (d + 1) (by rw [← h]; congr 1; push_cast; omega)
          exact ⟨.operand b :: ts, rfl, by rw [Postfix.depth, if_pos hd]; exact hts⟩
    · split at h
      · cases h
      · split at h
        · cases h
        · next hdepth hb =>
          obtain ⟨d, rfl⟩ := Nat.exists_eq_add_of_le' (show 1 ≤ d by omega)
          obtain ⟨ts, rfl, hts⟩ := ih (d + 1) h
          exact ⟨.unary () :: ts, by rw [List.map_cons, condEntry, not_not.1 hb], hts⟩
    · exact hbinary .or h
    · exact hbinary .and h
    · exact hbinary .xor h
    · exact hbinary .eq h
    · exact hbinary .neq h
    · cases h

/-- One tree has an accepted list. -/
theorem exists_tree_of_validateCondExpr (h : validateCondExpr expr boolean = true) :
    ∃ t : CondTree, t.toExpr = expr ∧ Postfix.depth condExprMaxdepth 0 t.tokens = some 1 := by
  unfold validateCondExpr at h
  split at h
  · cases h
  · obtain ⟨ts, hexpr, hdepth⟩ := tokens_of_validateCondExprFrom 0 h
    obtain ⟨t, rfl⟩ := exists_tree hdepth
    exact ⟨t, hexpr, hdepth⟩

private theorem condEntry_injective : Function.Injective condEntry := by
  intro x y h
  cases x with
  | operand a => cases y with
    | operand b =>
      have hb : a = b := congrArg CondExpr.boolean h
      rw [hb]
    | unary u => cases congrArg CondExpr.exprType h
    | binary o => cases o <;> cases congrArg CondExpr.exprType h
  | unary u => cases y with
    | operand b => cases congrArg CondExpr.exprType h
    | unary u => rfl
    | binary o => cases o <;> cases congrArg CondExpr.exprType h
  | binary o => cases y with
    | operand b => cases o <;> cases congrArg CondExpr.exprType h
    | unary u => cases o <;> cases congrArg CondExpr.exprType h
    | binary o' =>
      have ho : o.exprType = o'.exprType := congrArg CondExpr.exprType h
      cases o <;> cases o' <;> first | rfl | cases ho

/-! ### What the evaluators do on the list of a tree -/

/-- The evaluator on a list of values is the machine. -/
theorem condEvaluateStep_foldlM (state : Nat → Bool) (hs : s.length ≤ condExprMaxdepth) :
    (ts.map condEntry).foldlM (fun s cur => condEvaluateStep state cur s) s =
      Postfix.run (condInterp state) condExprMaxdepth s ts := by
  induction ts generalizing s with
  | nil => rfl
  | cons tok ts ih =>
    rw [List.map_cons, List.foldlM_cons]
    cases tok with
    | operand a =>
      rw [Postfix.run]
      by_cases hlt : s.length < condExprMaxdepth
      · have hstep : condEvaluateStep state (condEntry (.operand a)) s = some (state (a - 1) :: s) :=
          if_neg (Nat.ne_of_lt hlt)
        rw [hstep, if_pos hlt]
        exact ih (by rw [List.length_cons]; omega)
      · have hstep : condEvaluateStep state (condEntry (.operand a)) s = none := if_pos (by omega)
        rw [hstep, if_neg hlt]
        rfl
    | unary u =>
      cases s with
      | nil => rfl
      | cons a s => exact ih (by rwa [List.length_cons] at hs ⊢)
    | binary o =>
      rcases s with _ | ⟨b, _ | ⟨a, s⟩⟩
      · cases o <;> rfl
      · cases o <;> rfl
      · have hstep : condEvaluateStep state (condEntry (.binary o)) (b :: a :: s) = some (o.apply a b :: s) := by
          cases o <;> rfl
        rw [hstep]
        exact ih (Nat.le_of_succ_le hs)

private theorem condStackBinary_holds (f : Bool → Bool → Bool) {a b : Bool}
    (h : ArrayStack.Holds st ((b :: a :: s).map some)) :
    ∃ st', condStackBinary f st = .ok st' ∧ ArrayStack.Holds st' ((f a b :: s).map some) := by
  rw [List.map_cons, List.map_cons] at h
  have hsp := h.sp
  rw [List.length_cons, List.length_cons] at hsp
  obtain ⟨hpop, hbehind⟩ := h.pop
  obtain ⟨st', hwrite, hst'⟩ := hpop.write_top (some (f a b))
  refine ⟨st', ?_, hst'⟩
  have htop := hpop.read_top
  unfold condStackBinary
  rw [if_neg (by omega)]
  dsimp only at htop hbehind hwrite ⊢
  rw [htop, hbehind]
  dsimp only
  rw [condStackWrite, Option.map₂_some_some, hwrite]

private theorem condStackStep_operand (state : Nat → Bool) (st : CondStack) (a : Nat) :
    condStackStep state st (condEntry (.operand a)) = if st.sp = condExprMaxdepth - 1 then .error .undefined
      else condStackWrite { st with sp := st.sp + 1 } (some (state (a - 1))) := rfl

private theorem condStackStep_unary (state : Nat → Bool) (st : CondStack) :
    condStackStep state st (condEntry (.unary ())) = if st.sp < 0 then .error .undefined
      else match st.read st.sp with
        | none => .error .outside
        | some a => condStackWrite st (a.map not) := rfl

/-- The evaluator with the array follows the machine: it stays inside the array. -/
private theorem condStackRun_holds (state : Nat → Bool) (h : ArrayStack.Holds st (s.map some))
    (hrun : Postfix.run (condInterp state) condExprMaxdepth s ts = some s') :
    ∃ st', condStackRun state (ts.map condEntry) st = .ok st' ∧ ArrayStack.Holds st' (s'.map some) := by
  induction ts generalizing s st with
  | nil =>
    obtain rfl := Option.some.inj hrun
    exact ⟨st, rfl, h⟩
  | cons tok ts ih =>
    rw [List.map_cons, condStackRun]
    cases tok with
    | operand a =>
      rw [Postfix.run] at hrun
      split at hrun
      · next hlt =>
        obtain ⟨st₁, hwrite, hst₁⟩ := h.push (by rwa [List.length_map]) (some (state (a - 1)))
        have hsp := h.sp
        rw [List.length_map] at hsp
        have hstep : condStackStep state st (condEntry (.operand a)) = .ok st₁ := by
          rw [condStackStep_operand, if_neg (by omega), condStackWrite, hwrite]
        rw [hstep]
        exact ih (s := state (a - 1) :: s) hst₁ hrun
      · cases hrun
    | unary u =>
      cases s with
      | nil => cases hrun
      | cons a s =>
        have hsp := h.sp
        rw [List.map_cons] at h
        obtain ⟨st₁, hwrite, hst₁⟩ := h.write_top (some !a)
        have hstep : condStackStep state st (condEntry (.unary u)) = .ok st₁ := by
          rw [List.length_map, List.length_cons] at hsp
          rw [condStackStep_unary, if_neg (by omega), h.read_top]
          dsimp only
          rw [condStackWrite, Option.map_some, hwrite]
        rw [hstep]
        exact ih (s := (!a) :: s) hst₁ hrun
    | binary o =>
      rcases s with _ | ⟨b, _ | ⟨a, s⟩⟩
      · cases hrun
      · cases hrun
      · obtain ⟨st₁, hbin, hst₁⟩ := condStackBinary_holds o.apply h
        have hstep : condStackStep state st (condEntry (.binary o)) = .ok st₁ := by
          rw [← hbin]
          cases o <;> rfl
        rw [hstep]
        exact ih hst₁ hrun

theorem condEvaluateExpr_toExpr {t : CondTree} (hdepth : Postfix.depth condExprMaxdepth 0 t.tokens = some 1)
    (state : Nat → Bool) : condEvaluateExpr state t.toExpr = some (t.value state) := by
  unfold condEvaluateExpr CondTree.toExpr
  rw [condEvaluateStep_foldlM state (Nat.zero_le _), run_tokens hdepth (condInterp state)]
  rfl

/-- On an accepted list neither evaluator returns -1, no access is outside the array, and both return the value of the
expression, which is the only one with this list. -/
theorem validateCondExpr_evaluates (expr : List CondExpr) (boolean : Validate)
    (h : validateCondExpr expr boolean = true) :
    ∃! t : CondTree, t.toExpr = expr ∧ ∀ (state : Nat → Bool) (slots : Fin condExprMaxdepth → Option Bool),
      condEvaluateStack state slots expr = .ok (some (t.value state)) ∧
        condEvaluateExpr state expr = some (t.value state) := by
  obtain ⟨t, rfl, hdepth⟩ := exists_tree_of_validateCondExpr h
  refine ⟨t, ⟨rfl, fun state slots => ⟨?_, condEvaluateExpr_toExpr hdepth state⟩⟩, fun t' ht' => ?_⟩
  · have hrun := run_tokens hdepth (condInterp state)
    obtain ⟨st, hst, hholds⟩ := condStackRun_holds state (holds_nil (Function.update slots 0 none)) hrun
    have hread := hholds.read_bottom (by simp)
    unfold condEvaluateStack CondTree.toExpr
    rw [hst]
    dsimp only
    rw [hread]
    rfl
  · have htokens : t.tokens = t'.tokens := List.map_injective_iff.2 condEntry_injective ht'.1.symm
    exact (tokens_inj hdepth htokens).symm

/-- The list of `b1 && !b2`. -/
theorem validateCondExpr_evaluates_and_not :
    validateCondExpr [⟨condBool, 1⟩, ⟨condBool, 2⟩, ⟨condNot, 0⟩, ⟨condAnd, 0⟩] ⟨2, ebitmapInit⟩ = true ∧
    ∃! t : CondTree, t.toExpr = [⟨condBool, 1⟩, ⟨condBool, 2⟩, ⟨condNot, 0⟩, ⟨condAnd, 0⟩] ∧
      ∀ (state : Nat → Bool) (slots : Fin condExprMaxdepth → Option Bool),
        condEvaluateStack state slots [⟨condBool, 1⟩, ⟨condBool, 2⟩, ⟨condNot, 0⟩, ⟨condAnd, 0⟩] =
            .ok (some (t.value state)) ∧
          condEvaluateExpr state [⟨condBool, 1⟩, ⟨condBool, 2⟩, ⟨condNot, 0⟩, ⟨condAnd, 0⟩] = some (t.value state) :=
  ⟨by decide, validateCondExpr_evaluates _ ⟨2, ebitmapInit⟩ (by decide)⟩

end Sepol
