import Sepol.Lib.ArrayStack
import Sepol.Validate

/-!
# Evaluating constraints

`constraint_expr_eval_reason`: the loop over the entries of an expression, which keeps the values in an array and
writes the text of every entry, and the loop that makes an infix text of these texts with the stack of `push` and
`pop`.  The texts of the class and of the permissions, which only go to the buffer of the caller, are left out.
-/

namespace Sepol

open ArrayStack

/-- The policy with the sets `role_val_to_struct[i]->dominates`. -/
structure ConstraintPolicydb extends Policydb where
  dominates : Nat → Ebitmap

/-- The code leaves its loop with -EINVAL or, behind `BUG()`, with 0, or it would access memory outside an array or
behind a null pointer. -/
inductive ConstraintExit where
  | einval
  | bug
  | outside

/-! ### Arrays of texts -/

abbrev stackLen : Nat := 32

/-- An array of texts that grows, the last text first. -/
structure TextArray where
  texts : List CString
  len : Nat
  le : texts.length ≤ len

def TextArray.empty : TextArray := ⟨[], 0, Nat.le_refl 0⟩

/-- `push`; the array of `expr_list` grows in the same way. -/
def TextArray.push (array : TextArray) (text : CString) : TextArray where
  texts := text :: array.texts
  len :=
    if array.texts.length ≥ array.len then if array.len = 0 then stackLen else array.len * 2
    else array.len
  le := by
    have hle := array.le
    rw [List.length_cons]
    unfold stackLen
    split
    · split <;> omega
    · omega

@[simp] theorem TextArray.push_texts (array : TextArray) (text : CString) :
    (array.push text).texts = text :: array.texts := rfl

def TextArray.pop (array : TextArray) : Option (CString × TextArray) :=
  match h : array.texts with
  | [] => none
  | text :: texts => some (text, ⟨texts, array.len, by have hle := array.le; rw [h, List.length_cons] at hle; omega⟩)

/-! ### The texts of entries -/

/-- `snprintf` into `tmp_buf`. -/
def tmpBuf (text : CString) : CString := text.take 127

def failText (failed : Bool) : CString :=
  if failed then [' ', '-', 'F', 'a', 'i', 'l', '-', ')', ' '] else [')', ' ']

def msgcat (src tgt op : CString) (failed : Bool) : CString :=
  tmpBuf (['('] ++ src ++ [' '] ++ op ++ [' '] ++ tgt ++ failText failed)

abbrev policydbVersionConstraintNames : Nat := 29

/-- The names of the values of a kind, and how many there are. -/
def valToName (p : Policydb) (type : BitVec 32) : (Nat → Option CString) × Nat :=
  if type = cexprUser then (p.pUserValToName, p.pUsers.nprim)
  else if type = cexprRole then (p.pRoleValToName, p.pRoles.nprim)
  else (p.pTypeValToName, p.pTypes.nprim)

/-- The text of a null pointer. -/
def nullText : CString := ['(', 'n', 'u', 'l', 'l', ')']

def getNameList (p : Policydb) (e : ConstraintExpr) (type : BitVec 32) (src op : CString) (failed : Bool) :
    Except ConstraintExit CString :=
  let types :=
    if p.policyType = policyKern ∧ p.policyvers ≥ policydbVersionConstraintNames ∧ type = cexprType then
      e.typeNames.types
    else e.names
  let entries := (List.range (ebitmapLength types)).filter fun i => ebitmapStartbit types ≤ i && ebitmapGetBit types i
  let (names, nprim) := valToName p type
  if entries.any fun i => i ≥ nprim then .error .outside
  else
    .ok (tmpBuf (['('] ++ src ++ op) ++
      (if entries.length = 0 then ['<', 'e', 'm', 'p', 't', 'y', '_', 's', 'e', 't', '>', ' '] else []) ++
      (if entries.length > 1 then [' ', '{'] else []) ++
      (entries.flatMap fun i => tmpBuf ([' '] ++ (names i).getD nullText)) ++
      (if entries.length > 1 then [' ', '}'] else []) ++ failText failed)

/-! ### The entries of an expression -/

/-- A value with its text. -/
abbrev ConstraintValue : Type := Bool × CString

def constraintValue (v : Bool) (src tgt op : CString) : Except ConstraintExit ConstraintValue :=
  .ok (v, msgcat src tgt op (!v))

/-- The comparison of `val1` and `val2`. -/
def constraintValues (val1 val2 : Nat) (src tgt : CString) : Nat → Except ConstraintExit ConstraintValue
  | cexprOpEq => constraintValue (val1 = val2) src tgt ['=', '=']
  | cexprOpNeq => constraintValue (val1 ≠ val2) src tgt ['!', '=']
  | _ => .error .bug

/-- The case `CEXPR_ROLE`. -/
def constraintRoles (p : ConstraintPolicydb) (val1 val2 : Nat) (op : Nat) : Except ConstraintExit ConstraintValue :=
  let src := ['r', '1']
  let tgt := ['r', '2']
  if val1 = 0 ∨ val1 > p.pRoles.nprim ∨ val2 = 0 ∨ val2 > p.pRoles.nprim then .error .outside
  else
    let r1 := p.roleValToStruct (val1 - 1)
    let r2 := p.roleValToStruct (val2 - 1)
    match op with
    | cexprOpDom =>
      if r1.isNone then .error .outside
      else constraintValue (ebitmapGetBit (p.dominates (val1 - 1)) (val2 - 1)) src tgt ['d', 'o', 'm']
    | cexprOpDomby =>
      if r2.isNone then .error .outside
      else constraintValue (ebitmapGetBit (p.dominates (val2 - 1)) (val1 - 1)) src tgt ['d', 'o', 'm', 'b', 'y']
    | cexprOpIncomp =>
      if r1.isNone then .error .outside
      else
        let dom := ebitmapGetBit (p.dominates (val1 - 1)) (val2 - 1)
        if !dom ∧ r2.isNone then .error .outside
        else constraintValue (!dom && !ebitmapGetBit (p.dominates (val2 - 1)) (val1 - 1)) src tgt
          ['i', 'n', 'c', 'o', 'm', 'p']
    | op => constraintValues val1 val2 src tgt op

def mlsLevelIncomp (l1 l2 : MlsLevel) : Bool := !mlsLevelDom l1 l2 && !mlsLevelDom l2 l1

/-- The label `mls_ops`. -/
def constraintLevels (l1 l2 : MlsLevel) (src tgt : CString) : Nat → Except ConstraintExit ConstraintValue
  | cexprOpEq => constraintValue (mlsLevelEq l1 l2) src tgt ['e', 'q']
  | cexprOpNeq => constraintValue (!mlsLevelEq l1 l2) src tgt ['!', '=']
  | cexprOpDom => constraintValue (mlsLevelDom l1 l2) src tgt ['d', 'o', 'm']
  | cexprOpDomby => constraintValue (mlsLevelDom l2 l1) src tgt ['d', 'o', 'm', 'b', 'y']
  | cexprOpIncomp => constraintValue (mlsLevelIncomp l2 l1) src tgt ['i', 'n', 'c', 'o', 'm', 'p']
  | _ => .error .bug

/-- The case `CEXPR_ATTR`. -/
def constraintAttr (p : ConstraintPolicydb) (scontext tcontext : Context) (e : ConstraintExpr) :
    Except ConstraintExit ConstraintValue :=
  let l1 := scontext.range.level0
  let h1 := scontext.range.level1
  let l2 := tcontext.range.level0
  let h2 := tcontext.range.level1
  if e.attr = cexprUser then constraintValues scontext.user tcontext.user ['u', '1'] ['u', '2'] e.op
  else if e.attr = cexprType then constraintValues scontext.type tcontext.type ['t', '1'] ['t', '2'] e.op
  else if e.attr = cexprRole then constraintRoles p scontext.role tcontext.role e.op
  else if e.attr = cexprL1L2 then constraintLevels l1 l2 ['l', '1'] ['l', '2'] e.op
  else if e.attr = cexprL1H2 then constraintLevels l1 h2 ['l', '1'] ['h', '2'] e.op
  else if e.attr = cexprH1L2 then constraintLevels h1 l2 ['h', '1'] ['l', '2'] e.op
  else if e.attr = cexprH1H2 then constraintLevels h1 h2 ['h', '1'] ['h', '2'] e.op
  else if e.attr = cexprL1H1 then constraintLevels l1 h1 ['l', '1'] ['h', '1'] e.op
  else if e.attr = cexprL2H2 then constraintLevels l2 h2 ['l', '2'] ['h', '2'] e.op
  else .error .bug

/-- The case `CEXPR_NAMES`. -/
def constraintNames (p : ConstraintPolicydb) (scontext tcontext : Context) (xcontext : Option Context)
    (e : ConstraintExpr) : Except ConstraintExit ConstraintValue :=
  let (num, c) : Char × Option Context :=
    if e.attr &&& cexprTarget ≠ 0 then ('2', some tcontext)
    else if e.attr &&& cexprXtarget ≠ 0 then ('3', xcontext)
    else ('1', some scontext)
  match c with
  | none => .error .bug
  | some c =>
    let kind : Option (BitVec 32 × Char × Nat) :=
      if e.attr &&& cexprUser ≠ 0 then some (cexprUser, 'u', c.user)
      else if e.attr &&& cexprRole ≠ 0 then some (cexprRole, 'r', c.role)
      else if e.attr &&& cexprType ≠ 0 then some (cexprType, 't', c.type)
      else none
    match kind with
    | none => .error .bug
    | some (uRT, letter, val1) =>
      let src := [letter, num, ' ']
      let bit := ebitmapGetBit e.names (val1 - 1)
      match e.op with
      | cexprOpEq => (getNameList p.toPolicydb e uRT src ['=', '='] (!bit)).map fun text => (bit, text)
      | cexprOpNeq => (getNameList p.toPolicydb e uRT src ['!', '='] bit).map fun text => (!bit, text)
      | _ => .error .bug

/-! ### The loops -/

/-- The array `s` with the index `sp`, and `expr_list`. -/
structure ConstraintState where
  stack : Stack cexprMaxdepth Bool
  exprList : TextArray

/-- `s[CEXPR_MAXDEPTH] = {}` and `sp = -1`, before the first text. -/
def constraintInit : ConstraintState := ⟨⟨fun _ => false, -1⟩, .empty⟩

/-- `s[++sp] = v`. -/
def constraintPush (st : ConstraintState) (v : ConstraintValue) : Except ConstraintExit ConstraintState :=
  match { st.stack with sp := st.stack.sp + 1 }.write (st.stack.sp + 1) v.1 with
  | none => .error .outside
  | some stack => .ok ⟨stack, st.exprList.push v.2⟩

/-- `sp--; s[sp] = s[sp] op s[sp + 1]`. -/
def constraintBinary (f : Bool → Bool → Bool) (text : CString) (st : ConstraintState) :
    Except ConstraintExit ConstraintState :=
  if st.stack.sp < 1 then .error .einval
  else
    let stack : Stack cexprMaxdepth Bool := { st.stack with sp := st.stack.sp - 1 }
    match stack.read stack.sp, stack.read (stack.sp + 1) with
    | some a, some b =>
      match stack.write stack.sp (f a b) with
      | none => .error .outside
      | some stack => .ok ⟨stack, st.exprList.push text⟩
    | _, _ => .error .outside

def constraintStep (p : ConstraintPolicydb) (scontext tcontext : Context) (xcontext : Option Context)
    (st : ConstraintState) (e : ConstraintExpr) : Except ConstraintExit ConstraintState :=
  match e.exprType with
  | cexprNot =>
    if st.stack.sp < 0 then .error .einval
    else
      match st.stack.read st.stack.sp with
      | none => .error .outside
      | some a =>
        match st.stack.write st.stack.sp (!a) with
        | none => .error .outside
        | some stack => .ok ⟨stack, st.exprList.push ['n', 'o', 't']⟩
  | cexprAnd => constraintBinary (fun a b => a && b) ['a', 'n', 'd'] st
  | cexprOr => constraintBinary (fun a b => a || b) ['o', 'r'] st
  | cexprAttr =>
    if st.stack.sp = cexprMaxdepth - 1 then .error .bug
    else (constraintAttr p scontext tcontext e).bind (constraintPush st)
  | cexprNames =>
    if st.stack.sp = cexprMaxdepth - 1 then .error .bug
    else (constraintNames p scontext tcontext xcontext e).bind (constraintPush st)
  | _ => .error .bug

def constraintRun (p : ConstraintPolicydb) (scontext tcontext : Context) (xcontext : Option Context) :
    List ConstraintExpr → ConstraintState → Except ConstraintExit ConstraintState
  | [], st => .ok st
  | e :: next, st =>
    match constraintStep p scontext tcontext xcontext st e with
    | .error err => .error err
    | .ok st => constraintRun p scontext tcontext xcontext next st

/-- `sprintf` into a new buffer of the given size, and `push`. -/
def pushAnswer (size : Nat) (text : CString) (stack : TextArray) : Except ConstraintExit TextArray :=
  if text.length < size then .ok (stack.push text) else .error .outside

/-- The text of the operator `not`. -/
def notAnswer (text b : CString) : CString :=
  if ['n', 'o', 't'].isPrefixOf b then text ++ [' ', '('] ++ b ++ [')'] else text ++ b

def andOrAnswer (text a b : CString) : CString := a ++ [' '] ++ text ++ [' '] ++ b

/-- The case of `and` and `or`; `strlen` reads what `pop` returns. -/
def infixAndOr (text : CString) (stack : TextArray) : Except ConstraintExit TextArray :=
  match stack.pop with
  | none => .error .outside
  | some (b, stack) =>
    match stack.pop with
    | none => .error .outside
    | some (a, stack) => pushAnswer (a.length + b.length + 8) (andOrAnswer text a b) stack

def infixNot (text : CString) (stack : TextArray) : Except ConstraintExit TextArray :=
  match stack.pop with
  | none => .error .outside
  | some (b, stack) => pushAnswer (b.length + 8) (notAnswer text b) stack

/-- The body of the loop that converts the texts from RPN to infix. -/
def infixStep (stack : TextArray) (text : CString) : Except ConstraintExit TextArray :=
  if ['a', 'n', 'd'].isPrefixOf text || ['o', 'r'].isPrefixOf text then infixAndOr text stack
  else if ['n', 'o', 't'].isPrefixOf text then infixNot text stack
  else .ok (stack.push text)

def infixRun : List CString → TextArray → Except ConstraintExit TextArray
  | [], stack => .ok stack
  | text :: texts, stack =>
    match infixStep stack text with
    | .error err => .error err
    | .ok stack => infixRun texts stack

/-- What `constraint_expr_eval_reason` returns, the text of the constraint, which `pop` gives it, and the stack of
`push` and `pop` afterwards. -/
structure ConstraintResult where
  rc : Bool
  text : Option CString
  stack : TextArray

def constraintExprEvalReason (p : ConstraintPolicydb) (scontext tcontext : Context) (xcontext : Option Context)
    (constraint : ConstraintNode) (stack : TextArray) : Except ConstraintExit ConstraintResult :=
  match constraintRun p scontext tcontext xcontext constraint.expr constraintInit with
  | .error err => .error err
  | .ok st =>
    match infixRun st.exprList.texts.reverse stack with
    | .error err => .error err
    | .ok stack =>
      match st.stack.read 0 with
      | none => .error .outside
      | some rc =>
        match stack.pop with
        | none => .ok ⟨rc, none, stack⟩
        | some (a, stack) => .ok ⟨rc, some a, stack⟩

end Sepol
