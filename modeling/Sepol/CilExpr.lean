import Sepol.Lib.Outcome
import Sepol.Scope
import Sepol.EbitmapRun

/-!
# Set expressions

The expressions of type, role and user attributes, of category sets and of permission lists (`cil_post.c`).  An
expression is a list that begins with an operator, or a list of operands; its syntax has been checked when it was
read.  An expression is evaluated to a bitmap over all values below `max`; how an operand without an operator is
evaluated depends on what the expression is about, and may change a state.
-/

namespace Sepol

open Outcome

/-- `SEPOL_ERR`, or the model has used up its fuel. -/
inductive CilEvalError where
  | err
  | fuel
deriving DecidableEq

inductive CilSetOp where
  | or
  | and
  | xor
deriving DecidableEq

mutual

/-- A list of an expression (`cil_list`). -/
inductive CilExpr (δ : Type) where
  | all
  | range (d1 d2 : δ)
  | not (x : CilOperand δ)
  | binary (op : CilSetOp) (x y : CilOperand δ)
  | list (items : List (CilOperand δ))

/-- An item of a list that is no operator. -/
inductive CilOperand (δ : Type) where
  | datum (d : δ)
  | list (e : CilExpr δ)

end

/-! ### Evaluation -/

def liftBitmap (e : Option Ebitmap) : Except CilEvalError Ebitmap :=
  match e with
  | some e => .ok e
  | none => .error .err

def liftRange (e : Except InitRangeError Ebitmap) : Except CilEvalError Ebitmap :=
  match e with
  | .ok e => .ok e
  | .error _ => .error .err

/-- `max - 1` as an unsigned number. -/
def unsignedPred (max : Nat) : Nat := if max = 0 then uint32Max else max - 1

def CilSetOp.apply : CilSetOp → Ebitmap → Ebitmap → Ebitmap
  | .or => ebitmapOr
  | .and => ebitmapAnd
  | .xor => ebitmapXor

section Evaluation

variable {δ σ : Type}

mutual

/-- `__cil_expr_to_bitmap`: the bitmap of the expression is added to `out`. -/
def cilExprToBitmap (datumToBitmap : δ → σ → Except CilEvalError (Ebitmap × σ))
    (rangeToBitmap : δ → δ → Except CilEvalError Ebitmap) (max : Nat) :
    CilExpr δ → Ebitmap → σ → Except CilEvalError (Ebitmap × σ)
  | .all, out, s => do
    let tmp ← liftRange (ebitmapInitRange 0 (unsignedPred max))
    .ok (ebitmapUnion out tmp, s)
  | .range d1 d2, out, s => do
    let tmp ← rangeToBitmap d1 d2
    .ok (ebitmapUnion out tmp, s)
  | .not x, out, s => do
    let (b1, s) ← cilExprToBitmapHelper datumToBitmap rangeToBitmap max x s
    let tmp ← liftBitmap (ebitmapNot b1 max)
    .ok (ebitmapUnion out tmp, s)
  | .binary op x y, out, s => do
    let (b1, s) ← cilExprToBitmapHelper datumToBitmap rangeToBitmap max x s
    let (b2, s) ← cilExprToBitmapHelper datumToBitmap rangeToBitmap max y s
    .ok (ebitmapUnion out (op.apply b1 b2), s)
  | .list items, out, s => do
    let (tmp, s) ← cilOperandsToBitmap datumToBitmap rangeToBitmap max items ebitmapInit s
    .ok (ebitmapUnion out tmp, s)

/-- `__cil_expr_to_bitmap_helper`. -/
def cilExprToBitmapHelper (datumToBitmap : δ → σ → Except CilEvalError (Ebitmap × σ))
    (rangeToBitmap : δ → δ → Except CilEvalError Ebitmap) (max : Nat) :
    CilOperand δ → σ → Except CilEvalError (Ebitmap × σ)
  | .datum d, s => datumToBitmap d s
  | .list e, s => cilExprToBitmap datumToBitmap rangeToBitmap max e ebitmapInit s

/-- The loop of `__cil_expr_to_bitmap` over a list of operands, with the bitmap so far. -/
def cilOperandsToBitmap (datumToBitmap : δ → σ → Except CilEvalError (Ebitmap × σ))
    (rangeToBitmap : δ → δ → Except CilEvalError Ebitmap) (max : Nat) :
    List (CilOperand δ) → Ebitmap → σ → Except CilEvalError (Ebitmap × σ)
  | [], tmp, s => .ok (tmp, s)
  | x :: items, tmp, s => do
    let (b2, s) ← cilExprToBitmapHelper datumToBitmap rangeToBitmap max x s
    cilOperandsToBitmap datumToBitmap rangeToBitmap max items (ebitmapOr tmp b2) s

end

/-- `__cil_expr_list_to_bitmap`, from the bitmap `out`. -/
def cilExprListToBitmap (datumToBitmap : δ → σ → Except CilEvalError (Ebitmap × σ))
    (rangeToBitmap : δ → δ → Except CilEvalError Ebitmap) (max : Nat) :
    List (CilExpr δ) → Ebitmap → σ → Except CilEvalError (Ebitmap × σ)
  | [], out, s => .ok (out, s)
  | e :: exprs, out, s => do
    let (bitmap, s) ← cilExprToBitmap datumToBitmap rangeToBitmap max e ebitmapInit s
    cilExprListToBitmap datumToBitmap rangeToBitmap max exprs (ebitmapUnion out bitmap) s

end Evaluation

/-! ### What an expression denotes -/

section Denotation

variable {δ : Type}

mutual

/-- The set of an expression, where `D` gives the set of a datum and `R` that of a range. -/
def CilExpr.denote (D : δ → Set Nat) (R : δ → δ → Set Nat) (max : Nat) : CilExpr δ → Set Nat
  | .all => {i | i < max}
  | .range d1 d2 => R d1 d2
  | .not x => {i | i < max ∧ i ∉ x.denote D R max}
  | .binary .or x y => x.denote D R max ∪ y.denote D R max
  | .binary .and x y => x.denote D R max ∩ y.denote D R max
  | .binary .xor x y => symmDiff (x.denote D R max) (y.denote D R max)
  | .list items => denoteOperands D R max items

def CilOperand.denote (D : δ → Set Nat) (R : δ → δ → Set Nat) (max : Nat) : CilOperand δ → Set Nat
  | .datum d => D d
  | .list e => e.denote D R max

def denoteOperands (D : δ → Set Nat) (R : δ → δ → Set Nat) (max : Nat) : List (CilOperand δ) → Set Nat
  | [] => ∅
  | x :: items => x.denote D R max ∪ denoteOperands D R max items

end

mutual

/-- The datums of an expression, those of ranges left out. -/
def CilExpr.datums : CilExpr δ → List δ
  | .all => []
  | .range _ _ => []
  | .not x => x.datums
  | .binary _ x y => x.datums ++ y.datums
  | .list items => datumsOfOperands items

def CilOperand.datums : CilOperand δ → List δ
  | .datum d => [d]
  | .list e => e.datums

def datumsOfOperands : List (CilOperand δ) → List δ
  | [] => []
  | x :: items => x.datums ++ datumsOfOperands items

end

mutual

/-- Every range is one of `ok`, and with `all` there is at least one value. -/
def CilExpr.RangesOk (ok : δ → δ → Prop) (max : Nat) : CilExpr δ → Prop
  | .all => 0 < max
  | .range d1 d2 => ok d1 d2
  | .not x => x.RangesOk ok max
  | .binary _ x y => x.RangesOk ok max ∧ y.RangesOk ok max
  | .list items => operandsRangesOk ok max items

def CilOperand.RangesOk (ok : δ → δ → Prop) (max : Nat) : CilOperand δ → Prop
  | .datum _ => True
  | .list e => e.RangesOk ok max

def operandsRangesOk (ok : δ → δ → Prop) (max : Nat) : List (CilOperand δ) → Prop
  | [] => True
  | x :: items => x.RangesOk ok max ∧ operandsRangesOk ok max items

end

/-- An induction over expressions, operands and lists of operands at once. -/
theorem CilExpr.exprInduction {P : CilExpr δ → Prop} {Q : CilOperand δ → Prop} {T : List (CilOperand δ) → Prop}
    (all : P .all) (range : ∀ d1 d2, P (.range d1 d2)) (not : ∀ x, Q x → P (.not x))
    (binary : ∀ op x y, Q x → Q y → P (.binary op x y)) (list : ∀ items, T items → P (.list items))
    (datum : ∀ d, Q (.datum d)) (sub : ∀ e, P e → Q (.list e)) (nil : T [])
    (cons : ∀ x items, Q x → T items → T (x :: items)) : ∀ e, P e :=
  exprs
where
  exprs : ∀ e, P e
    | .all => all
    | .range d1 d2 => range d1 d2
    | .not x => not x (operands x)
    | .binary op x y => binary op x y (operands x) (operands y)
    | .list items => list items (lists items)
  operands : ∀ x, Q x
    | .datum d => datum d
    | .list e => sub e (exprs e)
  lists : ∀ items, T items
    | [] => nil
    | x :: items => cons x items (operands x) (lists items)

/-- What an expression denotes depends on its datums only. -/
theorem CilExpr.denote_congr {D D' : δ → Set Nat} (R : δ → δ → Set Nat) (max : Nat) (e : CilExpr δ) :
    (∀ d ∈ e.datums, D d = D' d) → e.denote D R max = e.denote D' R max := by
  induction e using CilExpr.exprInduction
    (Q := fun x => (∀ d ∈ x.datums, D d = D' d) → x.denote D R max = x.denote D' R max)
    (T := fun items => (∀ d ∈ datumsOfOperands items, D d = D' d) →
      denoteOperands D R max items = denoteOperands D' R max items) with
  | all => intro _; rfl
  | range d1 d2 => intro _; rfl
  | not x ih =>
    intro h
    unfold CilExpr.denote
    rw [ih h]
  | binary op x y ihx ihy =>
    intro h
    have hx := ihx fun d hd => h d (List.mem_append_left _ hd)
    have hy := ihy fun d hd => h d (List.mem_append_right _ hd)
    cases op <;> unfold CilExpr.denote <;> rw [hx, hy]
  | list items ih =>
    intro h
    unfold CilExpr.denote
    exact ih h
  | datum d h => exact h d (List.mem_singleton.2 rfl)
  | sub e ih h =>
    unfold CilOperand.denote
    exact ih h
  | nil h => rfl
  | cons x items ihx ih h =>
    unfold denoteOperands
    rw [ihx fun d hd => h d (List.mem_append_left _ hd), ih fun d hd => h d (List.mem_append_right _ hd)]

end Denotation

end Sepol

/-!
## Set expressions are evaluated to what they denote

When the datums of an expression are evaluated to their sets, the expression is evaluated to its set, unless a range
in it is none, or `all` is used over no values.
-/

namespace Sepol

open Outcome

variable {δ σ : Type} {allowed : CilEvalError → Prop} {datumToBitmap : δ → σ → Except CilEvalError (Ebitmap × σ)}
  {rangeToBitmap : δ → δ → Except CilEvalError Ebitmap} {max : Nat} {D : δ → Set Nat} {R : δ → δ → Set Nat}
  {ok : δ → δ → Prop} {inv : σ → Prop}

/-- A bitmap of a set of values below `max`. -/
def DenotesBelow (max : Nat) (e : Ebitmap) (S : Set Nat) : Prop := Denotes e S ∧ ∀ i ∈ S, i < max

theorem DenotesBelow.init (max : Nat) : DenotesBelow max ebitmapInit ∅ :=
  ⟨⟨.init, fun i => by simp [Ebitmap.mem_iff, ebitmapInit, blockAt]⟩, fun i hi => by cases hi⟩

theorem DenotesBelow.union {e1 e2 : Ebitmap} {S1 S2 : Set Nat} (h1 : DenotesBelow max e1 S1)
    (h2 : DenotesBelow max e2 S2) : DenotesBelow max (ebitmapUnion e1 e2) (S1 ∪ S2) := by
  refine ⟨⟨h1.1.1.union h2.1.1, fun i => ?_⟩, fun i hi => hi.elim (h1.2 i) (h2.2 i)⟩
  rw [mem_ebitmapUnion h1.1.1 h2.1.1, h1.1.2, h2.1.2]
  rfl

theorem DenotesBelow.apply {e1 e2 : Ebitmap} {x y : CilOperand δ} (op : CilSetOp)
    (h1 : DenotesBelow max e1 (x.denote D R max)) (h2 : DenotesBelow max e2 (y.denote D R max)) :
    DenotesBelow max (op.apply e1 e2) ((CilExpr.binary op x y).denote D R max) := by
  cases op with
  | or =>
    refine ⟨⟨h1.1.1.or h2.1.1, fun i => ?_⟩, fun i hi => hi.elim (h1.2 i) (h2.2 i)⟩
    unfold CilSetOp.apply
    rw [mem_ebitmapOr h1.1.1 h2.1.1, h1.1.2, h2.1.2]
    rfl
  | and =>
    refine ⟨⟨h1.1.1.and h2.1.1, fun i => ?_⟩, fun i hi => h1.2 i hi.1⟩
    unfold CilSetOp.apply
    rw [mem_ebitmapAnd h1.1.1 h2.1.1, h1.1.2, h2.1.2]
    rfl
  | xor =>
    refine ⟨⟨h1.1.1.xor h2.1.1, fun i => ?_⟩, fun i hi => ?_⟩
    · unfold CilSetOp.apply
      rw [mem_ebitmapXor h1.1.1 h2.1.1, h1.1.2, h2.1.2]
      unfold CilExpr.denote
      rw [Set.mem_symmDiff]
      tauto
    · unfold CilExpr.denote at hi
      rw [Set.mem_symmDiff] at hi
      exact hi.elim (fun h => h1.2 i h.1) (fun h => h2.2 i h.1)

theorem setBit_denotes (hmax : max < 2 ^ 31) {bitmap : Ebitmap} {S : Set Nat} (h : DenotesBelow max bitmap S)
    {v : Nat}
    (hv : v < max) : ∃ e, liftBitmap (ebitmapSetBit bitmap v true) = .ok e ∧ DenotesBelow max e (S ∪ {v}) := by
  have hbit : v < 2 ^ 32 - 64 := by omega
  have heq := ebitmapSetBit_true hbit bitmap
  rw [heq]
  refine ⟨_, rfl, ⟨.setBit h.1.1 hbit heq, fun i => ?_⟩, fun i hi => ?_⟩
  · rw [mem_of_ebitmapSetBit h.1.1 hbit heq, h.1.2]
    rfl
  · rcases hi with hi | hi
    · exact h.2 i hi
    · rw [Set.mem_singleton_iff.1 hi]
      exact hv

theorem initRange_denotes (hmax : max < 2 ^ 31) {i j : Nat} (hij : i ≤ j) (hj : j < max) :
    ∃ e, liftRange (ebitmapInitRange i j) = .ok e ∧ DenotesBelow max e {k | i ≤ k ∧ k ≤ j} := by
  obtain ⟨e, he, hc, hmem⟩ := ebitmapInitRange_spec hij (show j < 2 ^ 32 - 64 by omega)
  refine ⟨e, by rw [he]; rfl, ⟨hc, hmem⟩, fun k hk => ?_⟩
  have := hk.2
  omega

private theorem all_spec (hmax : max < 2 ^ 31) (hok : allowed .err ∨ 0 < max) :
    Ensures allowed (fun e => DenotesBelow max e {i | i < max})
      (liftRange (ebitmapInitRange 0 (unsignedPred max))) := by
  rcases Nat.eq_zero_or_pos max with h0 | hpos
  · have herr : ebitmapInitRange 0 (2 ^ 32 - 1) = .error .eoverflow := by
      unfold ebitmapInitRange
      rw [if_neg (Nat.not_lt_zero _), if_pos]
      right
      simp [uint32, mapsize]
    rw [unsignedPred, if_pos h0, herr]
    exact hok.resolve_right (by omega)
  · obtain ⟨e, he, hden⟩ := initRange_denotes hmax (Nat.zero_le (max - 1)) (by omega)
    rw [unsignedPred, if_neg (by omega), he]
    have hset : {k | 0 ≤ k ∧ k ≤ max - 1} = {i | i < max} := by
      ext k
      simp only [Set.mem_ofPred_eq]
      omega
    rw [← hset]
    exact hden

private theorem not_spec (hmax : max < 2 ^ 31) {b1 : Ebitmap} {S : Set Nat} (h : DenotesBelow max b1 S) :
    Ensures allowed (fun e => DenotesBelow max e {i | i < max ∧ i ∉ S}) (liftBitmap (ebitmapNot b1 max)) := by
  obtain ⟨e, he, hc, hmem⟩ := ebitmapNot_spec h.1.1 (show max ≤ 2 ^ 32 - 64 by omega)
  rw [he]
  refine ⟨⟨hc, fun i => ?_⟩, fun i hi => hi.1⟩
  rw [hmem, h.1.2]
  rfl

/-- What an evaluation of the set `S` ends with. -/
def EvalOk (max : Nat) (inv : σ → Prop) (S : Set Nat) (r : Ebitmap × σ) : Prop := DenotesBelow max r.1 S ∧ inv r.2

theorem setBit_spec (hmax : max < 2 ^ 31) {v : Nat} (hv : v < max) {s : σ} (hs : inv s) :
    Ensures allowed (EvalOk max inv {v})
      (do let bitmap ← liftBitmap (ebitmapSetBit ebitmapInit v true); .ok (bitmap, s)) := by
  obtain ⟨e, he, hden⟩ := setBit_denotes hmax (.init max) hv
  rw [Set.empty_union] at hden
  rw [he]
  exact ⟨hden, hs⟩

/-- An expression is evaluated to its set when its datums are and its ranges are in order. -/
theorem cilExprToBitmap_spec (hmax : max < 2 ^ 31)
    (hrange : ∀ d1 d2, rangeToBitmap d1 d2 = .error .err ∧ ¬ok d1 d2 ∨
      ∃ e, rangeToBitmap d1 d2 = .ok e ∧ DenotesBelow max e (R d1 d2)) (e : CilExpr δ) :
    (∀ d ∈ e.datums, ∀ s, inv s → Ensures allowed (EvalOk max inv (D d)) (datumToBitmap d s)) →
      (allowed .err ∨ e.RangesOk ok max) → ∀ out S s, DenotesBelow max out S → inv s →
        Ensures allowed (EvalOk max inv (S ∪ e.denote D R max))
          (cilExprToBitmap datumToBitmap rangeToBitmap max e out s) := by
  induction e using CilExpr.exprInduction (Q := fun x =>
      (∀ d ∈ x.datums, ∀ s, inv s → Ensures allowed (EvalOk max inv (D d)) (datumToBitmap d s)) →
        (allowed .err ∨ x.RangesOk ok max) → ∀ s, inv s → Ensures allowed (EvalOk max inv (x.denote D R max))
          (cilExprToBitmapHelper datumToBitmap rangeToBitmap max x s)) (T := fun items =>
      (∀ d ∈ datumsOfOperands items, ∀ s, inv s → Ensures allowed (EvalOk max inv (D d)) (datumToBitmap d s)) →
        (allowed .err ∨ operandsRangesOk ok max items) → ∀ tmp S s, DenotesBelow max tmp S → inv s →
          Ensures allowed (EvalOk max inv (S ∪ denoteOperands D R max items))
            (cilOperandsToBitmap datumToBitmap rangeToBitmap max items tmp s)) with
  | all =>
    intro _ hok out S s hout hs
    unfold cilExprToBitmap
    exact (all_spec hmax hok).bind fun tmp htmp => ⟨hout.union htmp, hs⟩
  | range d1 d2 =>
    intro _ hok out S s hout hs
    unfold cilExprToBitmap
    rcases hrange d1 d2 with ⟨herr, hnot⟩ | ⟨tmp, htmp, hden⟩
    · rw [herr]
      exact hok.resolve_right hnot
    · rw [htmp]
      exact ⟨hout.union hden, hs⟩
  | not x ih =>
    intro hdatum hok out S s hout hs
    unfold cilExprToBitmap
    refine (ih hdatum hok s hs).bind fun r hr => ?_
    exact (not_spec hmax hr.1).bind fun tmp htmp => ⟨hout.union htmp, hr.2⟩
  | binary op x y ihx ihy =>
    intro hdatum hok out S s hout hs
    unfold cilExprToBitmap
    refine (ihx (fun d hd => hdatum d (List.mem_append_left _ hd)) (hok.imp_right And.left) s hs).bind fun r hr => ?_
    refine (ihy (fun d hd => hdatum d (List.mem_append_right _ hd)) (hok.imp_right And.right) r.2 hr.2).bind
      fun r' hr' => ?_
    exact ⟨hout.union (hr.1.apply op hr'.1), hr'.2⟩
  | list items ih =>
    intro hdatum hok out S s hout hs
    unfold cilExprToBitmap
    refine (ih hdatum hok ebitmapInit ∅ s (.init max) hs).bind fun r hr => ⟨?_, hr.2⟩
    have := hr.1
    rw [Set.empty_union] at this
    exact hout.union this
  | datum d hdatum hok s hs =>
    exact hdatum d (List.mem_singleton.2 rfl) s hs
  | sub e ih hdatum hok s hs =>
    have := ih hdatum hok ebitmapInit ∅ s (.init max) hs
    rw [Set.empty_union] at this
    exact this
  | nil hdatum hok tmp S s htmp hs =>
    unfold cilOperandsToBitmap denoteOperands
    rw [Set.union_empty]
    exact ⟨htmp, hs⟩
  | cons x items ihx ih hdatum hok tmp S s htmp hs =>
    unfold cilOperandsToBitmap denoteOperands
    refine (ihx (fun d hd => hdatum d (List.mem_append_left _ hd)) (hok.imp_right And.left) s hs).bind fun r hr => ?_
    rw [← Set.union_assoc]
    exact ih (fun d hd => hdatum d (List.mem_append_right _ hd)) (hok.imp_right And.right) _ _ _
      (htmp.union hr.1) hr.2

/-- A list of expressions is evaluated to the union of their sets. -/
theorem cilExprListToBitmap_spec (hmax : max < 2 ^ 31)
    (hrange : ∀ d1 d2, rangeToBitmap d1 d2 = .error .err ∧ ¬ok d1 d2 ∨
      ∃ e, rangeToBitmap d1 d2 = .ok e ∧ DenotesBelow max e (R d1 d2)) {exprs : List (CilExpr δ)}
    (hdatum : ∀ e ∈ exprs, ∀ d ∈ e.datums, ∀ s, inv s → Ensures allowed (EvalOk max inv (D d)) (datumToBitmap d s))
    (hok : allowed .err ∨ ∀ e ∈ exprs, e.RangesOk ok max) {out : Ebitmap} {S : Set Nat} {s : σ}
    (hout : DenotesBelow max out S) (hs : inv s) :
    Ensures allowed (EvalOk max inv (S ∪ {i | ∃ e ∈ exprs, i ∈ e.denote D R max}))
      (cilExprListToBitmap datumToBitmap rangeToBitmap max exprs out s) := by
  induction exprs generalizing out S s with
  | nil =>
    unfold cilExprListToBitmap
    simpa [EvalOk] using And.intro hout hs
  | cons e exprs ih =>
    unfold cilExprListToBitmap
    have he := cilExprToBitmap_spec hmax hrange e (hdatum e List.mem_cons_self)
      (hok.imp_right fun h => h e List.mem_cons_self) ebitmapInit ∅ s (.init max) hs
    refine he.bind fun r hr => ?_
    have hr1 := hr.1
    rw [Set.empty_union] at hr1
    have := ih (fun e' he' => hdatum e' (List.mem_cons_of_mem _ he'))
      (hok.imp_right fun h e' he' => h e' (List.mem_cons_of_mem _ he')) (hout.union hr1) hr.2
    have hset : S ∪ {i | ∃ e' ∈ e :: exprs, i ∈ e'.denote D R max} =
        S ∪ e.denote D R max ∪ {i | ∃ e' ∈ exprs, i ∈ e'.denote D R max} := by
      ext i
      simp [or_assoc]
    rw [hset]
    exact this

end Sepol
