import Sepol.CilSelfReference

/-!
# Category sets

A category set has no bitmap of its own: once it is evaluated, its expression is replaced by the list of its
categories in their order.  A set that is a plain list of categories stays as it is.
-/

namespace Sepol

open Outcome

/-- `cil_cats`. -/
structure CilCats (count : Nat) where
  evaluated : Bool
  datumExpr : CilExpr (CilSetDatum count)

/-- The category sets, named and anonymous, over the categories of `catorder`, which have their place as value. -/
structure CilCatsets where
  count : Nat
  count_lt : count < 2 ^ 31
  catset : Nat → CilExpr (CilSetDatum count)

abbrev CatsState (count : Nat) := Nat → CilCats count

section Definitions

variable {count : Nat}

/-- An item that is neither a list nor a category set. -/
def isCatItem : CilOperand (CilSetDatum count) → Bool
  | .datum (.actual _) => true
  | .datum (.aliased _) => true
  | .datum (.attr _) => false
  | .list _ => false

/-- `cil_verify_is_list` for categories. -/
def cilVerifyIsList : CilExpr (CilSetDatum count) → Bool
  | .list items => items.all isCatItem
  | _ => false

/-- The value of an item that is a category. -/
def catItemValue : CilOperand (CilSetDatum count) → Option (Fin count)
  | .datum (.actual v) => some v
  | .datum (.aliased v) => some v
  | _ => none

/-- The items of a list of categories. -/
def catItems : CilExpr (CilSetDatum count) → List (Fin count)
  | .list items => items.filterMap catItemValue
  | _ => []

@[simp] theorem cilVerifyIsList_list (items : List (CilOperand (CilSetDatum count))) :
    cilVerifyIsList (.list items) = items.all isCatItem := rfl

@[simp] theorem catItems_list (items : List (CilOperand (CilSetDatum count))) :
    catItems (.list items) = items.filterMap catItemValue := rfl

/-- `__cil_cat_expr_range_to_bitmap_helper`. -/
def cilCatExprRangeToBitmapHelper (d1 d2 : CilSetDatum count) : Except CilEvalError Ebitmap :=
  match catItemValue (.datum d1), catItemValue (.datum d2) with
  | some c1, some c2 => if c1.val > c2.val then .error .err else liftRange (ebitmapInitRange c1.val c2.val)
  | _, _ => .error .err

/-- `__evaluate_cat_expression` for the set `c`. -/
def evaluateCatExpression
    (datumToBitmap : CilSetDatum count → CatsState count → Except CilEvalError (Ebitmap × CatsState count)) (c : Nat)
    (s : CatsState count) : Except CilEvalError (CatsState count) :=
  if (s c).evaluated then .ok s
  else if cilVerifyIsList (s c).datumExpr then .ok s
  else do
    let (bitmap, s) ← cilExprToBitmap datumToBitmap cilCatExprRangeToBitmapHelper count (s c).datumExpr ebitmapInit s
    let new := (List.finRange count).filter fun v => ebitmapGetBit bitmap v.val
    .ok (Function.update s c ⟨true, .list (new.map fun v => .datum (.actual v))⟩)

/-- The loop of `__cil_cat_to_bitmap` over the categories of a set. -/
def catsToBitmap : List (Fin count) → Ebitmap → Except CilEvalError Ebitmap
  | [], bitmap => .ok bitmap
  | v :: cats, bitmap => do
    let bitmap ← liftBitmap (ebitmapSetBit bitmap v.val true)
    catsToBitmap cats bitmap

/-- `__cil_cat_to_bitmap`. -/
def cilCatToBitmap : Nat → CilSetDatum count → CatsState count → Except CilEvalError (Ebitmap × CatsState count)
  | 0, _, _ => .error .fuel
  | _ + 1, .actual v, s => do
    let bitmap ← liftBitmap (ebitmapSetBit ebitmapInit v.val true)
    .ok (bitmap, s)
  | _ + 1, .aliased v, s => do
    let bitmap ← liftBitmap (ebitmapSetBit ebitmapInit v.val true)
    .ok (bitmap, s)
  | fuel + 1, .attr c, s => do
    let s ← evaluateCatExpression (cilCatToBitmap fuel) c s
    let bitmap ← catsToBitmap (catItems (s c).datumExpr) ebitmapInit
    .ok (bitmap, s)

end Definitions

/-! ### What a set evaluates to -/

namespace CilCatsets

variable {db : CilCatsets} {D : Nat → Set Nat}

/-- The sets as they are read. -/
def start (db : CilCatsets) : CatsState db.count := fun c => ⟨false, db.catset c⟩

/-- The expressions of a set: there is one. -/
def exprs (db : CilCatsets) (c : Nat) : List (CilExpr (CilSetDatum db.count)) := [db.catset c]

/-- The items are the values of `S`. -/
def ItemsOf {count : Nat} (e : CilExpr (CilSetDatum count)) (S : Set Nat) : Prop :=
  cilVerifyIsList e = true ∧ ∀ i, i ∈ S ↔ ∃ v ∈ catItems e, v.val = i

/-- A set is as it was read, or it is the list of its categories; since `s₀` no list of categories has changed. -/
structure StateOk (db : CilCatsets) (D : Nat → Set Nat) (s₀ s : CatsState db.count) : Prop where
  cats : ∀ c, s c = db.start c ∨ (s c).evaluated = true ∧ ItemsOf (s c).datumExpr (D c)
  kept : ∀ c, cilVerifyIsList (s₀ c).datumExpr = true → s c = s₀ c

/-- A range from one category to another that is not before it. -/
def RangeOk {count : Nat} (d1 d2 : CilSetDatum count) : Prop :=
  ∃ c1 c2, catItemValue (.datum d1) = some c1 ∧ catItemValue (.datum d2) = some c2 ∧ c1 ≤ c2

/-- Every range goes from one category to another that is not before it, and `all` is used with some category. -/
def InOrder (db : CilCatsets) : Prop := ∀ c, (db.catset c).RangesOk RangeOk db.count

/-- The errors an evaluation may end with. -/
def Allowed (db : CilCatsets) (e : CilEvalError) : Prop := e = .err ∧ ¬db.InOrder

private theorem catsToBitmap_spec (cats : List (Fin db.count)) {bitmap : Ebitmap} {S : Set Nat}
    (h : DenotesBelow db.count bitmap S) :
    ∃ e, catsToBitmap cats bitmap = .ok e ∧ DenotesBelow db.count e (S ∪ {i | ∃ v ∈ cats, v.val = i}) := by
  induction cats generalizing bitmap S with
  | nil => exact ⟨bitmap, rfl, by simpa using h⟩
  | cons v cats ih =>
    obtain ⟨e, he, hset⟩ := setBit_denotes db.count_lt h v.isLt
    obtain ⟨e', he', hset'⟩ := ih hset
    refine ⟨e', ?_, ?_⟩
    · unfold catsToBitmap
      rw [he]
      exact he'
    · have heq : S ∪ {i | ∃ w ∈ v :: cats, w.val = i} = S ∪ {v.val} ∪ {i | ∃ w ∈ cats, w.val = i} := by
        ext i
        simp [or_assoc, or_left_comm, eq_comm]
      rw [heq]
      exact hset'

private theorem range_values (c1 c2 : Fin db.count) :
    (if c1.val > c2.val then .error .err else liftRange (ebitmapInitRange c1.val c2.val)) =
        (.error .err : Except CilEvalError Ebitmap) ∧ ¬c1 ≤ c2 ∨
      ∃ e, (if c1.val > c2.val then .error .err else liftRange (ebitmapInitRange c1.val c2.val)) =
          (.ok e : Except CilEvalError Ebitmap) ∧ DenotesBelow db.count e {i | c1.val ≤ i ∧ i ≤ c2.val} := by
  by_cases hle : c1.val ≤ c2.val
  · obtain ⟨e, he, hden⟩ := initRange_denotes db.count_lt hle c2.isLt
    rw [if_neg (by omega), he]
    exact Or.inr ⟨e, rfl, hden⟩
  · rw [if_pos (by omega)]
    exact Or.inl ⟨rfl, hle⟩

private theorem rangeOk_iff {d1 d2 : CilSetDatum db.count} {c1 c2 : Fin db.count}
    (h1 : catItemValue (.datum d1) = some c1) (h2 : catItemValue (.datum d2) = some c2) :
    RangeOk d1 d2 ↔ c1 ≤ c2 := by
  constructor
  · rintro ⟨c1', c2', h1', h2', hle⟩
    rwa [Option.some.inj (h1.symm.trans h1'), Option.some.inj (h2.symm.trans h2')]
  · intro hle
    exact ⟨c1, c2, h1, h2, hle⟩

private theorem range_spec (d1 d2 : CilSetDatum db.count) :
    cilCatExprRangeToBitmapHelper d1 d2 = .error .err ∧ ¬RangeOk d1 d2 ∨
      ∃ e, cilCatExprRangeToBitmapHelper d1 d2 = .ok e ∧ DenotesBelow db.count e (rangeSet d1 d2) := by
  have hleft : ∀ a, ∀ d : CilSetDatum db.count, cilCatExprRangeToBitmapHelper (.attr a) d = .error .err ∧
    ¬RangeOk (.attr a) d := by
    intro a d
    refine ⟨rfl, ?_⟩
    rintro ⟨c1, c2, h1, -⟩
    cases h1
  have hright : ∀ c : CilSetDatum db.count, ∀ a,
      cilCatExprRangeToBitmapHelper c (.attr a) = .error .err ∧ ¬RangeOk c (.attr a) := by
    intro c a
    refine ⟨by cases c <;> rfl, ?_⟩
    rintro ⟨c1, c2, -, h2, -⟩
    cases h2
  cases d1 with
  | attr a => exact Or.inl (hleft a d2)
  | actual c1 =>
    cases d2 with
    | attr a => exact Or.inl (hright _ a)
    | actual c2 => rw [rangeOk_iff rfl rfl]; exact range_values c1 c2
    | aliased c2 => rw [rangeOk_iff rfl rfl]; exact range_values c1 c2
  | aliased c1 =>
    cases d2 with
    | attr a => exact Or.inl (hright _ a)
    | actual c2 => rw [rangeOk_iff rfl rfl]; exact range_values c1 c2
    | aliased c2 => rw [rangeOk_iff rfl rfl]; exact range_values c1 c2

/-! ### Evaluation of a set -/

private theorem mem_denoteOperands {items : List (CilOperand (CilSetDatum db.count))}
    (hitems : items.all isCatItem = true) (i : Nat) :
    i ∈ denoteOperands (datumSet D) rangeSet db.count items ↔ ∃ v ∈ items.filterMap catItemValue, v.val = i := by
  induction items with
  | nil => simp [denoteOperands]
  | cons x items ih =>
    rw [List.all_cons, Bool.and_eq_true] at hitems
    unfold denoteOperands
    rw [Set.mem_union, ih hitems.2, List.filterMap_cons]
    cases x with
    | list e => cases hitems.1
    | datum d =>
      cases d with
      | attr a => cases hitems.1
      | actual v => simp [catItemValue, CilOperand.denote, datumSet, eq_comm]
      | aliased v => simp [catItemValue, CilOperand.denote, datumSet, eq_comm]

private theorem itemsOf_denote {e : CilExpr (CilSetDatum db.count)} (he : cilVerifyIsList e = true) :
    ItemsOf e (e.denote (datumSet D) rangeSet db.count) := by
  refine ⟨he, fun i => ?_⟩
  cases e with
  | list items =>
    unfold CilExpr.denote
    exact mem_denoteOperands he i
  | all => cases he
  | range d1 d2 => cases he
  | not x => cases he
  | binary op x y => cases he

private theorem itemsOf_new {bitmap : Ebitmap} {S : Set Nat} (h : DenotesBelow db.count bitmap S) :
    ItemsOf (.list (((List.finRange db.count).filter fun v => ebitmapGetBit bitmap v.val).map
      fun v => CilOperand.datum (CilSetDatum.actual v))) S := by
  refine ⟨?_, fun i => ?_⟩
  · rw [cilVerifyIsList_list, List.all_map]
    exact List.all_eq_true.2 fun v _ => rfl
  · rw [catItems_list, List.filterMap_map]
    simp only [List.mem_filterMap, List.mem_filter, List.mem_finRange, true_and, Function.comp_apply, catItemValue,
      Option.some.injEq, exists_eq_right, ebitmapGetBit_iff h.1.1, h.1.2]
    constructor
    · intro hi
      exact ⟨⟨i, h.2 i hi⟩, hi, rfl⟩
    · rintro ⟨v, hv, rfl⟩
      exact hv

private theorem solves_catset (hD : Solves db.exprs D) (c : Nat) :
    D c = (db.catset c).denote (datumSet D) rangeSet db.count := by
  rw [hD c]
  unfold attributeSet CilCatsets.exprs
  simp

/-- The evaluation of a set whose datums are evaluated. -/
private theorem evaluateCatExpression_spec (hD : Solves db.exprs D) {fuel c : Nat}
    {s₀ s : CatsState db.count} (hdatum : ∀ d ∈ (db.catset c).datums, ∀ s, StateOk db D s₀ s →
      Ensures db.Allowed (EvalOk db.count (StateOk db D s₀) (datumSet D d)) (cilCatToBitmap fuel d s))
    (hs : StateOk db D s₀ s) :
    Ensures db.Allowed (fun s' => StateOk db D s₀ s' ∧ ItemsOf (s' c).datumExpr (D c))
      (evaluateCatExpression (cilCatToBitmap fuel) c s) := by
  unfold evaluateCatExpression
  rcases hs.cats c with hstart | ⟨hevaluated, hitems⟩
  · have hexpr : (s c).datumExpr = db.catset c := by rw [hstart]; rfl
    rw [if_neg (by rw [hstart]; simp [CilCatsets.start]), hexpr]
    by_cases hlist : cilVerifyIsList (db.catset c) = true
    · rw [if_pos hlist]
      refine ⟨hs, ?_⟩
      rw [hexpr, solves_catset hD c]
      exact itemsOf_denote hlist
    · rw [if_neg hlist]
      have hok : db.Allowed .err ∨ (db.catset c).RangesOk RangeOk db.count := by
        by_cases h : db.InOrder
        · exact Or.inr (h c)
        · exact Or.inl ⟨rfl, h⟩
      refine (cilExprToBitmap_spec db.count_lt range_spec (db.catset c) hdatum hok ebitmapInit ∅ s (.init db.count)
        hs).bind ?_
      rintro ⟨bitmap, s'⟩ ⟨hden, hs'⟩
      rw [Set.empty_union, ← solves_catset hD c] at hden
      have hnew := itemsOf_new hden
      refine ⟨⟨fun c' => ?_, fun c' hc' => ?_⟩, by rw [Function.update_self]; exact hnew⟩
      · by_cases hc : c' = c
        · subst hc
          rw [Function.update_self]
          exact Or.inr ⟨rfl, hnew⟩
        · rw [Function.update_of_ne hc]
          exact hs'.cats c'
      · have hc : c' ≠ c := by
          rintro rfl
          rw [← hs.kept c' hc', hexpr] at hc'
          exact hlist hc'
        rw [Function.update_of_ne hc]
        exact hs'.kept c' hc'
  · rw [if_pos hevaluated]
    exact ⟨hs, hitems⟩

/-- A datum that passes the check is evaluated to its set, with as much fuel as the check takes. -/
private theorem cilCatToBitmap_spec (hD : Solves db.exprs D) {k fuel : Nat} {d : CilSetDatum db.count}
    {stack : List Nat} (hverify : cilVerifyNoSelfReference db.exprs k d stack = .ok ()) (hfuel : k ≤ fuel)
    {s₀ : CatsState db.count} (s : CatsState db.count) (hs : StateOk db D s₀ s) :
    Ensures db.Allowed (EvalOk db.count (StateOk db D s₀) (datumSet D d)) (cilCatToBitmap fuel d s) := by
  induction k generalizing fuel d stack s with
  | zero => cases hverify
  | succ k ih =>
    obtain ⟨fuel, rfl⟩ : ∃ f, fuel = f + 1 := ⟨fuel - 1, by omega⟩
    cases d with
    | actual v => exact setBit_spec db.count_lt v.isLt hs
    | aliased v => exact setBit_spec db.count_lt v.isLt hs
    | attr c =>
      obtain ⟨-, hexprs⟩ := cilVerifyNoSelfReference_attribute hverify
      have heval := evaluateCatExpression_spec hD (c := c)
        (fun d hd s hs => ih (hexprs _ (List.mem_singleton.2 rfl) d hd) (Nat.le_of_succ_le_succ hfuel) s hs) hs
      unfold cilCatToBitmap
      refine heval.bind ?_
      rintro s' ⟨hs', -, hitems⟩
      obtain ⟨e, he, hden⟩ := catsToBitmap_spec (catItems (s' c).datumExpr) (.init db.count)
      have hset : ∅ ∪ {i | ∃ v ∈ catItems (s' c).datumExpr, v.val = i} = D c := by
        ext i
        rw [hitems]
        simp
      rw [hset] at hden
      rw [he]
      exact ⟨hden, hs'⟩

/-- A visit makes the set the list of its categories. -/
theorem visit_spec (hD : Solves db.exprs D) {c k : Nat}
    (hverify : cilVerifyNoSelfReference db.exprs k (.attr c) [] = .ok ()) {fuel : Nat} (hfuel : k ≤ fuel)
    {s₀ s : CatsState db.count} (hs : StateOk db D s₀ s) :
    Ensures db.Allowed (fun s' => StateOk db D s₀ s' ∧ ItemsOf (s' c).datumExpr (D c))
      (evaluateCatExpression (cilCatToBitmap fuel) c s) := by
  cases k with
  | zero => cases hverify
  | succ k =>
    obtain ⟨-, hexprs⟩ := cilVerifyNoSelfReference_attribute hverify
    exact evaluateCatExpression_spec hD
      (fun d hd s hs => cilCatToBitmap_spec hD (hexprs _ (List.mem_singleton.2 rfl) d hd) (by omega) s hs) hs

end CilCatsets

end Sepol
