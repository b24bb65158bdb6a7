import Sepol.CilSelfReference

/-!
# Type, role and user attributes

The bitmap of an attribute is made when it is first needed, and kept.  While it is being made the attribute has an
empty bitmap, which no other attribute meets as long as attributes do not refer to one another in a circle.
-/

namespace Sepol

open Outcome

/-- The attributes of one kind (types, roles or users), over `count` values: `expr_list`, `none` for `NULL`. -/
structure CilAttributes where
  count : Nat
  count_lt : count < 2 ^ 31
  exprList : Nat → Option (List (CilExpr (CilSetDatum count)))

/-- The bitmaps that attributes have, `none` for `NULL`. -/
abbrev AttrBitmaps := Nat → Option Ebitmap

namespace CilAttributes

variable (db : CilAttributes)

def exprs (a : Nat) : List (CilExpr (CilSetDatum db.count)) := (db.exprList a).getD []

/-- `__evaluate_type_expression`, `__evaluate_role_expression` and `__evaluate_user_expression`. -/
def evaluateExpression
    (datumToBitmap : CilSetDatum db.count → AttrBitmaps → Except CilEvalError (Ebitmap × AttrBitmaps)) (a : Nat)
    (s : AttrBitmaps) : Except CilEvalError AttrBitmaps := do
  let (out, s) ← cilExprListToBitmap datumToBitmap (fun _ _ => .error .err) db.count (db.exprs a) ebitmapInit
    (Function.update s a (some ebitmapInit))
  .ok (Function.update s a (some out))

/-- `__cil_type_to_bitmap`, `__cil_role_to_bitmap` and `__cil_user_to_bitmap`; only types have aliases. -/
def toBitmap : Nat → CilSetDatum db.count → AttrBitmaps → Except CilEvalError (Ebitmap × AttrBitmaps)
  | 0, _, _ => .error .fuel
  | _ + 1, .actual v, s => do
    let bitmap ← liftBitmap (ebitmapSetBit ebitmapInit v.val true)
    .ok (bitmap, s)
  | _ + 1, .aliased v, s => do
    let bitmap ← liftBitmap (ebitmapSetBit ebitmapInit v.val true)
    .ok (bitmap, s)
  | fuel + 1, .attr a, s =>
    match s a with
    | some bitmap => .ok (ebitmapUnion ebitmapInit bitmap, s)
    | none => do
      let s ← evaluateExpression db (toBitmap fuel) a s
      .ok (ebitmapUnion ebitmapInit ((s a).getD ebitmapInit), s)

end CilAttributes

/-- The visit of an attribute in `__cil_post_db_attr_helper`. -/
def visitAttr (evaluate : Nat → AttrBitmaps → Except CilEvalError AttrBitmaps) (s : AttrBitmaps) (a : Nat) :
    Except CilEvalError AttrBitmaps :=
  if (s a).isNone then evaluate a s else .ok s

/-- The attributes of a policy. -/
structure CilSetDb where
  types : CilAttributes
  roles : CilAttributes
  users : CilAttributes

def cilTypeToBitmap (db : CilSetDb) := db.types.toBitmap

def cilRoleToBitmap (db : CilSetDb) := db.roles.toBitmap

def cilUserToBitmap (db : CilSetDb) := db.users.toBitmap

def evaluateTypeExpression (db : CilSetDb) (fuel : Nat) := db.types.evaluateExpression (cilTypeToBitmap db fuel)

def evaluateRoleExpression (db : CilSetDb) (fuel : Nat) := db.roles.evaluateExpression (cilRoleToBitmap db fuel)

def evaluateUserExpression (db : CilSetDb) (fuel : Nat) := db.users.evaluateExpression (cilUserToBitmap db fuel)

/-- The bitmaps of all attributes. -/
structure CilSetState where
  types : AttrBitmaps
  roles : AttrBitmaps
  users : AttrBitmaps

/-- A node of the tree that declares an attribute. -/
inductive CilAttrNode where
  | typeattribute (a : Nat)
  | roleattribute (a : Nat)
  | userattribute (a : Nat)

/-- `__cil_post_db_attr_helper` for the nodes that declare attributes. -/
def cilPostDbAttrHelper (db : CilSetDb) (fuel : Nat) (s : CilSetState) : CilAttrNode → Except CilEvalError CilSetState
  | .typeattribute a => (visitAttr (evaluateTypeExpression db fuel) s.types a).map fun types => { s with types }
  | .roleattribute a => (visitAttr (evaluateRoleExpression db fuel) s.roles a).map fun roles => { s with roles }
  | .userattribute a => (visitAttr (evaluateUserExpression db fuel) s.users a).map fun users => { s with users }

/-! ### The invariant -/

namespace CilAttributes

variable {db : CilAttributes} {D : Nat → Set Nat}

/-- An attribute that has a bitmap has that of its set, those in `stack` apart, and none has lost its bitmap. -/
structure BitmapsOk (db : CilAttributes) (D : Nat → Set Nat) (stack : List Nat) (start s : AttrBitmaps) : Prop where
  denotes : ∀ a e, s a = some e → a ∉ stack → DenotesBelow db.count e (D a)
  kept : ∀ a, (start a).isSome → s a = start a

theorem BitmapsOk.trans {stack : List Nat} {s1 s2 s3 : AttrBitmaps} (h : BitmapsOk db D stack s1 s2)
    (h' : BitmapsOk db D stack s2 s3) : BitmapsOk db D stack s1 s3 := by
  refine ⟨h'.denotes, fun a ha => ?_⟩
  have h2 := h.kept a ha
  rw [h'.kept a (by rw [h2]; exact ha), h2]

/-- A system of attributes of which each expression is in order. -/
def InOrder (db : CilAttributes) : Prop :=
  ∀ a, ∀ e ∈ db.exprs a, e.RangesOk (fun _ _ => False) db.count

/-- The errors an evaluation may end with. -/
def Allowed (db : CilAttributes) (e : CilEvalError) : Prop := e = .err ∧ ¬db.InOrder

/-- The evaluation of an attribute that passes the check. -/
private theorem evaluateExpression_spec (hD : Solves db.exprs D) {fuel a : Nat} {stack : List Nat} (ha : a ∉ stack)
    (hdatum : ∀ e ∈ db.exprs a, ∀ d ∈ e.datums, ∀ start s, BitmapsOk db D (a :: stack) start s →
      Ensures db.Allowed (EvalOk db.count (BitmapsOk db D (a :: stack) start) (datumSet D d)) (db.toBitmap fuel d s))
    {s : AttrBitmaps} (hs : BitmapsOk db D stack s s) (hnone : s a = none) :
    Ensures db.Allowed (fun s' => BitmapsOk db D stack s s' ∧ ∃ e, s' a = some e ∧ DenotesBelow db.count e (D a))
      (db.evaluateExpression (db.toBitmap fuel) a s) := by
  have hstart : BitmapsOk db D (a :: stack) (Function.update s a (some ebitmapInit))
      (Function.update s a (some ebitmapInit)) := by
    refine ⟨fun b e hb hstack => ?_, fun _ _ => rfl⟩
    have hne : b ≠ a := fun h => hstack (h ▸ List.mem_cons_self)
    rw [Function.update_of_ne hne] at hb
    exact hs.denotes b e hb fun h => hstack (List.mem_cons_of_mem _ h)
  have hok : db.Allowed .err ∨ ∀ e ∈ db.exprs a, e.RangesOk (fun _ _ => False) db.count := by
    by_cases h : db.InOrder
    · exact Or.inr (h a)
    · exact Or.inl ⟨rfl, h⟩
  have hrange : ∀ d1 d2 : CilSetDatum db.count,
      (Except.error .err : Except CilEvalError Ebitmap) = .error .err ∧ ¬False ∨
        ∃ e, (Except.error .err : Except CilEvalError Ebitmap) = .ok e ∧
          DenotesBelow db.count e (rangeSet d1 d2) := fun _ _ => Or.inl ⟨rfl, id⟩
  have hlist := cilExprListToBitmap_spec (D := datumSet D) (R := rangeSet) db.count_lt hrange
    (fun e he d hd s' hs' => hdatum e he d hd _ s' hs') hok (.init db.count) hstart
  refine Ensures.bind hlist fun r hr => ?_
  have hset : DenotesBelow db.count r.1 (D a) := by
    have := hr.1
    rw [Set.empty_union] at this
    rw [hD a]
    exact this
  refine ⟨⟨fun b e hb hstack => ?_, fun b hb => ?_⟩, r.1, Function.update_self .., hset⟩
  · by_cases hne : b = a
    · subst hne
      rw [Function.update_self] at hb
      cases hb
      exact hset
    · rw [Function.update_of_ne hne] at hb
      exact hr.2.denotes b e hb fun h => (List.mem_cons.1 h).elim hne hstack
  · have hne : b ≠ a := by
      rintro rfl
      rw [hnone] at hb
      cases hb
    rw [Function.update_of_ne hne, hr.2.kept b (by rwa [Function.update_of_ne hne]), Function.update_of_ne hne]

/-- A datum that passes the check is evaluated to its set, with as much fuel as the check takes. -/
private theorem toBitmap_spec (hD : Solves db.exprs D) {k fuel : Nat} {d : CilSetDatum db.count} {stack : List Nat}
    (hverify : cilVerifyNoSelfReference db.exprs k d stack = .ok ()) (hfuel : k ≤ fuel) (start s : AttrBitmaps)
    (hs : BitmapsOk db D stack start s) :
    Ensures db.Allowed (EvalOk db.count (BitmapsOk db D stack start) (datumSet D d)) (db.toBitmap fuel d s) := by
  induction k generalizing fuel d stack start s with
  | zero => cases hverify
  | succ k ih =>
    obtain ⟨fuel, rfl⟩ : ∃ f, fuel = f + 1 := ⟨fuel - 1, by omega⟩
    cases d with
    | actual v => exact setBit_spec db.count_lt v.isLt hs
    | aliased v => exact setBit_spec db.count_lt v.isLt hs
    | attr a =>
      obtain ⟨ha, hexprs⟩ := cilVerifyNoSelfReference_attribute hverify
      unfold CilAttributes.toBitmap
      cases hsa : s a with
      | some e =>
        have := (DenotesBelow.init db.count).union (hs.denotes a e hsa ha)
        rw [Set.empty_union] at this
        exact ⟨this, hs⟩
      | none =>
        have heval := evaluateExpression_spec hD ha
          (fun e he d hd start s hs => ih (hexprs e he d hd) (Nat.le_of_succ_le_succ hfuel) start s hs)
          (s := s) ⟨hs.denotes, fun _ _ => rfl⟩ hsa
        refine heval.bind ?_
        rintro s' ⟨hs', e, he, hden⟩
        rw [he]
        have := (DenotesBelow.init db.count).union hden
        rw [Set.empty_union] at this
        exact ⟨this, hs.trans hs'⟩

/-- A visit gives the attribute the bitmap of its set. -/
theorem visit_spec (hD : Solves db.exprs D) {a k : Nat}
    (hverify : cilVerifyNoSelfReference db.exprs k (.attr a) [] = .ok ()) {fuel : Nat} (hfuel : k ≤ fuel)
    {s : AttrBitmaps} (hs : BitmapsOk db D [] s s) :
    Ensures db.Allowed (fun s' => BitmapsOk db D [] s s' ∧ ∃ e, s' a = some e ∧ DenotesBelow db.count e (D a))
      (visitAttr (db.evaluateExpression (db.toBitmap fuel)) s a) := by
  unfold visitAttr
  cases hsa : s a with
  | some e => exact ⟨hs, e, hsa, hs.denotes a e hsa List.not_mem_nil⟩
  | none =>
    cases k with
    | zero => cases hverify
    | succ k =>
      obtain ⟨ha, hexprs⟩ := cilVerifyNoSelfReference_attribute hverify
      exact evaluateExpression_spec hD ha
        (fun e he d hd start s hs => toBitmap_spec hD (hexprs e he d hd) (by omega) start s hs) hs hsa

end CilAttributes

end Sepol
