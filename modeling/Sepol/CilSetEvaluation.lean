import Sepol.CilAttributes
import Sepol.CilCatset

/-!
# Evaluating all attributes and category sets

The nodes of the tree are visited in their order, and a visit may evaluate attributes that other nodes declare.  In
whatever order they are visited, each attribute gets the bitmap of the set its expressions denote.
-/

namespace Sepol

open Outcome

/-- The sets of the attributes of each kind. -/
structure CilSetValues where
  types : Nat → Set Nat
  roles : Nat → Set Nat
  users : Nat → Set Nat

/-- Each attribute has the set that its expressions denote. -/
structure CilSetDb.SolvedBy (db : CilSetDb) (D : CilSetValues) : Prop where
  types : Solves db.types.exprs D.types
  roles : Solves db.roles.exprs D.roles
  users : Solves db.users.exprs D.users

/-- All attributes have passed the check. -/
structure CilSetDb.NoSelfReference (db : CilSetDb) : Prop where
  types : Sepol.NoSelfReference db.types.exprs
  roles : Sepol.NoSelfReference db.roles.exprs
  users : Sepol.NoSelfReference db.users.exprs

/-- In no expression there is a range, and where there is `all` there is some value. -/
def CilSetDb.InOrder (db : CilSetDb) : Prop := db.types.InOrder ∧ db.roles.InOrder ∧ db.users.InOrder

/-- The attribute that a node declares has the bitmap of its set. -/
def NodeEvaluated (D : CilSetValues) (s : CilSetState) : CilAttrNode → Prop
  | .typeattribute a => ∃ e, s.types a = some e ∧ Denotes e (D.types a)
  | .roleattribute a => ∃ e, s.roles a = some e ∧ Denotes e (D.roles a)
  | .userattribute a => ∃ e, s.users a = some e ∧ Denotes e (D.users a)

/-- No attribute has a bitmap. -/
def CilSetState.start : CilSetState := ⟨fun _ => none, fun _ => none, fun _ => none⟩

/-- The errors an evaluation may end with. -/
def CilSetDb.Allowed (db : CilSetDb) (e : CilEvalError) : Prop := e = .err ∧ ¬db.InOrder

/-! ### A visit -/

/-- The bitmaps that attributes have are those of their sets, and none has been lost since `s₀`. -/
private structure AttrsOk (db : CilSetDb) (D : CilSetValues) (s₀ s : CilSetState) : Prop where
  types : db.types.BitmapsOk D.types [] s₀.types s.types
  roles : db.roles.BitmapsOk D.roles [] s₀.roles s.roles
  users : db.users.BitmapsOk D.users [] s₀.users s.users

private theorem AttrsOk.refl {db : CilSetDb} {D : CilSetValues} {s₀ s : CilSetState} (h : AttrsOk db D s₀ s) :
    AttrsOk db D s s :=
  ⟨⟨h.types.denotes, fun _ _ => rfl⟩, ⟨h.roles.denotes, fun _ _ => rfl⟩, ⟨h.users.denotes, fun _ _ => rfl⟩⟩

private theorem nodeEvaluated_kept {db : CilSetDb} {D : CilSetValues} {s₀ s : CilSetState} (h : AttrsOk db D s₀ s)
    {node : CilAttrNode} (hnode : NodeEvaluated D s₀ node) : NodeEvaluated D s node := by
  cases node with
  | typeattribute a =>
    obtain ⟨e, he, hden⟩ := hnode
    exact ⟨e, by rw [h.types.kept a (by rw [he]; rfl), he], hden⟩
  | roleattribute a =>
    obtain ⟨e, he, hden⟩ := hnode
    exact ⟨e, by rw [h.roles.kept a (by rw [he]; rfl), he], hden⟩
  | userattribute a =>
    obtain ⟨e, he, hden⟩ := hnode
    exact ⟨e, by rw [h.users.kept a (by rw [he]; rfl), he], hden⟩

/-- The check of the attribute that a node declares takes at most `k` steps. -/
private def VerifiedIn (db : CilSetDb) (k : Nat) : CilAttrNode → Prop
  | .typeattribute a => ∃ j ≤ k, cilVerifyNoSelfReference db.types.exprs j (.attr a) [] = .ok ()
  | .roleattribute a => ∃ j ≤ k, cilVerifyNoSelfReference db.roles.exprs j (.attr a) [] = .ok ()
  | .userattribute a => ∃ j ≤ k, cilVerifyNoSelfReference db.users.exprs j (.attr a) [] = .ok ()

private theorem VerifiedIn.mono {db : CilSetDb} {k k' : Nat} (h : k ≤ k') {node : CilAttrNode}
    (hnode : VerifiedIn db k node) : VerifiedIn db k' node := by
  cases node with
  | typeattribute a =>
    obtain ⟨j, hj, hok⟩ := hnode
    exact ⟨j, hj.trans h, hok⟩
  | roleattribute a =>
    obtain ⟨j, hj, hok⟩ := hnode
    exact ⟨j, hj.trans h, hok⟩
  | userattribute a =>
    obtain ⟨j, hj, hok⟩ := hnode
    exact ⟨j, hj.trans h, hok⟩

private theorem exists_verifiedIn {db : CilSetDb} (h : db.NoSelfReference) (node : CilAttrNode) :
    ∃ k, VerifiedIn db k node := by
  cases node with
  | typeattribute a =>
    obtain ⟨k, hk⟩ := h.types a
    exact ⟨k, k, le_refl k, hk⟩
  | roleattribute a =>
    obtain ⟨k, hk⟩ := h.roles a
    exact ⟨k, k, le_refl k, hk⟩
  | userattribute a =>
    obtain ⟨k, hk⟩ := h.users a
    exact ⟨k, k, le_refl k, hk⟩

private theorem helper_spec {db : CilSetDb} {D : CilSetValues} (hD : db.SolvedBy D) {k fuel : Nat} (hfuel : k ≤ fuel)
    {node : CilAttrNode} (hverify : VerifiedIn db k node) {s : CilSetState} (hs : AttrsOk db D s s) :
    Ensures db.Allowed (fun s' => AttrsOk db D s s' ∧ NodeEvaluated D s' node)
      (cilPostDbAttrHelper db fuel s node) := by
  cases node with
  | typeattribute a =>
    obtain ⟨j, hj, hok⟩ := hverify
    refine Ensures.map ?_
    refine (CilAttributes.visit_spec hD.types hok (hj.trans hfuel) hs.types).weaken ?_ ?_
    · rintro e ⟨he, hnot⟩
      exact ⟨he, fun h => hnot h.1⟩
    · rintro types ⟨htypes, e, he, hden⟩
      exact ⟨⟨htypes, hs.roles, hs.users⟩, e, he, hden.1⟩
  | roleattribute a =>
    obtain ⟨j, hj, hok⟩ := hverify
    refine Ensures.map ?_
    refine (CilAttributes.visit_spec hD.roles hok (hj.trans hfuel) hs.roles).weaken ?_ ?_
    · rintro e ⟨he, hnot⟩
      exact ⟨he, fun h => hnot h.2.1⟩
    · rintro roles ⟨hroles, e, he, hden⟩
      exact ⟨⟨hs.types, hroles, hs.users⟩, e, he, hden.1⟩
  | userattribute a =>
    obtain ⟨j, hj, hok⟩ := hverify
    refine Ensures.map ?_
    refine (CilAttributes.visit_spec hD.users hok (hj.trans hfuel) hs.users).weaken ?_ ?_
    · rintro e ⟨he, hnot⟩
      exact ⟨he, fun h => hnot h.2.2⟩
    · rintro users ⟨husers, e, he, hden⟩
      exact ⟨⟨hs.types, hs.roles, husers⟩, e, he, hden.1⟩

/-! ### All visits -/

private theorem helper_run {db : CilSetDb} {D : CilSetValues} (hD : db.SolvedBy D) {k fuel : Nat} (hfuel : k ≤ fuel)
    {order : List CilAttrNode} (hverify : ∀ node ∈ order, VerifiedIn db k node) {s : CilSetState}
    (hs : AttrsOk db D s s) :
    Ensures db.Allowed (fun s' => AttrsOk db D s s' ∧ ∀ node ∈ order, NodeEvaluated D s' node)
      (order.foldlM (cilPostDbAttrHelper db fuel) s) := by
  induction order generalizing s with
  | nil => exact ⟨hs, fun node hnode => by cases hnode⟩
  | cons node order ih =>
    rw [List.foldlM_cons]
    refine (helper_spec hD hfuel (hverify node List.mem_cons_self) hs).bind ?_
    rintro s₁ ⟨hs₁, hnode⟩
    refine (ih (fun n hn => hverify n (List.mem_cons_of_mem _ hn)) hs₁.refl).mono ?_
    rintro s₂ ⟨hs₂, horder⟩
    refine ⟨⟨hs₁.types.trans hs₂.types, hs₁.roles.trans hs₂.roles, hs₁.users.trans hs₂.users⟩, fun n hn => ?_⟩
    rcases List.mem_cons.1 hn with rfl | hn
    · exact nodeEvaluated_kept hs₂ hnode
    · exact horder n hn

private theorem exists_bound {γ : Type} {P : Nat → γ → Prop} (hmono : ∀ k k' x, k ≤ k' → P k x → P k' x)
    (h : ∀ x, ∃ k, P k x) (l : List γ) : ∃ k, ∀ x ∈ l, P k x := by
  induction l with
  | nil => exact ⟨0, fun x hx => by cases hx⟩
  | cons y l ih =>
    obtain ⟨k, hk⟩ := ih
    obtain ⟨j, hj⟩ := h y
    refine ⟨max j k, fun x hx => ?_⟩
    rcases List.mem_cons.1 hx with rfl | hx
    · exact hmono _ _ _ (le_max_left j k) hj
    · exact hmono _ _ _ (le_max_right j k) (hk x hx)

private theorem cats_run {cats : CilCatsets} {C : Nat → Set Nat} (hC : Solves cats.exprs C) {k fuel : Nat}
    (hfuel : k ≤ fuel) {order : List Nat}
    (hverify : ∀ c ∈ order, ∃ j ≤ k, cilVerifyNoSelfReference cats.exprs j (.attr c) [] = .ok ())
    {s : CatsState cats.count} (hs : cats.StateOk C s s) :
    Ensures cats.Allowed (fun s' => cats.StateOk C s s' ∧ ∀ c ∈ order, CilCatsets.ItemsOf (s' c).datumExpr (C c))
      (order.foldlM (fun s c => evaluateCatExpression (cilCatToBitmap fuel) c s) s) := by
  induction order generalizing s with
  | nil => exact ⟨hs, fun c hc => by cases hc⟩
  | cons c order ih =>
    obtain ⟨j, hj, hok⟩ := hverify c List.mem_cons_self
    rw [List.foldlM_cons]
    refine (CilCatsets.visit_spec hC hok (hj.trans hfuel) hs).bind ?_
    rintro s₁ ⟨hs₁, hc⟩
    refine (ih (fun c hc => hverify c (List.mem_cons_of_mem _ hc)) ⟨hs₁.cats, fun _ _ => rfl⟩).mono ?_
    rintro s₂ ⟨hs₂, horder⟩
    refine ⟨⟨hs₂.cats, fun c' hc' => ?_⟩, fun c' hc' => ?_⟩
    · have h₁ := hs₁.kept c' hc'
      rw [hs₂.kept c' (by rw [h₁]; exact hc'), h₁]
    · rcases List.mem_cons.1 hc' with rfl | hc'
      · rw [hs₂.kept c' hc.1]
        exact hc
      · exact horder c' hc'

/-- Attributes and category sets without self reference have sets, and only one each.  In whatever order the nodes are
visited, the evaluation ends, and it gives every attribute the bitmap and every category set the list of its set; it
fails only when some range is not in order or `all` is used without any value. -/
theorem cilSetExpressions_denote (db : CilSetDb) (cats : CilCatsets) (hdb : db.NoSelfReference)
    (hcats : NoSelfReference cats.exprs) :
    (∃ D, db.SolvedBy D ∧ ∀ D', db.SolvedBy D' → D' = D) ∧ (∃! C, Solves cats.exprs C) ∧
      ∀ D C, db.SolvedBy D → Solves cats.exprs C →
        (∀ order : List CilAttrNode, ∃ k, ∀ fuel, k ≤ fuel →
          Ensures db.Allowed (fun s => ∀ node ∈ order, NodeEvaluated D s node)
            (order.foldlM (cilPostDbAttrHelper db fuel) .start)) ∧
        ∀ order : List Nat, ∃ k, ∀ fuel, k ≤ fuel →
          Ensures cats.Allowed (fun s => ∀ c ∈ order, CilCatsets.ItemsOf (s c).datumExpr (C c))
            (order.foldlM (fun s c => evaluateCatExpression (cilCatToBitmap fuel) c s) cats.start) := by
  refine ⟨?_, hcats.existsUnique_solves, fun D C hD hC => ⟨fun order => ?_, fun order => ?_⟩⟩
  · obtain ⟨types, ht, htu⟩ := hdb.types.existsUnique_solves
    obtain ⟨roles, hr, hru⟩ := hdb.roles.existsUnique_solves
    obtain ⟨users, hu, huu⟩ := hdb.users.existsUnique_solves
    refine ⟨⟨types, roles, users⟩, ⟨ht, hr, hu⟩, ?_⟩
    rintro ⟨types', roles', users'⟩ ⟨ht', hr', hu'⟩
    rw [htu types' ht', hru roles' hr', huu users' hu']
  · obtain ⟨k, hk⟩ := exists_bound (P := VerifiedIn db) (fun _ _ _ h hn => hn.mono h) (exists_verifiedIn hdb) order
    refine ⟨k, fun fuel hfuel => ?_⟩
    have hstart : AttrsOk db D .start .start := by
      refine ⟨⟨?_, fun _ _ => rfl⟩, ⟨?_, fun _ _ => rfl⟩, ⟨?_, fun _ _ => rfl⟩⟩
      all_goals
        intro a e h
        cases h
    exact (helper_run hD hfuel hk hstart).mono fun s h => h.2
  · obtain ⟨k, hk⟩ := exists_bound
      (P := fun k c => ∃ j ≤ k, cilVerifyNoSelfReference cats.exprs j (.attr c) [] = .ok ())
      (fun k k' c h ⟨j, hj, hok⟩ => ⟨j, hj.trans h, hok⟩)
      (fun c => (hcats c).imp fun k hk => ⟨k, le_refl k, hk⟩) order
    refine ⟨k, fun fuel hfuel => ?_⟩
    exact (cats_run hC hfuel hk ⟨fun _ => Or.inl rfl, fun _ _ => rfl⟩).mono fun s h => h.2

/-- No attributes, over no values. -/
def noAttributes : CilAttributes := ⟨0, by decide, fun _ => none⟩

section

local instance neZeroThree : NeZero 3 := ⟨by decide⟩

/-- Three types: the attribute 0 is all types but those of the attribute 1, which has the first two. -/
def complementDb : CilSetDb where
  types := ⟨3, by decide, fun a =>
    if a = 0 then some [.not (.datum (.attr 1))]
    else if a = 1 then some [.list [.datum (.actual 0), .datum (.actual 1)]] else none⟩
  roles := noAttributes
  users := noAttributes

end

/-- Two categories; the set 0 is all of them. -/
def allCats : CilCatsets := ⟨2, by decide, fun c => if c = 0 then .all else .list []⟩

/-- Two categories; the set 0 is a range that is not in order. -/
def reversedCats : CilCatsets :=
  ⟨2, by decide, fun c => if c = 0 then .range (.actual 1) (.actual 0) else .list []⟩

private theorem complementDb_noSelfReference : complementDb.NoSelfReference := by
  refine ⟨fun a => ⟨3, ?_⟩, fun a => ⟨1, rfl⟩, fun a => ⟨1, rfl⟩⟩
  rcases a with _ | _ | a
  · rfl
  · rfl
  · rfl

private theorem allCats_noSelfReference : NoSelfReference allCats.exprs := by
  refine fun c => ⟨1, ?_⟩
  rcases c with _ | c
  · rfl
  · rfl

theorem cilSetExpressions_denote_complement :
    (∃ D, complementDb.SolvedBy D ∧ ∀ D', complementDb.SolvedBy D' → D' = D) ∧ (∃! C, Solves allCats.exprs C) ∧
      ∀ D C, complementDb.SolvedBy D → Solves allCats.exprs C →
        (∀ order : List CilAttrNode, ∃ k, ∀ fuel, k ≤ fuel →
          Ensures complementDb.Allowed (fun s => ∀ node ∈ order, NodeEvaluated D s node)
            (order.foldlM (cilPostDbAttrHelper complementDb fuel) .start)) ∧
        ∀ order : List Nat, ∃ k, ∀ fuel, k ≤ fuel →
          Ensures allCats.Allowed (fun s => ∀ c ∈ order, CilCatsets.ItemsOf (s c).datumExpr (C c))
            (order.foldlM (fun s c => evaluateCatExpression (cilCatToBitmap fuel) c s) allCats.start) :=
  cilSetExpressions_denote complementDb allCats complementDb_noSelfReference allCats_noSelfReference

/-- A range from a category to an earlier one passes the check of self reference, and then the evaluation fails. -/
theorem evaluateCatExpression_reversed_range :
    (∀ c, cilVerifyNoSelfReference reversedCats.exprs 2 (.attr c) [] = .ok ()) ∧
      ∀ fuel, [0].foldlM (fun s c => evaluateCatExpression (cilCatToBitmap fuel) c s) reversedCats.start =
        .error .err := by
  refine ⟨fun c => ?_, fun fuel => rfl⟩
  rcases c with _ | c
  · rfl
  · rfl

end Sepol
