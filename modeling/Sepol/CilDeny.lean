import Sepol.CilFind

/-!
# Deny rules

A deny rule replaces each allow rule that matches it by rules for what is left: the permissions that are not denied,
the sources that are not denied, and, for the sources and permissions of both rules, the targets that are not denied.
The targets `self`, `notself` and `other` depend on the source, and each combination of the two rules has its own way
to write what is left.
-/

namespace Sepol

open Outcome

/-- `cil_create_avrule` with a copy of the class permissions. -/
def cilCreateAvrule (src : CilDatum) (tgt : CilTarget) (classperms : Option (List CilClassperms)) : CilAvrule where
  isExtended := false
  ruleKind := .allowed
  srcStr := src.name
  src := src
  tgtStr := tgt.name
  tgt := tgt
  classperms := cilClasspermsListCopy classperms

/-- The rules inserted so far with one more behind them, unless its source or its target is `NULL`. -/
def cilCreateAndAddAvrule (curr : List CilAvrule) (src : Option CilDatum) (tgt : Option CilTarget)
    (classperms : Option (List CilClassperms)) : List CilAvrule :=
  match src, tgt with
  | some src, some tgt => curr ++ [cilCreateAvrule src tgt classperms]
  | _, _ => curr

/-- A rule with target `other`, which a source of at most one type does not need. -/
def cilAddOtherRule (curr : List CilAvrule) (src : Option CilDatum) (p4 : Option (List CilClassperms)) :
    List CilAvrule :=
  if cilDatumCardinality src > 1 then cilCreateAndAddAvrule curr src (some .othertype) p4 else curr

/-- The branch for an allow rule with `notself` and a deny rule with `other`. -/
def cilRemoveOtherFromNotself (db : CilDb) (curr : List CilAvrule) (s2 : CilDatum) (p4 : Option (List CilClassperms))
    (s4 : Option CilDatum) : Except CilDenyError (List CilAvrule × CilDb) := do
  let (t, db) ← cilCreateAttributeAllAndNotD db (some s2)
  .ok (cilCreateAndAddAvrule curr s4 (t.map .datum) p4, db)

/-- The branch for an allow rule with `notself` and a deny rule with the target `t2`. -/
def cilRemoveDatumFromNotself (db : CilDb) (curr : List CilAvrule) (t2 : CilDatum) (p4 : Option (List CilClassperms))
    (s4 : Option CilDatum) : Except CilDenyError (List CilAvrule × CilDb) := do
  let (s5, db) ← cilCreateAttributeD1AndNotD2 db s4 (some t2)
  let (s6, db) ← cilCreateAttributeD1AndD2 db s4 (some t2)
  let (ta, db) ← cilCreateAttributeAllAndNotD db (some t2)
  let (tb, db) ← cilCreateAttributeD1AndNotD2 db ta s4
  let curr := cilCreateAndAddAvrule curr s6 (ta.map .datum) p4
  let curr := cilCreateAndAddAvrule curr s5 (tb.map .datum) p4
  .ok (cilAddOtherRule curr s5 p4, db)

/-- The branch for an allow rule with `other` and a deny rule with the target `t2`. -/
def cilRemoveDatumFromOther (db : CilDb) (curr : List CilAvrule) (s1 t2 : CilDatum) (p4 : Option (List CilClassperms))
    (s3 s4 : Option CilDatum) : Except CilDenyError (List CilAvrule × CilDb) := do
  let (s5, db) ← cilCreateAttributeD1AndNotD2 db s4 (some t2)
  let (s6, db) ← cilCreateAttributeD1AndD2 db s4 (some t2)
  let (tc, db) ← cilCreateAttributeD1AndNotD2 db (some s1) (some t2)
  let (td, db) ← cilCreateAttributeD1AndNotD2 db s3 (some t2)
  let curr := cilCreateAndAddAvrule curr s6 (tc.map .datum) p4
  let curr := cilCreateAndAddAvrule curr s5 (td.map .datum) p4
  .ok (cilAddOtherRule curr s5 p4, db)

/-- The branch for an allow rule with the target `t1` and a deny rule with `notself` or `other`. -/
def cilRemoveSpecialFromDatum (db : CilDb) (curr : List CilAvrule) (t1 s2 : CilDatum) (t2 : CilTarget)
    (p4 : Option (List CilClassperms)) (s4 : Option CilDatum) : Except CilDenyError (List CilAvrule × CilDb) := do
  let (s8, db) ← cilCreateAttributeD1AndD2 db s4 (some t1)
  let curr := cilCreateAndAddAvrule curr s8 (some .selftype) p4
  if t2 = .notselftype then .ok (curr, db)
  else do
    let (t, db) ← cilCreateAttributeD1AndNotD2 db (some t1) (some s2)
    .ok (cilCreateAndAddAvrule curr s4 (t.map .datum) p4, db)

/-- `self` has no node, so that a branch that takes it for a type or an attribute is an error here. -/
def cilRemovePermissionsFromSpecialRule (db : CilDb) (curr : List CilAvrule) (s1 : CilDatum) (t1 : CilTarget)
    (s2 : CilDatum) (t2 : CilTarget) (p4 : Option (List CilClassperms)) (s3 s4 : Option CilDatum) :
    Except CilDenyError (List CilAvrule × CilDb) :=
  match t1 with
  | .notselftype =>
    match t2 with
    | .othertype => cilRemoveOtherFromNotself db curr s2 p4 s4
    | .datum t2 => cilRemoveDatumFromNotself db curr t2 p4 s4
    | _ => .error .invalid
  | .othertype =>
    let curr := cilCreateAndAddAvrule curr s3 (s4.map .datum) p4
    match t2 with
    | .notselftype => .ok (curr, db)
    | .othertype => .ok (cilCreateAndAddAvrule curr s4 (s3.map .datum) p4, db)
    | .datum t2 => cilRemoveDatumFromOther db curr s1 t2 p4 s3 s4
    | .selftype => .error .invalid
  | .datum t1 => cilRemoveSpecialFromDatum db curr t1 s2 t2 p4 s4
  | .selftype => .error .invalid

/-- The branch for an allow rule with `self` and a deny rule with the target `t2`. -/
def cilRemoveDatumFromSelf (db : CilDb) (curr : List CilAvrule) (t2 : CilDatum) (p4 : Option (List CilClassperms))
    (s4 : Option CilDatum) : Except CilDenyError (List CilAvrule × CilDb) := do
  let (s5, db) ← cilCreateAttributeD1AndNotD2 db s4 (some t2)
  .ok (cilCreateAndAddAvrule curr s5 (some .selftype) p4, db)

/-- The branch for an allow rule with the target `t1` and a deny rule with `self`. -/
def cilRemoveSelfFromDatum (db : CilDb) (curr : List CilAvrule) (t1 : CilDatum) (p4 : Option (List CilClassperms))
    (s4 : Option CilDatum) : Except CilDenyError (List CilAvrule × CilDb) := do
  let (s7, db) ← cilCreateAttributeD1AndNotD2 db s4 (some t1)
  let (s8, db) ← cilCreateAttributeD1AndD2 db s4 (some t1)
  let (t8, db) ← cilCreateAttributeD1AndNotD2 db (some t1) s4
  let curr := cilCreateAndAddAvrule curr s7 (some (.datum t1)) p4
  let curr := cilCreateAndAddAvrule curr s8 (t8.map .datum) p4
  .ok (cilAddOtherRule curr s8 p4, db)

/-- The branch for two rules whose targets are types or attributes. -/
def cilRemoveDatumFromDatum (db : CilDb) (curr : List CilAvrule) (t1 t2 : CilDatum) (p4 : Option (List CilClassperms))
    (s4 : Option CilDatum) : Except CilDenyError (List CilAvrule × CilDb) := do
  let (t3, db) ← cilCreateAttributeD1AndNotD2 db (some t1) (some t2)
  .ok (cilCreateAndAddAvrule curr s4 (t3.map .datum) p4, db)

/-- What is written for the sources and the permissions of both rules. -/
def cilRemoveTargets (db : CilDb) (curr : List CilAvrule) (s1 : CilDatum) (t1 : CilTarget) (s2 : CilDatum)
    (t2 : CilTarget) (p4 : Option (List CilClassperms)) (s3 s4 : Option CilDatum) :
    Except CilDenyError (List CilAvrule × CilDb) :=
  if t1 = .notselftype ∨ t1 = .othertype ∨ t2 = .notselftype ∨ t2 = .othertype then
    cilRemovePermissionsFromSpecialRule db curr s1 t1 s2 t2 p4 s3 s4
  else
    match t1, t2 with
    | .selftype, .datum t2 => cilRemoveDatumFromSelf db curr t2 p4 s4
    | .datum t1, .selftype => cilRemoveSelfFromDatum db curr t1 p4 s4
    | .datum t1, .datum t2 => cilRemoveDatumFromDatum db curr t1 t2 p4 s4
    | _, _ => .error .invalid

/-- The rule for the permissions that are not denied, when there are any. -/
def cilKeepPermissions (allow : CilAvrule) (p3 : Option (List CilClassperms)) : List CilAvrule :=
  if (p3.getD []).isEmpty then [] else cilCreateAndAddAvrule [] (some allow.src) (some allow.tgt) p3

/-- `cil_remove_permissions_from_rule`: the rules it inserts behind the allow rule, in their order. -/
def cilRemovePermissionsFromRule (db : CilDb) (allow : CilAvrule) (deny : CilDenyRule) :
    Except CilDenyError (List CilAvrule × CilDb) :=
  let curr := cilKeepPermissions allow (cilClasspermsListAndnot allow.classperms (some deny.classperms))
  let p4 := cilClasspermsListAnd allow.classperms (some deny.classperms)
  if (p4.getD []).isEmpty then .error .noMatch
  else do
    let (s3, db) ← cilCreateAttributeD1AndNotD2 db (some allow.src) (some deny.src)
    let curr := cilCreateAndAddAvrule curr s3 (some allow.tgt) p4
    if (allow.tgt = .selftype ∧ deny.tgt = .selftype) ∨ (allow.tgt = .notselftype ∧ deny.tgt = .notselftype) then
      .ok (curr, db)
    else do
      let (s4, db) ← cilCreateAttributeD1AndD2 db (some allow.src) (some deny.src)
      cilRemoveTargets db curr allow.src allow.tgt deny.src deny.tgt p4 s3 s4

/-! ### What the inserted rules grant -/

/-- One of the rules grants the permission. -/
def CilRulesGrant (n : Nat) (rules : List CilAvrule) (s t : Nat) (x : CilClass × CilPerm) : Prop :=
  ∃ r ∈ rules, r.Grants n s t x

/-- The pairs of a rule whose source and target may be `NULL`. -/
def AddedPair (n : Nat) (src : Option CilDatum) (tgt : Option CilTarget) (s t : Nat) : Prop :=
  ∃ a ∈ src, ∃ b ∈ tgt, RulePair n a b s t

/-- The data of the rules are those of a policy with `n` types. -/
def RulesOk (n : Nat) (rules : List CilAvrule) : Prop :=
  ∀ r ∈ rules, r.Ok n ∧ r.ruleKind = .allowed ∧ r.isExtended = false

theorem rulesGrant_nil {n s t : Nat} {x : CilClass × CilPerm} : ¬ CilRulesGrant n [] s t x := by simp [CilRulesGrant]

theorem addedPair_datum {n : Nat} {src tgt : Option CilDatum} {s t : Nat} :
    AddedPair n src (tgt.map .datum) s t ↔ HasType src s ∧ HasType tgt t := by
  cases src <;> cases tgt <;> simp [AddedPair, RulePair, CilTarget.Covers]

theorem addedPair_self {n : Nat} {src : Option CilDatum} {s t : Nat} :
    AddedPair n src (some .selftype) s t ↔ HasType src s ∧ t = s := by
  cases src <;> simp [AddedPair, RulePair, CilTarget.Covers]

theorem addedPair_notself {n : Nat} {src : Option CilDatum} {s t : Nat} :
    AddedPair n src (some .notselftype) s t ↔ HasType src s ∧ t < n ∧ t ≠ s := by
  cases src <;> simp [AddedPair, RulePair, CilTarget.Covers]

theorem addedPair_other {n : Nat} {src : Option CilDatum} {s t : Nat} :
    AddedPair n src (some .othertype) s t ↔ HasType src s ∧ HasType src t ∧ t ≠ s := by
  cases src <;> simp [AddedPair, RulePair, CilTarget.Covers]

theorem rulesGrant_add {n : Nat} (curr : List CilAvrule) (src : Option CilDatum) (tgt : Option CilTarget)
    (p : Option (List CilClassperms)) {s t : Nat} {x : CilClass × CilPerm} :
    CilRulesGrant n (cilCreateAndAddAvrule curr src tgt p) s t x ↔
      CilRulesGrant n curr s t x ∨ (AddedPair n src tgt s t ∧ x ∈ flatClasspermsList p) := by
  cases src with
  | none => simp [cilCreateAndAddAvrule, AddedPair]
  | some a =>
    cases tgt with
    | none => simp [cilCreateAndAddAvrule, AddedPair]
    | some b =>
      rw [cilCreateAndAddAvrule, CilRulesGrant, CilRulesGrant]
      simp only [List.mem_append, List.mem_singleton, or_and_right, exists_or, exists_eq_left]
      refine or_congr_right ?_
      rw [CilAvrule.Grants, cilCreateAvrule, flatClasspermsList_copy, AddedPair]
      simp

/-- The rule with target `other` may be left out where it would grant nothing. -/
theorem rulesGrant_addOther {n : Nat} (curr : List CilAvrule) {src : Option CilDatum} (hsrc : CilDatumOk n src)
    (p : Option (List CilClassperms)) {s t : Nat} {x : CilClass × CilPerm} :
    CilRulesGrant n (cilAddOtherRule curr src p) s t x ↔
      CilRulesGrant n curr s t x ∨ ((HasType src s ∧ HasType src t ∧ t ≠ s) ∧ x ∈ flatClasspermsList p) := by
  rw [cilAddOtherRule]
  split
  · rw [rulesGrant_add, addedPair_other]
  · rename_i hcard
    rw [cilDatumCardinality_gt_one_iff hsrc] at hcard
    refine (or_iff_left ?_).symm
    rintro ⟨⟨hs, ht, hne⟩, -⟩
    exact hcard ⟨t, s, ht, hs, hne⟩

theorem RulesOk.add {n : Nat} {curr : List CilAvrule} (h : RulesOk n curr) {src : Option CilDatum}
    (hsrc : CilDatumOk n src) {tgt : Option CilTarget} (htgt : ∀ b ∈ tgt, b.Ok n) (p : Option (List CilClassperms)) :
    RulesOk n (cilCreateAndAddAvrule curr src tgt p) := by
  cases src with
  | none => exact h
  | some a =>
    cases tgt with
    | none => exact h
    | some b =>
      intro r hr
      rcases List.mem_append.1 hr with hr | hr
      · exact h r hr
      · obtain rfl := List.mem_singleton.1 hr
        exact ⟨⟨hsrc a rfl, htgt b rfl⟩, rfl, rfl⟩

theorem RulesOk.addDatum {n : Nat} {curr : List CilAvrule} (h : RulesOk n curr) {src tgt : Option CilDatum}
    (hsrc : CilDatumOk n src) (htgt : CilDatumOk n tgt) (p : Option (List CilClassperms)) :
    RulesOk n (cilCreateAndAddAvrule curr src (tgt.map .datum) p) := by
  refine h.add hsrc ?_ p
  intro b hb
  obtain ⟨d, hd, rfl⟩ := Option.map_eq_some_iff.1 hb
  exact htgt d hd

theorem RulesOk.addOther {n : Nat} {curr : List CilAvrule} (h : RulesOk n curr) {src : Option CilDatum}
    (hsrc : CilDatumOk n src) (p : Option (List CilClassperms)) : RulesOk n (cilAddOtherRule curr src p) := by
  rw [cilAddOtherRule]
  split
  · refine h.add hsrc ?_ p
    rintro b hb
    obtain rfl := Option.mem_some_iff.1 hb
    trivial
  · exact h

end Sepol
