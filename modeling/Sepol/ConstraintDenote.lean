import Sepol.Lib.Postfix
import Sepol.MlsOrder
import Sepol.ConstraintEval

/-!
# The value of a constraint

A list that `validate_constraint_nodes` accepts is the postfix form of exactly one expression over comparisons of the
contexts.  This module says what the expression means, and proves that the evaluator finds the truth of each
comparison.
-/

namespace Sepol

open Postfix

inductive ConstraintOp where
  | and
  | or

/-- Expressions over entries that compare attributes or look up names. -/
abbrev ConstraintTree : Type := Tree ConstraintExpr Unit ConstraintOp

def constraintToken (e : ConstraintExpr) : Option (Token ConstraintExpr Unit ConstraintOp) :=
  match e.exprType with
  | cexprNot => some (.unary ())
  | cexprAnd => some (.binary .and)
  | cexprOr => some (.binary .or)
  | cexprAttr => some (.operand e)
  | cexprNames => some (.operand e)
  | _ => none

/-- The list is the postfix form of the expression. -/
def ConstraintTree.IsExpr (t : ConstraintTree) (expr : List ConstraintExpr) : Prop :=
  expr.mapM constraintToken = some t.tokens

/-! ### Meaning -/

/-- What an operator says, given what equality and the two directions of dominance say. -/
def comparison (eq dom domby : Prop) : Nat → Prop
  | cexprOpEq => eq
  | cexprOpNeq => ¬ eq
  | cexprOpDom => dom
  | cexprOpDomby => domby
  | cexprOpIncomp => ¬ dom ∧ ¬ domby
  | _ => False

def levelComparison (l1 l2 : MlsLevel) : Nat → Prop :=
  comparison (l1.Same l2) (l1.Dominates l2) (l2.Dominates l1)

def ConstraintExpr.AttrHolds (p : ConstraintPolicydb) (s t : Context) (e : ConstraintExpr) : Prop :=
  if e.attr = cexprUser then comparison (s.user = t.user) False False e.op
  else if e.attr = cexprType then comparison (s.type = t.type) False False e.op
  else if e.attr = cexprRole then
    comparison (s.role = t.role) (t.role - 1 ∈ p.dominates (s.role - 1)) (s.role - 1 ∈ p.dominates (t.role - 1)) e.op
  else if e.attr = cexprL1L2 then levelComparison s.range.level0 t.range.level0 e.op
  else if e.attr = cexprL1H2 then levelComparison s.range.level0 t.range.level1 e.op
  else if e.attr = cexprH1L2 then levelComparison s.range.level1 t.range.level0 e.op
  else if e.attr = cexprH1H2 then levelComparison s.range.level1 t.range.level1 e.op
  else if e.attr = cexprL1H1 then levelComparison s.range.level0 s.range.level1 e.op
  else if e.attr = cexprL2H2 then levelComparison t.range.level0 t.range.level1 e.op
  else False

/-- The context whose value is looked up. -/
def ConstraintExpr.namesContext (s t : Context) (x : Option Context) (e : ConstraintExpr) : Option Context :=
  if e.attr &&& cexprTarget ≠ 0 then some t
  else if e.attr &&& cexprXtarget ≠ 0 then x
  else some s

def ConstraintExpr.namesValue (c : Context) (e : ConstraintExpr) : Nat :=
  if e.attr &&& cexprUser ≠ 0 then c.user
  else if e.attr &&& cexprRole ≠ 0 then c.role
  else c.type

def ConstraintExpr.NamesHolds (s t : Context) (x : Option Context) (e : ConstraintExpr) : Prop :=
  ∃ c ∈ e.namesContext s t x, comparison (e.namesValue c - 1 ∈ e.names) False False e.op

def constraintMeaning (p : ConstraintPolicydb) (s t : Context) (x : Option Context) :
    Interp ConstraintExpr Unit ConstraintOp Prop where
  leaf e := if e.exprType = cexprNames then e.NamesHolds s t x else e.AttrHolds p s t
  unary _ a := ¬ a
  binary
    | .and => And
    | .or => Or

/-- The expression holds of the contexts. -/
def ConstraintTree.Holds (p : ConstraintPolicydb) (s t : Context) (x : Option Context) (tree : ConstraintTree) :
    Prop :=
  tree.eval (constraintMeaning p s t x)

/-! ### Assumptions -/

/-- The role `object_r` that `policydb_init` enters, the index that `policydb_index_others` makes, and bitmaps as the
readers build them. -/
structure ConstraintPolicydb.Indexed (p : ConstraintPolicydb) : Prop where
  objectR : ∃ datum, (objectR, datum) ∈ p.pRoles.table ∧ datum.value = objectRVal
  roles : ∀ key datum, (key, datum) ∈ p.pRoles.table → (p.roleValToStruct (datum.value - 1)).isSome
  dominates : ∀ i, (p.dominates i).Canonical

structure ConstraintPolicydb.Valid (p : ConstraintPolicydb) (c : Context) : Prop where
  valid : contextIsValid p.toPolicydb c = true
  level0 : c.range.level0.cat.Canonical
  level1 : c.range.level1.cat.Canonical

/-- The contexts that constraints are evaluated for. -/
abbrev ConstraintPolicydb.ValidContext (p : ConstraintPolicydb) : Type := { c : Context // p.Valid c }

/-- What the evaluator needs of a context: its role has an entry in the array of roles. -/
structure ConstraintPolicydb.Evaluable (p : ConstraintPolicydb) (c : Context) : Prop where
  role_pos : 0 < c.role
  role_le : c.role ≤ p.pRoles.nprim
  role : (p.roleValToStruct (c.role - 1)).isSome
  level0 : c.range.level0.cat.Canonical
  level1 : c.range.level1.cat.Canonical

structure ConstraintExpr.Canonical (e : ConstraintExpr) : Prop where
  names : e.names.Canonical
  types : e.typeNames.types.Canonical

variable {p : ConstraintPolicydb} {s t c : Context} {x : Option Context} {e : ConstraintExpr}
  {expr : List ConstraintExpr} {isValidatetrans : Bool} {flavors : ConstraintFlavors}
  {ts : List (Token ConstraintExpr Unit ConstraintOp)}

theorem contextIsValid_bounds {p : Policydb} (h : contextIsValid p c = true) :
    (0 < c.user ∧ c.user ≤ p.pUsers.nprim) ∧ (0 < c.role ∧ c.role ≤ p.pRoles.nprim) ∧
      (0 < c.type ∧ c.type ≤ p.pTypes.nprim) := by
  unfold contextIsValid at h
  split at h
  · cases h
  · split at h
    · cases h
    · split at h
      · cases h
      · simp only [Bool.or_eq_true, decide_eq_true_iff] at *
        omega

private theorem roleValToStruct_isSome (hp : p.Indexed) (h : contextIsValid p.toPolicydb c = true) :
    (p.roleValToStruct (c.role - 1)).isSome := by
  by_cases hrole : c.role = objectRVal
  · obtain ⟨datum, hmem, hvalue⟩ := hp.objectR
    have hsome := hp.roles _ _ hmem
    rwa [hvalue, ← hrole] at hsome
  · unfold contextIsValid at h
    simp only [ne_eq, hrole, not_false_eq_true, if_true] at h
    cases hstruct : p.roleValToStruct (c.role - 1) with
    | none =>
      rw [hstruct] at h
      simp at h
    | some role => rfl

theorem ConstraintPolicydb.Valid.evaluable (hp : p.Indexed) (h : p.Valid c) : p.Evaluable c :=
  have hrole := (contextIsValid_bounds h.valid).2.1
  ⟨hrole.1, hrole.2, roleValToStruct_isSome hp h.valid, h.level0, h.level1⟩

/-! ### One entry -/

/-- The result is the truth of the proposition with a text that is in parentheses. -/
def Answers (r : Except ConstraintExit ConstraintValue) (P : Prop) : Prop :=
  ∃ v text, r = .ok (v, '(' :: text) ∧ (v = true ↔ P)

private theorem answers_constraintValue {v : Bool} {P : Prop} (src tgt op : CString) (h : v = true ↔ P) :
    Answers (constraintValue v src tgt op) P :=
  ⟨v, _, rfl, h⟩

private theorem constraintValues_answers (val1 val2 : Nat) (src tgt : CString) {op : Nat} (dom domby : Prop)
    (hop : op = cexprOpEq ∨ op = cexprOpNeq) :
    Answers (constraintValues val1 val2 src tgt op) (comparison (val1 = val2) dom domby op) := by
  rcases hop with rfl | rfl
  · exact answers_constraintValue _ _ _ decide_eq_true_iff
  · exact answers_constraintValue _ _ _ decide_eq_true_iff

/-- The five operators. -/
def IsComparison (op : Nat) : Prop :=
  op = cexprOpEq ∨ op = cexprOpNeq ∨ op = cexprOpDom ∨ op = cexprOpDomby ∨ op = cexprOpIncomp

private theorem constraintLevels_answers {l1 l2 : MlsLevel} (h1 : l1.cat.Canonical) (h2 : l2.cat.Canonical)
    (src tgt : CString) {op : Nat} (hop : IsComparison op) :
    Answers (constraintLevels l1 l2 src tgt op) (levelComparison l1 l2 op) := by
  have hdom := mlsLevelDom_iff h1 h2
  have hdomby := mlsLevelDom_iff h2 h1
  have heq := mlsLevelEq_iff_same h1 h2
  rcases hop with rfl | rfl | rfl | rfl | rfl
  · exact answers_constraintValue _ _ _ heq
  · refine answers_constraintValue _ _ _ ?_
    rw [Bool.not_eq_true', ← Bool.not_eq_true, heq]
    rfl
  · exact answers_constraintValue _ _ _ hdom
  · exact answers_constraintValue _ _ _ hdomby
  · refine answers_constraintValue _ _ _ ?_
    rw [mlsLevelIncomp, Bool.and_eq_true, Bool.not_eq_true', Bool.not_eq_true', ← Bool.not_eq_true,
      ← Bool.not_eq_true, hdom, hdomby]
    exact and_comm

private theorem constraintRoles_answers (hp : p.Indexed) (hs : p.Evaluable s) (ht : p.Evaluable t) {op : Nat}
    (hop : IsComparison op) :
    Answers (constraintRoles p s.role t.role op) (comparison (s.role = t.role)
      (t.role - 1 ∈ p.dominates (s.role - 1)) (s.role - 1 ∈ p.dominates (t.role - 1)) op) := by
  have hspos := hs.role_pos
  have hsle := hs.role_le
  have htpos := ht.role_pos
  have htle := ht.role_le
  obtain ⟨r1, hr1⟩ := Option.isSome_iff_exists.1 hs.role
  obtain ⟨r2, hr2⟩ := Option.isSome_iff_exists.1 ht.role
  have hdom := ebitmapGetBit_iff (hp.dominates (s.role - 1)) (t.role - 1)
  have hdomby := ebitmapGetBit_iff (hp.dominates (t.role - 1)) (s.role - 1)
  unfold constraintRoles
  rw [if_neg (by omega), hr1, hr2]
  rcases hop with rfl | rfl | rfl | rfl | rfl
  · exact constraintValues_answers _ _ _ _ _ _ (.inl rfl)
  · exact constraintValues_answers _ _ _ _ _ _ (.inr rfl)
  · exact answers_constraintValue _ _ _ hdom
  · exact answers_constraintValue _ _ _ hdomby
  · simp only [Option.isNone_some, Bool.false_eq_true, and_false, if_false]
    refine answers_constraintValue _ _ _ ?_
    rw [Bool.and_eq_true, Bool.not_eq_true', Bool.not_eq_true', ← Bool.not_eq_true, ← Bool.not_eq_true, hdom, hdomby]
    rfl

/-- Users and types are only tested for equality. -/
private theorem validateCexprAttr_cases (h : validateCexprAttr e = true) :
    IsComparison e.op ∧ (e.attr = cexprUser ∨ e.attr = cexprType → e.op = cexprOpEq ∨ e.op = cexprOpNeq) ∧
      e.attr ∈ [cexprUser, cexprRole, cexprType, cexprL1L2, cexprL1H2, cexprH1L2, cexprH1H2,
        cexprL1H1, cexprL2H2] := by
  unfold validateCexprAttr at h
  split at h
  · cases h
  · split at h
    · cases h
    · rw [Bool.and_eq_true, decide_eq_true_iff] at h
      obtain ⟨hop, hattr⟩ := h
      refine ⟨?_, ?_, hattr⟩
      · unfold IsComparison
        split at hop <;> simp_all
      · intro hkind
        have hkind : (!(decide (e.attr &&& cexprUser ≠ 0) || decide (e.attr &&& cexprType ≠ 0))) = false := by
          rcases hkind with hkind | hkind <;> rw [hkind] <;> rfl
        rw [hkind] at hop
        split at hop
        · next heq => exact .inl heq
        · next heq => exact .inr heq
        all_goals cases hop

theorem constraintAttr_answers (hp : p.Indexed) (hs : p.Evaluable s) (ht : p.Evaluable t)
    (h : validateCexprAttr e = true) : Answers (constraintAttr p s t e) (e.AttrHolds p s t) := by
  obtain ⟨hcmp, hop, hattr⟩ := validateCexprAttr_cases h
  unfold constraintAttr ConstraintExpr.AttrHolds
  simp only [List.mem_cons, List.not_mem_nil, or_false] at hattr
  rcases hattr with hattr | hattr | hattr | hattr | hattr | hattr | hattr | hattr | hattr <;> rw [hattr]
  · exact constraintValues_answers _ _ _ _ _ _ (hop (.inl hattr))
  · exact constraintRoles_answers hp hs ht hcmp
  · exact constraintValues_answers _ _ _ _ _ _ (hop (.inr hattr))
  · exact constraintLevels_answers hs.level0 ht.level0 _ _ hcmp
  · exact constraintLevels_answers hs.level0 ht.level1 _ _ hcmp
  · exact constraintLevels_answers hs.level1 ht.level0 _ _ hcmp
  · exact constraintLevels_answers hs.level1 ht.level1 _ _ hcmp
  · exact constraintLevels_answers hs.level0 hs.level1 _ _ hcmp
  · exact constraintLevels_answers ht.level0 ht.level1 _ _ hcmp

/-! ### Names -/

private theorem getNameList_ok {type : BitVec 32} (hcanonical : e.Canonical)
    (hnames : ∀ i ∈ e.names, i < (valToName p.toPolicydb type).2)
    (htypes : type = cexprType → ∀ i ∈ e.typeNames.types, i < (valToName p.toPolicydb type).2) (src op : CString)
    (failed : Bool) : ∃ text, getNameList p.toPolicydb e type src op failed = .ok ('(' :: text) := by
  unfold getNameList
  dsimp only
  rw [if_neg]
  · exact ⟨_, rfl⟩
  · intro hany
    obtain ⟨i, hi, hge⟩ := List.any_eq_true.1 hany
    have hbit := (Bool.and_eq_true_iff.1 (List.mem_filter.1 hi).2).2
    rw [decide_eq_true_iff] at hge
    split at hbit
    · next hkind =>
      have hlt := htypes hkind.2.2 i ((ebitmapGetBit_iff hcanonical.types i).1 hbit)
      omega
    · have hlt := hnames i ((ebitmapGetBit_iff hcanonical.names i).1 hbit)
      omega

/-- The kinds of names with the flags for the context. -/
theorem validateCexprNames_cases (h : validateCexprNames isValidatetrans flavors e = true) :
    (e.op = cexprOpEq ∨ e.op = cexprOpNeq) ∧ (e.attr &&& cexprXtarget ≠ 0 → isValidatetrans = true) ∧
      (e.attr ∈ [cexprUser, cexprUser ||| cexprTarget, cexprUser ||| cexprXtarget] ∧
          validateEbitmap e.names flavors.users = true ∨
        e.attr ∈ [cexprRole, cexprRole ||| cexprTarget, cexprRole ||| cexprXtarget] ∧
          validateEbitmap e.names flavors.roles = true ∨
        e.attr ∈ [cexprType, cexprType ||| cexprTarget, cexprType ||| cexprXtarget] ∧
          validateEbitmap e.names flavors.types = true ∧
          validateEbitmap e.typeNames.types flavors.types = true) := by
  unfold validateCexprNames at h
  split at h
  · cases h
  · next hx =>
    split at h
    · cases h
    · split at h
      · cases h
      · next hop =>
        refine ⟨by omega, fun hbit => ?_, ?_⟩
        · by_contra hval
          exact hx ⟨hbit, by rw [Bool.not_eq_true', ← Bool.not_eq_true]; exact hval⟩
        · split at h
          · next hattr => exact .inl ⟨hattr, h⟩
          · split at h
            · next hattr => exact .inr (.inl ⟨hattr, h⟩)
            · split at h
              · next hattr =>
                rw [Bool.and_eq_true, validateTypeSet, Bool.and_eq_true, Bool.and_eq_true] at h
                exact .inr (.inr ⟨hattr, h.1, h.2.1.1⟩)
              · cases h

private theorem lookup_answers {type : BitVec 32} (val1 : Nat) (src : CString)
    (hop : e.op = cexprOpEq ∨ e.op = cexprOpNeq) (hcanonical : e.Canonical)
    (hnames : ∀ i ∈ e.names, i < (valToName p.toPolicydb type).2)
    (htypes : type = cexprType → ∀ i ∈ e.typeNames.types, i < (valToName p.toPolicydb type).2) :
    Answers
      (match e.op with
      | cexprOpEq => (getNameList p.toPolicydb e type src ['=', '='] (!ebitmapGetBit e.names (val1 - 1))).map
          fun text => (ebitmapGetBit e.names (val1 - 1), text)
      | cexprOpNeq => (getNameList p.toPolicydb e type src ['!', '='] (ebitmapGetBit e.names (val1 - 1))).map
          fun text => (!ebitmapGetBit e.names (val1 - 1), text)
      | _ => .error .bug) (comparison (val1 - 1 ∈ e.names) False False e.op) := by
  have hbit := ebitmapGetBit_iff hcanonical.names (val1 - 1)
  rcases hop with hop | hop
  · obtain ⟨text, htext⟩ := getNameList_ok hcanonical hnames htypes src ['=', '='] (!ebitmapGetBit e.names (val1 - 1))
    rw [hop, htext]
    exact ⟨_, text, rfl, hbit⟩
  · obtain ⟨text, htext⟩ := getNameList_ok hcanonical hnames htypes src ['!', '='] (ebitmapGetBit e.names (val1 - 1))
    rw [hop, htext]
    refine ⟨_, text, rfl, ?_⟩
    rw [Bool.not_eq_true', ← Bool.not_eq_true, hbit]
    rfl

theorem constraintNames_answers (hflavors : validateArrayInit p.toPolicydb = some flavors)
    (hx : isValidatetrans = true → x.isSome) (hcanonical : e.Canonical)
    (h : validateCexprNames isValidatetrans flavors e = true) :
    Answers (constraintNames p s t x e) (e.NamesHolds s t x) := by
  obtain ⟨hop, hxtarget, hkind⟩ := validateCexprNames_cases h
  obtain ⟨husers, hroles, htypes⟩ := validateArrayInit_nprim hflavors
  have hcontext : ∃ c num, e.namesContext s t x = some c ∧
      (if e.attr &&& cexprTarget ≠ 0 then ('2', some t)
        else if e.attr &&& cexprXtarget ≠ 0 then ('3', x)
        else ('1', some s)) = ((num, some c) : Char × Option Context) := by
    unfold ConstraintExpr.namesContext
    by_cases htarget : e.attr &&& cexprTarget ≠ 0
    · rw [if_pos htarget, if_pos htarget]
      exact ⟨t, '2', rfl, rfl⟩
    · rw [if_neg htarget, if_neg htarget]
      by_cases hbit : e.attr &&& cexprXtarget ≠ 0
      · obtain ⟨c, rfl⟩ := Option.isSome_iff_exists.1 (hx (hxtarget hbit))
        rw [if_pos hbit, if_pos hbit]
        exact ⟨c, '3', rfl, rfl⟩
      · rw [if_neg hbit, if_neg hbit]
        exact ⟨s, '1', rfl, rfl⟩
  obtain ⟨c, num, hc, hpair⟩ := hcontext
  have hholds : e.NamesHolds s t x ↔ comparison (e.namesValue c - 1 ∈ e.names) False False e.op := by
    unfold ConstraintExpr.NamesHolds
    rw [hc]
    simp
  unfold Answers
  rw [hholds]
  unfold constraintNames ConstraintExpr.namesValue
  rw [hpair]
  dsimp only
  rcases hkind with ⟨hattr, hset⟩ | ⟨hattr, hset⟩ | ⟨hattr, hset, htypeset⟩
  · have huser : e.attr &&& cexprUser ≠ 0 := by
      simp only [List.mem_cons, List.not_mem_nil, or_false] at hattr
      rcases hattr with hattr | hattr | hattr <;> rw [hattr] <;> decide
    rw [if_pos huser, if_pos huser]
    refine lookup_answers _ _ hop hcanonical (fun i hi => ?_) (fun htype => absurd htype (by decide))
    have hlt := lt_of_validateEbitmap hcanonical.names hset hi
    rwa [husers] at hlt
  · have hrole : e.attr &&& cexprUser = 0 ∧ e.attr &&& cexprRole ≠ 0 := by
      simp only [List.mem_cons, List.not_mem_nil, or_false] at hattr
      rcases hattr with hattr | hattr | hattr <;> rw [hattr] <;> decide
    rw [if_neg (not_not.2 hrole.1), if_pos hrole.2, if_neg (not_not.2 hrole.1), if_pos hrole.2]
    refine lookup_answers _ _ hop hcanonical (fun i hi => ?_) (fun htype => absurd htype (by decide))
    have hlt := lt_of_validateEbitmap hcanonical.names hset hi
    rwa [hroles] at hlt
  · have htype : e.attr &&& cexprUser = 0 ∧ e.attr &&& cexprRole = 0 ∧ e.attr &&& cexprType ≠ 0 := by
      simp only [List.mem_cons, List.not_mem_nil, or_false] at hattr
      rcases hattr with hattr | hattr | hattr <;> rw [hattr] <;> decide
    rw [if_neg (not_not.2 htype.1), if_neg (not_not.2 htype.2.1), if_pos htype.2.2, if_neg (not_not.2 htype.1),
      if_neg (not_not.2 htype.2.1)]
    refine lookup_answers _ _ hop hcanonical (fun i hi => ?_) (fun _ i hi => ?_)
    · have hlt := lt_of_validateEbitmap hcanonical.names hset hi
      rwa [htypes] at hlt
    · have hlt := lt_of_validateEbitmap hcanonical.types htypeset hi
      rwa [htypes] at hlt

end Sepol
