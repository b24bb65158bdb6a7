import Sepol.CilConstraintDenote
import Sepol.CilDatumSets

/-!
# The entries of a CIL constraint

The set of an entry holds the symbols that the names of the comparison stand for, and the validator finds all of them.
An entry is accepted exactly when the comparison fits, and then says of the contexts what the comparison says.
-/

namespace Sepol

/-! ### Numbered symbols -/

/-- The symbols have values from 1 on, and the array that `policydb_index` makes has a name for each. -/
structure Symtab.Numbered {α : Type} (s : Symtab α) (value : α → Nat) (valToName : Nat → Option CString) : Prop where
  fits : s.nprim < 2 ^ 32
  entry : ∀ key datum, (key, datum) ∈ s.table →
    0 < value datum ∧ value datum ≤ s.nprim ∧ (valToName (value datum - 1)).isSome

/-- A class counts its permissions and those of its common, at most 32. -/
structure ClassDatum.PermsNumbered (cls : ClassDatum) : Prop where
  fits : cls.permissions.nprim ≤ permSymtabSize
  own : ∀ key perm, (key, perm) ∈ cls.permissions.table → 0 < perm.value ∧ perm.value ≤ cls.permissions.nprim
  common : ∀ common, cls.comdatum = some common → ∀ key perm, (key, perm) ∈ common.permissions.table →
    0 < perm.value ∧ perm.value ≤ cls.permissions.nprim

structure Policydb.Numbered (p : Policydb) : Prop where
  users : p.pUsers.Numbered UserDatum.value p.pUserValToName
  roles : p.pRoles.Numbered RoleDatum.value p.pRoleValToName
  types : p.pTypes.Numbered TypeDatum.value p.pTypeValToName
  classes : ∀ key cls, (key, cls) ∈ p.pClasses.table → cls.PermsNumbered

def CilConsKind.names (p : Policydb) : CilConsKind → Nat → Option CString
  | .user => p.pUserValToName
  | .role => p.pRoleValToName
  | .type => p.pTypeValToName
  | .level => fun _ => none

def CilConsKind.nprim (p : Policydb) : CilConsKind → Nat
  | .user => p.pUsers.nprim
  | .role => p.pRoles.nprim
  | .type => p.pTypes.nprim
  | .level => 0

/-- A bitmap of symbols of the kind. -/
structure NamesFit (p : Policydb) (kind : CilConsKind) (e : Ebitmap) : Prop where
  canonical : e.Canonical
  mem : ∀ i ∈ e, i < kind.nprim p ∧ (kind.names p i).isSome

variable {p : Policydb} {db : CilConsDb} {kind : CilConsKind} {d : CilConsDatum} {ds : List CilConsDatum}

theorem NamesFit.init (p : Policydb) (kind : CilConsKind) : NamesFit p kind ebitmapInit :=
  ⟨Ebitmap.Canonical.init, fun i hi => absurd hi (not_mem_ebitmapInit i)⟩

private theorem Symtab.Numbered.found {α : Type} {s : Symtab α} {value : α → Nat} {valToName : Nat → Option CString}
    (h : s.Numbered value valToName) {fqn : CString} {v : Nat}
    (hv : (hashtabSearch s.table fqn).map value = some v) :
    0 < v ∧ v ≤ s.nprim ∧ (valToName (v - 1)).isSome ∧ v < 2 ^ 32 := by
  obtain ⟨datum, hfound, rfl⟩ := Option.map_eq_some_iff.1 hv
  obtain ⟨hpos, hle, hname⟩ := h.entry fqn datum (mem_of_hashtabSearch hfound)
  exact ⟨hpos, hle, hname, hle.trans_lt h.fits⟩

private theorem cilGetSepolValue_bounds (hp : p.Numbered) {fqn : CString} {v : Nat}
    (h : cilGetSepolValue p kind fqn = some v) :
    0 < v ∧ v ≤ kind.nprim p ∧ (kind.names p (v - 1)).isSome ∧ v < 2 ^ 32 := by
  cases kind with
  | user => exact hp.users.found h
  | role => exact hp.roles.found h
  | type => exact hp.types.found h
  | level => cases h

/-- Setting the bit of a symbol. -/
theorem NamesFit.setBit (hp : p.Numbered) {e e' : Ebitmap} (he : NamesFit p kind e) {fqn : CString} {v : Nat}
    (hv : cilGetSepolValue p kind fqn = some v) (h : ebitmapSetBit e (v - 1) true = some e') :
    NamesFit p kind e' ∧ ∀ i, i ∈ e' ↔ i ∈ e ∨ i = v - 1 := by
  obtain ⟨hpos, hle, hname, hlt⟩ := cilGetSepolValue_bounds hp hv
  have hbit := lt_of_ebitmapSetBit h (by omega)
  have hmem := mem_of_ebitmapSetBit he.canonical hbit h
  refine ⟨⟨he.canonical.setBit hbit h, fun i hi => ?_⟩, hmem⟩
  rcases (hmem i).1 hi with hi | rfl
  · exact he.mem i hi
  · exact ⟨by omega, hname⟩

/-! ### The sets of an entry -/

theorem cilExpandDatum_spec {e : Ebitmap} (h : cilExpandDatum d = some e) : e.Canonical ∧ ∀ i, i ∈ e ↔ d.Has i := by
  cases d with
  | value v =>
    have hlt := v.isLt
    have hbit : (v : Nat) < 2 ^ 32 - 64 := by omega
    refine ⟨Ebitmap.Canonical.init.setBit hbit h, fun i => ?_⟩
    rw [mem_of_ebitmapSetBit Ebitmap.Canonical.init hbit h]
    exact or_iff_right (not_mem_ebitmapInit i)
  | attr fqn keep members canonical =>
    obtain rfl := Option.some.inj h
    rw [ebitmapCpy_eq]
    exact ⟨canonical, fun i => Iff.rfl⟩

private theorem cilConstrainNames_spec (hp : p.Numbered) {l : List Nat} {names names' : Ebitmap}
    (hnames : NamesFit p kind names)
    (h : cilConstrainNames p db kind l names = some names') :
    NamesFit p kind names' ∧ ∀ i, i ∈ names' ↔ i ∈ names ∨
      ∃ j ∈ l, ∃ value, cilGetSepolValue p kind (db.valToFqn kind j) = some value ∧ i = value - 1 := by
  induction l generalizing names with
  | nil =>
    obtain rfl := Option.some.inj h
    exact ⟨hnames, fun i => by simp⟩
  | cons j l ih =>
    obtain ⟨value, hvalue, h⟩ := Option.bind_eq_some_iff.1 h
    obtain ⟨names1, hset, h⟩ := Option.bind_eq_some_iff.1 h
    obtain ⟨hfit, hmem⟩ := hnames.setBit hp hvalue hset
    obtain ⟨hfit', hmem'⟩ := ih hfit h
    refine ⟨hfit', fun i => ?_⟩
    rw [hmem', hmem, or_assoc]
    simp [hvalue]

private theorem cilConstrainTypeName_spec (hp : p.Numbered) {types types' : Ebitmap} (htypes : NamesFit p .type types)
    (h : cilConstrainTypeName p db d kind types = some types') :
    NamesFit p .type types' ∧ (kind ≠ .type → types' = types) := by
  unfold cilConstrainTypeName at h
  split at h
  · next htype =>
    split at h
    · next value hvalue => exact ⟨(htypes.setBit hp hvalue h).1, fun hkind => absurd htype.1 hkind⟩
    · split at h
      · obtain rfl := Option.some.inj h
        exact ⟨htypes, fun _ => rfl⟩
      · cases h
    · cases h
  · obtain rfl := Option.some.inj h
    exact ⟨htypes, fun _ => rfl⟩

/-- An entry with the names of datums. -/
structure NamesEntry (p : Policydb) (db : CilConsDb) (kind : CilConsKind) (attr : BitVec 32) (op : Nat)
    (ds : List CilConsDatum) (x : ConstraintExpr) : Prop where
  exprType : x.exprType = cexprNames
  attr : x.attr = attr
  op : x.op = op
  names : NamesFit p kind x.names
  mem : ∀ i, i ∈ x.names ↔
    ∃ d ∈ ds, ∃ j, d.Has j ∧ ∃ value, cilGetSepolValue p kind (db.valToFqn kind j) = some value ∧ i = value - 1
  types : NamesFit p .type x.typeNames.types
  noTypes : kind ≠ .type → x.typeNames.types = ebitmapInit
  negset : x.typeNames.negset = ebitmapInit
  flags : x.typeNames.flags = 0

variable {attr : BitVec 32} {op : Nat} {x x' : ConstraintExpr}

private theorem NamesEntry.nil (p : Policydb) (db : CilConsDb) (kind : CilConsKind) (attr : BitVec 32) (op : Nat) :
    NamesEntry p db kind attr op [] { constraintExprInit with exprType := cexprNames, op := op, attr := attr } where
  exprType := rfl
  attr := rfl
  op := rfl
  names := .init p kind
  mem i := by simp [constraintExprInit]
  types := .init p .type
  noTypes _ := rfl
  negset := rfl
  flags := rfl

private theorem NamesEntry.add (hp : p.Numbered) (hx : NamesEntry p db kind attr op ds x)
    (h : cilConstrainExprDatumToSepolExpr p db d kind x = some x') : NamesEntry p db kind attr op (ds ++ [d]) x' := by
  unfold cilConstrainExprDatumToSepolExpr at h
  split at h
  · cases h
  · obtain ⟨types, htypes, h⟩ := Option.bind_eq_some_iff.1 h
    obtain ⟨bitmap, hbitmap, h⟩ := Option.bind_eq_some_iff.1 h
    obtain ⟨names, hnames, h⟩ := Option.bind_eq_some_iff.1 h
    obtain rfl := Option.some.inj h
    obtain ⟨hcanonical, hhas⟩ := cilExpandDatum_spec hbitmap
    obtain ⟨hfit, hmem⟩ := cilConstrainNames_spec hp hx.names hnames
    obtain ⟨htypes, hkept⟩ := cilConstrainTypeName_spec hp hx.types htypes
    refine ⟨hx.exprType, hx.attr, hx.op, hfit, fun i => ?_, htypes, fun hkind => ?_, hx.negset, hx.flags⟩
    · rw [hmem, hx.mem]
      simp only [mem_ebitmapPositiveBits hcanonical, hhas, List.mem_append, List.mem_singleton, or_and_right,
        exists_or, exists_eq_left]
    · exact (hkept hkind).trans (hx.noTypes hkind)

private theorem NamesEntry.addAll (hp : p.Numbered) (more : List CilConsDatum)
    (hx : NamesEntry p db kind attr op ds x)
    (h : more.foldlM (fun x d => cilConstrainExprDatumToSepolExpr p db d kind x) x = some x') :
    NamesEntry p db kind attr op (ds ++ more) x' := by
  induction more generalizing ds x with
  | nil =>
    obtain rfl := Option.some.inj h
    rwa [List.append_nil]
  | cons d more ih =>
    rw [List.foldlM_cons] at h
    obtain ⟨x1, hd, h⟩ := Option.bind_eq_some_iff.1 h
    have hall := ih (hx.add hp hd) h
    rwa [List.append_assoc] at hall

/-- The entry of a comparison with names. -/
theorem namesEntry_of_leaf (hp : p.Numbered) {l : CilConsOperand} {r : CilConsRight CilConsDatum}
    (hr : r.operand? = none) (h : cilConstrainExprLeafToSepolExpr p db kind op l r = some x) :
    ∃ attr, cilConstrainLeafAttr l r = some attr ∧ NamesEntry p db kind attr op r.datums x := by
  obtain ⟨attr, hattr, h⟩ := Option.bind_eq_some_iff.1 h
  refine ⟨attr, hattr, ?_⟩
  cases r with
  | operand o => cases hr
  | name d => exact (NamesEntry.nil p db kind attr op).add hp h
  | names ds => exact (NamesEntry.nil p db kind attr op).addAll hp ds h

/-! ### What the validator says of them -/

/-- The gaps of a kind of symbols have no names. -/
structure Validate.Covers (v : Validate) (valToName : Nat → Option CString) (nprim : Nat) : Prop where
  nprim : v.nprim = nprim
  canonical : v.gaps.Canonical
  gaps : ∀ i ∈ v.gaps, valToName i = none

private theorem gaps_spec {valToName : Nat → Option CString} {l : List Nat} (hl : ∀ i ∈ l, i < 2 ^ 32)
    {gaps gaps' : Ebitmap} (hgaps : gaps.Canonical) (hnone : ∀ i ∈ gaps, valToName i = none)
    (h : l.foldlM (fun gaps i => if (valToName i).isNone then ebitmapSetBit gaps i true else some gaps) gaps =
      some gaps') : gaps'.Canonical ∧ ∀ i ∈ gaps', valToName i = none := by
  induction l generalizing gaps with
  | nil =>
    obtain rfl := Option.some.inj h
    exact ⟨hgaps, hnone⟩
  | cons j l ih =>
    rw [List.foldlM_cons] at h
    obtain ⟨gaps1, hset, h⟩ := Option.bind_eq_some_iff.1 h
    have hl' : ∀ i ∈ l, i < 2 ^ 32 := fun i hi => hl i (List.mem_cons_of_mem _ hi)
    split at hset
    · next hj =>
      have hbit := lt_of_ebitmapSetBit hset (hl j List.mem_cons_self)
      refine ih hl' (hgaps.setBit hbit hset) (fun i hi => ?_) h
      rcases (mem_of_ebitmapSetBit hgaps hbit hset i).1 hi with hi | rfl
      · exact hnone i hi
      · exact Option.isNone_iff_eq_none.1 hj
    · obtain rfl := Option.some.inj hset
      exact ih hl' hgaps hnone h

private theorem validateInit_covers {valToName : Nat → Option CString} {nprim : Nat} (hn : nprim < 2 ^ 32)
    {v : Validate} (h : validateInit valToName nprim = some v) : v.Covers valToName nprim := by
  obtain ⟨gaps, hgaps, rfl⟩ := Option.map_eq_some_iff.1 h
  have hrange : ∀ i ∈ List.range nprim, i < 2 ^ 32 := fun i hi => (List.mem_range.1 hi).trans hn
  obtain ⟨hcanonical, hnone⟩ := gaps_spec hrange Ebitmap.Canonical.init
    (fun i hi => absurd hi (not_mem_ebitmapInit i)) hgaps
  exact ⟨rfl, hcanonical, hnone⟩

/-- The validation of the kind. -/
def CilConsKind.validate (flavors : ConstraintFlavors) : CilConsKind → Validate
  | .user => flavors.users
  | .role => flavors.roles
  | _ => flavors.types

variable {flavors : ConstraintFlavors}

private theorem validateArrayInit_covers (hp : p.Numbered) (h : validateArrayInit p = some flavors)
    (hkind : kind ≠ .level) : (kind.validate flavors).Covers (kind.names p) (kind.nprim p) := by
  obtain ⟨roles, hroles, h⟩ := Option.bind_eq_some_iff.1 h
  obtain ⟨types, htypes, h⟩ := Option.bind_eq_some_iff.1 h
  obtain ⟨users, husers, h⟩ := Option.bind_eq_some_iff.1 h
  obtain rfl := Option.some.inj h
  cases kind with
  | user => exact validateInit_covers hp.users.fits husers
  | role => exact validateInit_covers hp.roles.fits hroles
  | type =>
    unfold validateTypesInit at htypes
    split at htypes
    · exact validateInit_covers hp.types.fits htypes
    · obtain rfl := Option.some.inj htypes
      exact ⟨rfl, Ebitmap.Canonical.init, fun i hi => absurd hi (not_mem_ebitmapInit i)⟩
  | level => exact absurd rfl hkind

theorem NamesFit.validate (hp : p.Numbered) (hflavors : validateArrayInit p = some flavors) (hkind : kind ≠ .level)
    {e : Ebitmap} (he : NamesFit p kind e) : validateEbitmap e (kind.validate flavors) = true := by
  have hcovers := validateArrayInit_covers hp hflavors hkind
  unfold validateEbitmap
  rw [if_neg]
  · rw [Bool.not_eq_true', Bool.eq_false_iff]
    intro hany
    obtain ⟨i, hi, hgap⟩ := (ebitmapMatchAny_iff he.canonical hcovers.canonical).1 hany
    have hname := (he.mem i hi).2
    rw [hcovers.gaps i hgap] at hname
    cases hname
  · rintro ⟨hlength, hhigh⟩
    have hne : ∃ i, i ∈ e := by
      by_contra hno
      have hempty := (ebitmapIsEmpty_iff he.canonical).2 fun i hi => hno ⟨i, hi⟩
      rw [ebitmapIsEmpty] at hempty
      rw [ebitmapLength, if_pos hempty] at hlength
      exact absurd hlength (Nat.lt_irrefl 0)
    have hlt := (he.mem _ (ebitmapHighestSetBit_mem he.canonical hne)).1
    rw [hcovers.nprim] at hhigh
    omega

/-- The operand is a user, role or type, the third context only in a validatetrans rule. -/
def CilConsOperand.NamesAllowed (isValidatetrans : Bool) (l : CilConsOperand) : Prop :=
  l.kind ≠ .level ∧ (l = .u3 ∨ l = .r3 ∨ l = .t3 → isValidatetrans = true)

/-- The operands that the front end lets the compiler compare. -/
inductive OperandPair (op : CilConsOp) : CilConsOperand → CilConsOperand → Prop where
  | user (h : op = .eq ∨ op = .neq) : OperandPair op .u1 .u2
  | type (h : op = .eq ∨ op = .neq) : OperandPair op .t1 .t2
  | role : OperandPair op .r1 .r2
  | l1l2 : OperandPair op .l1 .l2
  | l1h2 : OperandPair op .l1 .h2
  | h1l2 : OperandPair op .h1 .l2
  | h1h2 : OperandPair op .h1 .h2
  | l1h1 : OperandPair op .l1 .h1
  | l2h2 : OperandPair op .l2 .h2

theorem operandPair_of_verify {op : CilConsOp} {l o : CilConsOperand} {flavor : CilConsFlavor}
    (h : cilVerifyConstraintLeafExprSyntax l (some o) op flavor = true) (ho : o ≠ .l1) : OperandPair op l o := by
  unfold cilVerifyConstraintLeafExprSyntax at h
  cases o with
  | l1 => exact absurd rfl ho
  | u1 | r1 | t1 | u3 | r3 | t3 => cases h
  | u2 =>
    dsimp only at h
    split at h
    · cases h
    · next hop =>
      obtain rfl := of_decide_eq_true h
      exact .user (by tauto)
  | t2 =>
    dsimp only at h
    split at h
    · cases h
    · next hop =>
      obtain rfl := of_decide_eq_true h
      exact .type (by tauto)
  | r2 =>
    obtain rfl := of_decide_eq_true h
    exact .role
  | l2 =>
    rcases of_decide_eq_true h with rfl | rfl
    · exact .l1l2
    · exact .h1l2
  | h2 =>
    rcases of_decide_eq_true h with rfl | rfl | rfl
    · exact .l1h2
    · exact .l2h2
    · exact .h1h2
  | h1 =>
    obtain rfl := of_decide_eq_true h
    exact .l1h1

/-- The entry of a comparison of two operands. -/
def attrEntry (attr : BitVec 32) (op : Nat) : ConstraintExpr :=
  { constraintExprInit with op := op, attr := attr, exprType := cexprAttr }

private theorem comparison_cexprOp {op : CilConsOp} {n : Nat} (h : op.cexprOp = some n) (eq dom domby : Prop) :
    comparison eq dom domby n ↔ op.Says eq dom domby := by
  cases op with
  | and | or | not => cases h
  | _ =>
    obtain rfl := Option.some.inj h
    exact Iff.rfl

theorem OperandPair.validate {op : CilConsOp} {n : Nat} {l o : CilConsOperand} (h : OperandPair op l o)
    (hop : op.cexprOp = some n)
    (hattr : cilConstrainLeafAttr l (.operand o : CilConsRight CilConsDatum) = some attr) :
    validateCexprAttr (attrEntry attr n) = true := by
  have hn : n = cexprOpEq ∨ n = cexprOpNeq ∨ n = cexprOpDom ∨ n = cexprOpDomby ∨ n = cexprOpIncomp := by
    cases op <;> cases hop <;> decide
  cases h with
  | user h | type h =>
    obtain rfl := Option.some.inj hattr
    rcases h with rfl | rfl <;> cases hop <;> decide
  | _ =>
    obtain rfl := Option.some.inj hattr
    rcases hn with rfl | rfl | rfl | rfl | rfl <;> decide

theorem OperandPair.holds_iff {p : ConstraintPolicydb} {op : CilConsOp} {n : Nat} {l o : CilConsOperand}
    (h : OperandPair op l o) (hop : op.cexprOp = some n)
    (hattr : cilConstrainLeafAttr l (.operand o : CilConsRight CilConsDatum) = some attr) (s t : Context)
    (x : Option Context) :
    (attrEntry attr n).AttrHolds p s t ↔ cilLeafHolds p db s t x l.kind op l (.operand o) := by
  have hcmp := comparison_cexprOp hop
  cases h <;>
    (obtain rfl := Option.some.inj hattr
     simp [ConstraintExpr.AttrHolds, attrEntry, cilLeafHolds, levelComparison, CilConsOperand.value,
       CilConsValue.Same, CilConsValue.Dominates, hcmp])

/-! ### Comparisons with names -/

private theorem NamesEntry.mem_iff (hp : p.Numbered) (hx : NamesEntry p db kind attr op ds x) {v : Nat} (hv : 0 < v) :
    v - 1 ∈ x.names ↔ ∃ d ∈ ds, d.Names p db kind (.symbol kind v) := by
  rw [hx.mem]
  refine exists_congr fun d => and_congr_right fun _ => exists_congr fun j => and_congr_right fun _ =>
    exists_congr fun value => and_congr_right fun hvalue => ?_
  obtain ⟨hpos, -⟩ := cilGetSepolValue_bounds hp hvalue
  simp only [CilConsValue.symbol.injEq, true_and]
  omega

/-- The values of a context that evaluation looks up. -/
structure ContextPositive (c : Context) : Prop where
  user : 0 < c.user
  role : 0 < c.role
  type : 0 < c.type

theorem ConstraintPolicydb.Valid.positive {p : ConstraintPolicydb} {c : Context} (h : p.Valid c) :
    ContextPositive c := by
  obtain ⟨⟨huser, -⟩, ⟨hrole, -⟩, htype, -⟩ := contextIsValid_bounds h.valid
  exact ⟨huser, hrole, htype⟩

theorem NamesEntry.holds_iff {p : ConstraintPolicydb} (hp : p.toPolicydb.Numbered) {l : CilConsOperand}
    {o : CilConsOp}
    {r : CilConsRight CilConsDatum} (hr : r.operand? = none) (hlevel : l.kind ≠ .level) (hop : o.cexprOp = some op)
    (hattr : cilConstrainLeafAttr l r = some attr) (hx : NamesEntry p.toPolicydb db l.kind attr op r.datums x)
    {s t : Context} {c : Option Context} (hs : ContextPositive s) (ht : ContextPositive t)
    (hc : ∀ c' ∈ c, ContextPositive c') : x.NamesHolds s t c ↔ cilLeafHolds p db s t c l.kind o l r := by
  have hcmp := comparison_cexprOp hop
  have hleaf : cilLeafHolds p db s t c l.kind o l r ↔
      ∃ v ∈ l.value s t c, o.Says (∃ d ∈ r.datums, d.Names p.toPolicydb db l.kind v) False False := by
    cases r with
    | operand o => cases hr
    | _ => exact Iff.rfl
  rw [hleaf, ConstraintExpr.NamesHolds, ConstraintExpr.namesContext, hx.attr, hx.op]
  simp only [hcmp, ConstraintExpr.namesValue, hx.attr]
  cases l with
  | l1 | l2 | h1 | h2 => exact absurd rfl hlevel
  | u1 | r1 | t1 =>
    obtain rfl := Option.some.inj hattr
    simp [CilConsOperand.value, CilConsOperand.kind, hx.mem_iff hp hs.user, hx.mem_iff hp hs.role,
      hx.mem_iff hp hs.type]
  | u2 | r2 | t2 =>
    obtain rfl := Option.some.inj hattr
    simp [CilConsOperand.value, CilConsOperand.kind, hx.mem_iff hp ht.user, hx.mem_iff hp ht.role,
      hx.mem_iff hp ht.type]
  | u3 | r3 | t3 =>
    obtain rfl := Option.some.inj hattr
    cases c with
    | none => simp [CilConsOperand.value]
    | some c =>
      have hc := hc c rfl
      simp [CilConsOperand.value, CilConsOperand.kind, hx.mem_iff hp hc.user, hx.mem_iff hp hc.role,
        hx.mem_iff hp hc.type]

end Sepol
