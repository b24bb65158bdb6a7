import Sepol.AccessDecision
import Sepol.CilAvruleTable
import Sepol.CilBoolean
import Sepol.CilTypeSymbols

/-!
# What access vector rules grant

The meaning of a rule: for which types, which class and which permissions it is (`Grants`).  The entries that a list
of rules makes in `te_avtab`, read through `type_attr_map`, allow and audit the union of what the rules say, and take
the union of the `dontaudit` rules from the denials that are audited.
-/

namespace Sepol

/-! ### Rules -/

/-- The rule is for a source and a target with these numbers. -/
def CilPolicyAvrule.Covers (rule : CilPolicyAvrule) (i j : Nat) : Prop :=
  rule.src.Has i ∧
    match rule.tgt with
    | .datum d => d.Has j
    | .self => j = i
    | .notself => j ≠ i
    | .other => rule.src.Has j ∧ j ≠ i

/-- The string names the permission with bit `k` of the class. -/
def ClassDatum.HasPerm (cls : ClassDatum) (permStr : CString) (k : Nat) : Prop :=
  ∃ perm, (hashtabSearch cls.permissions.table permStr).or
    (cls.comdatum.bind fun common => hashtabSearch common.permissions.table permStr) = some perm ∧ perm.value - 1 = k

/-- One of the permissions has bit `k` of the class with value `c`. -/
def HasClassPerm (p : Policydb) (db : CilBinaryDb) (perms : List (CilClass × CilPerm)) (c k : Nat) : Prop :=
  ∃ x ∈ perms, ∃ cls, hashtabSearch p.pClasses.table (db.classFqn x.1) = some cls ∧ cls.value = c ∧
    cls.HasPerm x.2.fqn k

/-- The rule is for the types and names the permission, in maps and sets to any depth. -/
def CilPolicyAvrule.Grants (p : Policydb) (db : CilBinaryDb) (rule : CilPolicyAvrule) (i j c k : Nat) : Prop :=
  rule.Covers i j ∧ HasClassPerm p db (flatClassperms rule.classperms) c k

def CilPolicyAvrule.Declared (decls : List CilTypeDecl) (db : CilBinaryDb) (rule : CilPolicyAvrule) : Prop :=
  rule.src.Declared decls db ∧ ∀ d, rule.tgt = .datum d → d.Declared decls db

variable {p q : Policydb} {db : CilBinaryDb} {decls : List CilTypeDecl} {kind : CilRuleKind} {src tgt : CString}
  {l : List CilAvInsert} {rule : CilPolicyAvrule} {d : CilConsDatum} {i j vs vt c : Nat} {k : Fin 32}

/-! ### Permissions -/

private theorem getLsbD_permBit (value : Nat) (k : Fin 32) :
    (1#32 <<< (value - 1)).getLsbD k = true ↔ value - 1 = k := by
  have hk := k.isLt
  rw [BitVec.getLsbD_shiftLeft]
  simp only [BitVec.getLsbD_one, Bool.and_eq_true, Bool.not_eq_true', decide_eq_true_eq, decide_eq_false_iff_not]
  omega

/-- The bits of a list of permissions. -/
private theorem getLsbD_cilPermsToDatum {perms : List CilPerm} {cls : ClassDatum} {data : BitVec 32}
    (h : cilPermsToDatum perms cls = some data) (k : Fin 32) :
    data.getLsbD k = true ↔ ∃ perm ∈ perms, cls.HasPerm perm.fqn k := by
  have hrun : ∀ {start : BitVec 32}, perms.foldlM (fun datum perm => permStrToDatum perm.fqn cls datum) start =
      some data → (data.getLsbD k = true ↔ start.getLsbD k = true ∨ ∃ perm ∈ perms, cls.HasPerm perm.fqn k) := by
    clear h
    induction perms with
    | nil =>
      intro start h
      obtain rfl := Option.some.inj h
      simp
    | cons perm perms ih =>
      intro start h
      rw [List.foldlM_cons] at h
      obtain ⟨next, hstep, h⟩ := Option.bind_eq_some_iff.1 h
      obtain ⟨found, hfound, hstep⟩ := Option.bind_eq_some_iff.1 hstep
      obtain rfl := Option.some.inj hstep
      have hperm : cls.HasPerm perm.fqn k ↔ found.value - 1 = k := by
        unfold ClassDatum.HasPerm
        rw [hfound]
        simp
      rw [ih h, BitVec.getLsbD_or, Bool.or_eq_true, getLsbD_permBit, or_assoc, ← hperm]
      simp only [List.mem_cons, or_and_right, exists_or, exists_eq_left]
  rw [hrun h]
  simp

/-- The insertion for two values, a class and a bit. -/
structure CilAvInsert.IsFor (i : CilAvInsert) (kind : CilRuleKind) (vs vt c : Nat) (k : Fin 32) : Prop where
  src : i.src = vs
  tgt : i.tgt = vt
  obj : i.obj = c
  bit : i.data.getLsbD k = kind.sign

private theorem cilHelperInserts_isFor {cls : CilClass} {perms : List CilPerm}
    (h : cilHelperInserts p db kind src tgt cls perms = some l) :
    (∃ i ∈ l, i.IsFor kind vs vt c k) ↔ ∃ sepolClass,
    hashtabSearch p.pClasses.table (db.classFqn cls) = some sepolClass ∧
      sepolClass.value = c ∧ (∃ perm ∈ perms, sepolClass.HasPerm perm.fqn k) ∧
      cilGetSepolValue p .type src = some vs ∧ cilGetSepolValue p .type tgt = some vt := by
  obtain ⟨sepolClass, hclass, h⟩ := Option.bind_eq_some_iff.1 h
  obtain ⟨data, hdata, h⟩ := Option.bind_eq_some_iff.1 h
  have hbit := getLsbD_cilPermsToDatum hdata k
  split at h
  · rename_i hzero
    obtain rfl := Option.some.inj h
    have hno : ¬ ∃ perm ∈ perms, sepolClass.HasPerm perm.fqn k := by
      rw [← hbit, hzero]
      simp
    constructor
    · rintro ⟨i, hi, _⟩
      exact absurd hi List.not_mem_nil
    · rintro ⟨cls', hcls', _, hperm, _⟩
      obtain rfl := Option.some.inj (hclass.symm.trans hcls')
      exact absurd hperm hno
  · obtain ⟨sepolSrc, hsrc, h⟩ := Option.bind_eq_some_iff.1 h
    obtain ⟨sepolTgt, htgt, h⟩ := Option.bind_eq_some_iff.1 h
    obtain rfl := Option.some.inj h
    have hsign : (if kind = .dontaudit then ~~~data else data).getLsbD k = kind.sign ↔ data.getLsbD k = true := by
      unfold CilRuleKind.sign
      split
      · rename_i hkind
        rw [BitVec.getLsbD_not]
        simp [hkind]
      · rename_i hkind
        simp [hkind]
    constructor
    · rintro ⟨i, hi, h1, h2, h3, h4⟩
      obtain rfl := List.mem_singleton.1 hi
      exact ⟨sepolClass, hclass, h3, hbit.1 (hsign.1 h4), hsrc.trans (congrArg some h1),
        htgt.trans (congrArg some h2)⟩
    · rintro ⟨cls', hcls', hvalue, hperm, hvs, hvt⟩
      obtain rfl := Option.some.inj (hclass.symm.trans hcls')
      exact ⟨_, List.mem_singleton_self _, Option.some.inj (hsrc.symm.trans hvs),
        Option.some.inj (htgt.symm.trans hvt),
        hvalue, hsign.2 (hbit.2 hperm)⟩

private theorem exists_mem_inserts {l l' : List CilAvInsert} {P : CilAvInsert → Prop} :
    (∃ i ∈ l ++ l', P i) ↔ (∃ i ∈ l, P i) ∨ ∃ i ∈ l', P i := by
  simp only [List.mem_append, or_and_right, exists_or]

private theorem hasClassPerm_append {flat flat' : List (CilClass × CilPerm)} {k : Nat} :
    HasClassPerm p db (flat ++ flat') c k ↔ HasClassPerm p db flat c k ∨ HasClassPerm p db flat' c k := by
  unfold HasClassPerm
  simp only [List.mem_append, or_and_right, exists_or]

/-- The insertions for a list of class permissions are for the bits of its classes and the values of the two names. -/
private theorem cilExpandInserts_isFor {classperms : List CilClassperms}
    (h : cilExpandInserts p db kind src tgt classperms = some l) :
    (∃ i ∈ l, i.IsFor kind vs vt c k) ↔ HasClassPerm p db (flatClassperms classperms) c k ∧
      cilGetSepolValue p .type src = some vs ∧ cilGetSepolValue p .type tgt = some vt := by
  refine (CilClassperms.listInduction
    (P := fun cps => ∀ l, cilExpandInserts p db kind src tgt cps = some l →
      ((∃ i ∈ l, i.IsFor kind vs vt c k) ↔ HasClassPerm p db (flatClassperms cps) c k ∧
        cilGetSepolValue p .type src = some vs ∧ cilGetSepolValue p .type tgt = some vt))
    (Q := fun perms => ∀ l, cilExpandMapInserts p db kind src tgt perms = some l →
      ((∃ i ∈ l, i.IsFor kind vs vt c k) ↔ HasClassPerm p db (flatMapPerms perms) c k ∧
        cilGetSepolValue p .type src = some vs ∧ cilGetSepolValue p .type tgt = some vt))
    ?nil ?classperms ?mapClassperms ?classpermsSet ?mapNil ?mapCons).1 classperms l h
  case nil =>
    intro l h
    obtain rfl := Option.some.inj h
    simp [HasClassPerm, flatClassperms]
  case classperms =>
    intro _ cls _ perms rest hrest l h
    obtain ⟨l1, h1, h⟩ := Option.bind_eq_some_iff.1 h
    obtain ⟨l2, h2, h⟩ := Option.bind_eq_some_iff.1 h
    obtain rfl := Option.some.inj h
    have hfirst : HasClassPerm p db (perms.map fun perm => (cls, perm)) c k ↔
        ∃ sepolClass, hashtabSearch p.pClasses.table (db.classFqn cls) = some sepolClass ∧ sepolClass.value = c ∧
          ∃ perm ∈ perms, sepolClass.HasPerm perm.fqn k := by
      unfold HasClassPerm
      constructor
      · rintro ⟨x, hx, sepolClass, hclass, hvalue, hperm⟩
        obtain ⟨perm, hmem, rfl⟩ := List.mem_map.1 hx
        exact ⟨sepolClass, hclass, hvalue, perm, hmem, hperm⟩
      · rintro ⟨sepolClass, hclass, hvalue, perm, hmem, hperm⟩
        exact ⟨_, List.mem_map_of_mem hmem, sepolClass, hclass, hvalue, hperm⟩
    rw [exists_mem_inserts, cilHelperInserts_isFor h1, hrest l2 h2, flatClassperms, flatItem, hasClassPerm_append,
      hfirst,
      or_and_right]
    refine or_congr_left ?_
    constructor
    · rintro ⟨sepolClass, hclass, hvalue, hperm, hvs, hvt⟩
      exact ⟨⟨sepolClass, hclass, hvalue, hperm⟩, hvs, hvt⟩
    · rintro ⟨⟨sepolClass, hclass, hvalue, hperm⟩, hvs, hvt⟩
      exact ⟨sepolClass, hclass, hvalue, hperm, hvs, hvt⟩
  case mapClassperms =>
    intro _ cls _ perms rest hperms hrest l h
    obtain ⟨l1, h1, h⟩ := Option.bind_eq_some_iff.1 h
    obtain ⟨l2, h2, h⟩ := Option.bind_eq_some_iff.1 h
    obtain rfl := Option.some.inj h
    rw [exists_mem_inserts, hperms l1 h1, hrest l2 h2, flatClassperms, flatItem, hasClassPerm_append, or_and_right]
  case classpermsSet =>
    intro _ set rest hset hrest l h
    obtain ⟨l1, h1, h⟩ := Option.bind_eq_some_iff.1 h
    obtain ⟨l2, h2, h⟩ := Option.bind_eq_some_iff.1 h
    obtain rfl := Option.some.inj h
    rw [exists_mem_inserts, hset l1 h1, hrest l2 h2, flatClassperms, flatItem, hasClassPerm_append, or_and_right]
  case mapNil =>
    intro l h
    obtain rfl := Option.some.inj h
    simp [HasClassPerm, flatMapPerms]
  case mapCons =>
    intro _ cps rest hcps hrest l h
    obtain ⟨l1, h1, h⟩ := Option.bind_eq_some_iff.1 h
    obtain ⟨l2, h2, h⟩ := Option.bind_eq_some_iff.1 h
    obtain rfl := Option.some.inj h
    rw [exists_mem_inserts, hcps l1 h1, hrest l2 h2, flatMapPerms, hasClassPerm_append, or_and_right]

/-! ### Types -/

/-- The symbol with a name is the type with a number, or an attribute that it has. -/
def CilNameHas (p : Policydb) (db : CilBinaryDb) (name : CString) (i : Nat) : Prop :=
  ∃ v vi, cilGetSepolValue p .type name = some v ∧ cilGetSepolValue p .type (db.valToType i) = some vi ∧
    v - 1 ∈ p.typeAttrMap (vi - 1)

private theorem CilNamesSet.has_iff {name : CString} {set : Nat → Prop} (h : CilNamesSet p db name set)
    (hw : CilTypesWritten p db decls) (hi : i < db.numTypes) : CilNameHas p db name i ↔ set i := by
  obtain ⟨v, hv, _, _, hset⟩ := h
  obtain ⟨vi, hvi, _⟩ := hw.type i hi
  rw [← hset i hi vi hvi]
  constructor
  · rintro ⟨v', vi', hv', hvi', hmem⟩
    obtain rfl := Option.some.inj (hv.symm.trans hv')
    obtain rfl := Option.some.inj (hvi.symm.trans hvi')
    exact hmem
  · intro hmem
    exact ⟨v, vi, hv, hvi, hmem⟩

private theorem CilConsDatum.lt_of_has (hdb : db.Counts decls) (hd : d.Declared decls db) (hi : d.Has i) :
    i < db.numTypes := by
  cases d with
  | value v =>
    obtain rfl : i = v := hi
    exact hd
  | attr fqn keep members canonical => exact hdb.members fqn keep members canonical hd i hi

private theorem mem_expanded {bitmap : Ebitmap} (h : cilExpandDatum d = some bitmap) :
    i ∈ ebitmapPositiveBits bitmap ↔ d.Has i := by
  obtain ⟨hcanonical, hhas⟩ := cilExpandDatum_spec h
  rw [mem_ebitmapPositiveBits hcanonical, hhas]

private theorem kept_of_not_expanded (h : ¬ cilShouldExpandAttribute db d = true) : d.Kept := by
  cases d with
  | value v => trivial
  | attr fqn keep members canonical =>
    cases keep with
    | true => rfl
    | false => exact absurd rfl h

/-- The names for a source or target stand for its types together. -/
private theorem cilRuleNames_spec {names : List CString} (hw : CilTypesWritten p db decls) (hdb : db.Counts decls)
    (hd : d.Declared decls db) (h : cilRuleNames db d = some names) :
    (∀ name ∈ names, ∃ set, CilNamesSet p db name set) ∧
      ∀ i < db.numTypes, (∃ name ∈ names, CilNameHas p db name i) ↔ d.Has i := by
  unfold cilRuleNames at h
  split at h
  · obtain ⟨bitmap, hbitmap, rfl⟩ := Option.map_eq_some_iff.1 h
    have hset : ∀ t ∈ ebitmapPositiveBits bitmap, CilNamesSet p db (db.valToType t) fun i => i = t := fun t ht =>
      hw.type t (CilConsDatum.lt_of_has hdb hd ((mem_expanded hbitmap).1 ht))
    refine ⟨fun name hname => ?_, fun i hi => ?_⟩
    · obtain ⟨t, ht, rfl⟩ := List.mem_map.1 hname
      exact ⟨_, hset t ht⟩
    · rw [← mem_expanded hbitmap]
      constructor
      · rintro ⟨name, hname, hhas⟩
        obtain ⟨t, ht, rfl⟩ := List.mem_map.1 hname
        obtain rfl : i = t := ((hset t ht).has_iff hw hi).1 hhas
        exact ht
      · intro hmem
        exact ⟨_, List.mem_map_of_mem hmem, ((hset i hmem).has_iff hw hi).2 rfl⟩
  · rename_i hexpand
    obtain rfl := Option.some.inj h
    have hset := hw.datum hd (kept_of_not_expanded hexpand)
    refine ⟨fun name hname => ?_, fun i hi => ?_⟩
    · obtain rfl := List.mem_singleton.1 hname
      exact ⟨_, hset⟩
    · rw [← hset.has_iff hw hi]
      simp

/-- The pairs of names for a rule stand for the pairs of types that it covers. -/
private theorem cilAvrulePairs_spec {pairs : List (CString × CString)} (hw : CilTypesWritten p db decls)
    (hdb : db.Counts decls) (hrule : rule.Declared decls db) (h : cilAvrulePairs db rule.src rule.tgt = some pairs) :
    (∀ pair ∈ pairs, (∃ set, CilNamesSet p db pair.1 set) ∧ ∃ set, CilNamesSet p db pair.2 set) ∧
      ∀ i < db.numTypes, ∀ j < db.numTypes,
        ((∃ pair ∈ pairs, CilNameHas p db pair.1 i ∧ CilNameHas p db pair.2 j) ↔ rule.Covers i j) := by
  obtain ⟨kind, src, tgt, classperms⟩ := rule
  obtain ⟨hsrc, htgt⟩ := hrule
  have hnum : ∀ {t : Nat}, src.Has t → t < db.numTypes := fun ht => CilConsDatum.lt_of_has hdb hsrc ht
  have hhas : ∀ {t i : Nat}, t < db.numTypes → i < db.numTypes → (CilNameHas p db (db.valToType t) i ↔ i = t) :=
    fun ht hi => (hw.type _ ht).has_iff hw hi
  unfold CilPolicyAvrule.Covers
  cases tgt with
  | self =>
    obtain ⟨bitmap, hbitmap, h⟩ := Option.bind_eq_some_iff.1 h
    obtain rfl := Option.some.inj h
    refine ⟨fun pair hpair => ?_, fun i hi j hj => ⟨?_, ?_⟩⟩
    · obtain ⟨s, hs, rfl⟩ := List.mem_map.1 hpair
      have hlt := hnum ((mem_expanded hbitmap).1 hs)
      exact ⟨⟨_, hw.type s hlt⟩, ⟨_, hw.type s hlt⟩⟩
    · rintro ⟨pair, hpair, h1, h2⟩
      obtain ⟨s, hs, rfl⟩ := List.mem_map.1 hpair
      have hs := (mem_expanded hbitmap).1 hs
      obtain rfl := (hhas (hnum hs) hi).1 h1
      exact ⟨hs, (hhas hi hj).1 h2⟩
    · rintro ⟨hs, hij⟩
      obtain rfl : j = i := hij
      exact ⟨_, List.mem_map_of_mem ((mem_expanded hbitmap).2 hs), (hhas hi hi).2 rfl, (hhas hi hi).2 rfl⟩
  | notself =>
    obtain ⟨bitmap, hbitmap, h⟩ := Option.bind_eq_some_iff.1 h
    obtain rfl := Option.some.inj h
    simp only [List.mem_flatMap, List.mem_map, List.mem_filter, List.mem_range, decide_eq_true_eq]
    refine ⟨fun pair hpair => ?_, fun i hi j hj => ⟨?_, ?_⟩⟩
    · obtain ⟨s, hs, t, ⟨ht, _⟩, rfl⟩ := hpair
      exact ⟨⟨_, hw.type s (hnum ((mem_expanded hbitmap).1 hs))⟩, ⟨_, hw.type t ht⟩⟩
    · rintro ⟨pair, ⟨s, hs, t, ⟨ht, hne⟩, rfl⟩, h1, h2⟩
      have hs := (mem_expanded hbitmap).1 hs
      obtain rfl := (hhas (hnum hs) hi).1 h1
      obtain rfl := (hhas ht hj).1 h2
      exact ⟨hs, Ne.symm hne⟩
    · rintro ⟨hs, hne⟩
      exact ⟨_, ⟨i, (mem_expanded hbitmap).2 hs, j, ⟨hj, Ne.symm hne⟩, rfl⟩, (hhas hi hi).2 rfl, (hhas hj hj).2 rfl⟩
  | other =>
    obtain ⟨bitmap, hbitmap, h⟩ := Option.bind_eq_some_iff.1 h
    obtain rfl := Option.some.inj h
    simp only [List.mem_flatMap, List.mem_map, List.mem_filter, decide_eq_true_eq]
    refine ⟨fun pair hpair => ?_, fun i hi j hj => ⟨?_, ?_⟩⟩
    · obtain ⟨s, hs, t, ⟨ht, _⟩, rfl⟩ := hpair
      exact ⟨⟨_, hw.type s (hnum ((mem_expanded hbitmap).1 hs))⟩, ⟨_, hw.type t (hnum ((mem_expanded hbitmap).1 ht))⟩⟩
    · rintro ⟨pair, ⟨s, hs, t, ⟨ht, hne⟩, rfl⟩, h1, h2⟩
      have hs := (mem_expanded hbitmap).1 hs
      have ht := (mem_expanded hbitmap).1 ht
      obtain rfl := (hhas (hnum hs) hi).1 h1
      obtain rfl := (hhas (hnum ht) hj).1 h2
      exact ⟨hs, ht, Ne.symm hne⟩
    · rintro ⟨hs, ht, hne⟩
      exact ⟨_, ⟨i, (mem_expanded hbitmap).2 hs, j, ⟨(mem_expanded hbitmap).2 ht, Ne.symm hne⟩, rfl⟩,
        (hhas hi hi).2 rfl, (hhas hj hj).2 rfl⟩
  | datum d =>
    obtain ⟨srcs, hsrcs, h⟩ := Option.bind_eq_some_iff.1 h
    obtain ⟨tgts, htgts, h⟩ := Option.bind_eq_some_iff.1 h
    obtain rfl := Option.some.inj h
    obtain ⟨hsets, hsrcs⟩ := cilRuleNames_spec hw hdb hsrc hsrcs
    obtain ⟨hsets', htgts⟩ := cilRuleNames_spec hw hdb (htgt d rfl) htgts
    simp only [List.mem_flatMap, List.mem_map]
    refine ⟨fun pair hpair => ?_, fun i hi j hj => ?_⟩
    · obtain ⟨s, hs, t, ht, rfl⟩ := hpair
      exact ⟨hsets s hs, hsets' t ht⟩
    · rw [← hsrcs i hi, ← htgts j hj]
      constructor
      · rintro ⟨pair, ⟨s, hs, t, ht, rfl⟩, h1, h2⟩
        exact ⟨⟨s, hs, h1⟩, ⟨t, ht, h2⟩⟩
      · rintro ⟨⟨s, hs, h1⟩, ⟨t, ht, h2⟩⟩
        exact ⟨_, ⟨s, hs, t, ht, rfl⟩, h1, h2⟩

/-! ### The insertions of a rule -/

private theorem cilPairsInserts_isFor {pairs : List (CString × CString)}
    (h : cilPairsInserts p db rule pairs = some l) : (∃ i ∈ l, i.IsFor rule.ruleKind vs vt c k) ↔ ∃ pair ∈ pairs,
      HasClassPerm p db (flatClassperms rule.classperms) c k ∧ cilGetSepolValue p .type pair.1 = some vs ∧
        cilGetSepolValue p .type pair.2 = some vt := by
  induction pairs generalizing l with
  | nil =>
    obtain rfl := Option.some.inj h
    simp
  | cons pair pairs ih =>
    obtain ⟨l1, h1, h⟩ := Option.bind_eq_some_iff.1 h
    obtain ⟨l2, h2, h⟩ := Option.bind_eq_some_iff.1 h
    obtain rfl := Option.some.inj h
    rw [exists_mem_inserts, cilExpandInserts_isFor h1, ih h2]
    simp only [List.mem_cons, or_and_right, exists_or, exists_eq_left]

/-- The rule is not left out because auditing of denials is disabled. -/
def CilPolicyAvrule.Emitted (db : CilBinaryDb) (rule : CilPolicyAvrule) : Prop :=
  ¬ (rule.ruleKind = .dontaudit ∧ db.disableDontaudit = true)

/-- The insertions of a rule, read through the attributes of the types. -/
private theorem cilAvruleInserts_grants (hw : CilTypesWritten p db decls) (hdb : db.Counts decls)
    (hrule : rule.Declared decls db) (h : cilAvruleInserts p db rule = some l) (hi : i < db.numTypes)
    (hj : j < db.numTypes) {vi vj : Nat} (hvi : cilGetSepolValue p .type (db.valToType i) = some vi)
    (hvj : cilGetSepolValue p .type (db.valToType j) = some vj) :
    (∃ x ∈ l, x.IsFor rule.ruleKind x.src x.tgt c k ∧ x.src - 1 ∈ p.typeAttrMap (vi - 1) ∧
      x.tgt - 1 ∈ p.typeAttrMap (vj - 1)) ↔ rule.Emitted db ∧ rule.Grants p db i j c k := by
  unfold cilAvruleInserts at h
  split at h
  · rename_i hdisabled
    obtain rfl := Option.some.inj h
    constructor
    · rintro ⟨x, hx, _⟩
      exact absurd hx List.not_mem_nil
    · rintro ⟨hemitted, _⟩
      exact absurd hdisabled hemitted
  · rename_i hemitted
    obtain ⟨pairs, hpairs, h⟩ := Option.bind_eq_some_iff.1 h
    have hcovers := (cilAvrulePairs_spec hw hdb hrule hpairs).2 i hi j hj
    constructor
    · rintro ⟨x, hx, hfor, hs, ht⟩
      obtain ⟨pair, hpair, hperm, hvs, hvt⟩ := (cilPairsInserts_isFor h).1 ⟨x, hx, hfor⟩
      exact ⟨hemitted, hcovers.1 ⟨pair, hpair, ⟨_, vi, hvs, hvi, hs⟩, ⟨_, vj, hvt, hvj, ht⟩⟩, hperm⟩
    · rintro ⟨_, hcov, hperm⟩
      obtain ⟨pair, hpair, ⟨vs, vi', hvs, hvi', hs⟩, ⟨vt, vj', hvt, hvj', ht⟩⟩ := hcovers.2 hcov
      obtain rfl := Option.some.inj (hvi.symm.trans hvi')
      obtain rfl := Option.some.inj (hvj.symm.trans hvj')
      obtain ⟨x, hx, hfor⟩ := (cilPairsInserts_isFor (k := k) h).2 ⟨pair, hpair, hperm, hvs, hvt⟩
      obtain ⟨rfl, rfl, hobj, hbit⟩ := hfor
      exact ⟨x, hx, ⟨rfl, rfl, hobj, hbit⟩, hs, ht⟩

private theorem cilAvruleInserts_fits (hw : CilTypesWritten p db decls) (hdb : db.Counts decls)
    (hrule : rule.Declared decls db) (h : cilAvruleInserts p db rule = some l) {x : CilAvInsert} (hx : x ∈ l)
    (hbit : x.data.getLsbD k = rule.ruleKind.sign) :
    x.src ≤ p.pTypes.nprim ∧ x.tgt ≤ p.pTypes.nprim ∧ ∃ e ∈ p.pClasses.table, e.2.value = x.obj := by
  unfold cilAvruleInserts at h
  split at h
  · obtain rfl := Option.some.inj h
    exact absurd hx List.not_mem_nil
  · obtain ⟨pairs, hpairs, h⟩ := Option.bind_eq_some_iff.1 h
    have hfor : x.IsFor rule.ruleKind x.src x.tgt x.obj k := ⟨rfl, rfl, rfl, hbit⟩
    obtain ⟨pair, hpair, hperm, hvs, hvt⟩ := (cilPairsInserts_isFor h).1 ⟨x, hx, hfor⟩
    obtain ⟨⟨_, v, hv, _, hle, _⟩, ⟨_, v', hv', _, hle', _⟩⟩ := (cilAvrulePairs_spec hw hdb hrule hpairs).1 pair hpair
    obtain rfl := Option.some.inj (hvs.symm.trans hv)
    obtain rfl := Option.some.inj (hvt.symm.trans hv')
    obtain ⟨_, _, cls, hcls, hvalue, _⟩ := hperm
    exact ⟨hle, hle', _, mem_of_hashtabSearch hcls, hvalue⟩

/-! ### Decisions -/

private theorem toNat_key {v : Nat} (h : v ≤ uint16Max) : (BitVec.ofNat 16 v).toNat = v := by
  simp only [uint16Max] at h
  simp only [BitVec.toNat_ofNat]
  omega

/-- The entries for two types and a class have a bit when one of the rules of their kind has it. -/
private theorem cilAvrules_entries {rules : List CilPolicyAvrule} {st : CilTables} {nrules : Nat} (hn : nrules ≠ 0)
    (hw : CilTypesWritten p db decls) (hdb : db.Counts decls) (hfit : p.pTypes.nprim ≤ uint16Max)
    (hclass : ∀ e ∈ p.pClasses.table, e.2.value ≤ uint16Max) (hrules : ∀ rule ∈ rules, rule.Declared decls db)
    (hrun : rules.foldlM (fun st rule => cilAvruleToAvtab p db rule none st)
      ⟨avtabAlloc nrules, avtabAlloc nrules, [], []⟩ = some st) (hi : i < db.numTypes) (hj : j < db.numTypes)
    {vi vj : Nat} (hvi : cilGetSepolValue p .type (db.valToType i) = some vi)
    (hvj : cilGetSepolValue p .type (db.valToType j) = some vj) (kind : CilRuleKind) (c : Nat) (k : Fin 32) :
    (∃ n ∈ avtabNodes st.teAvtab, RuleApplies p n ⟨vi - 1, vj - 1, c⟩ ∧ kind.specified = some n.key.specified ∧
      n.datum.data.getLsbD k = kind.sign) ↔
      ∃ rule ∈ rules, rule.ruleKind = kind ∧ rule.Emitted db ∧ rule.Grants p db i j c k := by
  obtain ⟨_, hsome, hgives⟩ := cilAvrules_gives (avRulesOnly_alloc hn) hrun
  have hempty : ∀ {s t c : BitVec 16}, ¬ AvtabGives (avtabAlloc nrules) kind s t c k := by
    rintro s t c ⟨n, hn, _⟩
    rw [avtabNodes_avtabAlloc] at hn
    exact absurd hn List.not_mem_nil
  constructor
  · rintro ⟨n, hn, ⟨hs, ht, hc⟩, hspec, hbit⟩
    have hnode : AvtabGives st.teAvtab kind n.key.sourceType n.key.targetType n.key.targetClass k :=
      ⟨n, hn, hspec, rfl, rfl, rfl, hbit⟩
    rcases (hgives _ _ _ _ _).1 hnode with hold | ⟨rule, hrule, rfl, l, hl, x, hx, h1, h2, h3, h4⟩
    · exact absurd hold hempty
    · have hdecl := hrules rule hrule
      obtain ⟨hsrc, htgt, e, he, hobj⟩ := cilAvruleInserts_fits hw hdb hdecl hl hx h4
      rw [← h1, toNat_key (hsrc.trans hfit)] at hs
      rw [← h2, toNat_key (htgt.trans hfit)] at ht
      rw [← h3, toNat_key (hobj ▸ hclass e he)] at hc
      obtain ⟨hemitted, hgrants⟩ := (cilAvruleInserts_grants hw hdb hdecl hl hi hj hvi hvj).1
        ⟨x, hx, ⟨rfl, rfl, hc, h4⟩, hs, ht⟩
      exact ⟨rule, hrule, rfl, hemitted, hgrants⟩
  · rintro ⟨rule, hrule, rfl, hemitted, hgrants⟩
    have hdecl := hrules rule hrule
    obtain ⟨l, hl⟩ := Option.isSome_iff_exists.1 (hsome rule hrule)
    obtain ⟨x, hx, ⟨_, _, hc, hbit⟩, hs, ht⟩ :=
      (cilAvruleInserts_grants hw hdb hdecl hl hi hj hvi hvj).2 ⟨hemitted, hgrants⟩
    obtain ⟨hsrc, htgt, e, he, hobj⟩ := cilAvruleInserts_fits hw hdb hdecl hl hx hbit
    obtain ⟨n, hn, hspec, h1, h2, h3, h4⟩ :=
      (hgives rule.ruleKind _ _ _ k).2 (Or.inr ⟨rule, hrule, rfl, l, hl, x, hx, rfl, rfl, rfl, hbit⟩)
    refine ⟨n, hn, ⟨?_, ?_, ?_⟩, hspec, h4⟩
    · rw [h1, toNat_key (hsrc.trans hfit)]
      exact hs
    · rw [h2, toNat_key (htgt.trans hfit)]
      exact ht
    · rw [h3, toNat_key (hobj ▸ hclass e he)]
      exact hc

/-- The policy with the rules of a table and without conditionals. -/
def Policydb.withRules (p : Policydb) (tab : Avtab) : Policydb := { p with teAvtab := tab, condList := [] }

private theorem activeRules_withRules (tab : Avtab) (σ : List CondExpr → Option Bool) :
    activeRules (p.withRules tab) σ = {n | n ∈ avtabNodes tab} := by
  refine Set.ext fun n => ⟨?_, Or.inl⟩
  rintro (hn | ⟨cl, hcl, _⟩)
  · exact hn
  · exact absurd hcl List.not_mem_nil

private theorem ruleApplies_withRules {tab : Avtab} {n : AvtabNode} {x : AccessPoint} :
    RuleApplies (p.withRules tab) n x ↔ RuleApplies p n x :=
  ⟨fun ⟨h1, h2, h3⟩ => ⟨h1, h2, h3⟩, fun ⟨h1, h2, h3⟩ => ⟨h1, h2, h3⟩⟩

/-- The access vector rules of a policy decide, for every two of its types, a class and a permission, what the rules
say: access and auditing are allowed when one of the rules of the kind grants them; a denial is audited unless a
`dontaudit` rule is for it, and always when these rules are left out. -/
theorem cilAvrules_accessDecision (q p : Policydb) (db : CilBinaryDb) (decls : List CilTypeDecl)
    (rules : List CilPolicyAvrule) (st : CilTables) (hdb : db.Counts decls)
    (hp : cilTypesToPolicydb q db decls = some p) (hfit : p.pTypes.nprim ≤ uint16Max)
    (hclass : ∀ e ∈ p.pClasses.table, e.2.value ≤ uint16Max) (hrules : ∀ rule ∈ rules, rule.Declared decls db)
    (hrun : rules.foldlM (fun st rule => cilAvruleToAvtab p db rule none st)
      ⟨avtabAlloc maxAvtabSize, avtabAlloc maxAvtabSize, [], []⟩ = some st)
    (σ : List CondExpr → Option Bool) (i j : Nat) (hi : i < db.numTypes) (hj : j < db.numTypes) (c : Nat)
    (k : Fin 32) :
    ∃ vi vj, cilGetSepolValue p .type (db.valToType i) = some vi ∧
      cilGetSepolValue p .type (db.valToType j) = some vj ∧
      let decision := accessDecision (p.withRules st.teAvtab) σ ⟨vi - 1, vj - 1, c⟩
      (k ∈ decision.allowed ↔ ∃ rule ∈ rules, rule.ruleKind = .allowed ∧ rule.Grants p db i j c k) ∧
      (k ∈ decision.auditallow ↔ ∃ rule ∈ rules, rule.ruleKind = .auditallow ∧ rule.Grants p db i j c k) ∧
      (k ∈ decision.auditdeny ↔ db.disableDontaudit = true ∨
        ∀ rule ∈ rules, rule.ruleKind = .dontaudit → ¬ rule.Grants p db i j c k) := by
  have hw := cilTypesToPolicydb_written hdb hp hfit
  obtain ⟨vi, hvi, _⟩ := hw.type i hi
  obtain ⟨vj, hvj, _⟩ := hw.type j hj
  have hsize : maxAvtabSize ≠ 0 := by decide
  have hentries := fun kind => cilAvrules_entries hsize hw hdb hfit hclass hrules hrun hi hj hvi hvj kind c k
  obtain ⟨hkinds, _⟩ := cilAvrules_gives (avRulesOnly_alloc hsize) hrun
  -- the test of a specifier finds the rules of its kind
  have hspec : ∀ {kind : CilRuleKind} {sp : BitVec 16}, kind.specified = some sp → ∀ n ∈ avtabNodes st.teAvtab,
      (hasSpecified n.key.specified sp = true ↔ kind.specified = some n.key.specified) := by
    intro kind sp hsp n hn
    obtain ⟨kind', hkind'⟩ := hkinds.kinds n hn
    rw [CilRuleKind.hasSpecified_iff hkind' hsp]
    constructor
    · rintro rfl
      exact hkind'
    · intro h
      exact (CilRuleKind.hasSpecified_iff hkind' h).1 ((CilRuleKind.hasSpecified_iff h h).2 rfl)
  have hemitted : ∀ {kind : CilRuleKind}, kind ≠ .dontaudit →
      ((∃ rule ∈ rules, rule.ruleKind = kind ∧ rule.Emitted db ∧ rule.Grants p db i j c k) ↔
        ∃ rule ∈ rules, rule.ruleKind = kind ∧ rule.Grants p db i j c k) := by
    intro kind hkind
    refine exists_congr fun rule => and_congr_right fun _ => and_congr_right fun hrule => and_iff_right ?_
    rintro ⟨hdont, _⟩
    exact hkind (hrule.symm.trans hdont)
  have hactive : ∀ {kind : CilRuleKind} {sp : BitVec 16}, kind.specified = some sp → kind.sign = true →
      ((∃ n ∈ activeRules (p.withRules st.teAvtab) σ, RuleApplies (p.withRules st.teAvtab) n ⟨vi - 1, vj - 1, c⟩ ∧
        hasSpecified n.key.specified sp = true ∧ n.datum.data.getLsbD k = true) ↔
      ∃ n ∈ avtabNodes st.teAvtab, RuleApplies p n ⟨vi - 1, vj - 1, c⟩ ∧ kind.specified = some n.key.specified ∧
        n.datum.data.getLsbD k = kind.sign) := by
    intro kind sp hsp hsign
    rw [activeRules_withRules, hsign]
    refine exists_congr fun n => and_congr_right fun hn => ?_
    rw [ruleApplies_withRules, hspec hsp n hn]
  refine ⟨vi, vj, hvi, hvj, ?_, ?_, ?_⟩
  · rw [← hemitted (by decide), ← hentries .allowed]
    exact hactive rfl rfl
  · rw [← hemitted (by decide), ← hentries .auditallow]
    exact hactive rfl rfl
  · have hdeny := not_congr (hentries .dontaudit)
    have hleft : (∀ n ∈ activeRules (p.withRules st.teAvtab) σ, RuleApplies (p.withRules st.teAvtab) n
        ⟨vi - 1, vj - 1, c⟩ → hasSpecified n.key.specified avtabAuditdeny = true → n.datum.data.getLsbD k = true) ↔
        ¬ ∃ n ∈ avtabNodes st.teAvtab, RuleApplies p n ⟨vi - 1, vj - 1, c⟩ ∧
          CilRuleKind.dontaudit.specified = some n.key.specified ∧
          n.datum.data.getLsbD k = CilRuleKind.dontaudit.sign := by
      rw [activeRules_withRules]
      constructor
      · rintro hall ⟨n, hn, happly, hsp, hbit⟩
        rw [hall n hn (ruleApplies_withRules.2 happly) ((hspec rfl n hn).2 hsp)] at hbit
        cases hbit
      · intro hno n hn happly hsp
        by_contra hbit
        exact hno ⟨n, hn, ruleApplies_withRules.1 happly, (hspec rfl n hn).1 hsp, Bool.eq_false_iff.2 hbit⟩
    refine hleft.trans (hdeny.trans ?_)
    unfold CilPolicyAvrule.Emitted
    constructor
    · intro hno
      by_contra hcon
      obtain ⟨hdisable, hgrants⟩ := not_or.1 hcon
      refine hgrants fun rule hrule hkind hgrant => ?_
      exact hno ⟨rule, hrule, hkind, fun hdis => hdisable hdis.2, hgrant⟩
    · rintro (hdisable | hall) ⟨rule, hrule, hkind, hemit, hgrant⟩
      · exact hemit ⟨hkind, hdisable⟩
      · exact hall rule hrule hkind hgrant

/-! ### Two types and an attribute -/

def pairDecls : List CilTypeDecl :=
  [.type ['a'], .type ['b'], .typeattribute ['x'] true (ebitmapOfList [0, 1]) (ebitmapOfList_canonical _)]

def pairDb (disableDontaudit : Bool) : CilBinaryDb where
  valToUser := fun _ => []
  valToRole := fun _ => []
  valToType := fun i => if i = 0 then ['a'] else ['b']
  classFqn := fun _ => ['c']
  numTypes := 2
  attrsExpandSize := 1
  disableDontaudit := disableDontaudit
  policyVersion := 34

def pairClasses : Policydb := { policydbInit with pClasses := ⟨[(['c'], ⟨1, none, ⟨[(['p'], ⟨1⟩)], 1⟩⟩)], 1⟩ }

def pairPolicydb (disableDontaudit : Bool) : Policydb :=
  (cilTypesToPolicydb pairClasses (pairDb disableDontaudit) pairDecls).getD policydbInit

/-- A rule `(kind x other (c (p)))`. -/
def otherRule (kind : CilRuleKind) : CilPolicyAvrule :=
  ⟨kind, .attr ['x'] true (ebitmapOfList [0, 1]) (ebitmapOfList_canonical _), .other,
    [.classperms ['c'] ⟨0⟩ [['p']] [⟨0, ['p']⟩]]⟩

private theorem pairPolicydb_eq (b : Bool) :
    cilTypesToPolicydb pairClasses (pairDb b) pairDecls = some (pairPolicydb b) := by
  have hsome : (cilTypesToPolicydb pairClasses (pairDb b) pairDecls).isSome = true := by
    cases b <;> decide +kernel
  obtain ⟨p, hp⟩ := Option.isSome_iff_exists.1 hsome
  unfold pairPolicydb
  rw [hp]
  rfl

private theorem mem_bothTypes (i : Nat) : i ∈ ebitmapOfList [0, 1] ↔ i = 0 ∨ i = 1 := by
  rw [mem_ebitmapOfList (by decide)]
  simp

private theorem pairDb_counts (b : Bool) : (pairDb b).Counts pairDecls := by
  refine ⟨rfl, fun i hi => ?_, fun fqn keep members canonical hmem i hi => ?_⟩
  · have hlt : i < 2 := hi
    interval_cases i <;> rfl
  · simp only [pairDecls, List.mem_cons, reduceCtorEq, false_or, List.not_mem_nil, or_false] at hmem
    obtain ⟨_, _, rfl⟩ := CilTypeDecl.typeattribute.inj hmem
    show i < 2
    rcases (mem_bothTypes i).1 hi with rfl | rfl <;> decide

private theorem cilTypesToPolicydb_pClasses (h : cilTypesToPolicydb q db decls = some p) :
    p.pClasses = q.pClasses := by
  obtain ⟨s, _, h⟩ := Option.bind_eq_some_iff.1 h
  obtain ⟨array, _, h⟩ := Option.bind_eq_some_iff.1 h
  obtain ⟨st, _, h⟩ := Option.bind_eq_some_iff.1 h
  obtain ⟨maps, _, h⟩ := Option.bind_eq_some_iff.1 h
  obtain rfl := Option.some.inj h
  rfl

private theorem otherRule_grants (kind : CilRuleKind) (b b' : Bool) :
    (otherRule kind).Grants (pairPolicydb b) (pairDb b') 0 1 1 0 := by
  refine ⟨⟨(mem_bothTypes 0).2 (Or.inl rfl), (mem_bothTypes 1).2 (Or.inr rfl), by decide⟩, ?_⟩
  refine ⟨(⟨0⟩, ⟨0, ['p']⟩), List.mem_cons_self .., ⟨1, none, ⟨[(['p'], ⟨1⟩)], 1⟩⟩, ?_, rfl, ⟨1⟩, rfl, rfl⟩
  rw [cilTypesToPolicydb_pClasses (pairPolicydb_eq b)]
  rfl

/-- A rule that allows the permission, and one that does not audit it. -/
theorem cilAvrules_accessDecision_pair : ∃ st, [otherRule .allowed, otherRule .dontaudit].foldlM
    (fun st rule => cilAvruleToAvtab (pairPolicydb false) (pairDb false) rule none st)
      ⟨avtabAlloc maxAvtabSize, avtabAlloc maxAvtabSize, [], []⟩ = some st ∧
    ∃ vi vj, cilGetSepolValue (pairPolicydb false) .type ['a'] = some vi ∧
      cilGetSepolValue (pairPolicydb false) .type ['b'] = some vj ∧
      let decision := accessDecision ((pairPolicydb false).withRules st.teAvtab) (fun _ => none) ⟨vi - 1, vj - 1, 1⟩
      0 ∈ decision.allowed ∧ 0 ∉ decision.auditallow ∧ 0 ∉ decision.auditdeny := by
  have hrun : ([otherRule .allowed, otherRule .dontaudit].foldlM
      (fun st rule => cilAvruleToAvtab (pairPolicydb false) (pairDb false) rule none st)
      ⟨avtabAlloc maxAvtabSize, avtabAlloc maxAvtabSize, [], []⟩).isSome = true := by decide +kernel
  obtain ⟨st, hst⟩ := Option.isSome_iff_exists.1 hrun
  have hclass : ∀ e ∈ (pairPolicydb false).pClasses.table, e.2.value ≤ uint16Max := by
    rw [cilTypesToPolicydb_pClasses (pairPolicydb_eq false)]
    decide
  have hdecl : ∀ rule ∈ [otherRule .allowed, otherRule .dontaudit], rule.Declared pairDecls (pairDb false) := by
    intro rule hrule
    simp only [List.mem_cons, List.not_mem_nil, or_false] at hrule
    rcases hrule with rfl | rfl <;>
      exact ⟨by simp [CilConsDatum.Declared, otherRule, pairDecls], fun d hd => by cases hd⟩
  obtain ⟨vi, vj, hvi, hvj, hallowed, hauditallow, hauditdeny⟩ := cilAvrules_accessDecision pairClasses
    (pairPolicydb false) (pairDb false) pairDecls _ st (pairDb_counts false) (pairPolicydb_eq false)
    (by decide +kernel) hclass hdecl hst (fun _ => none) 0 1 (by decide) (by decide) 1 0
  refine ⟨st, hst, vi, vj, hvi, hvj, hallowed.2 ?_, fun haudit => ?_, fun hdeny => ?_⟩
  · exact ⟨_, List.mem_cons_self .., rfl, otherRule_grants .allowed false false⟩
  · obtain ⟨rule, hrule, hkind, _⟩ := hauditallow.1 haudit
    simp only [List.mem_cons, List.not_mem_nil, or_false] at hrule
    rcases hrule with rfl | rfl <;> cases hkind
  · rcases hauditdeny.1 hdeny with hdisabled | hall
    · cases hdisabled
    · exact hall _ (List.mem_cons_of_mem _ (List.mem_cons_self ..)) rfl (otherRule_grants .dontaudit false false)

/-- When `dontaudit` rules are left out, denials are audited that such a rule is for. -/
theorem cilAvrules_accessDecision_not : ∃ st, [otherRule .dontaudit].foldlM
    (fun st rule => cilAvruleToAvtab (pairPolicydb true) (pairDb true) rule none st)
      ⟨avtabAlloc maxAvtabSize, avtabAlloc maxAvtabSize, [], []⟩ = some st ∧
    ∃ vi vj, cilGetSepolValue (pairPolicydb true) .type ['a'] = some vi ∧
      cilGetSepolValue (pairPolicydb true) .type ['b'] = some vj ∧
      ¬ (0 ∈ (accessDecision ((pairPolicydb true).withRules st.teAvtab) (fun _ => none)
          ⟨vi - 1, vj - 1, 1⟩).auditdeny ↔
        ∀ rule ∈ [otherRule .dontaudit], rule.ruleKind = .dontaudit →
          ¬ rule.Grants (pairPolicydb true) (pairDb true) 0 1 1 0) := by
  refine ⟨_, rfl, 1, 2, by decide +kernel, by decide +kernel, fun hiff => ?_⟩
  refine hiff.1 ?_ _ (List.mem_cons_self ..) rfl (otherRule_grants .dontaudit true true)
  intro n hn
  rw [activeRules_withRules] at hn
  have hn : n ∈ avtabNodes (avtabAlloc maxAvtabSize) := hn
  rw [avtabNodes_avtabAlloc] at hn
  exact absurd hn List.not_mem_nil

end Sepol
