import Sepol.CilDatum

/-!
# The sets of types behind derived attributes

The three functions that derive a datum give the complement, the difference and the intersection of the sets of
types; a new attribute cannot be entered into its table under a name that is
taken.
-/

namespace Sepol

open Outcome

theorem ebitmapHighestSetBit_mem {e : Ebitmap} (h : e.Canonical) (hne : ∃ i, i ∈ e) : ebitmapHighestSetBit e ∈ e :=
  ((ebitmapHighestSetBit_spec h).2 hne).1

private theorem ebitmapOfType_spec {n : Nat} (hn : n < 2 ^ 31) {t : CilType} (ht : t.value < n) :
    ∃ e, ebitmapOfType t = some e ∧ e.Canonical ∧ ∀ i, i ∈ e ↔ i = t.value := by
  have hbit : t.value < 2 ^ 32 - 64 := by omega
  obtain ⟨e, he⟩ : ∃ e, ebitmapOfType t = some e := ⟨_, ebitmapSetBit_true hbit ebitmapInit⟩
  refine ⟨e, he, Ebitmap.Canonical.setBit .init hbit he, fun i => ?_⟩
  rw [mem_of_ebitmapSetBit .init hbit he]
  simp

/-- A bitmap of the types in `S`. -/
def IsSet (n : Nat) (S : Nat → Prop) (types : Ebitmap) : Prop :=
  types.Canonical ∧ (∀ i ∈ types, i < n) ∧ ∀ i, i ∈ types ↔ S i

private theorem isSet_ofType {n : Nat} (hn : n < 2 ^ 31) {t : CilType} (ht : t.value < n) {S : Nat → Prop}
    (hS : ∀ i, S i ↔ i = t.value) : ∃ types, ebitmapOfType t = some types ∧ IsSet n S types := by
  obtain ⟨e, he, hc, hmem⟩ := ebitmapOfType_spec hn ht
  refine ⟨e, he, hc, fun i hi => ?_, fun i => by rw [hmem, hS]⟩
  rw [(hmem i).1 hi]
  exact ht

private theorem isSet_init {n : Nat} {S : Nat → Prop} (hS : ∀ i, ¬ S i) :
    ∃ types, some ebitmapInit = some types ∧ IsSet n S types :=
  ⟨ebitmapInit, rfl, .init, fun i hi => absurd hi (not_mem_ebitmapInit i), fun i =>
    iff_of_false (not_mem_ebitmapInit i) (hS i)⟩

private theorem cilDatumNot_spec {n : Nat} (hn : n < 2 ^ 31) {d : CilDatum} (hd : d.Ok n) :
    ∃ types, cilDatumNot d n = some types ∧ IsSet n (fun i => i < n ∧ ¬ d.Has i) types := by
  cases d with
  | type t =>
    obtain ⟨e, he, hc, hmem⟩ := ebitmapOfType_spec hn hd
    obtain ⟨types, htypes, hc', hmem'⟩ := @ebitmapNot_spec _ hc n (by omega)
    refine ⟨types, by rw [cilDatumNot, he]; exact htypes, hc', fun i hi => ((hmem' i).1 hi).1, fun i => ?_⟩
    rw [hmem', hmem]
    rfl
  | typeattribute a =>
    obtain ⟨types, htypes, hc', hmem'⟩ := @ebitmapNot_spec _ hd.1 n (by omega)
    exact ⟨types, htypes, hc', fun i hi => ((hmem' i).1 hi).1, hmem'⟩

/-- `cil_datums_and` gives the intersection. -/
theorem cilDatumsAnd_spec {n : Nat} (hn : n < 2 ^ 31) {d1 d2 : CilDatum} (h1 : d1.Ok n) (h2 : d2.Ok n) :
    ∃ types, cilDatumsAnd d1 d2 = some types ∧ IsSet n (fun i => d1.Has i ∧ d2.Has i) types := by
  cases d1 with
  | type t1 =>
    cases d2 with
    | type t2 =>
      by_cases h : t1.value = t2.value
      · rw [cilDatumsAnd, if_pos h]
        refine isSet_ofType hn h1 fun i => ?_
        simp only [CilDatum.Has, h, and_self]
      · rw [cilDatumsAnd, if_neg h]
        refine isSet_init ?_
        rintro i ⟨rfl, hi⟩
        exact h hi
    | typeattribute a2 =>
      by_cases h : ebitmapGetBit a2.types t1.value = true
      · rw [cilDatumsAnd, if_pos h]
        rw [ebitmapGetBit_iff h2.1] at h
        refine isSet_ofType hn h1 fun i => ⟨And.left, ?_⟩
        rintro rfl
        exact ⟨rfl, h⟩
      · rw [cilDatumsAnd, if_neg h]
        rw [ebitmapGetBit_iff h2.1] at h
        refine isSet_init ?_
        rintro i ⟨rfl, hi⟩
        exact h hi
  | typeattribute a1 =>
    cases d2 with
    | type t2 =>
      by_cases h : ebitmapGetBit a1.types t2.value = true
      · rw [cilDatumsAnd, if_pos h]
        rw [ebitmapGetBit_iff h1.1] at h
        refine isSet_ofType hn h2 fun i => ⟨And.right, ?_⟩
        rintro rfl
        exact ⟨h, rfl⟩
      · rw [cilDatumsAnd, if_neg h]
        rw [ebitmapGetBit_iff h1.1] at h
        refine isSet_init ?_
        rintro i ⟨hi, rfl⟩
        exact h hi
    | typeattribute a2 =>
      refine ⟨_, rfl, h1.1.and h2.1, fun i hi => ?_, mem_ebitmapAnd h1.1 h2.1⟩
      exact h1.2 i ((mem_ebitmapAnd h1.1 h2.1 i).1 hi).1

/-- `cil_datums_andnot` gives the difference. -/
private theorem cilDatumsAndnot_spec {n : Nat} (hn : n < 2 ^ 31) {d1 d2 : CilDatum} (h1 : d1.Ok n) (h2 : d2.Ok n) :
    ∃ types, cilDatumsAndnot d1 d2 = some types ∧ IsSet n (fun i => d1.Has i ∧ ¬ d2.Has i) types := by
  cases d1 with
  | type t1 =>
    cases d2 with
    | type t2 =>
      by_cases h : t1.value = t2.value
      · rw [cilDatumsAndnot, if_neg (not_not.2 h)]
        refine isSet_init ?_
        rintro i ⟨rfl, hi⟩
        exact hi h
      · rw [cilDatumsAndnot, if_pos h]
        refine isSet_ofType hn h1 fun i => ⟨And.left, ?_⟩
        rintro rfl
        exact ⟨rfl, h⟩
    | typeattribute a2 =>
      by_cases h : ebitmapGetBit a2.types t1.value = true
      · rw [cilDatumsAndnot, if_neg (by simp [h])]
        rw [ebitmapGetBit_iff h2.1] at h
        refine isSet_init ?_
        rintro i ⟨rfl, hi⟩
        exact hi h
      · rw [cilDatumsAndnot, if_pos (by simp [h])]
        rw [ebitmapGetBit_iff h2.1] at h
        refine isSet_ofType hn h1 fun i => ⟨And.left, ?_⟩
        rintro rfl
        exact ⟨rfl, h⟩
  | typeattribute a1 =>
    cases d2 with
    | type t2 =>
      have hbit : t2.value < 2 ^ 32 - 64 := by have : t2.value < n := h2; omega
      obtain ⟨types, htypes, hc, hmem⟩ := ebitmapSetBit_false h1.1 hbit
      refine ⟨types, ?_, hc, fun i hi => h1.2 i ((hmem i).1 hi).1, hmem⟩
      rw [cilDatumsAndnot, ebitmapCpy_eq]
      exact htypes
    | typeattribute a2 =>
      obtain ⟨types, htypes, hc, hmem⟩ := ebitmapAndnot_spec h1.1 h2.1 h1.1.highbit_le
      refine ⟨types, htypes, hc, fun i hi => h1.2 i ((hmem i).1 hi).1, fun i => ?_⟩
      rw [hmem]
      exact ⟨fun h => ⟨h.1, h.2.2⟩, fun h => ⟨h.1, h1.1.lt_of_mem h.1, h.2⟩⟩

theorem cilDatumCardinality_gt_one_iff {n : Nat} {d : Option CilDatum} (hd : CilDatumOk n d) :
    cilDatumCardinality d > 1 ↔ ∃ i j, HasType d i ∧ HasType d j ∧ i ≠ j := by
  cases d with
  | none => simp [cilDatumCardinality]
  | some d =>
    cases d with
    | type t =>
      simp only [cilDatumCardinality, hasType_some, CilDatum.Has, gt_iff_lt, lt_self_iff_false, false_iff]
      rintro ⟨i, j, rfl, rfl, h⟩
      exact h rfl
    | typeattribute a =>
      have hc := (datumOk_some.1 hd).1
      simp only [cilDatumCardinality, hasType_some, CilDatum.Has]
      constructor
      · intro hcard
        have h0 : ebitmapCardinality a.types ≠ 0 := by omega
        have h1 : ebitmapCardinality a.types ≠ 1 := by omega
        rw [Ne, ebitmapCardinality_eq_zero_iff hc] at h0
        push Not at h0
        obtain ⟨i, hi⟩ := h0
        by_contra hnone
        refine h1 ((ebitmapCardinality_eq_one_iff hc).2 ⟨i, fun j => ⟨fun hj => ?_, fun hj => hj ▸ hi⟩⟩)
        by_contra hji
        exact hnone ⟨j, i, hj, hi, hji⟩
      · rintro ⟨i, j, hi, hj, hij⟩
        have h0 : ebitmapCardinality a.types ≠ 0 := fun h => (ebitmapCardinality_eq_zero_iff hc).1 h i hi
        have h1 : ebitmapCardinality a.types ≠ 1 := by
          intro h
          obtain ⟨x, hx⟩ := (ebitmapCardinality_eq_one_iff hc).1 h
          exact hij (((hx i).1 hi).trans ((hx j).1 hj).symm)
        omega

/-! ### Derived data -/

/-- The attribute that is found has the wanted types. -/
private theorem checkAttribute_spec {types : Ebitmap} (nodes : List (CString × CilDatum)) :
    ∀ found : Option CilDatum, (∀ d ∈ found, ∃ a, d = .typeattribute a ∧ a.types = types) →
      ∀ d ∈ (Hashtab.mapNodes (cilCheckAttributeInSymtab types) nodes found).2,
        ∃ a, d = .typeattribute a ∧ a.types = types := by
  induction nodes with
  | nil => intro found hfound; exact hfound
  | cons cur rest ih =>
    intro found hfound
    have hzero : (cilCheckAttributeInSymtab types cur.1 cur.2 found).1 = 0 := by
      cases cur.2 <;> rfl
    rw [Hashtab.mapNodes]
    dsimp only
    rw [if_neg (by simp [hzero])]
    refine ih _ ?_
    cases hcur : cur.2 with
    | type t => exact hfound
    | typeattribute a =>
      rw [cilCheckAttributeInSymtab]
      dsimp only
      split
      · rename_i hcmp
        intro d hd
        obtain rfl := Option.mem_some_iff.1 hd
        exact ⟨a, rfl, ((ebitmapCmp_iff _ _).1 hcmp).symm⟩
      · exact hfound

private theorem cilCheckForPreviouslyDefinedAttribute_spec {db : CilDb} {types : Ebitmap} {d d3 : CilDatum}
    (h : cilCheckForPreviouslyDefinedAttribute db types d = some d3) :
    ∃ a, d3 = .typeattribute a ∧ a.types = types := by
  have hmap : ∀ table : Hashtab CString CilDatum, ∀ d ∈ (table.map (cilCheckAttributeInSymtab types) none).2,
      ∃ a, d = .typeattribute a ∧ a.types = types := by
    intro table
    exact checkAttribute_spec table.entries none (by simp)
  have hlocal : ∀ d' ∈ (if d.symtab ≠ db.rootSymtab then
      ((db.symtabs d.symtab).map (cilCheckAttributeInSymtab types) none).2 else none),
      ∃ a, d' = .typeattribute a ∧ a.types = types := by
    split
    · exact hmap _
    · simp
  unfold cilCheckForPreviouslyDefinedAttribute at h
  generalize (if d.symtab ≠ db.rootSymtab then
    ((db.symtabs d.symtab).map (cilCheckAttributeInSymtab types) none).2 else none) = found at h hlocal
  dsimp only at h
  split at h
  · exact hmap _ d3 h
  · exact hlocal d3 h

variable {n : Nat} {free : Prop} {db : CilDb}

private theorem cilCreateNewAttributeName_injective : Function.Injective cilCreateNewAttributeName := by
  intro m n h
  have hdigits : Nat.toDigits 10 m = Nat.toDigits 10 n := by simpa [cilCreateNewAttributeName] using h
  have hvalue : Nat.ofDigitChars 10 (Nat.toDigits 10 m) 0 = m := Nat.ofDigitChars_ten_toDigits
  rw [← hvalue, hdigits, Nat.ofDigitChars_ten_toDigits]

/-- A new attribute takes the name of the counter, and leaves the later ones free. -/
private theorem cilCreateAndInsertAttributeAndSet_spec (hdb : db.OkIf n free) (d : CilDatum) (expr : CilTypeExpr)
    (types : Ebitmap) :
    Ensures (DenyStops free) (fun r => r.2.OkIf n free ∧ ∃ a, r.1 = .typeattribute a ∧ a.types = types)
      (cilCreateAndInsertAttributeAndSet db d expr types) := by
  have htable := hdb.tables d.parentSymtab
  rw [cilCreateAndInsertAttributeAndSet]
  rcases hr : (db.symtabs d.parentSymtab).insert symtabOps (cilNewAttribute db d.parentSymtab expr types).name
    (.typeattribute (cilNewAttribute db d.parentSymtab expr types)) true true with ⟨code, table⟩
  obtain ⟨htable', ⟨-, rfl, -⟩ | ⟨-, hfound, rfl, -⟩ | ⟨-, -, hmem, -⟩ | ⟨-, -, -, rfl, hentries, -⟩⟩ :=
    htable.insert_cases symtabOps_lawful _ _ _ _ hr
  · exact .inl rfl
  · refine .inr ⟨rfl, fun hfree => ?_⟩
    have hnone := hdb.names hfree d.parentSymtab db.numTypesAndAttrs le_rfl
    rw [cilNewAttribute, hnone] at hfound
    cases hfound
  · cases hmem
  · dsimp only
    split
    next =>
      refine ⟨⟨⟨hdb.numTypes, hdb.numTypes_lt, hdb.value, fun i => ?_⟩, fun hfree i num hnum => ?_⟩, _, rfl, rfl⟩
      · dsimp only
        by_cases hi : i = d.parentSymtab
        · subst hi
          rw [Function.update_self]
          exact htable'
        · rw [Function.update_of_ne hi]
          exact hdb.tables i
      · dsimp only at hnum ⊢
        have hold := hdb.names hfree i num ((Nat.le_succ _).trans hnum)
        by_cases hi : i = d.parentSymtab
        · subst hi
          have hne : cilCreateNewAttributeName num ≠ cilCreateNewAttributeName db.numTypesAndAttrs := fun h =>
            absurd (cilCreateNewAttributeName_injective h) (Nat.ne_of_gt hnum)
          rw [Function.update_self, htable.search_cons symtabOps_lawful htable' hentries]
          exact (if_neg fun h => hne (symcmp_eq_iff.1 h)).trans hold
        · rw [Function.update_of_ne hi]
          exact hold
    next => exact .inl rfl

/-- What a function that derives a datum ensures: the datum stands for the set `S`. -/
def Derives (n : Nat) (free : Prop) (S : Nat → Prop) (r : Option CilDatum × CilDb) : Prop :=
  r.2.OkIf n free ∧ CilDatumOk n r.1 ∧ ∀ i, HasType r.1 i ↔ S i

private theorem cilCreateAttribute_spec (hdb : db.OkIf n free) (d : CilDatum) (expr : CilTypeExpr) {types : Ebitmap}
    {S : Nat → Prop} (h : IsSet n S types) :
    Ensures (DenyStops free) (Derives n free S) (cilCreateAttribute db d expr types) := by
  obtain ⟨hc, hlt, hS⟩ := h
  rw [cilCreateAttribute]
  split
  · rename_i hempty
    refine ⟨hdb, datumOk_none, fun i => iff_of_false hasType_none ?_⟩
    rw [← hS]
    exact (ebitmapIsEmpty_iff hc).1 hempty i
  · split
    · rename_i hone
      obtain ⟨x, hx⟩ := (ebitmapCardinality_eq_one_iff hc).1 hone
      have hhigh : ebitmapHighestSetBit types = x := (hx _).1 (ebitmapHighestSetBit_mem hc ⟨x, (hx x).2 rfl⟩)
      have hxlt : x < n := hlt x ((hx x).2 rfl)
      rw [hhigh]
      refine ⟨hdb, datumOk_some.2 ?_, fun i => ?_⟩
      · rw [CilDatum.Ok, hdb.value x hxlt]
        exact hxlt
      · rw [hasType_some, CilDatum.Has, hdb.value x hxlt, ← hS, hx]
    · split
      · rename_i d3 hd3
        obtain ⟨a, rfl, rfl⟩ := cilCheckForPreviouslyDefinedAttribute_spec hd3
        exact ⟨hdb, datumOk_some.2 ⟨hc, hlt⟩, fun i => by rw [hasType_some, ← hS]; rfl⟩
      · refine ((cilCreateAndInsertAttributeAndSet_spec hdb d expr types).mono ?_).map
        rintro ⟨_, db'⟩ ⟨hdb', a, rfl, rfl⟩
        exact ⟨hdb', datumOk_some.2 ⟨hc, hlt⟩, fun i => by rw [hasType_some, ← hS]; rfl⟩

theorem cilCreateAttributeAllAndNotD_spec (hdb : db.OkIf n free) {d : CilDatum} (hd : d.Ok n) :
    Ensures (DenyStops free) (Derives n free fun i => i < n ∧ ¬ d.Has i)
      (cilCreateAttributeAllAndNotD db (some d)) := by
  obtain ⟨types, htypes, hset⟩ := cilDatumNot_spec hdb.numTypes_lt hd
  rw [cilCreateAttributeAllAndNotD, hdb.numTypes, htypes]
  exact cilCreateAttribute_spec hdb d _ hset

theorem cilCreateAttributeD1AndNotD2_spec (hdb : db.OkIf n free) {d1 d2 : Option CilDatum}
    (h1 : CilDatumOk n d1) (h2 : CilDatumOk n d2) :
    Ensures (DenyStops free) (Derives n free fun i => HasType d1 i ∧ ¬ HasType d2 i)
      (cilCreateAttributeD1AndNotD2 db d1 d2) := by
  cases d2 with
  | none => exact ⟨hdb, h1, fun i => by simp⟩
  | some d2 =>
    cases d1 with
    | none => exact ⟨hdb, h1, fun i => by simp⟩
    | some d1 =>
      rw [cilCreateAttributeD1AndNotD2]
      split
      · rename_i heq
        subst heq
        exact ⟨hdb, datumOk_none, fun i => by simp⟩
      · obtain ⟨types, htypes, hset⟩ :=
          cilDatumsAndnot_spec hdb.numTypes_lt (datumOk_some.1 h1) (datumOk_some.1 h2)
        rw [htypes]
        refine (cilCreateAttribute_spec hdb d1 _ hset).mono fun r hr => ?_
        simpa only [hasType_some] using hr

theorem cilCreateAttributeD1AndD2_spec (hdb : db.OkIf n free) {d1 d2 : Option CilDatum}
    (h1 : CilDatumOk n d1) (h2 : CilDatumOk n d2) :
    Ensures (DenyStops free) (Derives n free fun i => HasType d1 i ∧ HasType d2 i)
      (cilCreateAttributeD1AndD2 db d1 d2) := by
  cases d1 with
  | none => exact ⟨hdb, datumOk_none, fun i => by simp⟩
  | some d1 =>
    cases d2 with
    | none => exact ⟨hdb, datumOk_none, fun i => by simp⟩
    | some d2 =>
      rw [cilCreateAttributeD1AndD2]
      split
      · rename_i heq
        subst heq
        exact ⟨hdb, h1, fun i => by simp⟩
      · obtain ⟨types, htypes, hset⟩ := cilDatumsAnd_spec hdb.numTypes_lt (datumOk_some.1 h1) (datumOk_some.1 h2)
        rw [htypes]
        refine (cilCreateAttribute_spec hdb d1 _ hset).mono fun r hr => ?_
        simpa only [hasType_some] using hr

end Sepol
