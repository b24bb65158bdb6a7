import Sepol.CilClassAlgebra
import Sepol.CilDatumSets

/-!
# Rules that match a deny rule

A rule grants its class permissions to each of its source types on the targets it has for that type.  A deny rule is
given to the rules that match it: every allow rule that grants something the deny rule takes away is one of them.
-/

namespace Sepol

/-- The target of a rule: a type or an attribute, `self`, `notself` or `other`. -/
inductive CilTarget where
  | datum (d : CilDatum)
  | selftype
  | notselftype
  | othertype
deriving DecidableEq

def CilTarget.name : CilTarget → CString
  | .datum d => d.name
  | .selftype => "self".toList
  | .notselftype => "notself".toList
  | .othertype => "other".toList

inductive CilRuleKind where
  | allowed
  | auditallow
  | dontaudit
  | neverallow
deriving DecidableEq

structure CilAvrule where
  isExtended : Bool
  ruleKind : CilRuleKind
  srcStr : CString
  src : CilDatum
  tgtStr : CString
  tgt : CilTarget
  classperms : Option (List CilClassperms)

structure CilDenyRule where
  src : CilDatum
  tgt : CilTarget
  classperms : List CilClassperms

/-! ### Matching class permissions -/

/-- `cil_classperms_match_any` of the search: two items of plain classes. -/
def findClasspermsMatchAny (c1 : CilClass) (perms1 : List CilPerm) (c2 : CilClass) (perms2 : List CilPerm) : Bool :=
  if c1 ≠ c2 then false else perms1.any fun p1 => perms2.any fun p2 => p1 = p2

mutual

/-- `__cil_classperms_list_match_any`: an item of a plain class against a list. -/
def findClasspermsListMatchOne (c1 : CilClass) (perms1 : List CilPerm) : List CilClassperms → Bool
  | [] => false
  | item :: rest => findItemMatchOne c1 perms1 item || findClasspermsListMatchOne c1 perms1 rest

def findItemMatchOne (c1 : CilClass) (perms1 : List CilPerm) : CilClassperms → Bool
  | .classperms _ cls _ perms => findClasspermsMatchAny c1 perms1 cls perms
  | .mapClassperms _ _ _ perms => findMapPermsMatchOne c1 perms1 perms
  | .classpermsSet _ set => findClasspermsListMatchOne c1 perms1 set

def findMapPermsMatchOne (c1 : CilClass) (perms1 : List CilPerm) : List CilMapPerm → Bool
  | [] => false
  | .mk _ classperms :: rest => findClasspermsListMatchOne c1 perms1 classperms || findMapPermsMatchOne c1 perms1 rest

end

mutual

/-- `cil_classperms_list_match_any` of the search. -/
def findClasspermsListMatchAny (cpl2 : List CilClassperms) : List CilClassperms → Bool
  | [] => false
  | item :: rest => findItemMatchAny cpl2 item || findClasspermsListMatchAny cpl2 rest

def findItemMatchAny (cpl2 : List CilClassperms) : CilClassperms → Bool
  | .classperms _ cls _ perms => findClasspermsListMatchOne cls perms cpl2
  | .mapClassperms _ _ _ perms => findMapPermsMatchAny cpl2 perms
  | .classpermsSet _ set => findClasspermsListMatchAny cpl2 set

def findMapPermsMatchAny (cpl2 : List CilClassperms) : List CilMapPerm → Bool
  | [] => false
  | .mk _ classperms :: rest => findClasspermsListMatchAny cpl2 classperms || findMapPermsMatchAny cpl2 rest

end

/-! ### Matching sources and targets -/

def cilTypeMatchAny : CilDatum → CilDatum → Bool
  | .type t1, .type t2 => t1.value = t2.value
  | .typeattribute a, .type t => ebitmapGetBit a.types t.value
  | .type t, .typeattribute a => ebitmapGetBit a.types t.value
  | .typeattribute a1, .typeattribute a2 => a1 = a2 || ebitmapMatchAny a1.types a2.types

/-- The bitmap of the types of both data. -/
def cilTypeMatches : CilDatum → CilDatum → Option Ebitmap
  | .typeattribute a1, .typeattribute a2 => some (ebitmapAnd a1.types a2.types)
  | .type t1, .type t2 => if t1.value = t2.value then ebitmapOfType t1 else some ebitmapInit
  | .typeattribute a, .type t => if ebitmapGetBit a.types t.value then ebitmapOfType t else some ebitmapInit
  | .type t, .typeattribute a => if ebitmapGetBit a.types t.value then ebitmapOfType t else some ebitmapInit

/-- `s1` is matched with a self, `s2` and `t2` are the source and the target of the other rule. -/
def cilSelfMatchAny (s1 s2 t2 : CilDatum) : Option Bool :=
  match s1 with
  | .type _ => some (cilTypeMatchAny s1 t2)
  | .typeattribute a => do
    let map ← cilTypeMatches s2 t2
    if ebitmapIsEmpty map then some false else some (ebitmapMatchAny map a.types)

/-- `s1` is matched with a notself. -/
def cilNotselfMatchAny (s1 s2 t2 : CilDatum) : Option Bool :=
  match s1, t2 with
  | .type ts1, .type tt2 => some (ts1.value ≠ tt2.value)
  | .type ts1, .typeattribute at2 => some ((ebitmapPositiveBits at2.types).any fun t => t ≠ ts1.value)
  | .typeattribute _, .type tt2 => do
    let smap ← cilTypeMatches s1 s2
    if ebitmapIsEmpty smap then some false else some ((ebitmapPositiveBits smap).any fun s => s ≠ tt2.value)
  | .typeattribute _, .typeattribute at2 => do
    let smap ← cilTypeMatches s1 s2
    if ebitmapIsEmpty smap then some false
    else some ((ebitmapPositiveBits smap).any fun s => (ebitmapPositiveBits at2.types).any fun t => s ≠ t)

/-- `s1` is matched with an other. -/
def cilOtherMatchAny (s1 s2 t2 : CilDatum) : Option Bool :=
  match s1 with
  | .type _ => some false
  | .typeattribute _ => do
    let smap ← cilTypeMatches s1 s2
    if ebitmapIsEmpty smap then some false
    else do
      let tmap ← cilTypeMatches s1 t2
      if ebitmapIsEmpty tmap then some false
      else some ((ebitmapPositiveBits smap).any fun s => (ebitmapPositiveBits tmap).any fun t => s ≠ t)

/-- `s2` is matched with an other, the other rule has notself. -/
def cilNotselfOtherMatchAny : CilDatum → Bool
  | .typeattribute as2 => ebitmapCardinality as2.types > 1
  | .type _ => false

/-- The comparison of the targets, for sources that match. -/
def cilTargetsMatchAny (s1 : CilDatum) (t1 : CilTarget) (s2 : CilDatum) (t2 : CilTarget) : Option Bool :=
  match t1, t2 with
  | .selftype, .selftype => some true
  | .selftype, .notselftype => some false
  | .selftype, .othertype => some false
  | .selftype, .datum t2 => cilSelfMatchAny s1 s2 t2
  | .notselftype, .selftype => some false
  | .notselftype, .notselftype => some true
  | .notselftype, .othertype => some (cilNotselfOtherMatchAny s2)
  | .notselftype, .datum t2 => cilNotselfMatchAny s1 s2 t2
  | .othertype, .selftype => some false
  | .othertype, .notselftype => some (cilNotselfOtherMatchAny s1)
  | .othertype, .othertype => some true
  | .othertype, .datum t2 => cilOtherMatchAny s1 s2 t2
  | .datum t1, .selftype => cilSelfMatchAny s2 s1 t1
  | .datum t1, .notselftype => cilNotselfMatchAny s2 s1 t1
  | .datum t1, .othertype => cilOtherMatchAny s2 s1 t1
  | .datum t1, .datum t2 => some (cilTypeMatchAny t1 t2)

/-- `cil_find_matching_avrule` for a target that is no rule of the tree. -/
def cilFindMatchingAvrule (avrule target : CilAvrule) : Option Bool :=
  if avrule.ruleKind ≠ target.ruleKind then some false
  else if avrule.isExtended ≠ target.isExtended then some false
  else if !cilTypeMatchAny avrule.src target.src then some false
  else (cilTargetsMatchAny avrule.src avrule.tgt target.src target.tgt).map fun rc =>
    rc && findClasspermsListMatchAny (target.classperms.getD []) (avrule.classperms.getD [])

/-- The target of the search for a deny rule, an allow rule with its source, target and class permissions. -/
def CilDenyRule.target (deny : CilDenyRule) : CilAvrule where
  isExtended := false
  ruleKind := .allowed
  srcStr := []
  src := deny.src
  tgtStr := []
  tgt := deny.tgt
  classperms := some deny.classperms

/-! ### What a rule grants -/

/-- The target of a rule with source `src` has the type `t` for the source type `s`, in a policy with `n` types. -/
def CilTarget.Covers (n : Nat) (src : CilDatum) (s t : Nat) : CilTarget → Prop
  | .datum d => d.Has t
  | .selftype => t = s
  | .notselftype => t < n ∧ t ≠ s
  | .othertype => src.Has t ∧ t ≠ s

/-- The pairs of a source and a target type a rule speaks about. -/
def RulePair (n : Nat) (src : CilDatum) (tgt : CilTarget) (s t : Nat) : Prop := src.Has s ∧ tgt.Covers n src s t

def CilAvrule.Grants (n : Nat) (r : CilAvrule) (s t : Nat) (x : CilClass × CilPerm) : Prop :=
  RulePair n r.src r.tgt s t ∧ x ∈ flatClasspermsList r.classperms

def CilDenyRule.Denies (n : Nat) (r : CilDenyRule) (s t : Nat) (x : CilClass × CilPerm) : Prop :=
  RulePair n r.src r.tgt s t ∧ x ∈ flatClassperms r.classperms

def CilTarget.Ok (n : Nat) : CilTarget → Prop
  | .datum d => d.Ok n
  | _ => True

/-- The source and the target of a rule are data of the policy. -/
def CilAvrule.Ok (n : Nat) (r : CilAvrule) : Prop := r.src.Ok n ∧ r.tgt.Ok n

def CilDenyRule.Ok (n : Nat) (r : CilDenyRule) : Prop := r.src.Ok n ∧ r.tgt.Ok n

/-! ### Rules that overlap match -/

private theorem findClasspermsMatchAny_iff {c1 c2 : CilClass} {perms1 perms2 : List CilPerm} :
    findClasspermsMatchAny c1 perms1 c2 perms2 = true ↔ ∃ p ∈ perms1, c1 = c2 ∧ p ∈ perms2 := by
  rw [findClasspermsMatchAny]
  split
  · rename_i hne
    simp [hne]
  · rename_i heq
    simp [not_not.1 heq]

private theorem findClasspermsListMatchOne_iff {c1 : CilClass} {perms1 : List CilPerm} (cpl2 : List CilClassperms) :
    findClasspermsListMatchOne c1 perms1 cpl2 = true ↔ ∃ p ∈ perms1, (c1, p) ∈ flatClassperms cpl2 := by
  refine (CilClassperms.listInduction
    (P := fun l => findClasspermsListMatchOne c1 perms1 l = true ↔ ∃ p ∈ perms1, (c1, p) ∈ flatClassperms l)
    (Q := fun l => findMapPermsMatchOne c1 perms1 l = true ↔ ∃ p ∈ perms1, (c1, p) ∈ flatMapPerms l)
    ?_ ?_ ?_ ?_ ?_ ?_).1 cpl2
  · simp [findClasspermsListMatchOne, flatClassperms]
  · intro classStr cls permStrs perms rest ih
    rw [findClasspermsListMatchOne, findItemMatchOne, Bool.or_eq_true, ih, findClasspermsMatchAny_iff]
    simp only [mem_flatClassperms_classperms, and_or_left, exists_or]
  · intro classStr cls permStrs perms rest ihm ih
    rw [findClasspermsListMatchOne, findItemMatchOne, Bool.or_eq_true, ihm, ih]
    simp only [flatClassperms, flatItem, List.mem_append, and_or_left, exists_or]
  · intro setStr set rest ihs ih
    rw [findClasspermsListMatchOne, findItemMatchOne, Bool.or_eq_true, ihs, ih]
    simp only [flatClassperms, flatItem, List.mem_append, and_or_left, exists_or]
  · simp [findMapPermsMatchOne, flatMapPerms]
  · intro fqn cps rest ihc ih
    rw [findMapPermsMatchOne, Bool.or_eq_true, ihc, ih]
    simp only [flatMapPerms, List.mem_append, and_or_left, exists_or]

/-- The search has a test of its own for class permissions that meet, which agrees with that of the deny rules. -/
theorem findClasspermsListMatchAny_eq (cpl1 cpl2 : List CilClassperms) :
    findClasspermsListMatchAny cpl2 cpl1 = classpermsMatchAny cpl2 cpl1 := by
  refine (CilClassperms.listInduction
    (P := fun l => findClasspermsListMatchAny cpl2 l = classpermsMatchAny cpl2 l)
    (Q := fun l => findMapPermsMatchAny cpl2 l = mapPermsMatchAny cpl2 l)
    ?_ ?_ ?_ ?_ ?_ ?_).1 cpl1
  · rw [findClasspermsListMatchAny, classpermsMatchAny]
  · intro classStr cls permStrs perms rest ih
    have hone : findClasspermsListMatchOne cls perms cpl2 = cilClasspermsMatchAny cls perms cpl2 := by
      rw [Bool.eq_iff_iff, findClasspermsListMatchOne_iff, cilClasspermsMatchAny, List.any_eq_true]
      simp only [cilClassPermMatch_iff]
    rw [findClasspermsListMatchAny, findItemMatchAny, classpermsMatchAny, itemMatchAny, ih, hone]
  · intro classStr cls permStrs perms rest ihm ih
    rw [findClasspermsListMatchAny, findItemMatchAny, classpermsMatchAny, itemMatchAny, ihm, ih]
  · intro setStr set rest ihs ih
    rw [findClasspermsListMatchAny, findItemMatchAny, classpermsMatchAny, itemMatchAny, ihs, ih]
  · rw [findMapPermsMatchAny, mapPermsMatchAny]
  · intro fqn cps rest ihc ih
    rw [findMapPermsMatchAny, mapPermsMatchAny, ihc, ih]

theorem cilTypeMatchAny_of_has {n : Nat} {d1 d2 : CilDatum} (h1 : d1.Ok n) (h2 : d2.Ok n) {i : Nat} (hi1 : d1.Has i)
    (hi2 : d2.Has i) : cilTypeMatchAny d1 d2 = true := by
  cases d1 with
  | type t1 =>
    obtain rfl : i = t1.value := hi1
    cases d2 with
    | type t2 => exact decide_eq_true hi2
    | typeattribute a => exact (ebitmapGetBit_iff h2.1 _).2 hi2
  | typeattribute a1 =>
    cases d2 with
    | type t2 =>
      obtain rfl : i = t2.value := hi2
      exact (ebitmapGetBit_iff h1.1 _).2 hi1
    | typeattribute a2 =>
      rw [cilTypeMatchAny, Bool.or_eq_true]
      exact .inr ((ebitmapMatchAny_iff h1.1 h2.1).2 ⟨i, hi1, hi2⟩)

private theorem cilTypeMatches_eq (d1 d2 : CilDatum) : cilTypeMatches d1 d2 = cilDatumsAnd d1 d2 := by
  cases d1 <;> cases d2 <;> rfl

private theorem cilTypeMatches_spec {n : Nat} (hn : n < 2 ^ 31) {d1 d2 : CilDatum} (h1 : d1.Ok n) (h2 : d2.Ok n) :
    ∃ map, cilTypeMatches d1 d2 = some map ∧ map.Canonical ∧ ∀ i, i ∈ map ↔ d1.Has i ∧ d2.Has i := by
  obtain ⟨map, hmap, hc, -, hmem⟩ := cilDatumsAnd_spec hn h1 h2
  exact ⟨map, (cilTypeMatches_eq d1 d2).trans hmap, hc, hmem⟩

private theorem not_isEmpty {map : Ebitmap} (hc : map.Canonical) {i : Nat} (hi : i ∈ map) :
    ¬ ebitmapIsEmpty map = true := fun h => (ebitmapIsEmpty_iff hc).1 h i hi

private theorem cilSelfMatchAny_of_has {n : Nat} (hn : n < 2 ^ 31) {s1 s2 t2 : CilDatum} (h1 : s1.Ok n) (h2 : s2.Ok n)
    (ht : t2.Ok n) {i : Nat} (hi1 : s1.Has i) (hi2 : s2.Has i) (hit : t2.Has i) :
    cilSelfMatchAny s1 s2 t2 = some true := by
  cases s1 with
  | type ts1 => exact congrArg some (cilTypeMatchAny_of_has h1 ht hi1 hit)
  | typeattribute a =>
    obtain ⟨map, hmap, hc, hmem⟩ := cilTypeMatches_spec hn h2 ht
    have hi : i ∈ map := (hmem i).2 ⟨hi2, hit⟩
    rw [cilSelfMatchAny, hmap]
    simp only [Option.bind_eq_bind, Option.bind_some]
    rw [if_neg (not_isEmpty hc hi), Option.some_inj]
    exact (ebitmapMatchAny_iff hc h1.1).2 ⟨i, hi, hi1⟩

private theorem cilNotselfMatchAny_of_has {n : Nat} (hn : n < 2 ^ 31) {s1 s2 t2 : CilDatum} (h1 : s1.Ok n)
    (h2 : s2.Ok n) (ht : t2.Ok n) {s t : Nat} (hs1 : s1.Has s) (hs2 : s2.Has s) (htt : t2.Has t) (hne : t ≠ s) :
    cilNotselfMatchAny s1 s2 t2 = some true := by
  obtain ⟨smap, hsmap, hc, hmem⟩ := cilTypeMatches_spec hn h1 h2
  have hs : s ∈ smap := (hmem s).2 ⟨hs1, hs2⟩
  cases s1 with
  | type ts1 =>
    obtain rfl : s = ts1.value := hs1
    cases t2 with
    | type tt2 =>
      obtain rfl : t = tt2.value := htt
      exact congrArg some (decide_eq_true hne.symm)
    | typeattribute at2 =>
      rw [cilNotselfMatchAny, Option.some_inj, List.any_eq_true]
      exact ⟨t, (mem_ebitmapPositiveBits ht.1).2 htt, decide_eq_true hne⟩
  | typeattribute a =>
    cases t2 with
    | type tt2 =>
      obtain rfl : t = tt2.value := htt
      rw [cilNotselfMatchAny, hsmap]
      simp only [Option.bind_eq_bind, Option.bind_some]
      rw [if_neg (not_isEmpty hc hs), Option.some_inj, List.any_eq_true]
      exact ⟨s, (mem_ebitmapPositiveBits hc).2 hs, decide_eq_true hne.symm⟩
    | typeattribute at2 =>
      rw [cilNotselfMatchAny, hsmap]
      simp only [Option.bind_eq_bind, Option.bind_some]
      rw [if_neg (not_isEmpty hc hs), Option.some_inj, List.any_eq_true]
      refine ⟨s, (mem_ebitmapPositiveBits hc).2 hs, List.any_eq_true.2 ⟨t, ?_, decide_eq_true hne.symm⟩⟩
      exact (mem_ebitmapPositiveBits ht.1).2 htt

private theorem cilOtherMatchAny_of_has {n : Nat} (hn : n < 2 ^ 31) {s1 s2 t2 : CilDatum} (h1 : s1.Ok n)
    (h2 : s2.Ok n)
    (ht : t2.Ok n) {s t : Nat} (hs1 : s1.Has s) (hs2 : s2.Has s) (ht1 : s1.Has t) (ht2 : t2.Has t) (hne : t ≠ s) :
    cilOtherMatchAny s1 s2 t2 = some true := by
  obtain ⟨smap, hsmap, hsc, hsmem⟩ := cilTypeMatches_spec hn h1 h2
  obtain ⟨tmap, htmap, htc, htmem⟩ := cilTypeMatches_spec hn h1 ht
  have hs : s ∈ smap := (hsmem s).2 ⟨hs1, hs2⟩
  have htm : t ∈ tmap := (htmem t).2 ⟨ht1, ht2⟩
  cases s1 with
  | type ts1 => exact absurd ((show t = ts1.value from ht1).trans (show s = ts1.value from hs1).symm) hne
  | typeattribute a =>
    rw [cilOtherMatchAny, hsmap, htmap]
    simp only [Option.bind_eq_bind, Option.bind_some]
    rw [if_neg (not_isEmpty hsc hs), if_neg (not_isEmpty htc htm), Option.some_inj, List.any_eq_true]
    refine ⟨s, (mem_ebitmapPositiveBits hsc).2 hs, List.any_eq_true.2 ⟨t, ?_, decide_eq_true hne.symm⟩⟩
    exact (mem_ebitmapPositiveBits htc).2 htm

private theorem cilNotselfOtherMatchAny_of_has {n : Nat} {s2 : CilDatum} (h2 : s2.Ok n) {s t : Nat} (hs : s2.Has s)
    (ht : s2.Has t) (hne : t ≠ s) : cilNotselfOtherMatchAny s2 = true := by
  cases s2 with
  | type t2 => exact absurd ((show t = t2.value from ht).trans (show s = t2.value from hs).symm) hne
  | typeattribute a =>
    have hcard : cilDatumCardinality (some (.typeattribute a)) > 1 :=
      (cilDatumCardinality_gt_one_iff (datumOk_some.2 h2)).2
        ⟨t, s, hasType_some.2 ht, hasType_some.2 hs, hne⟩
    exact decide_eq_true hcard

/-- The comparison of targets does not fail. -/
theorem cilTargetsMatchAny_isSome {n : Nat} (hn : n < 2 ^ 31) {s1 s2 : CilDatum} {t1 t2 : CilTarget} (h1 : s1.Ok n)
    (h2 : s2.Ok n) (ht1 : t1.Ok n) (ht2 : t2.Ok n) : ∃ rc, cilTargetsMatchAny s1 t1 s2 t2 = some rc := by
  have hself : ∀ {a b c : CilDatum}, b.Ok n → c.Ok n → ∃ rc, cilSelfMatchAny a b c = some rc := by
    intro a b c hb hc
    obtain ⟨map, hmap, -⟩ := cilTypeMatches_spec hn hb hc
    cases a with
    | type t => exact ⟨_, rfl⟩
    | typeattribute a =>
      rw [cilSelfMatchAny, hmap]
      simp only [Option.bind_eq_bind, Option.bind_some]
      split <;> exact ⟨_, rfl⟩
  have hnotself : ∀ {a b c : CilDatum}, a.Ok n → b.Ok n → ∃ rc, cilNotselfMatchAny a b c = some rc := by
    intro a b c ha hb
    obtain ⟨map, hmap, -⟩ := cilTypeMatches_spec hn ha hb
    cases a with
    | type t => cases c <;> exact ⟨_, rfl⟩
    | typeattribute a =>
      cases c
      all_goals
        rw [cilNotselfMatchAny, hmap]
        simp only [Option.bind_eq_bind, Option.bind_some]
        split <;> exact ⟨_, rfl⟩
  have hother : ∀ {a b c : CilDatum}, a.Ok n → b.Ok n → c.Ok n → ∃ rc, cilOtherMatchAny a b c = some rc := by
    intro a b c ha hb hc
    obtain ⟨smap, hsmap, -⟩ := cilTypeMatches_spec hn ha hb
    obtain ⟨tmap, htmap, -⟩ := cilTypeMatches_spec hn ha hc
    cases a with
    | type t => exact ⟨_, rfl⟩
    | typeattribute a =>
      rw [cilOtherMatchAny, hsmap, htmap]
      simp only [Option.bind_eq_bind, Option.bind_some]
      split
      · exact ⟨_, rfl⟩
      · split <;> exact ⟨_, rfl⟩
  cases t1 with
  | selftype =>
    cases t2 with
    | datum d2 => exact hself h2 ht2
    | _ => exact ⟨_, rfl⟩
  | notselftype =>
    cases t2 with
    | datum d2 => exact hnotself h1 h2
    | _ => exact ⟨_, rfl⟩
  | othertype =>
    cases t2 with
    | datum d2 => exact hother h1 h2 ht2
    | _ => exact ⟨_, rfl⟩
  | datum d1 =>
    cases t2 with
    | selftype => exact hself h1 ht1
    | notselftype => exact hnotself h2 h1
    | othertype => exact hother h2 h1 ht1
    | datum d2 => exact ⟨_, rfl⟩

/-- Targets that share a pair of types match. -/
theorem cilTargetsMatchAny_of_pair {n : Nat} (hn : n < 2 ^ 31) {s1 s2 : CilDatum} {t1 t2 : CilTarget} (h1 : s1.Ok n)
    (h2 : s2.Ok n) (ht1 : t1.Ok n) (ht2 : t2.Ok n) {s t : Nat} (hp1 : RulePair n s1 t1 s t)
    (hp2 : RulePair n s2 t2 s t) :
    cilTargetsMatchAny s1 t1 s2 t2 = some true := by
  obtain ⟨hs1, hc1⟩ := hp1
  obtain ⟨hs2, hc2⟩ := hp2
  cases t1 with
  | selftype =>
    obtain rfl : t = s := hc1
    cases t2 with
    | selftype => rfl
    | notselftype => exact absurd rfl hc2.2
    | othertype => exact absurd rfl hc2.2
    | datum d2 => exact cilSelfMatchAny_of_has hn h1 h2 ht2 hs1 hs2 hc2
  | notselftype =>
    cases t2 with
    | selftype => exact absurd hc2 hc1.2
    | notselftype => rfl
    | othertype => exact congrArg some (cilNotselfOtherMatchAny_of_has h2 hs2 hc2.1 hc2.2)
    | datum d2 => exact cilNotselfMatchAny_of_has hn h1 h2 ht2 hs1 hs2 hc2 hc1.2
  | othertype =>
    cases t2 with
    | selftype => exact absurd hc2 hc1.2
    | notselftype => exact congrArg some (cilNotselfOtherMatchAny_of_has h1 hs1 hc1.1 hc1.2)
    | othertype => rfl
    | datum d2 => exact cilOtherMatchAny_of_has hn h1 h2 ht2 hs1 hs2 hc1.1 hc2 hc1.2
  | datum d1 =>
    cases t2 with
    | selftype =>
      obtain rfl : t = s := hc2
      exact cilSelfMatchAny_of_has hn h2 h1 ht1 hs2 hs1 hc1
    | notselftype => exact cilNotselfMatchAny_of_has hn h2 h1 ht1 hs2 hs1 hc1 hc2.2
    | othertype => exact cilOtherMatchAny_of_has hn h2 h1 ht1 hs2 hs1 hc2.1 hc1 hc2.2
    | datum d2 => exact congrArg some (cilTypeMatchAny_of_has ht1 ht2 hc1 hc2)

end Sepol
