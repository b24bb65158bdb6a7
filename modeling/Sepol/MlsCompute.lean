import Sepol.KernelPolicydb
import Sepol.MlsOrder

/-!
# Computing ranges

The functions of `mls.c` and of the headers that compute the range of a new context, `mls_compute_sid` and
`mls_setup_user_range`.  A range is well formed when its high level dominates its low level.  Copies of levels do not
fail here.
-/

namespace Sepol

/-! ### Copies -/

def mlsContextCpy (dst src : Context) : Context := { dst with range := mlsRangeCpy src.range }

def mlsContextCpyLow (dst src : Context) : Context :=
  { dst with range := ⟨⟨src.range.level0.sens, ebitmapCpy src.range.level0.cat⟩,
                       ⟨src.range.level0.sens, ebitmapCpy src.range.level0.cat⟩⟩ }

def mlsContextCpyHigh (dst src : Context) : Context :=
  { dst with range := ⟨⟨src.range.level1.sens, ebitmapCpy src.range.level1.cat⟩,
                       ⟨src.range.level1.sens, ebitmapCpy src.range.level1.cat⟩⟩ }

/-- `mls_copy_context`. -/
def mlsCopyContext (dst src : Context) : Context :=
  { dst with range := ⟨⟨src.range.level0.sens, ebitmapCpy src.range.level0.cat⟩,
                       ⟨src.range.level1.sens, ebitmapCpy src.range.level1.cat⟩⟩ }

/-- `mls_scopy_context`: the effective range. -/
def mlsScopyContext (dst src : Context) : Context :=
  { dst with range := ⟨⟨src.range.level0.sens, ebitmapCpy src.range.level0.cat⟩,
                       ⟨src.range.level0.sens, ebitmapCpy src.range.level0.cat⟩⟩ }

def mlsRangeSet (context : Context) (range : MlsRange) : Context :=
  { context with range := ⟨⟨range.level0.sens, ebitmapCpy range.level0.cat⟩,
                           ⟨range.level1.sens, ebitmapCpy range.level1.cat⟩⟩ }

def mlsRangeGlblub (r1 r2 : MlsRange) : Option MlsRange :=
  if r1.level1.sens < r2.level0.sens ∨ r2.level1.sens < r1.level0.sens then none
  else some ⟨⟨max r1.level0.sens r2.level0.sens, ebitmapAnd r1.level0.cat r2.level0.cat⟩,
             ⟨min r1.level1.sens r2.level1.sens, ebitmapAnd r1.level1.cat r2.level1.cat⟩⟩

def mlsContextGlblub (dst c1 c2 : Context) : Option Context :=
  (mlsRangeGlblub c1.range c2.range).map fun range => { dst with range := range }

/-! ### The range of a new context -/

/-- `range_trans_t`. -/
structure RangeTrans where
  sourceType : Nat
  targetType : Nat
  targetClass : Nat
deriving DecidableEq

/-- A kernel policy with its table `range_tr`. -/
structure RangePolicydb extends KernelPolicydb where
  rangeTr : List (RangeTrans × MlsRange)

@[match_pattern] abbrev defaultSourceLow : Nat := 1
@[match_pattern] abbrev defaultSourceHigh : Nat := 2
@[match_pattern] abbrev defaultSourceLowHigh : Nat := 3
@[match_pattern] abbrev defaultTargetLow : Nat := 4
@[match_pattern] abbrev defaultTargetHigh : Nat := 5
@[match_pattern] abbrev defaultTargetLowHigh : Nat := 6
@[match_pattern] abbrev defaultGlblub : Nat := 7

/-- The `default_range` of a class, or 0. -/
def RangePolicydb.defaultRange (p : RangePolicydb) (tclass : Nat) : Nat :=
  if tclass ≠ 0 ∧ tclass ≤ p.pClasses.nprim then
    match p.classEntry (tclass - 1) with
    | some cladatum => cladatum.2.defaultRange
    | none => 0
  else 0

/-- The branch of `AVTAB_CHANGE`. -/
def mlsComputeChange (p : RangePolicydb) (scontext : Context) (tclass : Nat) (newcontext : Context) : Context :=
  if tclass = p.processClass then mlsCopyContext newcontext scontext else mlsScopyContext newcontext scontext

/-- The branch of `AVTAB_TRANSITION`, which falls through to the next one. -/
def mlsComputeTransition (p : RangePolicydb) (scontext tcontext : Context) (tclass : Nat) (newcontext : Context) :
    Option Context :=
  match p.rangeTr.find? fun e => e.1 = ⟨scontext.type, tcontext.type, tclass⟩ with
  | some r => some (mlsRangeSet newcontext r.2)
  | none =>
    match p.defaultRange tclass with
    | defaultSourceLow => some (mlsContextCpyLow newcontext scontext)
    | defaultSourceHigh => some (mlsContextCpyHigh newcontext scontext)
    | defaultSourceLowHigh => some (mlsContextCpy newcontext scontext)
    | defaultTargetLow => some (mlsContextCpyLow newcontext tcontext)
    | defaultTargetHigh => some (mlsContextCpyHigh newcontext tcontext)
    | defaultTargetLowHigh => some (mlsContextCpy newcontext tcontext)
    | defaultGlblub => mlsContextGlblub newcontext scontext tcontext
    | _ => some (mlsComputeChange p scontext tclass newcontext)

/-- `mls_compute_sid`. -/
def mlsComputeSid (p : RangePolicydb) (scontext tcontext : Context) (tclass : Nat) (specified : BitVec 32)
    (newcontext : Context) : Option Context :=
  if !p.mls then some newcontext
  else if specified = avtabTransition.setWidth 32 then mlsComputeTransition p scontext tcontext tclass newcontext
  else if specified = avtabChange.setWidth 32 then some (mlsComputeChange p scontext tclass newcontext)
  else if specified = avtabMember.setWidth 32 then some (mlsContextCpyLow newcontext scontext)
  else none

/-- `mls_level_between`. -/
def mlsLevelBetween (l1 l2 l3 : MlsLevel) : Bool := mlsLevelDom l1 l2 && mlsLevelDom l3 l1

/-- The low level of `mls_setup_user_range`. -/
def mlsUserSen (fromcon : Context) (user : KernelUser) : Option MlsLevel :=
  if mlsLevelBetween user.expDfltlevel fromcon.range.level0 fromcon.range.level1 then some user.expDfltlevel
  else if mlsLevelBetween fromcon.range.level0 user.expDfltlevel user.expRange.level1 then some fromcon.range.level0
  else if mlsLevelBetween fromcon.range.level1 user.expRange.level0 user.expDfltlevel then some user.expRange.level0
  else none

/-- The high level of `mls_setup_user_range`. -/
def mlsUserClr (fromcon : Context) (user : KernelUser) : Option MlsLevel :=
  if mlsLevelDom user.expRange.level1 fromcon.range.level1 then some fromcon.range.level1
  else if mlsLevelDom fromcon.range.level1 user.expRange.level1 then some user.expRange.level1
  else none

/-- `mls_setup_user_range`; `none` stands for `-EINVAL`. -/
def mlsSetupUserRange (fromcon : Context) (user : KernelUser) (usercon : Context) (mls : Bool) : Option Context :=
  if mls then
    match mlsUserSen fromcon user with
    | none => none
    | some sen => (mlsUserClr fromcon user).map fun clr => { usercon with range := ⟨sen, clr⟩ }
  else some usercon

/-! ### The order of levels -/

variable {l l1 l2 l3 : MlsLevel} {r r1 r2 : MlsRange}

theorem MlsLevel.Dominates.refl (l : MlsLevel) : l.Dominates l := ⟨Nat.le_refl _, fun _ h => h⟩

theorem MlsLevel.Dominates.trans (h : l1.Dominates l2) (h' : l2.Dominates l3) : l1.Dominates l3 :=
  ⟨Nat.le_trans h'.1 h.1, fun i hi => h.2 i (h'.2 i hi)⟩

/-- A well-formed range: both category sets are canonical, and the high level dominates the low level. -/
structure MlsRange.WellFormed (r : MlsRange) : Prop where
  low : r.level0.cat.Canonical
  high : r.level1.cat.Canonical
  dom : mlsLevelDom r.level1 r.level0 = true

private theorem MlsRange.WellFormed.of_dominates (hlow : r.level0.cat.Canonical) (hhigh : r.level1.cat.Canonical)
    (h : r.level1.Dominates r.level0) : r.WellFormed := ⟨hlow, hhigh, (mlsLevelDom_iff hhigh hlow).2 h⟩

theorem MlsRange.WellFormed.dominates (h : r.WellFormed) : r.level1.Dominates r.level0 :=
  (mlsLevelDom_iff h.high h.low).1 h.dom

private theorem wellFormed_single (h : l.cat.Canonical) : (⟨l, l⟩ : MlsRange).WellFormed :=
  .of_dominates h h (.refl l)

/-- The common part of two well-formed ranges that have a common sensitivity. -/
private theorem mlsRangeGlblub_spec (h1 : r1.WellFormed) (h2 : r2.WellFormed) (h : mlsRangeGlblub r1 r2 = some r) :
    r.WellFormed ∧ r1.level1.Dominates r.level1 ∧ r2.level1.Dominates r.level1 ∧
      r.level0.sens = max r1.level0.sens r2.level0.sens ∧
      ∀ i, i ∈ r.level0.cat ↔ i ∈ r1.level0.cat ∧ i ∈ r2.level0.cat := by
  unfold mlsRangeGlblub at h
  split at h
  · cases h
  · rename_i hcommon
    cases h
    have hd1 := h1.dominates
    have hd2 := h2.dominates
    have hlow := mem_ebitmapAnd h1.low h2.low
    have hhigh := mem_ebitmapAnd h1.high h2.high
    refine ⟨.of_dominates (h1.low.and h2.low) (h1.high.and h2.high) ⟨?_, fun i hi => ?_⟩,
      ⟨Nat.min_le_left _ _, fun i hi => ((hhigh i).1 hi).1⟩, ⟨Nat.min_le_right _ _, fun i hi => ((hhigh i).1 hi).2⟩,
      rfl, hlow⟩
    · have hs1 := hd1.1
      have hs2 := hd2.1
      dsimp only
      omega
    · have hi' := (hlow i).1 hi
      exact (hhigh i).2 ⟨hd1.2 i hi'.1, hd2.2 i hi'.2⟩

private theorem mlsRangeGlblub_inside_iff (h1 : r1.WellFormed) (h2 : r2.WellFormed)
    (h : mlsRangeGlblub r1 r2 = some r) :
    (mlsRangeContains r1 r = true ∧ mlsRangeContains r2 r = true) ↔ r1.level0.cat = r2.level0.cat := by
  obtain ⟨hr, hd1, hd2, hsens, hcat⟩ := mlsRangeGlblub_spec h1 h2 h
  simp only [mlsRangeContains, Bool.and_eq_true, mlsLevelDom_iff hr.low h1.low, mlsLevelDom_iff hr.low h2.low,
    mlsLevelDom_iff h1.high hr.high, mlsLevelDom_iff h2.high hr.high]
  constructor
  · intro ⟨⟨hl1, _⟩, hl2, _⟩
    refine h1.low.ext h2.low fun i => ⟨fun hi => ?_, fun hi => ?_⟩
    · exact ((hcat i).1 (hl1.2 i hi)).2
    · exact ((hcat i).1 (hl2.2 i hi)).1
  · intro heq
    refine ⟨⟨⟨?_, fun i hi => ?_⟩, hd1⟩, ⟨?_, fun i hi => ?_⟩, hd2⟩
    · rw [hsens]
      exact Nat.le_max_left _ _
    · exact (hcat i).2 ⟨hi, heq ▸ hi⟩
    · rw [hsens]
      exact Nat.le_max_right _ _
    · exact (hcat i).2 ⟨heq ▸ hi, hi⟩

/-! ### Every branch -/

private theorem mlsComputeChange_wellFormed (p : RangePolicydb) {scontext : Context} (hs : scontext.range.WellFormed)
    (tclass : Nat) (newcontext : Context) : (mlsComputeChange p scontext tclass newcontext).range.WellFormed := by
  unfold mlsComputeChange
  split
  · simpa only [mlsCopyContext, ebitmapCpy_eq] using hs
  · simpa only [mlsScopyContext, ebitmapCpy_eq] using wellFormed_single hs.low

private theorem mlsComputeTransition_wellFormed {p : RangePolicydb} (hp : ∀ e ∈ p.rangeTr, e.2.WellFormed)
    {scontext tcontext newcontext c : Context} (hs : scontext.range.WellFormed) (ht : tcontext.range.WellFormed)
    {tclass : Nat} (h : mlsComputeTransition p scontext tcontext tclass newcontext = some c) :
    c.range.WellFormed := by
  unfold mlsComputeTransition at h
  split at h
  · rename_i r hr
    cases h
    simpa only [mlsRangeSet, ebitmapCpy_eq] using hp r (List.mem_of_find?_eq_some hr)
  · split at h
    case h_7 =>
      obtain ⟨range, hrange, rfl⟩ := Option.map_eq_some_iff.1 h
      exact (mlsRangeGlblub_spec hs ht hrange).1
    case h_8 =>
      cases h
      exact mlsComputeChange_wellFormed p hs tclass newcontext
    all_goals cases h
    · simpa only [mlsContextCpyLow, ebitmapCpy_eq] using wellFormed_single hs.low
    · simpa only [mlsContextCpyHigh, ebitmapCpy_eq] using wellFormed_single hs.high
    · simpa only [mlsContextCpy, mlsRangeCpy, mlsLevelCpy_eq] using hs
    · simpa only [mlsContextCpyLow, ebitmapCpy_eq] using wellFormed_single ht.low
    · simpa only [mlsContextCpyHigh, ebitmapCpy_eq] using wellFormed_single ht.high
    · simpa only [mlsContextCpy, mlsRangeCpy, mlsLevelCpy_eq] using ht

/-- `mls_level_dom` is a partial order on levels with canonical categories; `mls_compute_sid` gives well-formed
ranges; and the high level of the common part of two ranges is dominated by both high levels, its low level has at
least the sensitivities of the low levels and their common categories, so the common part is inside both ranges
exactly when the low levels have the same categories. -/
theorem mlsComputeSid_wellFormed (p : RangePolicydb) (hp : ∀ e ∈ p.rangeTr, e.2.WellFormed)
    (scontext tcontext : Context) (hs : scontext.range.WellFormed) (ht : tcontext.range.WellFormed) :
    ((∀ l : MlsLevel, l.cat.Canonical → mlsLevelDom l l = true) ∧
      (∀ l1 l2 : MlsLevel, l1.cat.Canonical → l2.cat.Canonical →
        mlsLevelDom l1 l2 = true → mlsLevelDom l2 l1 = true → l1 = l2) ∧
      ∀ l1 l2 l3 : MlsLevel, l1.cat.Canonical → l2.cat.Canonical → l3.cat.Canonical →
        mlsLevelDom l1 l2 = true → mlsLevelDom l2 l3 = true → mlsLevelDom l1 l3 = true) ∧
    (∀ (tclass : Nat) (specified : BitVec 32) (newcontext c : Context), p.mls = true →
      mlsComputeSid p scontext tcontext tclass specified newcontext = some c →
        mlsLevelDom c.range.level1 c.range.level0 = true) ∧
    ∀ r, mlsRangeGlblub scontext.range tcontext.range = some r →
      mlsLevelDom scontext.range.level1 r.level1 = true ∧ mlsLevelDom tcontext.range.level1 r.level1 = true ∧
      r.level0.sens = max scontext.range.level0.sens tcontext.range.level0.sens ∧
      (∀ i, i ∈ r.level0.cat ↔ i ∈ scontext.range.level0.cat ∧ i ∈ tcontext.range.level0.cat) ∧
      ((mlsRangeContains scontext.range r = true ∧ mlsRangeContains tcontext.range r = true) ↔
        scontext.range.level0.cat = tcontext.range.level0.cat) := by
  refine ⟨⟨fun l hl => ?_, fun l1 l2 h1 h2 h12 h21 => ?_, fun l1 l2 l3 h1 h2 h3 h12 h23 => ?_⟩,
    fun tclass specified newcontext c hmls h => ?_, fun r hr => ?_⟩
  · exact (mlsLevelDom_iff hl hl).2 (.refl l)
  · have hsame := MlsLevel.same_iff.2 ⟨(mlsLevelDom_iff h1 h2).1 h12, (mlsLevelDom_iff h2 h1).1 h21⟩
    exact (mlsLevelEq_iff l1 l2).1 ((mlsLevelEq_iff_same h1 h2).2 hsame)
  · exact (mlsLevelDom_iff h1 h3).2 (((mlsLevelDom_iff h1 h2).1 h12).trans ((mlsLevelDom_iff h2 h3).1 h23))
  · suffices hwf : c.range.WellFormed from hwf.dom
    unfold mlsComputeSid at h
    rw [hmls, if_neg (by decide)] at h
    split at h
    · exact mlsComputeTransition_wellFormed hp hs ht h
    · split at h
      · cases h
        exact mlsComputeChange_wellFormed p hs tclass newcontext
      · split at h
        · cases h
          simpa only [mlsContextCpyLow, ebitmapCpy_eq] using wellFormed_single hs.low
        · cases h
  · obtain ⟨hwf, hd1, hd2, hsens, hcat⟩ := mlsRangeGlblub_spec hs ht hr
    exact ⟨(mlsLevelDom_iff hs.high hwf.high).2 hd1, (mlsLevelDom_iff ht.high hwf.high).2 hd2, hsens, hcat,
      mlsRangeGlblub_inside_iff hs ht hr⟩

/-- A context whose low level has the categories `low`, and whose high level has the category 0. -/
def catContext (low : Ebitmap) : Context := ⟨1, 1, 1, ⟨⟨1, low⟩, ⟨1, ebitmapOfList [0]⟩⟩⟩

/-- An MLS policy with one class, whose default range is `glblub`. -/
def glblubPolicydb : RangePolicydb where
  policyvers := 33
  mls := true
  targetPlatform := 0
  pCommons := symtabInit
  pClasses := ⟨[(['c'], ⟨1, none, symtabInit, [], [], 0, 0, 0, defaultGlblub⟩)], 1⟩
  pRoles := symtabInit
  pTypes := symtabInit
  pUsers := symtabInit
  pBools := symtabInit
  pLevels := symtabInit
  pCats := symtabInit
  teAvtab := avtabAlloc 0
  teCondAvtab := avtabAlloc 0
  condList := []
  roleAllow := []
  permissiveMap := ebitmapInit
  processClass := 0
  processTransDyntrans := 0
  typeAttrMap := fun _ => ebitmapInit
  attrTypeMap := fun _ => ebitmapInit
  rangeTr := []

private theorem catContext_wellFormed_single : (catContext (ebitmapOfList [0])).range.WellFormed :=
  wellFormed_single (ebitmapOfList_canonical _)

private theorem catContext_wellFormed_init : (catContext ebitmapInit).range.WellFormed :=
  ⟨.init, ebitmapOfList_canonical _, by decide⟩

/-- The class has the default range `glblub`. -/
theorem mlsComputeSid_wellFormed_glblub :
    ∃ c, mlsComputeSid glblubPolicydb (catContext (ebitmapOfList [0])) (catContext ebitmapInit) 1
        (avtabTransition.setWidth 32) contextInit = some c ∧ mlsLevelDom c.range.level1 c.range.level0 = true := by
  obtain ⟨-, hwf, -⟩ := mlsComputeSid_wellFormed glblubPolicydb (fun e he => (List.not_mem_nil he).elim)
    (catContext (ebitmapOfList [0])) (catContext ebitmapInit) catContext_wellFormed_single catContext_wellFormed_init
  exact ⟨_, rfl, hwf 1 (avtabTransition.setWidth 32) contextInit _ rfl rfl⟩

/-- The low level of one range has a category that the other one does not have, and the common part is not inside the
first range. -/
theorem mlsRangeGlblub_outside :
    (catContext (ebitmapOfList [0])).range.WellFormed ∧ (catContext ebitmapInit).range.WellFormed ∧
      ∃ c, mlsComputeSid glblubPolicydb (catContext (ebitmapOfList [0])) (catContext ebitmapInit) 1
        (avtabTransition.setWidth 32) contextInit = some c ∧
        mlsRangeContains (catContext (ebitmapOfList [0])).range c.range = false :=
  ⟨catContext_wellFormed_single, catContext_wellFormed_init, _, rfl, by decide⟩

/-! ### The range of a user -/

/-- The low level lies between that of the user and both high levels. -/
private theorem mlsUserSen_spec {fromcon : Context} {user : KernelUser} {sen : MlsLevel}
    (hfrom : fromcon.range.WellFormed) (huser : user.expRange.WellFormed) (hdef : user.expDfltlevel.cat.Canonical)
    (hlow : user.expDfltlevel.Dominates user.expRange.level0)
    (hhigh : user.expRange.level1.Dominates user.expDfltlevel)
    (h : mlsUserSen fromcon user = some sen) :
    sen.cat.Canonical ∧ sen.Dominates user.expRange.level0 ∧ user.expRange.level1.Dominates sen ∧
      fromcon.range.level1.Dominates sen := by
  unfold mlsUserSen mlsLevelBetween at h
  split at h
  · rename_i hb
    rw [Bool.and_eq_true, mlsLevelDom_iff hdef hfrom.low, mlsLevelDom_iff hfrom.high hdef] at hb
    cases h
    exact ⟨hdef, hlow, hhigh, hb.2⟩
  · split at h
    · rename_i hb
      rw [Bool.and_eq_true, mlsLevelDom_iff hfrom.low hdef, mlsLevelDom_iff huser.high hfrom.low] at hb
      cases h
      exact ⟨hfrom.low, hb.1.trans hlow, hb.2, hfrom.dominates⟩
    · split at h
      · rename_i hb
        rw [Bool.and_eq_true, mlsLevelDom_iff hfrom.high huser.low, mlsLevelDom_iff hdef hfrom.high] at hb
        cases h
        exact ⟨huser.low, .refl _, huser.dominates, hb.1⟩
      · cases h

private theorem mlsUserClr_spec {fromcon : Context} {user : KernelUser} {clr : MlsLevel}
    (hfrom : fromcon.range.WellFormed) (huser : user.expRange.WellFormed) (h : mlsUserClr fromcon user = some clr) :
    clr.cat.Canonical ∧ user.expRange.level1.Dominates clr ∧ fromcon.range.level1.Dominates clr ∧
      (clr = user.expRange.level1 ∨ clr = fromcon.range.level1) := by
  unfold mlsUserClr at h
  split at h
  · rename_i hb
    cases h
    exact ⟨hfrom.high, (mlsLevelDom_iff huser.high hfrom.high).1 hb, .refl _, Or.inr rfl⟩
  · split at h
    · rename_i hb
      cases h
      exact ⟨huser.high, .refl _, (mlsLevelDom_iff hfrom.high huser.high).1 hb, Or.inl rfl⟩
    · cases h

/-- When it succeeds, `mls_setup_user_range` gives a well-formed range inside that of the user, and its high level is
dominated by that of the context; in a policy without MLS it leaves the context alone. -/
theorem mlsSetupUserRange_within (fromcon : Context) (user : KernelUser) (usercon : Context)
    (hfrom : fromcon.range.WellFormed) (huser : user.expRange.WellFormed) (hdef : user.expDfltlevel.cat.Canonical)
    (hdefault : mlsLevelBetween user.expDfltlevel user.expRange.level0 user.expRange.level1 = true) :
    (∀ c, mlsSetupUserRange fromcon user usercon true = some c →
      mlsLevelDom c.range.level1 c.range.level0 = true ∧ mlsRangeContains user.expRange c.range = true ∧
        mlsLevelDom fromcon.range.level1 c.range.level1 = true) ∧
    mlsSetupUserRange fromcon user usercon false = some usercon := by
  refine ⟨fun c h => ?_, rfl⟩
  simp only [mlsLevelBetween, Bool.and_eq_true, mlsLevelDom_iff hdef huser.low, mlsLevelDom_iff huser.high hdef]
    at hdefault
  obtain ⟨hlow, hhigh⟩ := hdefault
  unfold mlsSetupUserRange at h
  rw [if_pos rfl] at h
  split at h
  · cases h
  · rename_i sen hs
    obtain ⟨clr, hc, rfl⟩ := Option.map_eq_some_iff.1 h
    obtain ⟨hscan, hslow, hsuser, hsfrom⟩ := mlsUserSen_spec hfrom huser hdef hlow hhigh hs
    obtain ⟨hccan, hcuser, hcfrom, hceq⟩ := mlsUserClr_spec hfrom huser hc
    have hwf : clr.Dominates sen := by
      rcases hceq with rfl | rfl
      · exact hsuser
      · exact hsfrom
    refine ⟨(mlsLevelDom_iff hccan hscan).2 hwf, ?_, (mlsLevelDom_iff hfrom.high hccan).2 hcfrom⟩
    rw [mlsRangeContains, Bool.and_eq_true]
    exact ⟨(mlsLevelDom_iff hscan huser.low).2 hslow, (mlsLevelDom_iff huser.high hccan).2 hcuser⟩

/-- A user with the range of a context and its low level as the default. -/
def rangeUser (c : Context) : KernelUser where
  value := 1
  cache := ebitmapInit
  expRange := c.range
  roles := ⟨ebitmapInit, 0⟩
  range := ⟨⟨1, []⟩, ⟨1, []⟩⟩
  dfltlevel := ⟨1, []⟩
  expDfltlevel := c.range.level0
  bounds := 0

/-- The user has all categories, and the context one level. -/
theorem mlsSetupUserRange_within_single :
    ∃ c, mlsSetupUserRange (catContext (ebitmapOfList [0])) (rangeUser (catContext ebitmapInit)) contextInit true =
        some c ∧ mlsRangeContains (catContext ebitmapInit).range c.range = true :=
  ⟨_, rfl, ((mlsSetupUserRange_within (catContext (ebitmapOfList [0])) (rangeUser (catContext ebitmapInit))
    contextInit
    catContext_wellFormed_single catContext_wellFormed_init .init (by decide)).1 _ rfl).2.1⟩

end Sepol
