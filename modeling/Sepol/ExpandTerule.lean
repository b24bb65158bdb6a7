import Sepol.ExpandFind

/-!
# Expanding type rules

A call of `expand_terule_helper` loses nothing when the duplicate that ends it early is followed by classes whose
entries exist (`TerulesGood`), and when the entry that it writes to has the new type already.  In a run of such calls
every rule has its entries at the end.
-/

namespace Sepol

variable {γ : Type} [DecidableEq γ] {st st' : ExpandTables γ} {cond other : Option γ} {key : AvtabKey}
  {typemap : Option (Nat → BitVec 32)} {specified data : BitVec 32} {stype ttype : Nat} {enabled : Bool}
  {cur : ClassPermNode} {perms next : List ClassPermNode} {n m : AvtabNode}

/-- The specifier of a rule of type_transition, type_member or type_change. -/
def IsTerule (specified : BitVec 32) : Prop :=
  specified = avruleTransition ∨ specified = avruleMember ∨ specified = avruleChange

instance (specified : BitVec 32) : Decidable (IsTerule specified) := inferInstanceAs (Decidable (_ ∨ _))

/-- A list has one entry with a key, and the entry has this type. -/
def ExpandTables.Holds (st : ExpandTables γ) (cond : Option γ) (key : AvtabKey) (data : BitVec 32) : Prop :=
  ∃ n ∈ st.entries cond, sameKey key n.key ∧ n.datum.data = data ∧ ∀ m ∈ st.entries cond, sameKey key m.key → m = n

instance (st : ExpandTables γ) (cond : Option γ) (key : AvtabKey) (data : BitVec 32) :
    Decidable (st.Holds cond key data) :=
  inferInstanceAs (Decidable (∃ n ∈ st.entries cond, sameKey key n.key ∧ n.datum.data = data ∧
    ∀ m ∈ st.entries cond, sameKey key m.key → m = n))

/-- The call for a list of classes is good: when it ends at a duplicate the entries of the classes behind it exist,
and an entry of the list that it would write to has the type already. -/
def TerulesGood (typemap : Option (Nat → BitVec 32)) (specified : BitVec 32) (cond other : Option γ)
    (stype ttype : Nat) (enabled : Bool) : List ClassPermNode → ExpandTables γ → Prop
  | [], _ => True
  | cur :: next, st =>
    (expandTeruleCheck st cond other (expandKey specified stype ttype cur) (remapData typemap cur) =
        some expandRuleSuccess →
      ∀ c ∈ next, st.Holds cond (expandKey specified stype ttype c) (remapData typemap c)) ∧
    (expandTeruleCheck st cond other (expandKey specified stype ttype cur) (remapData typemap cur) = none →
      ∀ n ∈ st.entries cond, sameKey (expandKey specified stype ttype cur) n.key →
        n.datum.data = remapData typemap cur) ∧
    TerulesGood typemap specified cond other stype ttype enabled next
      (expandTerulePerms typemap specified cond other stype ttype enabled [cur] st).2

instance decidableTerulesGood (typemap : Option (Nat → BitVec 32)) (specified : BitVec 32) (cond other : Option γ)
    (stype ttype : Nat) (enabled : Bool) : ∀ (perms : List ClassPermNode) (st : ExpandTables γ),
      Decidable (TerulesGood typemap specified cond other stype ttype enabled perms st)
  | [], _ => inferInstanceAs (Decidable True)
  | _ :: next, _ =>
    have := decidableTerulesGood typemap specified cond other stype ttype enabled next
    inferInstanceAs (Decidable (_ ∧ _ ∧ _))

/-- The tables are well formed, and an entry of a list is the only one with its key. -/
structure ExpandTables.OkUnique (st : ExpandTables γ) : Prop where
  ok : st.Ok
  unique : ∀ c, ∀ n ∈ st.entries c, ∀ m ∈ st.entries c, sameKey n.key m.key → n = m

/-- What held in a state holds in a later one. -/
def ExpandTables.Keeps (st st' : ExpandTables γ) : Prop :=
  ∀ c key data, st.Holds c key data → st'.Holds c key data

/-! ### One class -/

omit [DecidableEq γ] in
private theorem ExpandTables.OkUnique.holds_of_mem (h : st.OkUnique) (hn : n ∈ st.entries cond)
    (hkey : sameKey key n.key) : st.Holds cond key n.datum.data := by
  exact ⟨n, hn, hkey, rfl, fun m hm hsame => h.unique cond m hm n hn (hsame.symm.trans hkey)⟩

theorem IsTerule.singleBit (h : IsTerule specified) :
    SingleBit (avruleToAvtabSpec specified) ∧ hasSpecified (avruleToAvtabSpec specified) avtabXperms = false := by
  rcases h with rfl | rfl | rfl
  · exact ⟨⟨4, by decide, by decide⟩, by decide⟩
  · exact ⟨⟨5, by decide, by decide⟩, by decide⟩
  · exact ⟨⟨6, by decide, by decide⟩, by decide⟩

/-- A duplicate that ends the helper is an entry of the list. -/
theorem exists_entry_of_expandTeruleCheck (h : st.Ok) (hkey : SingleBit key.specified)
    (hcheck : expandTeruleCheck st cond other key data = some expandRuleSuccess) :
    ∃ n ∈ st.entries cond, sameKey key n.key ∧ n.datum.data = data := by
  have hte := (avtabSearch_eq_some_or_none h.te.alloc key).1
  have hcond := (avtabSearch_eq_some_or_none h.cond.alloc key).1
  have hfinish : ∀ {c : Option γ} {n : AvtabNode}, n ∈ avtabNodes (st.table c) → st.Owns n c → matchesKey key n →
      ∃ m ∈ st.entries c, sameKey key m.key ∧ m.datum.data = n.datum.data := fun hn hown hmatch =>
    ⟨_, h.mem_entries_iff.2 ⟨hn, hown⟩, (matchesKey_iff_sameKey hkey ((h.filled _).single _ hn)).1 hmatch, rfl⟩
  unfold expandTeruleCheck at hcheck
  split at hcheck
  · cases hcheck
  · rename_i oldtype owner hconflict
    split at hcheck
    · rename_i hdata
      split at hcheck
      · rename_i howner
        subst hdata howner
        unfold expandTeruleConflict at hconflict
        split at hconflict
        · rename_i node hnode
          cases hconflict
          exact hfinish (hte node hnode).1 trivial (hte node hnode).2
        · split at hconflict
          · rename_i node hnode
            split at hconflict
            · -- the owner of a node of the conditional table is a list
              obtain ⟨c, hc, -⟩ := h.owner node (hcond node hnode).1
              rw [Option.some_inj, Prod.mk.injEq] at hconflict
              obtain ⟨rfl, rfl⟩ := hconflict
              rw [hc]
              exact hfinish (hcond node hnode).1 hc (hcond node hnode).2
            · cases hconflict
          · cases hconflict
      · cases hcheck
    · cases hcheck

private theorem expandTeruleCheck_success (h : st.OkUnique) (hkey : SingleBit key.specified)
    (hcheck : expandTeruleCheck st cond other key data = some expandRuleSuccess) : st.Holds cond key data := by
  obtain ⟨n, hn, hsame, rfl⟩ := exists_entry_of_expandTeruleCheck h.ok hkey hcheck
  exact h.holds_of_mem hn hsame

/-- A write that leaves the type of an entry as it is. -/
private theorem ExpandTables.OkUnique.replace {f : AvtabNode → AvtabNode} (h : st.OkUnique) (hok : st'.Ok)
    (hf : KeepsKey f) (hn : n ∈ st.entries cond) (hdata : (f n).datum.data = n.datum.data)
    (hentries : ∀ c m,
      m ∈ st'.entries c ↔ if c = cond then m = f n ∨ m ∈ st.entries c ∧ m ≠ n else m ∈ st.entries c) :
    st'.OkUnique ∧ st.Keeps st' := by
  have hself : ∀ {m}, m ∈ st.entries cond → sameKey (f n).key m.key → m = n := fun hm hsame =>
    h.unique cond _ hm n hn (hf.sameKey.1 hsame.symm)
  have hunique : st'.OkUnique := by
    refine ⟨hok, fun c a ha b hb hsame => ?_⟩
    rw [hentries] at ha hb
    by_cases hc : c = cond
    · subst hc
      rw [if_pos rfl] at ha hb
      rcases ha with rfl | ⟨ha, hane⟩
      · rcases hb with rfl | ⟨hb, hbne⟩
        · rfl
        · exact absurd (hself hb hsame) hbne
      · rcases hb with rfl | ⟨hb, _⟩
        · exact absurd (hself ha hsame.symm) hane
        · exact h.unique c a ha b hb hsame
    · rw [if_neg hc] at ha hb
      exact h.unique c a ha b hb hsame
  refine ⟨hunique, ?_⟩
  rintro c key data ⟨w, hw, hkey, rfl, _⟩
  by_cases hcw : c = cond ∧ w = n
  · obtain ⟨rfl, rfl⟩ := hcw
    rw [← hdata]
    refine hunique.holds_of_mem ((hentries c _).2 ?_) (hf.sameKey.2 hkey)
    rw [if_pos rfl]
    exact Or.inl rfl
  · refine hunique.holds_of_mem ((hentries c _).2 ?_) hkey
    split
    · rename_i hc
      exact Or.inr ⟨hw, fun hwn => hcw ⟨hc, hwn⟩⟩
    · exact hw

omit [DecidableEq γ] in
private theorem ExpandTables.OkUnique.insert (h : st.OkUnique) (hok : st'.Ok)
    (hnew : ∀ m ∈ st.entries cond, ¬ sameKey n.key m.key)
    (hentries : ∀ c m, m ∈ st'.entries c ↔ c = cond ∧ m = n ∨ m ∈ st.entries c) : st'.OkUnique ∧ st.Keeps st' := by
  have hunique : st'.OkUnique := by
    refine ⟨hok, fun c a ha b hb hsame => ?_⟩
    rcases (hentries c a).1 ha with ⟨rfl, rfl⟩ | ha
    · rcases (hentries c b).1 hb with ⟨_, rfl⟩ | hb
      · rfl
      · exact absurd hsame (hnew b hb)
    · rcases (hentries c b).1 hb with ⟨rfl, rfl⟩ | hb
      · exact absurd hsame.symm (hnew a ha)
      · exact h.unique c a ha b hb hsame
  refine ⟨hunique, ?_⟩
  rintro c key data ⟨w, hw, hkey, rfl, _⟩
  exact hunique.holds_of_mem ((hentries c w).2 (Or.inr hw)) hkey

/-- The write of a class keeps what held when the entry that is written to has the type already. -/
private theorem expandTerulePerms_write (h : st.OkUnique) (hspec : IsTerule specified)
    (hcheck : expandTeruleCheck st cond other (expandKey specified stype ttype cur) (remapData typemap cur) = none)
    (hgood : ∀ n ∈ st.entries cond, sameKey (expandKey specified stype ttype cur) n.key →
      n.datum.data = remapData typemap cur) :
    ∃ st', (∀ next, expandTerulePerms typemap specified cond other stype ttype enabled (cur :: next) st =
        expandTerulePerms typemap specified cond other stype ttype enabled next st') ∧ st'.OkUnique ∧ st.Keeps st' ∧
      st'.Holds cond (expandKey specified stype ttype cur) (remapData typemap cur) := by
  obtain ⟨hkey, hx⟩ := hspec.singleBit
  have hf := KeepsKey.write enabled fun d => { d with data := remapData typemap cur }
  have hkey' : SingleBit (expandKey specified stype ttype cur).specified := hkey
  obtain ⟨st₁, addr, hfind, hok, hcases⟩ := @findAvtabNode_write γ st cond _ none _ _ h.ok hkey' hf
  refine ⟨st₁.updateNode cond addr fun n => n.write enabled fun d => { d with data := remapData typemap cur },
    fun next => ?_, ?_⟩
  · rw [expandTerulePerms]
    simp only [hcheck, hfind]
  rcases hcases with ⟨n, l, hfound, hentries⟩ | ⟨hfound, hentries⟩
  · obtain ⟨hn, hsame⟩ := findExisting_eq_cons h.ok hkey' hfound
    have hdata := hgood n hn hsame
    obtain ⟨hunique, hkeeps⟩ := h.replace hok hf hn hdata.symm hentries
    have hholds := hkeeps _ _ _ (h.holds_of_mem hn hsame)
    rw [hdata] at hholds
    exact ⟨hunique, hkeeps, hholds⟩
  · have hnew : ∀ m ∈ st.entries cond, ¬ sameKey (expandKey specified stype ttype cur) m.key := by
      intro m hm hsame
      have hxp := (findExisting_eq_nil h.ok hkey' hfound hm hsame).1
      exact absurd (hxp.symm.trans hx) (by decide)
    obtain ⟨hunique, hkeeps⟩ := h.insert hok (fun m hm hsame => hnew m hm (hf.sameKey.1 hsame.symm).symm) hentries
    exact ⟨hunique, hkeeps, hunique.holds_of_mem ((hentries cond _).2 (Or.inl ⟨rfl, rfl⟩))
      (hf.sameKey.2 ⟨⟨rfl, rfl, rfl⟩, rfl⟩)⟩

/-! ### Calls and runs -/

omit [DecidableEq γ] in
theorem ExpandTables.Keeps.refl (st : ExpandTables γ) : st.Keeps st := fun _ _ _ h => h

omit [DecidableEq γ] in
theorem ExpandTables.Keeps.trans {st₁ st₂ st₃ : ExpandTables γ} (h₁ : st₁.Keeps st₂) (h₂ : st₂.Keeps st₃) :
    st₁.Keeps st₃ := fun c key data h => h₂ c key data (h₁ c key data h)

private theorem expandTerulePerms_holds (hspec : IsTerule specified) (h : st.OkUnique)
    (hgood : TerulesGood typemap specified cond other stype ttype enabled perms st)
    (hret : (expandTerulePerms typemap specified cond other stype ttype enabled perms st).1 = expandRuleSuccess)
    (hst' : (expandTerulePerms typemap specified cond other stype ttype enabled perms st).2 = st') :
    st'.OkUnique ∧ st.Keeps st' ∧
      ∀ cur ∈ perms, st'.Holds cond (expandKey specified stype ttype cur) (remapData typemap cur) := by
  induction perms generalizing st with
  | nil =>
    obtain rfl : st = st' := hst'
    exact ⟨h, ExpandTables.Keeps.refl st, fun cur hcur => by cases hcur⟩
  | cons cur next ih =>
    unfold TerulesGood at hgood
    obtain ⟨hdup, hsame, hnext⟩ := hgood
    cases hcheck : expandTeruleCheck st cond other (expandKey specified stype ttype cur) (remapData typemap cur) with
    | some ret =>
      -- the helper returns at this class
      unfold expandTerulePerms at hret hst'
      simp only [hcheck] at hret hst'
      subst hret hst'
      refine ⟨h, ExpandTables.Keeps.refl st, fun c hc => ?_⟩
      rcases List.mem_cons.1 hc with rfl | hc
      · exact expandTeruleCheck_success h hspec.singleBit.1 hcheck
      · exact hdup hcheck c hc
    | none =>
      obtain ⟨st₁, hrun, hunique₁, hkeeps₁, hholds₁⟩ := expandTerulePerms_write h hspec hcheck (hsame hcheck)
      rw [hrun next] at hret hst'
      rw [hrun []] at hnext
      obtain ⟨hunique, hkeeps, hholds⟩ := ih hunique₁ hnext hret hst'
      refine ⟨hunique, hkeeps₁.trans hkeeps, fun c hc => ?_⟩
      rcases List.mem_cons.1 hc with rfl | hc
      · exact hkeeps _ _ _ hholds₁
      · exact hholds c hc

/-- Every call of `expand_terule_helper` for the pairs of types is good. -/
def TerulePairsGood (typemap : Option (Nat → BitVec 32)) (rule : SourceRule) (cond other : Option γ)
    (enabled : Bool) :
    List (Nat × Nat) → ExpandTables γ → Prop
  | [], _ => True
  | (i, j) :: pairs, st =>
    TerulesGood typemap rule.specified cond other i j enabled rule.perms st ∧
    TerulePairsGood typemap rule cond other enabled pairs
      (expandTeruleHelper typemap rule.specified cond other i j rule.perms enabled st).2

instance decidableTerulePairsGood (typemap : Option (Nat → BitVec 32)) (rule : SourceRule) (cond other : Option γ)
    (enabled : Bool) : ∀ (pairs : List (Nat × Nat)) (st : ExpandTables γ),
      Decidable (TerulePairsGood typemap rule cond other enabled pairs st)
  | [], _ => inferInstanceAs (Decidable True)
  | _ :: pairs, _ =>
    have := decidableTerulePairsGood typemap rule cond other enabled pairs
    inferInstanceAs (Decidable (_ ∧ _))

private theorem expandRuleLoop_holds {disableDontaudit : Bool} {rule : SourceRule} {pairs : List (Nat × Nat)}
    (hspec : IsTerule rule.specified) (h : st.OkUnique)
    (hgood : TerulePairsGood typemap rule cond other enabled pairs st)
    (hret : (expandRuleLoop disableDontaudit typemap rule cond other enabled pairs st).1 = expandRuleSuccess)
    (hst' : (expandRuleLoop disableDontaudit typemap rule cond other enabled pairs st).2 = st') :
    st'.OkUnique ∧ st.Keeps st' ∧ ∀ p ∈ pairs, ∀ cur ∈ rule.perms,
      st'.Holds cond (expandKey rule.specified p.1 p.2 cur) (remapData typemap cur) := by
  have htype : rule.specified &&& (avruleAv ||| avruleXperms) = 0 ∧ rule.specified &&& avruleType ≠ 0 := by
    rcases hspec with h | h | h <;> rw [h] <;> decide
  induction pairs generalizing st with
  | nil =>
    obtain rfl : st = st' := hst'
    exact ⟨h, ExpandTables.Keeps.refl st, fun p hp => by cases hp⟩
  | cons p pairs ih =>
    obtain ⟨i, j⟩ := p
    unfold TerulePairsGood at hgood
    unfold expandRuleLoop at hret hst'
    simp only [htype.1, ne_eq, not_true_eq_false, if_false] at hret hst'
    by_cases hr : (expandTeruleHelper typemap rule.specified cond other i j rule.perms
        enabled st).1 = expandRuleSuccess
    · rw [if_neg (not_not_intro hr)] at hret hst'
      have hhelper := hr
      unfold expandTeruleHelper at hhelper
      rw [if_neg htype.2] at hhelper
      have hstep : (expandTerulePerms typemap rule.specified cond other i j enabled rule.perms st).2 =
          (expandTeruleHelper typemap rule.specified cond other i j rule.perms enabled st).2 := by
        unfold expandTeruleHelper
        rw [if_neg htype.2]
      obtain ⟨hunique₁, hkeeps₁, hholds₁⟩ := expandTerulePerms_holds hspec h hgood.1 hhelper hstep
      obtain ⟨hunique, hkeeps, hholds⟩ := ih hunique₁ hgood.2 hret hst'
      refine ⟨hunique, hkeeps₁.trans hkeeps, fun p hp cur hcur => ?_⟩
      rcases List.mem_cons.1 hp with rfl | hp
      · exact hkeeps _ _ _ (hholds₁ cur hcur)
      · exact hholds p hp cur hcur
    · rw [if_pos hr] at hret
      exact absurd hret hr

/-- The arguments of a call of `expand_rule_helper` beside the tables. -/
structure ExpandCall (γ : Type) where
  rule : SourceRule
  cond : Option γ
  other : Option γ
  enabled : Bool
  stypes : Ebitmap
  ttypes : Ebitmap

/-- One call of `expand_rule_helper`. -/
def ExpandCall.run (disableDontaudit : Bool) (typemap : Option (Nat → BitVec 32)) (call : ExpandCall γ)
    (st : ExpandTables γ) : Int × ExpandTables γ :=
  expandRuleHelper disableDontaudit typemap call.rule call.cond call.other call.enabled call.stypes call.ttypes st

/-- Calls after each other, all of which return `EXPAND_RULE_SUCCESS`. -/
def expandCalls (disableDontaudit : Bool) (typemap : Option (Nat → BitVec 32)) :
    List (ExpandCall γ) → ExpandTables γ → Option (ExpandTables γ)
  | [], st => some st
  | call :: calls, st =>
    if (call.run disableDontaudit typemap st).1 = expandRuleSuccess then
      expandCalls disableDontaudit typemap calls (call.run disableDontaudit typemap st).2
    else none

/-- Every call of a run is good in the state before it. -/
def TeruleRunGood (disableDontaudit : Bool) (typemap : Option (Nat → BitVec 32)) :
    List (ExpandCall γ) → ExpandTables γ → Prop
  | [], _ => True
  | call :: calls, st =>
    TerulePairsGood typemap call.rule call.cond call.other call.enabled
      (expandRulePairs call.rule call.stypes call.ttypes) st ∧
    TeruleRunGood disableDontaudit typemap calls (call.run disableDontaudit typemap st).2

instance decidableTeruleRunGood (disableDontaudit : Bool) (typemap : Option (Nat → BitVec 32)) :
    ∀ (calls : List (ExpandCall γ)) (st : ExpandTables γ),
      Decidable (TeruleRunGood disableDontaudit typemap calls st)
  | [], _ => inferInstanceAs (Decidable True)
  | _ :: calls, _ =>
    have := decidableTeruleRunGood disableDontaudit typemap calls
    inferInstanceAs (Decidable (_ ∧ _))

private theorem expandCalls_holds {disableDontaudit : Bool} {calls : List (ExpandCall γ)}
    (hspec : ∀ call ∈ calls, IsTerule call.rule.specified) (h : st.OkUnique)
    (hgood : TeruleRunGood disableDontaudit typemap calls st)
    (hrun : expandCalls disableDontaudit typemap calls st = some st') :
    st'.OkUnique ∧ st.Keeps st' ∧ ∀ call ∈ calls, ∀ p ∈ expandRulePairs call.rule call.stypes call.ttypes,
      ∀ cur ∈ call.rule.perms,
        st'.Holds call.cond (expandKey call.rule.specified p.1 p.2 cur) (remapData typemap cur) := by
  induction calls generalizing st with
  | nil =>
    obtain rfl : st = st' := Option.some.inj hrun
    exact ⟨h, ExpandTables.Keeps.refl st, fun call hcall => by cases hcall⟩
  | cons call calls ih =>
    unfold expandCalls at hrun
    unfold TeruleRunGood at hgood
    split at hrun
    · rename_i hret
      obtain ⟨hunique₁, hkeeps₁, hholds₁⟩ :=
        expandRuleLoop_holds (hspec call (List.mem_cons_self ..)) h hgood.1 hret rfl
      obtain ⟨hunique, hkeeps, hholds⟩ :=
        ih (fun c hc => hspec c (List.mem_cons_of_mem _ hc)) hunique₁ hgood.2 hrun
      refine ⟨hunique, hkeeps₁.trans hkeeps, fun c hc p hp cur hcur => ?_⟩
      rcases List.mem_cons.1 hc with rfl | hc
      · exact hkeeps _ _ _ (hholds₁ p hp cur hcur)
      · exact hholds c hc p hp cur hcur
    · cases hrun

omit [DecidableEq γ] in
private theorem expandInit_okUnique {nrules : Nat} (hn : nrules ≠ 0) :
    (expandInit nrules : ExpandTables γ).OkUnique := by
  refine ⟨expandInit_ok hn, fun c n hmem => ?_⟩
  rw [entries_expandInit] at hmem
  cases hmem

omit [DecidableEq γ] in
private theorem mem_expandRulePairs_iff {rule : SourceRule} {stypes ttypes : Ebitmap} {i j : Nat} :
    (i, j) ∈ expandRulePairs rule stypes ttypes ↔
      i ∈ ebitmapPositiveBits stypes ∧ (rule.self = true ∧ j = i ∨ j ∈ ebitmapPositiveBits ttypes) := by
  unfold expandRulePairs
  simp only [List.mem_flatMap, List.mem_append, List.mem_map, Prod.mk.injEq]
  constructor
  · rintro ⟨a, ha, h | ⟨b, hb, rfl, rfl⟩⟩
    · split at h
      · rename_i hself
        rw [List.mem_singleton, Prod.mk.injEq] at h
        obtain ⟨rfl, rfl⟩ := h
        exact ⟨ha, Or.inl ⟨hself, rfl⟩⟩
      · cases h
    · exact ⟨ha, Or.inr hb⟩
  · rintro ⟨hi, ⟨hself, rfl⟩ | hj⟩
    · exact ⟨j, hi, Or.inl (by rw [if_pos hself]; exact List.mem_cons_self ..)⟩
    · exact ⟨i, hi, Or.inr ⟨j, hj, rfl, rfl⟩⟩

/-- In a run of type rules whose calls are good and succeed, every rule has its entry for every pair of types and
every class at the end, and the entry is the only one of its key in the scope of the rule. -/
theorem expandCalls_keepsTerules (disableDontaudit : Bool) (typemap : Option (Nat → BitVec 32)) (nrules : Nat)
    (calls : List (ExpandCall γ)) (st : ExpandTables γ) (hn : nrules ≠ 0)
    (hspec : ∀ call ∈ calls, IsTerule call.rule.specified)
    (hgood : TeruleRunGood disableDontaudit typemap calls (expandInit nrules))
    (hrun : expandCalls disableDontaudit typemap calls (expandInit nrules) = some st) :
    ∀ call ∈ calls, ∀ i ∈ ebitmapPositiveBits call.stypes, ∀ j,
      (call.rule.self = true ∧ j = i ∨ j ∈ ebitmapPositiveBits call.ttypes) → ∀ cur ∈ call.rule.perms,
        st.Holds call.cond (expandKey call.rule.specified i j cur) (remapData typemap cur) := by
  intro call hcall i hi j hj cur hcur
  have hholds := (expandCalls_holds hspec (expandInit_okUnique hn) hgood hrun).2.2
  exact hholds call hcall (i, j) (mem_expandRulePairs_iff.2 ⟨hi, hj⟩) cur hcur

/-- A rule for two classes in the true list of a conditional, and one for the first class in its false list. -/
theorem expandCalls_keepsTerules_lists :
    ∃ st : ExpandTables Bool, expandCalls false none
      [⟨⟨avruleTransition, true, [⟨1, 5⟩, ⟨2, 5⟩], none⟩, some true, some false, true, ⟨[⟨0, 1⟩], 64⟩, ⟨[], 0⟩⟩,
        ⟨⟨avruleTransition, false, [⟨1, 6⟩], none⟩, some false, some true, false, ⟨[⟨0, 1⟩], 64⟩, ⟨[⟨0, 1⟩], 64⟩⟩]
      (expandInit 1) = some st ∧ st.Holds (some true) (expandKey avruleTransition 0 0 ⟨2, 5⟩)
        (remapData none ⟨2, 5⟩) := by
  have hspec : ∀ call ∈ ([⟨⟨avruleTransition, true, [⟨1, 5⟩, ⟨2, 5⟩], none⟩, some true, some false, true,
      ⟨[⟨0, 1⟩], 64⟩, ⟨[], 0⟩⟩, ⟨⟨avruleTransition, false, [⟨1, 6⟩], none⟩, some false, some true, false,
      ⟨[⟨0, 1⟩], 64⟩, ⟨[⟨0, 1⟩], 64⟩⟩] : List (ExpandCall Bool)), IsTerule call.rule.specified := by
    simp [IsTerule]
  refine ⟨_, (Option.some_get (by decide +kernel)).symm, ?_⟩
  exact expandCalls_keepsTerules false none 1 _ _ (by decide) hspec (by decide +kernel)
    (Option.some_get (by decide +kernel)).symm _ (List.mem_cons_self ..) 0 (by decide) 0 (Or.inl ⟨rfl, rfl⟩) ⟨2, 5⟩
    (by simp)

/-- A duplicate for one class drops the next class, and a type in the false list of a conditional lets a rule for the
true list overwrite the type of an earlier one. -/
theorem expandCalls_keepsTerules_not :
    (∃ st : ExpandTables Bool, expandCalls false none
      [⟨⟨avruleTransition, false, [⟨1, 5⟩], none⟩, none, none, true, ⟨[⟨0, 1⟩], 64⟩, ⟨[⟨0, 1⟩], 64⟩⟩,
        ⟨⟨avruleTransition, false, [⟨1, 5⟩, ⟨2, 5⟩], none⟩, none, none, true, ⟨[⟨0, 1⟩], 64⟩, ⟨[⟨0, 1⟩], 64⟩⟩]
      (expandInit 1) = some st ∧ ¬ st.Holds none (expandKey avruleTransition 0 0 ⟨2, 5⟩) (remapData none ⟨2, 5⟩)) ∧
    (∃ st : ExpandTables Bool, expandCalls false none
      [⟨⟨avruleTransition, false, [⟨1, 5⟩], none⟩, some true, some false, true, ⟨[⟨0, 1⟩], 64⟩, ⟨[⟨0, 1⟩], 64⟩⟩,
        ⟨⟨avruleTransition, false, [⟨1, 6⟩], none⟩, some false, some true, true, ⟨[⟨0, 1⟩], 64⟩, ⟨[⟨0, 1⟩], 64⟩⟩,
        ⟨⟨avruleTransition, false, [⟨1, 7⟩], none⟩, some true, some false, true, ⟨[⟨0, 1⟩], 64⟩, ⟨[⟨0, 1⟩], 64⟩⟩]
      (expandInit 1) = some st ∧
      ¬ st.Holds (some true) (expandKey avruleTransition 0 0 ⟨1, 5⟩) (remapData none ⟨1, 5⟩)) := by
  constructor
  · exact ⟨_, (Option.some_get (by decide +kernel)).symm, by decide +kernel⟩
  · exact ⟨_, (Option.some_get (by decide +kernel)).symm, by decide +kernel⟩

end Sepol
