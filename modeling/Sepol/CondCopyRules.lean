import Sepol.CondCopy
import Sepol.ExpandTerule
import Sepol.TypeSetExpand

/-!
# Copying the rules of conditionals

`convert_and_expand_rule` and the second half of `cond_node_copy`: the rules of the branches of a conditional are
expanded into the lists of a conditional of the output.  A list is named by the place of its node, counted from the
end of the list of nodes, and by its branch; its entries are those of the tables.  The record `copied` of the rules
that have left an entry in a list is not in the code; `ExpandOutput.Ok` says how it fits the entries.
-/

namespace Sepol

/-! ### Expanding a rule -/

/-- What `convert_and_expand_rule` reads beside the rule and the tables: the setting of the handle, the map of the
types of the base, and the types of the output. -/
structure RuleExpansion where
  disableDontaudit : Bool
  typemap : Nat → BitVec 32
  types : TypeTable

/-- `expand_convert_type_set`. -/
def expandConvertTypeSet (e : RuleExpansion) (set : LinkTypeSet) (alwaysexpand : Bool) : Except CopyError Ebitmap :=
  match mapEbitmap set.types fun i => (e.typemap i).toNat, mapEbitmap set.negset fun i => (e.typemap i).toNat with
  | some types, some negset => typeSetExpand e.types ⟨types, negset, set.flags⟩ alwaysexpand
  | _, _ => .error .failed

/-- The types of a rule; they are expanded for type rules and for `self`. -/
def convertRuleTypes (e : RuleExpansion) (sourceRule : LinkAvrule) : Except CopyError (Ebitmap × Ebitmap) :=
  let alwaysexpand := sourceRule.specified &&& avruleType ≠ 0 || sourceRule.flags &&& ruleSelf ≠ 0
  match expandConvertTypeSet e sourceRule.stypes alwaysexpand with
  | .error err => .error err
  | .ok stypes => (expandConvertTypeSet e sourceRule.ttypes alwaysexpand).map fun ttypes => (stypes, ttypes)

def LinkAvrule.source (rule : LinkAvrule) : SourceRule :=
  ⟨rule.specified, rule.flags &&& ruleSelf ≠ 0, rule.perms, rule.xperms⟩

variable {γ : Type} [DecidableEq γ]

/-- `convert_and_expand_rule`: the return code and the tables. -/
def convertAndExpandRule (e : RuleExpansion) (sourceRule : LinkAvrule) (cond other : Option γ)
    (enabled doNeverallow : Bool) (st : ExpandTables γ) : Except CopyError (Int × ExpandTables γ) :=
  if !doNeverallow ∧ sourceRule.specified &&& avruleNeverallow ≠ 0 then .ok (expandRuleSuccess, st)
  else if !doNeverallow ∧ sourceRule.specified &&& avruleXpermsNeverallow ≠ 0 then .ok (expandRuleSuccess, st)
  else
    match convertRuleTypes e sourceRule with
    | .error .failed => .ok (expandRuleError, st)
    | .error err => .error err
    | .ok (stypes, ttypes) =>
      .ok (expandRuleHelper e.disableDontaudit (some e.typemap) sourceRule.source cond other enabled stypes ttypes st)

/-- The keys of a rule for a pair of types. -/
def pairKeys (disableDontaudit : Bool) (rule : SourceRule) (p : Nat × Nat) : List AvtabKey :=
  if rule.specified &&& (avruleDontaudit ||| avruleXpermsDontaudit) ≠ 0 ∧ disableDontaudit then []
  else rule.perms.map (expandKey rule.specified p.1 p.2)

/-- The keys that a rule of a conditional has in the output. -/
def ruleKeys (e : RuleExpansion) (rule : LinkAvrule) : List AvtabKey :=
  if rule.specified &&& avruleNeverallow ≠ 0 ∨ rule.specified &&& avruleXpermsNeverallow ≠ 0 then []
  else
    match convertRuleTypes e rule with
    | .error _ => []
    | .ok (stypes, ttypes) =>
      (expandRulePairs rule.source stypes ttypes).flatMap (pairKeys e.disableDontaudit rule.source)

/-- A list has an entry with this key. -/
def ExpandTables.HasKey (st : ExpandTables γ) (cond : Option γ) (key : AvtabKey) : Prop :=
  ∃ n ∈ st.entries cond, sameKey key n.key

instance (st : ExpandTables γ) (cond : Option γ) (key : AvtabKey) : Decidable (st.HasKey cond key) :=
  inferInstanceAs (Decidable (∃ n ∈ st.entries cond, sameKey key n.key))

/-! ### Copying the branches -/

/-- The tables of the output, and the rules that have left an entry in a list. -/
structure ExpandOutput where
  tables : ExpandTables (Nat × Bool)
  copied : List ((Nat × Bool) × LinkAvrule)

/-- The output after a rule was expanded to these tables. -/
def ExpandOutput.record (e : RuleExpansion) (out : ExpandOutput) (list : Nat × Bool) (cur : LinkAvrule)
    (tables : ExpandTables (Nat × Bool)) : ExpandOutput :=
  ⟨tables, if ∃ key ∈ ruleKeys e cur, tables.HasKey (some list) key then (list, cur) :: out.copied else out.copied⟩

/-- `cond_avrule_list_copy`. -/
def condAvruleListCopy (e : RuleExpansion) (list other : Nat × Bool) (enabled : Bool) :
    List LinkAvrule → ExpandOutput → Except CopyError ExpandOutput
  | [], out => .ok out
  | cur :: next, out =>
    match convertAndExpandRule e cur (some list) (some other) enabled false out.tables with
    | .error err => .error err
    | .ok (ret, tables) =>
      if ret ≠ expandRuleSuccess then .error .failed
      else condAvruleListCopy e list other enabled next (out.record e list cur tables)

/-- `expand_state_t`: the booleans, the conditionals of the output, whose lists are those of the tables, and the
tables. -/
structure ExpandState extends ExpandBools, ExpandOutput where
  condList : List (CondNodeT LinkAvrule Nat)

/-- The second half of `cond_node_copy`: the node of the output is found or created, and the rules are copied. -/
def condNodeCopyRules (e : RuleExpansion) (st : ExpandState) (cn tmp : CondNodeT LinkAvrule Nat) :
    Except CopyError ExpandState :=
  match condNodeSearch st.outState st.condList tmp with
  | none => .error .failed
  | some (i, condList) =>
    match condList[i]? with
    | none => .error .failed
    | some newCond =>
      let place := condList.length - 1 - i
      match condAvruleListCopy e (place, true) (place, false) (newCond.curState ≠ some false) cn.avtrueList
          st.toExpandOutput with
      | .error err => .error err
      | .ok out =>
        match condAvruleListCopy e (place, false) (place, true)
          (newCond.curState = some false) cn.avfalseList out with
        | .error err => .error err
        | .ok out => .ok { st with condList, toExpandOutput := out }

/-- `cond_node_copy` for a node when those behind it have been copied; the node is normalized in place. -/
def condNodeCopyNode (e : RuleExpansion) (st : ExpandState) (cn : CondNodeT LinkAvrule Nat) :
    Except CopyError (CondNodeT LinkAvrule Nat × ExpandState) :=
  if cn.flags &&& condNodeFlagsTunable ≠ 0 then .ok (cn, st)
  else
    match condNodeCopyMap st.toExpandBools cn with
    | none => .error .failed
    | some (cn, tmp, bools) => (condNodeCopyRules e { st with toExpandBools := bools } cn tmp).map fun st => (cn, st)

/-- `cond_node_copy`. -/
def condNodeCopy (e : RuleExpansion) : List (CondNodeT LinkAvrule Nat) → ExpandState →
    Except CopyError (List (CondNodeT LinkAvrule Nat) × ExpandState)
  | [], st => .ok ([], st)
  | cn :: next, st =>
    match condNodeCopy e next st with
    | .error err => .error err
    | .ok (next, st) => (condNodeCopyNode e st cn).map fun r => (r.1 :: next, r.2)

variable {e : RuleExpansion} {st st' st₁ st₂ : ExpandTables γ} {cond other : Option γ} {key : AvtabKey}
  {keys keys₁ keys₂ : List AvtabKey} {enabled : Bool} {out out' : ExpandOutput} {list : Nat × Bool}

/-! ### Keys of a list -/

/-- A list gets entries with none but these keys, and one at least if there are any; the other lists stay. -/
structure Expands (st : ExpandTables γ) (cond : Option γ) (keys : List AvtabKey) (st' : ExpandTables γ) : Prop where
  ok : st'.Ok
  keeps : ∀ c k, st.HasKey c k → st'.HasKey c k
  adds : ∀ c k, st'.HasKey c k → st.HasKey c k ∨ c = cond ∧ ∃ key ∈ keys, sameKey k key
  entry : keys ≠ [] → ∃ key ∈ keys, st'.HasKey cond key

omit [DecidableEq γ] in
theorem Expands.nil (ok : st.Ok) : Expands st cond [] st :=
  ⟨ok, fun _ _ h => h, fun _ _ h => .inl h, fun h => absurd rfl h⟩

omit [DecidableEq γ] in
theorem Expands.append (h₁ : Expands st cond keys₁ st₁) (h₂ : Expands st₁ cond keys₂ st₂) :
    Expands st cond (keys₁ ++ keys₂) st₂ where
  ok := h₂.ok
  keeps c k h := h₂.keeps c k (h₁.keeps c k h)
  adds c k h := by
    rcases h₂.adds c k h with h | ⟨hc, key, hkey, hsame⟩
    · rcases h₁.adds c k h with h | ⟨hc, key, hkey, hsame⟩
      · exact .inl h
      · exact .inr ⟨hc, key, List.mem_append_left _ hkey, hsame⟩
    · exact .inr ⟨hc, key, List.mem_append_right _ hkey, hsame⟩
  entry hne := by
    by_cases hnil : keys₁ = []
    · subst hnil
      exact h₂.entry hne
    · obtain ⟨key, hkey, hhas⟩ := h₁.entry hnil
      exact ⟨key, List.mem_append_left _ hkey, h₂.keeps _ _ hhas⟩

/-- A write to the node that `find_avtab_node` returns. -/
private theorem expands_write {f : AvtabNode → AvtabNode} {xperms : Option AvExtendedPerms} {addr : Nat} (ok : st.Ok)
    (hkey : SingleBit key.specified) (hf : KeepsKey f) (h : findAvtabNode st key cond xperms = some (st₁, addr)) :
    Expands st cond [key] (st₁.updateNode cond addr f) := by
  obtain ⟨st₂, addr', hfind, hok, hcases⟩ := @findAvtabNode_write γ st cond key xperms f _ ok hkey hf
  obtain ⟨rfl, rfl⟩ := Prod.mk.inj (Option.some.inj (h.symm.trans hfind))
  rcases hcases with ⟨n, l, hfound, hentries⟩ | ⟨_, hentries⟩
  · -- the entry is replaced
    obtain ⟨hn, hsame⟩ := findExisting_eq_cons ok hkey hfound
    have hnew : f n ∈ (st₁.updateNode cond addr f).entries cond :=
      (hentries _ _).2 (by rw [if_pos rfl]; exact .inl rfl)
    refine ⟨hok, ?_, ?_, fun _ => ⟨key, List.mem_singleton_self _, f n, hnew, hf.sameKey.2 hsame⟩⟩
    · rintro c k ⟨m, hm, hk⟩
      by_cases hc : c = cond ∧ m = n
      · obtain ⟨rfl, rfl⟩ := hc
        exact ⟨f m, hnew, hf.sameKey.2 hk⟩
      · refine ⟨m, (hentries c m).2 ?_, hk⟩
        split
        · next heq => exact .inr ⟨hm, fun hmn => hc ⟨heq, hmn⟩⟩
        · exact hm
    · rintro c k ⟨m, hm, hk⟩
      rw [hentries] at hm
      split at hm
      · next heq =>
        rcases hm with rfl | ⟨hm, _⟩
        · exact .inl ⟨n, heq ▸ hn, hf.sameKey.1 hk⟩
        · exact .inl ⟨m, hm, hk⟩
      · exact .inl ⟨m, hm, hk⟩
  · -- a new entry is added
    refine ⟨hok, ?_, ?_, fun _ => ⟨key, List.mem_singleton_self _, _, (hentries _ _).2 (.inl ⟨rfl, rfl⟩),
      hf.sameKey.2 ⟨⟨rfl, rfl, rfl⟩, rfl⟩⟩⟩
    · rintro c k ⟨m, hm, hk⟩
      exact ⟨m, (hentries c m).2 (.inr hm), hk⟩
    · rintro c k ⟨m, hm, hk⟩
      rcases (hentries c m).1 hm with ⟨rfl, rfl⟩ | hm
      · exact .inr ⟨rfl, key, List.mem_singleton_self _, hf.sameKey.1 hk⟩
      · exact .inl ⟨m, hm, hk⟩

/-! ### Expanded rules -/

/-- The specifiers that `policydb_validate` accepts. -/
def IsRuleKind (specified : BitVec 32) : Prop :=
  specified ∈ [avruleAllowed, avruleAuditallow, avruleAuditdeny, avruleDontaudit, avruleTransition, avruleMember,
    avruleChange, avruleNeverallow, avruleXpermsAllowed, avruleXpermsAuditallow, avruleXpermsDontaudit,
    avruleXpermsNeverallow]

theorem IsRuleKind.cases {specified : BitVec 32} (h : IsRuleKind specified) :
    SingleBit (avruleToAvtabSpec specified) ∧ (specified &&& (avruleAv ||| avruleXperms) = 0 →
      specified &&& (avruleDontaudit ||| avruleXpermsDontaudit) = 0) := by
  unfold IsRuleKind at h
  simp only [List.mem_cons, List.not_mem_nil, or_false] at h
  rcases h with h | h | h | h | h | h | h | h | h | h | h | h <;> rw [h]
  · exact ⟨⟨0, by decide, by decide⟩, by decide⟩
  · exact ⟨⟨1, by decide, by decide⟩, by decide⟩
  · exact ⟨⟨2, by decide, by decide⟩, by decide⟩
  · exact ⟨⟨2, by decide, by decide⟩, by decide⟩
  · exact ⟨⟨4, by decide, by decide⟩, by decide⟩
  · exact ⟨⟨5, by decide, by decide⟩, by decide⟩
  · exact ⟨⟨6, by decide, by decide⟩, by decide⟩
  · exact ⟨⟨7, by decide, by decide⟩, by decide⟩
  · exact ⟨⟨8, by decide, by decide⟩, by decide⟩
  · exact ⟨⟨9, by decide, by decide⟩, by decide⟩
  · exact ⟨⟨10, by decide, by decide⟩, by decide⟩
  · exact ⟨⟨11, by decide, by decide⟩, by decide⟩

private theorem expandAvrulePerms_expands {specified : BitVec 32} {i j : Nat} {xperms : Option AvExtendedPerms}
    (hspec : IsRuleKind specified) {perms : List ClassPermNode} (ok : st.Ok)
    (h : expandAvrulePerms specified cond i j enabled xperms perms st = some st') :
    Expands st cond (perms.map (expandKey specified i j)) st' := by
  induction perms generalizing st with
  | nil =>
    obtain rfl := Option.some.inj h
    exact .nil ok
  | cons cur next ih =>
    unfold expandAvrulePerms expandAvrulePerm at h
    cases hfind : findAvtabNode st (expandKey specified i j cur) cond xperms with
    | none => simp [hfind] at h
    | some found =>
      obtain ⟨st₁, addr⟩ := found
      cases hdatum : expandAvruleDatum specified cur.data xperms with
      | none => simp [hfind, hdatum] at h
      | some f =>
        simp only [hfind, hdatum, Option.map_some] at h
        have hwrite := expands_write ok hspec.cases.1 (KeepsKey.write enabled f) hfind
        exact hwrite.append (ih hwrite.ok h)

private theorem expandTerulePerms_expands {typemap : Option (Nat → BitVec 32)} {specified : BitVec 32} {i j : Nat}
    (hspec : IsRuleKind specified) {perms : List ClassPermNode} (ok : st.Ok)
    (hret : (expandTerulePerms typemap specified cond other i j enabled perms st).1 = expandRuleSuccess) :
    Expands st cond (perms.map (expandKey specified i j))
      (expandTerulePerms typemap specified cond other i j enabled perms st).2 := by
  induction perms generalizing st with
  | nil => exact .nil ok
  | cons cur next ih =>
    unfold expandTerulePerms at hret ⊢
    cases hcheck : expandTeruleCheck st cond other (expandKey specified i j cur) (remapData typemap cur) with
    | some ret =>
      -- the helper returns at a duplicate, which is an entry of the list, and drops the classes behind it
      simp only [hcheck] at hret ⊢
      obtain rfl : ret = expandRuleSuccess := hret
      obtain ⟨n, hn, hsame, _⟩ := exists_entry_of_expandTeruleCheck ok hspec.cases.1 hcheck
      exact ⟨ok, fun _ _ h => h, fun _ _ h => .inl h, fun _ => ⟨_, List.mem_cons_self .., n, hn, hsame⟩⟩
    | none =>
      cases hfind : findAvtabNode st (expandKey specified i j cur) cond none with
      | none =>
        simp only [hcheck, hfind] at hret
        exact absurd hret (by decide)
      | some found =>
        obtain ⟨st₁, addr⟩ := found
        simp only [hcheck, hfind] at hret ⊢
        have hwrite := expands_write ok hspec.cases.1
          (KeepsKey.write enabled fun d => { d with data := remapData typemap cur })
          hfind
        exact hwrite.append (ih hwrite.ok hret)

private theorem expandRuleLoop_expands {disableDontaudit : Bool} {typemap : Option (Nat → BitVec 32)}
    {rule : SourceRule} (hspec : IsRuleKind rule.specified) {pairs : List (Nat × Nat)} (ok : st.Ok)
    (hret : (expandRuleLoop disableDontaudit typemap rule cond other enabled pairs st).1 = expandRuleSuccess) :
    Expands st cond (pairs.flatMap (pairKeys disableDontaudit rule))
      (expandRuleLoop disableDontaudit typemap rule cond other enabled pairs st).2 := by
  induction pairs generalizing st with
  | nil => exact .nil ok
  | cons p pairs ih =>
    obtain ⟨i, j⟩ := p
    unfold expandRuleLoop at hret ⊢
    dsimp only at hret ⊢
    -- the pair is one of a type rule, or of a rule that allows or audits
    by_cases hav : rule.specified &&& (avruleAv ||| avruleXperms) = 0
    · rw [if_neg (not_not_intro hav)] at hret ⊢
      generalize hr : expandTeruleHelper typemap rule.specified cond other i j rule.perms enabled st = r at hret ⊢
      split at hret
      · next hne => exact absurd hret hne
      · next hone =>
        rw [if_neg hone, List.flatMap_cons]
        rw [not_not] at hone
        have hfirst : Expands st cond (pairKeys disableDontaudit rule (i, j)) r.2 := by
          unfold pairKeys
          rw [if_neg fun h => h.1 (hspec.cases.2 hav)]
          unfold expandTeruleHelper at hr
          split at hr
          · rw [← hr] at hone
            exact absurd (show expandRuleError = expandRuleSuccess from hone) (by decide)
          · rw [← hr] at hone ⊢
            exact expandTerulePerms_expands hspec ok hone
        exact hfirst.append (ih hfirst.ok hret)
    · rw [if_pos hav] at hret ⊢
      cases hcall : expandAvruleHelper disableDontaudit rule.specified cond i j rule.perms enabled rule.xperms st with
      | none =>
        rw [hcall] at hret
        exact absurd (show expandRuleError = expandRuleSuccess from hret) (by decide)
      | some st₁ =>
        rw [hcall] at hret
        dsimp only at hret ⊢
        rw [if_neg (not_not_intro rfl)] at hret ⊢
        have hfirst : Expands st cond (pairKeys disableDontaudit rule (i, j)) st₁ := by
          unfold expandAvruleHelper at hcall
          unfold pairKeys
          split at hcall
          · next hdis =>
            obtain rfl := Option.some.inj hcall
            rw [if_pos hdis]
            exact .nil ok
          · next hdis =>
            rw [if_neg hdis]
            exact expandAvrulePerms_expands hspec ok hcall
        rw [List.flatMap_cons]
        exact hfirst.append (ih hfirst.ok hret)

/-- A call that succeeds gives the list the keys of the rule. -/
private theorem convertAndExpandRule_expands {rule : LinkAvrule} (hspec : IsRuleKind rule.specified) (ok : st.Ok)
    (h : convertAndExpandRule e rule cond other enabled false st = .ok (expandRuleSuccess, st')) :
    Expands st cond (ruleKeys e rule) st' := by
  unfold convertAndExpandRule at h
  unfold ruleKeys
  simp only [Bool.not_false, true_and] at h
  by_cases hn : rule.specified &&& avruleNeverallow ≠ 0
  · rw [if_pos hn] at h
    rw [if_pos (.inl hn)]
    obtain rfl := (Prod.mk.inj (Except.ok.inj h)).2
    exact .nil ok
  · rw [if_neg hn] at h
    by_cases hx : rule.specified &&& avruleXpermsNeverallow ≠ 0
    · rw [if_pos hx] at h
      rw [if_pos (.inr hx)]
      obtain rfl := (Prod.mk.inj (Except.ok.inj h)).2
      exact .nil ok
    · rw [if_neg hx] at h
      rw [if_neg fun hor => hor.elim hn hx]
      cases htypes : convertRuleTypes e rule with
      | error err =>
        rw [htypes] at h
        cases err with
        | failed => exact absurd (Prod.mk.inj (Except.ok.inj h)).1 (by decide)
        | aborted => cases h
        | undefined => cases h
      | ok types =>
        rw [htypes] at h
        have hrun := Except.ok.inj h
        have hloop := @expandRuleLoop_expands γ _ st cond other enabled e.disableDontaudit
          (some e.typemap) rule.source
          hspec (expandRulePairs rule.source types.1 types.2) ok (congrArg Prod.fst hrun)
        rwa [show (expandRuleLoop e.disableDontaudit (some e.typemap) rule.source cond other enabled
          (expandRulePairs rule.source types.1 types.2) st).2 = st' from congrArg Prod.snd hrun] at hloop

/-! ### The record -/

/-- The entries of the lists are those of the recorded rules, each of which has one, and the lists are those of
`places` conditionals. -/
structure ExpandOutput.Ok (e : RuleExpansion) (places : Nat) (out : ExpandOutput) : Prop where
  tables : out.tables.Ok
  place : ∀ c k, out.tables.HasKey (some c) k → c.1 < places
  copied : ∀ c r, (c, r) ∈ out.copied → ∃ key ∈ ruleKeys e r, out.tables.HasKey (some c) key
  entries : ∀ c k, out.tables.HasKey (some c) k → ∃ r, (c, r) ∈ out.copied ∧ ∃ key ∈ ruleKeys e r, sameKey k key

theorem ExpandOutput.Ok.mono {places places' : Nat} (h : out.Ok e places) (hle : places ≤ places') :
    out.Ok e places' :=
  { h with place := fun c k hk => (h.place c k hk).trans_le hle }

theorem ExpandOutput.Ok.not_mem {places : Nat} (h : out.Ok e places) {c : Nat × Bool} (hc : places ≤ c.1)
    (r : LinkAvrule) : (c, r) ∉ out.copied := by
  intro hr
  obtain ⟨key, _, hkey⟩ := h.copied c r hr
  exact absurd (h.place c key hkey) (Nat.not_lt.2 hc)

private theorem mem_record {cur r : LinkAvrule} {c : Nat × Bool} {tables : ExpandTables (Nat × Bool)}
    (hx : Expands out.tables (some list) (ruleKeys e cur) tables) :
    (c, r) ∈ (out.record e list cur tables).copied ↔
      (c, r) ∈ out.copied ∨ c = list ∧ r = cur ∧ ruleKeys e cur ≠ [] := by
  unfold ExpandOutput.record
  dsimp only
  split
  · next hkey =>
    obtain ⟨key, hkey, _⟩ := hkey
    rw [List.mem_cons, Prod.mk.injEq]
    have hne : ruleKeys e cur ≠ [] := List.ne_nil_of_mem hkey
    tauto
  · next hkey =>
    have hnil : ruleKeys e cur = [] := by
      by_contra hne
      exact hkey (hx.entry hne)
    simp [hnil]

theorem ExpandOutput.Ok.record {places : Nat} {cur : LinkAvrule} {tables : ExpandTables (Nat × Bool)}
    (h : out.Ok e places) (hlist : list.1 < places) (hx : Expands out.tables (some list) (ruleKeys e cur) tables) :
    (out.record e list cur tables).Ok e places where
  tables := hx.ok
  place c k hk := by
    rcases hx.adds _ _ hk with hk | ⟨hc, _⟩
    · exact h.place c k hk
    · exact Option.some.inj hc ▸ hlist
  copied c r hr := by
    rcases (mem_record hx).1 hr with hr | ⟨rfl, rfl, hne⟩
    · obtain ⟨key, hkey, hhas⟩ := h.copied c r hr
      exact ⟨key, hkey, hx.keeps _ _ hhas⟩
    · exact hx.entry hne
  entries c k hk := by
    rcases hx.adds _ _ hk with hk | ⟨hc, key, hkey, hsame⟩
    · obtain ⟨r, hr, hkeys⟩ := h.entries c k hk
      exact ⟨r, (mem_record hx).2 (.inl hr), hkeys⟩
    · exact ⟨cur, (mem_record hx).2 (.inr ⟨Option.some.inj hc, rfl, List.ne_nil_of_mem hkey⟩), key, hkey, hsame⟩

/-- A copied branch: its rules that have keys are recorded for the list. -/
private theorem condAvruleListCopy_spec {places : Nat} {rules : List LinkAvrule} (h : out.Ok e places)
    (hlist : list.1 < places) (hspec : ∀ r ∈ rules, IsRuleKind r.specified) {other : Nat × Bool}
    (hcopy : condAvruleListCopy e list other enabled rules out = .ok out') :
    out'.Ok e places ∧ ∀ c r, (c, r) ∈ out'.copied ↔
      (c, r) ∈ out.copied ∨ c = list ∧ r ∈ rules ∧ ruleKeys e r ≠ [] := by
  induction rules generalizing out with
  | nil =>
    obtain rfl := Except.ok.inj hcopy
    exact ⟨h, fun c r => by simp⟩
  | cons cur next ih =>
    unfold condAvruleListCopy at hcopy
    split at hcopy
    · cases hcopy
    · next ret tables hcall =>
      split at hcopy
      · cases hcopy
      · next hret =>
        rw [not_not] at hret
        subst hret
        have hx := convertAndExpandRule_expands (hspec cur (List.mem_cons_self ..)) h.tables hcall
        obtain ⟨hok, hmem⟩ := ih (h.record hlist hx) (fun r hr => hspec r (List.mem_cons_of_mem _ hr)) hcopy
        refine ⟨hok, fun c r => ?_⟩
        rw [hmem, mem_record hx, List.mem_cons]
        constructor
        · rintro ((h | ⟨hc, rfl, hne⟩) | ⟨hc, hr, hne⟩)
          · exact .inl h
          · exact .inr ⟨hc, .inl rfl, hne⟩
          · exact .inr ⟨hc, .inr hr, hne⟩
        · rintro (h | ⟨hc, rfl | hr, hne⟩)
          · exact .inl (.inl h)
          · exact .inl (.inr ⟨hc, rfl, hne⟩)
          · exact .inr ⟨hc, hr, hne⟩

variable {cn cn' tmp node : CondNodeT LinkAvrule Nat} {st : ExpandState} {state' : ExpandState}

/-- The copied rules of a node: both branches are recorded for the lists of the node of the output. -/
private theorem condNodeCopyRules_spec (h : st.toExpandOutput.Ok e st.condList.length)
    (hspec : ∀ r ∈ cn.avtrueList ++ cn.avfalseList, IsRuleKind r.specified)
    (hcopy : condNodeCopyRules e st cn tmp = .ok state') :
    ∃ i, condNodeSearch st.outState st.condList tmp = some (i, state'.condList) ∧
      state'.toExpandOutput.Ok e state'.condList.length ∧
      ∀ c r, (c, r) ∈ state'.copied ↔ (c, r) ∈ st.copied ∨ c.1 = state'.condList.length - 1 - i ∧
        r ∈ (if c.2 then cn.avtrueList else cn.avfalseList) ∧ ruleKeys e r ≠ [] := by
  unfold condNodeCopyRules at hcopy
  split at hcopy
  · cases hcopy
  · next i condList hsearch =>
    split at hcopy
    · cases hcopy
    · next newCond hnew =>
      have hlt : i < condList.length := (List.getElem?_eq_some_iff.1 hnew).1
      have hlen : st.condList.length ≤ condList.length := by
        unfold condNodeSearch at hsearch
        split at hsearch
        · rw [← (Prod.mk.inj (Option.some.inj hsearch)).2]
        · obtain ⟨result, _, hresult⟩ := Option.map_eq_some_iff.1 hsearch
          rw [← (Prod.mk.inj hresult).2]
          exact Nat.le_succ _
      dsimp only at hcopy
      split at hcopy
      · cases hcopy
      · next out htrue =>
        split at hcopy
        · cases hcopy
        · next out' hfalse =>
          obtain rfl := Except.ok.inj hcopy
          obtain ⟨hok, hmem⟩ := condAvruleListCopy_spec (h.mono hlen) (by dsimp only; omega)
            (fun r hr => hspec r (List.mem_append_left _ hr)) htrue
          obtain ⟨hok', hmem'⟩ := condAvruleListCopy_spec hok (by dsimp only; omega)
            (fun r hr => hspec r (List.mem_append_right _ hr)) hfalse
          refine ⟨i, hsearch, hok', fun c r => ?_⟩
          obtain ⟨place, b⟩ := c
          rw [hmem', hmem, Prod.mk.injEq, Prod.mk.injEq]
          cases b <;> simp

/-- A conditional of the base that is not a tunable has a defined expression and rules of known kinds. -/
def CondAccepted (cn : CondNodeT LinkAvrule Nat) : Prop :=
  cn.flags &&& condNodeFlagsTunable = 0 → BoolsValid cn.expr ∧ ExprDefined cn.expr ∧
    ∀ r ∈ cn.avtrueList ++ cn.avfalseList, IsRuleKind r.specified

/-- The entries of the lists are those of the recorded rules in every state of `cond_node_copy`. -/
theorem condNodeCopy_ok {cns cns' : List (CondNodeT LinkAvrule Nat)} (h : st.toExpandOutput.Ok e st.condList.length)
    (haccepted : ∀ cn ∈ cns, CondAccepted cn) (hcopy : condNodeCopy e cns st = .ok (cns', state')) :
    state'.toExpandOutput.Ok e state'.condList.length := by
  induction cns generalizing cns' state' with
  | nil =>
    obtain ⟨_, rfl⟩ := Prod.mk.inj (Except.ok.inj hcopy)
    exact h
  | cons cn cns ih =>
    unfold condNodeCopy at hcopy
    split at hcopy
    · cases hcopy
    · next next' st₁ hnext =>
      -- the conditionals behind this one are copied first
      have h₁ := ih (fun cn hcn => haccepted cn (List.mem_cons_of_mem _ hcn)) hnext
      unfold condNodeCopyNode at hcopy
      split at hcopy
      · obtain ⟨_, rfl⟩ := Prod.mk.inj (Except.ok.inj hcopy)
        exact h₁
      · next htunable =>
        rw [not_not] at htunable
        obtain ⟨hvalid, hdef, hspec⟩ := haccepted cn (List.mem_cons_self ..) htunable
        obtain ⟨cn₁, tmp, _, swapped, hmap, _, _, h1, h2, _⟩ :=
          condNodeCopyMap_defined st₁.toExpandBools hvalid hdef
        rw [hmap] at hcopy
        cases hrules : condNodeCopyRules e st₁ cn₁ tmp with
        | error err =>
          simp [hrules, Except.map] at hcopy
        | ok st₂ =>
          simp only [hrules, Except.map, Except.ok.injEq, Prod.mk.injEq] at hcopy
          obtain ⟨_, rfl⟩ := hcopy
          obtain ⟨_, _, hok, _⟩ := condNodeCopyRules_spec h₁ (fun r hr => hspec r (by
            rw [List.mem_append, h1, h2] at hr
            rw [List.mem_append]
            cases swapped
            · exact hr
            · exact hr.symm)) hrules
          exact hok

end Sepol
