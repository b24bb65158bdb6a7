import Sepol.BoundsRecursion
import Sepol.Hierarchy
import Sepol.LinkIdentifiers
import Sepol.MlsGrammar

/-!
# Policies that are read and validated

What `policydb_read` and `policydb_validate` make sure of for the symbol tables of a base and of a module.  They index
and check the own tables of a policy; of the tables of its declarations only the values of the symbols are checked,
and none of their sets.
-/

namespace Sepol

/-- The tables of symbols, as the checks of kernel policies take them; the checks of symbols look at nothing else. -/
def LinkPolicy.toKernelPolicydb (p : LinkPolicy) : KernelPolicydb where
  policyvers := 0
  mls := p.mls
  targetPlatform := 0
  pCommons := p.pCommons
  pClasses := p.pClasses
  pRoles := p.pRoles
  pTypes := p.pTypes
  pUsers := p.pUsers
  pBools := p.pBools
  pLevels := p.pLevels
  pCats := p.pCats
  teAvtab := avtabInit
  teCondAvtab := avtabInit
  condList := []
  roleAllow := []
  permissiveMap := ebitmapInit
  processClass := 0
  processTransDyntrans := 0
  typeAttrMap _ := ebitmapInit
  attrTypeMap _ := ebitmapInit

section

variable (p : LinkPolicy) (flavors : KernelFlavors)

/-- `policydb_index_classes` and `policydb_index_others`. -/
def LinkPolicy.index : Bool :=
  (symtabIndex (fun _ => true) (·.value) p.pCommons).isSome &&
    (symtabIndex (fun _ => true) (·.value) p.pClasses).isSome &&
    (symtabIndex (fun _ => true) (·.value) p.pRoles).isSome &&
    (symtabIndex (fun type => decide (type.primary ≠ 0)) (·.value) p.pTypes).isSome &&
    (symtabIndex (fun _ => true) (·.value) p.pUsers).isSome &&
    (symtabIndex (fun _ => true) (·.value) p.pBools).isSome &&
    (symtabIndex (fun level => !level.isalias) (·.level.sens) p.pLevels).isSome &&
    (symtabIndex (fun cat => !cat.isalias) (·.value) p.pCats).isSome

/-- `validate_symtabs` for the tables of a declaration; of a level it reads a pointer where the others have their
value. -/
def validateSymtabs (decl : LinkSymtabs) : Bool :=
  (decl.pClasses.table.all fun e => valueIsvalid e.2.value flavors.classes.nprim) &&
    (decl.pRoles.table.all fun e => valueIsvalid e.2.value flavors.roles.nprim) &&
    (decl.pTypes.table.all fun e => valueIsvalid e.2.value flavors.types.nprim) &&
    (decl.pUsers.table.all fun e => valueIsvalid e.2.value flavors.users.nprim) &&
    (decl.pBools.table.all fun e => valueIsvalid e.2.value flavors.bools.nprim) &&
    (decl.pCats.table.all fun e => valueIsvalid e.2.value flavors.cats.nprim)

/-- `validate_datum_array_entries`, which leaves the expanded ranges of the users of modules out. -/
def LinkPolicy.validateDatumArrayEntries (isBase : Bool) : Bool :=
  (p.pCommons.table.all fun e => validateCommonDatum flavors e.2) &&
    (p.pClasses.table.all fun e => validateClassDatum flavors e.2) &&
    (p.pRoles.table.all fun e => validateRoleDatum flavors e.2) &&
    (p.pTypes.table.all fun e => validateTypeDatum p.toKernelPolicydb flavors e.2) &&
    (p.pUsers.table.all fun e => validateUserDatum { p.toKernelPolicydb with mls := p.mls && isBase } flavors e.2) &&
    (!p.mls || p.pLevels.table.all fun e => validateLevelDatum p.toKernelPolicydb flavors e.2) &&
    (p.pCats.table.all fun e => valueIsvalid e.2.value flavors.cats.nprim) &&
    (p.pBools.table.all fun e => validateBoolDatum flavors e.2)

/-- The part of `policydb_validate` for symbols. -/
def LinkPolicy.validate (isBase : Bool) : Bool :=
  match p.toKernelPolicydb.validateArrayInit with
  | none => false
  | some flavors => (p.decls.all fun decl => validateSymtabs flavors decl.toLinkSymtabs) &&
      p.validateDatumArrayEntries flavors isBase

/-- A policy as it comes from a file: `ebitmap_read` has read the sets of its symbols, and the numbers are words. -/
structure LinkPolicy.Accepted (isBase : Bool) : Prop where
  index : p.index = true
  validate : p.validate isBase = true
  roles : ∀ e ∈ p.pRoles.table, e.2.dominates.Canonical ∧ e.2.types.types.Canonical ∧ e.2.types.negset.Canonical ∧
    e.2.roles.Canonical
  types : ∀ e ∈ p.pTypes.table, e.2.types.Canonical
  users : ∀ e ∈ p.pUsers.table, e.2.roles.roles.Canonical
  nprim_lt : ∀ k, (p.values k).nprim < 2 ^ 32

/-! ### What the checks say -/

/-- The value is that of a symbol of the policy. -/
def LinkPolicy.Named (k : SymNum) (value : Nat) : Prop := ∃ id, (id, value) ∈ (p.values k).table

end

/-- A value that is accepted has a name. -/
structure Validate.Names (v : Validate) (valToName : Nat → Option CString) (nprim : Nat) : Prop where
  count : v.nprim = nprim
  canonical : v.gaps.Canonical
  gaps : ∀ i < nprim, valToName i = none → i ∈ v.gaps

private theorem gapStep_spec {valToName : Nat → Option CString} {l : List Nat} (hl : ∀ i ∈ l, i < 2 ^ 32)
    {gaps gaps' : Ebitmap} (hgaps : gaps.Canonical)
    (h : l.foldlM (fun gaps i => if (valToName i).isNone then ebitmapSetBit gaps i true else some gaps) gaps =
      some gaps') : gaps'.Canonical ∧ (∀ i ∈ gaps, i ∈ gaps') ∧ ∀ i ∈ l, valToName i = none → i ∈ gaps' := by
  induction l generalizing gaps with
  | nil =>
    obtain rfl := Option.some.inj h
    exact ⟨hgaps, fun _ hi => hi, fun i hi => absurd hi List.not_mem_nil⟩
  | cons j l ih =>
    rw [List.foldlM_cons] at h
    obtain ⟨gaps1, hset, h⟩ := Option.bind_eq_some_iff.1 h
    have hl' : ∀ i ∈ l, i < 2 ^ 32 := fun i hi => hl i (List.mem_cons_of_mem _ hi)
    by_cases hj : (valToName j).isNone
    · rw [if_pos hj] at hset
      have hbit := lt_of_ebitmapSetBit hset (hl j List.mem_cons_self)
      have hmem := mem_of_ebitmapSetBit hgaps hbit hset
      obtain ⟨hcanonical, hkept, hset'⟩ := ih hl' (hgaps.setBit hbit hset) h
      refine ⟨hcanonical, fun i hi => hkept i ((hmem i).2 (Or.inl hi)), fun i hi hnone => ?_⟩
      rcases List.mem_cons.1 hi with rfl | hi
      · exact hkept i ((hmem i).2 (Or.inr rfl))
      · exact hset' i hi hnone
    · rw [if_neg hj] at hset
      obtain rfl := Option.some.inj hset
      obtain ⟨hcanonical, hkept, hset'⟩ := ih hl' hgaps h
      refine ⟨hcanonical, hkept, fun i hi hnone => ?_⟩
      rcases List.mem_cons.1 hi with rfl | hi
      · rw [hnone] at hj
        exact absurd rfl hj
      · exact hset' i hi hnone

private theorem validateInit_names {valToName : Nat → Option CString} {nprim : Nat} (hn : nprim < 2 ^ 32)
    {v : Validate} (h : validateInit valToName nprim = some v) : v.Names valToName nprim := by
  obtain ⟨gaps, hgaps, rfl⟩ := Option.map_eq_some_iff.1 h
  have hrange : ∀ i ∈ List.range nprim, i < 2 ^ 32 := fun i hi => (List.mem_range.1 hi).trans hn
  obtain ⟨hcanonical, _, hset⟩ := gapStep_spec hrange Ebitmap.Canonical.init hgaps
  exact ⟨rfl, hcanonical, fun i hi hnone => hset i (List.mem_range.2 hi) hnone⟩

variable {v : Validate} {valToName : Nat → Option CString} {nprim : Nat}

theorem Validate.Names.value (h : v.Names valToName nprim) {value : Nat} (hvalue : validateValue value v = true) :
    0 < value ∧ value ≤ nprim ∧ (valToName (value - 1)).isSome := by
  have hpos := validateValue_ne_zero hvalue
  unfold validateValue at hvalue
  split at hvalue
  · cases hvalue
  · rename_i hrange
    rw [h.count] at hrange
    have hle : value ≤ nprim := by omega
    refine ⟨by omega, hle, ?_⟩
    by_contra hnone
    have hgap := h.gaps (value - 1) (by omega) (by simpa using hnone)
    rw [(ebitmapGetBit_iff h.canonical _).2 hgap] at hvalue
    cases hvalue

theorem Validate.Names.bit (h : v.Names valToName nprim) {e : Ebitmap} (he : e.Canonical)
    (hvalid : validateEbitmap e v = true) {i : Nat} (hi : i ∈ ebitmapPositiveBits e) : (valToName i).isSome := by
  have hmem := (mem_ebitmapPositiveBits he).1 hi
  have hlt := lt_of_validateEbitmap he hvalid hmem
  rw [h.count] at hlt
  by_contra hnone
  have hgap := h.gaps i hlt (by simpa using hnone)
  unfold validateEbitmap at hvalid
  split at hvalid
  · cases hvalid
  · rw [(ebitmapMatchAny_iff he h.canonical).2 ⟨i, hmem, hgap⟩] at hvalid
    cases hvalid

private theorem indexEntry_named {α : Type} {symtab : Symtab α} {indexed : α → Bool} {value : α → Nat} {i : Nat}
    (h : ((indexEntry symtab indexed value i).map Prod.fst).isSome) :
    ∃ id, (id, i + 1) ∈ (symtab.map value).table := by
  rw [Option.isSome_map] at h
  obtain ⟨e, he⟩ := Option.isSome_iff_exists.1 h
  obtain ⟨hmem, hvalue⟩ := mem_of_indexEntry he
  exact ⟨e.1, List.mem_map.2 ⟨e, hmem, by rw [hvalue]⟩⟩

variable {p : LinkPolicy} {isBase : Bool}

/-- The kinds of symbols of an accepted policy, and the checks of its entries. -/
theorem LinkPolicy.Accepted.flavors (h : p.Accepted isBase) :
    ∃ flavors : KernelFlavors, flavors.roles.Names
      (fun i => (p.toKernelPolicydb.roleEntry i).map Prod.fst) p.pRoles.nprim ∧
      flavors.types.Names p.typeValToName p.pTypes.nprim ∧
      flavors.levels.Names (fun i => (p.toKernelPolicydb.sensEntry i).map Prod.fst) p.pLevels.nprim ∧
      flavors.cats.Names (fun i => (p.toKernelPolicydb.catEntry i).map Prod.fst) p.pCats.nprim ∧
      flavors.users.nprim = p.pUsers.nprim ∧ flavors.classes.nprim = p.pClasses.nprim ∧
      flavors.bools.nprim = p.pBools.nprim ∧
      (p.decls.all fun decl => validateSymtabs flavors decl.toLinkSymtabs) = true ∧
        p.validateDatumArrayEntries flavors isBase = true := by
  have hvalidate := h.validate
  unfold LinkPolicy.validate at hvalidate
  split at hvalidate
  · cases hvalidate
  · rename_i flavors hinit
    rw [Bool.and_eq_true] at hvalidate
    obtain ⟨commons, hcommons, hinit⟩ := Option.bind_eq_some_iff.1 hinit
    obtain ⟨classes, hclasses, hinit⟩ := Option.bind_eq_some_iff.1 hinit
    obtain ⟨constraint, hconstraint, hinit⟩ := Option.bind_eq_some_iff.1 hinit
    obtain ⟨bools, hbools, hinit⟩ := Option.bind_eq_some_iff.1 hinit
    obtain ⟨levels, hlevels, hinit⟩ := Option.bind_eq_some_iff.1 hinit
    obtain ⟨cats, hcats, hinit⟩ := Option.bind_eq_some_iff.1 hinit
    obtain ⟨roles, hroles, hconstraint⟩ := Option.bind_eq_some_iff.1 hconstraint
    obtain ⟨types, htypes, hconstraint⟩ := Option.bind_eq_some_iff.1 hconstraint
    obtain ⟨users, husers, hconstraint⟩ := Option.bind_eq_some_iff.1 hconstraint
    obtain rfl := Option.some.inj hconstraint
    obtain rfl := Option.some.inj hinit
    have hnprim : ∀ {valToName : Nat → Option CString} {nprim : Nat} {v : Validate},
        validateInit valToName nprim = some v → v.nprim = nprim := by
      intro valToName nprim v hv
      obtain ⟨gaps, _, rfl⟩ := Option.map_eq_some_iff.1 hv
      rfl
    exact ⟨⟨⟨users, roles, types⟩, commons, classes, bools, levels, cats⟩,
      validateInit_names (h.nprim_lt .roles) hroles, validateInit_names (h.nprim_lt .types) htypes,
      validateInit_names (h.nprim_lt .levels) hlevels, validateInit_names (h.nprim_lt .cats) hcats, hnprim husers,
      hnprim hclasses, hnprim hbools, hvalidate⟩

/-- The entries of the tables pass their checks. -/
structure LinkPolicy.Checked (p : LinkPolicy) (isBase : Bool) (flavors : KernelFlavors) : Prop where
  classes : ∀ e ∈ p.pClasses.table, validateClassDatum flavors e.2 = true
  roles : ∀ e ∈ p.pRoles.table, validateRoleDatum flavors e.2 = true
  types : ∀ e ∈ p.pTypes.table, validateTypeDatum p.toKernelPolicydb flavors e.2 = true
  users : ∀ e ∈ p.pUsers.table,
    validateUserDatum { p.toKernelPolicydb with mls := p.mls && isBase } flavors e.2 = true
  levels : p.mls = true → ∀ e ∈ p.pLevels.table, validateLevelDatum p.toKernelPolicydb flavors e.2 = true
  cats : ∀ e ∈ p.pCats.table, valueIsvalid e.2.value flavors.cats.nprim = true
  bools : ∀ e ∈ p.pBools.table, validateBoolDatum flavors e.2 = true

theorem LinkPolicy.checked {flavors : KernelFlavors} (h : p.validateDatumArrayEntries flavors isBase = true) :
    p.Checked isBase flavors := by
  unfold LinkPolicy.validateDatumArrayEntries at h
  simp only [Bool.and_eq_true, List.all_eq_true, Bool.or_eq_true, Bool.not_eq_true'] at h
  obtain ⟨⟨⟨⟨⟨⟨⟨_, hclasses⟩, hroles⟩, htypes⟩, husers⟩, hlevels⟩, hcats⟩, hbools⟩ := h
  refine ⟨hclasses, hroles, htypes, husers, fun hmls => ?_, hcats, hbools⟩
  rcases hlevels with hfalse | hlevels
  · rw [hmls] at hfalse
    cases hfalse
  · exact hlevels

theorem LinkPolicy.Accepted.role_named (h : p.Accepted isBase) {e : CString × KernelRole} (he : e ∈ p.pRoles.table) :
    (∀ i ∈ ebitmapPositiveBits e.2.dominates, p.Named .roles (i + 1)) ∧
      (∀ i ∈ ebitmapPositiveBits e.2.types.types, p.Named .types (i + 1)) ∧
      (∀ i ∈ ebitmapPositiveBits e.2.types.negset, p.Named .types (i + 1)) ∧
      ∀ i ∈ ebitmapPositiveBits e.2.roles, p.Named .roles (i + 1) := by
  obtain ⟨flavors, hroles, htypes, _, _, _, _, _, _, hentries⟩ := h.flavors
  have hrole := (LinkPolicy.checked hentries).roles e he
  unfold validateRoleDatum validateTypeSet at hrole
  simp only [Bool.and_eq_true] at hrole
  obtain ⟨hdominates, htypeset, hnegset, hattrib⟩ := h.roles e he
  refine ⟨fun i hi => ?_, fun i hi => ?_, fun i hi => ?_, fun i hi => ?_⟩
  · exact indexEntry_named (hroles.bit hdominates hrole.1.1.1.1.2 hi)
  · exact indexEntry_named (htypes.bit htypeset hrole.1.1.1.2.1.1 hi)
  · exact indexEntry_named (htypes.bit hnegset hrole.1.1.1.2.1.2 hi)
  · exact indexEntry_named (hroles.bit hattrib hrole.1.2 hi)

theorem LinkPolicy.Accepted.type_named (h : p.Accepted isBase) {e : CString × KernelType} (he : e ∈ p.pTypes.table)
    (hattrib : e.2.flavor = .attrib) : ∀ i ∈ ebitmapPositiveBits e.2.types, p.Named .types (i + 1) := by
  obtain ⟨flavors, _, htypes, _, _, _, _, _, _, hentries⟩ := h.flavors
  have htype := (LinkPolicy.checked hentries).types e he
  unfold validateTypeDatum at htype
  rw [hattrib] at htype
  intro i hi
  refine indexEntry_named (htypes.bit (h.types e he) ?_ hi)
  split at htype
  · cases htype
  · split at htype
    · cases htype
    · simp only [Bool.and_eq_true] at htype
      exact htype.1.1

/-- The sensitivity and the categories of a level are symbols of the policy. -/
def LinkPolicy.LevelNamed (p : LinkPolicy) (level : MlsSemanticLevel) : Prop :=
  level.sens ≠ 0 → p.Named .levels level.sens ∧ ∀ cat ∈ level.cat, p.Named .cats cat.low ∧ p.Named .cats cat.high

theorem Validate.Names.symbol {α : Type} {symtab : Symtab α} {indexed : α → Bool} {getValue : α → Nat}
    (h : v.Names (fun i => (indexEntry symtab indexed getValue i).map Prod.fst) nprim) {value : Nat}
    (hvalue : validateValue value v = true) : ∃ id, (id, value) ∈ (symtab.map getValue).table := by
  obtain ⟨hpos, _, hname⟩ := h.value hvalue
  obtain ⟨id, hid⟩ := indexEntry_named hname
  rw [Nat.sub_add_cancel hpos] at hid
  exact ⟨id, hid⟩

private theorem LinkPolicy.Accepted.level_named
    (hlevels : v.Names (fun i => (p.toKernelPolicydb.sensEntry i).map Prod.fst) nprim)
    {cats : Validate} {ncats : Nat} (hcats : cats.Names (fun i => (p.toKernelPolicydb.catEntry i).map Prod.fst) ncats)
    {level : MlsSemanticLevel} (hlevel : validateMlsSemanticLevel level v cats = true) : p.LevelNamed level := by
  intro hsens
  rw [validateMlsSemanticLevel, if_neg hsens, Bool.and_eq_true] at hlevel
  refine ⟨hlevels.symbol hlevel.1, fun cat hcat => ?_⟩
  have hvalid := List.all_eq_true.1 hlevel.2 cat hcat
  simp only [Bool.and_eq_true] at hvalid
  exact ⟨hcats.symbol hvalid.1.1, hcats.symbol hvalid.1.2⟩

theorem LinkPolicy.Accepted.user_named (h : p.Accepted isBase) {e : CString × KernelUser} (he : e ∈ p.pUsers.table) :
    (∀ i ∈ ebitmapPositiveBits e.2.roles.roles, p.Named .roles (i + 1)) ∧ p.LevelNamed e.2.range.level0 ∧
      p.LevelNamed e.2.range.level1 ∧ p.LevelNamed e.2.dfltlevel := by
  obtain ⟨flavors, hroles, _, hlevels, hcats, _, _, _, _, hentries⟩ := h.flavors
  have huser := (LinkPolicy.checked hentries).users e he
  unfold validateUserDatum validateRoleSet validateMlsSemanticRange at huser
  simp only [Bool.and_eq_true] at huser
  obtain ⟨⟨⟨⟨⟨⟨_, hset⟩, hlevel0, hlevel1⟩, hdefault⟩, _⟩, _⟩, _⟩ := huser
  refine ⟨fun i hi => indexEntry_named (hroles.bit (h.users e he) hset.1 hi), ?_, ?_, ?_⟩
  · exact LinkPolicy.Accepted.level_named hlevels hcats hlevel0
  · exact LinkPolicy.Accepted.level_named hlevels hcats hlevel1
  · exact LinkPolicy.Accepted.level_named hlevels hcats hdefault

/-- A type of a declaration, too, has a value that the arrays of the policy have a place for. -/
theorem LinkPolicy.Accepted.type_value (h : p.Accepted isBase) {tabs : LinkSymtabs}
    (htabs : tabs = p.toLinkSymtabs ∨ ∃ decl ∈ p.decls, tabs = decl.toLinkSymtabs) {e : CString × KernelType}
    (he : e ∈ tabs.pTypes.table) :
    0 < e.2.value ∧ e.2.value ≤ p.pTypes.nprim := by
  obtain ⟨flavors, _, htypes, _, _, _, _, _, hdecls, hentries⟩ := h.flavors
  rcases htabs with rfl | ⟨decl, hdecl, rfl⟩
  · have htype := (LinkPolicy.checked hentries).types e he
    unfold validateTypeDatum at htype
    split at htype
    · cases htype
    · rename_i hvalue
      have hvalue' := htypes.value (by simpa using hvalue)
      exact ⟨hvalue'.1, hvalue'.2.1⟩
  · have hsymtabs := List.all_eq_true.1 hdecls decl hdecl
    unfold validateSymtabs at hsymtabs
    simp only [Bool.and_eq_true, List.all_eq_true] at hsymtabs
    have hvalid := hsymtabs.1.1.1.2 e he
    unfold valueIsvalid at hvalid
    rw [htypes.count] at hvalid
    simp only [Bool.not_eq_true', Bool.or_eq_false_iff, decide_eq_false_iff_not] at hvalid
    omega

end Sepol
