import Sepol.LinkAccepted
import Sepol.LinkConvert
import Sepol.LinkRun

/-!
# Assertions of the linker

The callbacks assert that the maps have entries and that an alias that is there already is there for the same type.
For the own sets of a module that was read and validated the maps have all entries.  So an assertion fails only at an
alias that another module has for another type, or that has an entry of its own, and at a set of a declaration, which
is not validated.
-/

namespace Sepol

open Outcome CallRun

variable {rules : LinkRules} {st st' : LinkState} {tabs : LinkSymtabs} {policy base : LinkPolicy}
  {mods : List LinkPolicy}
  {mls isBase : Bool}

/-! ### Positive values -/

private theorem Symtab.positive_map {α : Type} {symtab : Symtab α} {f : α → Nat} (h : ∀ e ∈ symtab.table, f e.2 ≠ 0) :
    (symtab.map f).Positive := by
  intro id v hv
  rw [hashtabSearch_map] at hv
  obtain ⟨a, ha, rfl⟩ := Option.map_eq_some_iff.1 hv
  obtain ⟨e, he, rfl⟩ := Option.map_eq_some_iff.1 ha
  exact h e (List.mem_of_find?_eq_some he)

/-- The symbols of an accepted policy have positive values. -/
theorem LinkPolicy.Accepted.positive (h : policy.Accepted isBase) : policy.toLinkSymtabs.Positive policy.mls := by
  obtain ⟨flavors, _, _, _, _, _, _, _, _, hentries⟩ := h.flavors
  have hchecked := LinkPolicy.checked hentries
  intro k hk
  cases k with
  | commons =>
    intro id v hv
    cases hv
  | classes =>
    refine Symtab.positive_map fun e he => ?_
    have hclass := hchecked.classes e he
    simp only [validateClassDatum, Bool.and_eq_true] at hclass
    exact validateValue_ne_zero hclass.1.1.1.1.1.1.1.1.1.1.2
  | roles =>
    refine Symtab.positive_map fun e he => ?_
    have hrole := hchecked.roles e he
    simp only [validateRoleDatum, Bool.and_eq_true] at hrole
    exact validateValue_ne_zero hrole.1.1.1.1.1
  | types =>
    refine Symtab.positive_map fun e he => ?_
    have htype := hchecked.types e he
    unfold validateTypeDatum at htype
    split at htype
    · cases htype
    · rename_i hvalue
      exact validateValue_ne_zero (by simpa using hvalue)
  | users =>
    refine Symtab.positive_map fun e he => ?_
    have huser := hchecked.users e he
    simp only [validateUserDatum, Bool.and_eq_true] at huser
    exact validateValue_ne_zero huser.1.1.1.1.1.1
  | bools =>
    refine Symtab.positive_map fun e he => ?_
    have hbool := hchecked.bools e he
    simp only [validateBoolDatum, Bool.and_eq_true] at hbool
    exact validateValue_ne_zero hbool.1.1
  | levels =>
    refine Symtab.positive_map fun e he => ?_
    have hlevel := hchecked.levels (hk rfl) e he
    unfold validateLevelDatum at hlevel
    split at hlevel
    · cases hlevel
    · split at hlevel
      · cases hlevel
      · rename_i _ hvalid
        simp only [validateMlsLevel, Bool.not_eq_true', Bool.and_eq_false_iff, not_or, Bool.not_eq_false] at hvalid
        exact validateValue_ne_zero hvalid.1
  | cats =>
    refine Symtab.positive_map fun e he => ?_
    have hcat := hchecked.cats e he
    simp only [valueIsvalid, Bool.not_eq_true', Bool.or_eq_false_iff, decide_eq_false_iff_not] at hcat
    exact hcat.1

/-! ### Sets with all entries -/

private theorem not_meetsHole {l : List (Option Nat)} (h : ∀ y ∈ l, y ≠ some 0) : ¬ MeetsHole l := by
  intro ⟨pre, post, heq, _⟩
  refine h (some 0) ?_ rfl
  rw [heq]
  exact List.mem_append_right _ List.mem_cons_self

private theorem bitEntries_ne_zero {k : SymNum} {e : Ebitmap} (h : ∀ i ∈ ebitmapPositiveBits e, st.Mapped k (i + 1)) :
    ∀ y ∈ bitEntries (st.mod.map k) e, y ≠ some 0 := by
  intro y hy heq
  obtain ⟨i, hi, rfl⟩ := List.mem_map.1 hy
  obtain ⟨v, hv, hentry⟩ := h i hi
  rw [mapEntry, if_neg (Nat.succ_ne_zero i), Nat.add_sub_cancel] at hentry
  rw [bitEntry, hentry] at heq
  exact hv (Option.some.inj (Option.filter_eq_some_iff.1 heq).1)

private theorem mapEntry_ne_zero {k : SymNum} {value : Nat} (h : st.Mapped k value) :
    mapEntry (st.mod.map k) value ≠ some 0 := by
  obtain ⟨v, hv, hentry⟩ := h
  rw [hentry]
  exact fun heq => hv (Option.some.inj heq)

/-- The state within the copying of a module. -/
structure LinkState.Within (policy : LinkPolicy) (st : LinkState) : Prop where
  cur : st.cur = policy
  length : ∀ k, (st.mod.map k).length = (policy.values k).nprim
  positive : st.base.Positive policy.mls

theorem LinkState.Steps.within (h : st.Steps st') (hwithin : st.Within policy) : st'.Within policy where
  cur := h.frame.cur.trans hwithin.cur
  length k := (h.length k).trans (hwithin.length k)
  positive := h.positive hwithin.positive

section

variable (hcur : st.cur = policy) (hcopied : st.Copied policy.mls policy.toLinkSymtabs)

include hcopied in
theorem LinkPolicy.Named.mapped {k : SymNum} (hk : k = .levels → policy.mls = true) {value : Nat}
    (h : policy.Named k value) : st.Mapped k value := by
  obtain ⟨id, hid⟩ := h
  exact hcopied.mapped k hk (id, value) hid

include hcopied in
private theorem LinkPolicy.Named.mapped_of_ne {k : SymNum} {value : Nat} (h : policy.Named k value)
    (hk : k ≠ .levels) : st.Mapped k value :=
  h.mapped hcopied fun heq => absurd heq hk

include hcur hcopied in
private theorem levelEntries_ne_zero {level : MlsSemanticLevel} (h : policy.LevelNamed level) :
    ∀ y ∈ levelEntries st level, y ≠ some 0 := by
  intro y hy
  unfold levelEntries at hy
  by_cases hskip : st.cur.mls = false ∨ level.sens = 0
  · rw [if_pos hskip] at hy
    exact absurd hy List.not_mem_nil
  · rw [if_neg hskip] at hy
    rw [not_or, hcur, Bool.not_eq_false] at hskip
    obtain ⟨hsens, hcats⟩ := h hskip.2
    rcases List.mem_cons.1 hy with rfl | hy
    · exact mapEntry_ne_zero (hsens.mapped hcopied fun _ => hskip.1)
    · obtain ⟨cat, hcat, hy⟩ := List.mem_flatMap.1 hy
      have hboth := hcats cat hcat
      simp only [List.mem_cons, List.not_mem_nil, or_false] at hy
      rcases hy with rfl | rfl
      · exact mapEntry_ne_zero (hboth.1.mapped_of_ne hcopied (by decide))
      · exact mapEntry_ne_zero (hboth.2.mapped_of_ne hcopied (by decide))

variable (hacc : policy.Accepted isBase)

include hcopied hacc in
private theorem linkRoleFixCallback_own {e : CString × KernelRole} (he : e ∈ policy.pRoles.table) :
    linkRoleFixCallback st e ≠ .error .aborted := by
  obtain ⟨destRole, hdest⟩ := Option.isSome_iff_exists.1 (hcopied.roles e he)
  obtain ⟨hdominates, htypes, hnegset, hroles⟩ := hacc.role_named he
  rw [Ne, (linkRoleFixCallback_converts hdest).aborts]
  refine not_meetsHole fun y hy => ?_
  simp only [roleEntries, typeSetEntries, List.mem_append] at hy
  rcases hy with hy | (hy | hy) | hy
  · exact bitEntries_ne_zero (fun i hi => (hdominates i hi).mapped_of_ne hcopied (by decide)) y hy
  · exact bitEntries_ne_zero (fun i hi => (htypes i hi).mapped_of_ne hcopied (by decide)) y hy
  · exact bitEntries_ne_zero (fun i hi => (hnegset i hi).mapped_of_ne hcopied (by decide)) y hy
  · by_cases hattrib : e.2.flavor = 1
    · rw [if_pos hattrib] at hy
      exact bitEntries_ne_zero (fun i hi => (hroles i hi).mapped_of_ne hcopied (by decide)) y hy
    · rw [if_neg hattrib] at hy
      exact absurd hy List.not_mem_nil

include hcopied hacc in
private theorem linkTypeFixCallback_own {e : CString × KernelType} (he : e ∈ policy.pTypes.table) :
    linkTypeFixCallback st e ≠ .error .aborted := by
  rw [Ne, (linkTypeFixCallback_converts fun hattrib => hcopied.types e he hattrib).aborts]
  refine not_meetsHole fun y hy => ?_
  unfold typeEntries at hy
  by_cases hattrib : e.2.flavor ≠ .attrib
  · rw [if_pos hattrib] at hy
    exact absurd hy List.not_mem_nil
  · rw [if_neg hattrib] at hy
    have hnamed := hacc.type_named he (not_not.1 hattrib)
    exact bitEntries_ne_zero (fun i hi => (hnamed i hi).mapped_of_ne hcopied (by decide)) y hy

include hcur hcopied hacc in
private theorem linkUserFixCallback_own {e : CString × KernelUser} (he : e ∈ policy.pUsers.table) :
    linkUserFixCallback st e ≠ .error .aborted := by
  obtain ⟨newUser, hnew⟩ := Option.isSome_iff_exists.1 (hcopied.users e he)
  obtain ⟨hroles, hlevel0, hlevel1, hdefault⟩ := hacc.user_named he
  rw [Ne, (linkUserFixCallback_converts hnew).aborts]
  refine not_meetsHole fun y hy => ?_
  simp only [userEntries, List.mem_append] at hy
  rcases hy with hy | (hy | hy) | hy
  · exact bitEntries_ne_zero (fun i hi => (hroles i hi).mapped_of_ne hcopied (by decide)) y hy
  · exact levelEntries_ne_zero hcur hcopied hlevel0 y hy
  · exact levelEntries_ne_zero hcur hcopied hlevel1 y hy
  · exact levelEntries_ne_zero hcur hcopied hdefault y hy

end

/-! ### Calls -/

/-- The state before a call whose assertion fails: an alias does not agree with the one that the base has, or a set of
a declaration has a value that the maps have no entry for. -/
def LinkState.Clashes (st : LinkState) : LinkCall → Prop
  | .copyAlias e => e.2.IsAlias ∧ ¬ st.AliasAgrees e
  | .fixRole e => st.destDecl.isSome ∧ MeetsHole (roleEntries st.mod e.2)
  | .fixType e => st.destDecl.isSome ∧ MeetsHole (typeEntries st.mod e.2)
  | .fixUser e => st.destDecl.isSome ∧ MeetsHole (userEntries st e.2)
  | _ => False

/-- A callback for symbols or bounds. -/
private theorem copyCalls_aborts (hwithin : st.Within policy) (hacc : policy.Accepted isBase)
    (htabs : tabs = policy.toLinkSymtabs ∨ ∃ decl ∈ policy.decls, tabs = decl.toLinkSymtabs) {call : LinkCall}
    (hcall : call ∈ copyCalls tabs) : st.call rules call = .error .aborted ↔ st.Clashes call := by
  have hnot : ∀ {post : LinkState → Prop} {x : Except CopyError LinkState}, Outcome.Ensures (· ≠ .aborted) post x →
      (x = .error .aborted ↔ False) := fun hspec => iff_false_intro (hspec.ne_error fun h => h rfl)
  simp only [copyCalls, List.mem_append, List.mem_map] at hcall
  rcases hcall with (((((((⟨e, he, rfl⟩ | ⟨e, he, rfl⟩) | ⟨e, he, rfl⟩) | ⟨e, he, rfl⟩) | ⟨e, he, rfl⟩) |
      ⟨e, he, rfl⟩) |
    ⟨e, he, rfl⟩) | ⟨e, he, rfl⟩) | ⟨e, he, rfl⟩
  · exact hnot (linkClassCopyCallback_cases st e)
  · exact hnot (linkRoleCopyCallback_spec st e)
  · exact hnot (linkTypeCopyCallback_spec st e)
  · exact hnot (linkUserCopyCallback_spec st e)
  · exact hnot (linkBoolCopyCallback_spec st e)
  · exact hnot (linkSensCopyCallback_spec st e)
  · exact hnot (linkCatCopyCallback_spec st e)
  · exact hnot (linkTypeBoundsCopyCallback_spec st e)
  · refine linkAliasCopyCallback_aborts ?_ ?_
    · rw [hwithin.length .types, hwithin.cur]
      rfl
    · rw [hwithin.cur]
      exact hacc.type_value htabs he

private theorem fixCalls_own_aborts (hcur : st.cur = policy) (hcopied : st.Copied policy.mls policy.toLinkSymtabs)
    (hacc : policy.Accepted isBase) (hdest : st.destDecl = none) {call : LinkCall}
    (hcall : call ∈ fixCalls policy.toLinkSymtabs) : st.call rules call = .error .aborted ↔ st.Clashes call := by
  have hnone : st.destDecl.isSome = false := by
    rw [hdest]
    rfl
  simp only [fixCalls, List.mem_append, List.mem_map] at hcall
  rcases hcall with (((⟨e, he, rfl⟩ | ⟨e, he, rfl⟩) | ⟨e, he, rfl⟩) | ⟨e, he, rfl⟩) | ⟨e, he, rfl⟩
  · exact iff_false_intro ((linkRoleBoundsCopyCallback_spec st e).ne_error fun h => h rfl)
  · exact iff_false_intro ((linkUserBoundsCopyCallback_spec st e).ne_error fun h => h rfl)
  · have hok := linkRoleFixCallback_own hcopied hacc he
    simp [LinkState.call, LinkState.Clashes, hok, hnone]
  · have hok := linkTypeFixCallback_own hcopied hacc he
    simp [LinkState.call, LinkState.Clashes, hok, hnone]
  · have hok := linkUserFixCallback_own hcur hcopied hacc he
    simp [LinkState.call, LinkState.Clashes, hok, hnone]

private theorem fixCalls_decl_aborts (hcopied : st.Copied mls tabs) (hdest : st.destDecl.isSome) {call : LinkCall}
    (hcall : call ∈ fixCalls tabs) : st.call rules call = .error .aborted ↔ st.Clashes call := by
  simp only [fixCalls, List.mem_append, List.mem_map] at hcall
  rcases hcall with (((⟨e, he, rfl⟩ | ⟨e, he, rfl⟩) | ⟨e, he, rfl⟩) | ⟨e, he, rfl⟩) | ⟨e, he, rfl⟩
  · exact iff_false_intro ((linkRoleBoundsCopyCallback_spec st e).ne_error fun h => h rfl)
  · exact iff_false_intro ((linkUserBoundsCopyCallback_spec st e).ne_error fun h => h rfl)
  · obtain ⟨destRole, hfound⟩ := Option.isSome_iff_exists.1 (hcopied.roles e he)
    exact (linkRoleFixCallback_converts hfound).aborts.trans (and_iff_right hdest).symm
  · have hconverts : Converts (linkTypeFixCallback st e) (typeEntries st.mod e.2) :=
      linkTypeFixCallback_converts fun hattrib => hcopied.types e he hattrib
    exact hconverts.aborts.trans (and_iff_right hdest).symm
  · obtain ⟨newUser, hfound⟩ := Option.isSome_iff_exists.1 (hcopied.users e he)
    exact (linkUserFixCallback_converts hfound).aborts.trans (and_iff_right hdest).symm

private theorem steps_of_reached {calls : List LinkCall} (hcalls : ∀ call ∈ calls, call.IsIdentifier)
    {call : LinkCall} (h : Reached (LinkState.call rules) calls st call st') : st.Steps st' := by
  refine (inv_of_reached (p := st.Steps) (.refl st) fun c t t' hreach ht hstep => ?_).1 call st' h
  exact ht.trans (LinkState.call_steps (hcalls c hreach.mem) hstep)

theorem steps_of_foldlM {calls : List LinkCall} (hcalls : ∀ call ∈ calls, call.IsIdentifier)
    (h : calls.foldlM (LinkState.call rules) st = .ok st') : st.Steps st' := by
  refine inv_of_foldlM (p := st.Steps) (.refl st) h fun c hc t t' ht hstep => ?_
  exact ht.trans (LinkState.call_steps (hcalls c hc) hstep)

/-- The callbacks for the own tables of the module, which no declaration is there for, or for those of a declaration.
-/
theorem identifierCalls_aborts (hwithin : st.Within policy) (hacc : policy.Accepted isBase)
    (htabs : tabs = policy.toLinkSymtabs ∧ st.destDecl = none ∨
      (∃ decl ∈ policy.decls, tabs = decl.toLinkSymtabs) ∧ st.destDecl.isSome) {call : LinkCall}
    (h : Reached (LinkState.call rules) (identifierCalls tabs) st call st') :
    st'.call rules call = .error .aborted ↔ st'.Clashes call := by
  have hsteps := steps_of_reached (fun _ => isIdentifier_of_mem) h
  have hwithin' := hsteps.within hwithin
  rw [identifierCalls, reached_append] at h
  rcases h with h | ⟨st1, hcopy, h⟩
  · exact copyCalls_aborts hwithin' hacc (htabs.imp And.left And.left) h.mem
  · have hmem := h.mem
    have hfix : ∀ c ∈ fixCalls tabs, c.IsIdentifier := fun c hc => isIdentifier_of_mem (List.mem_append_right _ hc)
    have hsteps1 := steps_of_foldlM (fun _ => isIdentifier_of_mem_copyCalls) hcopy
    have hcopied := copied_of_copyCalls hcopy hwithin.positive
    have hcopied' := (steps_of_reached hfix h).copied (hsteps1.positive hwithin.positive) hcopied
    rcases htabs with ⟨rfl, hdest⟩ | ⟨_, hdest⟩
    · refine fixCalls_own_aborts hwithin'.cur hcopied' hacc ?_ hmem
      rw [← Option.isNone_iff_eq_none, ← Option.not_isSome, hsteps.frame.decl, hdest]
      rfl
    · refine fixCalls_decl_aborts hcopied' ?_ hmem
      rw [hsteps.frame.decl]
      exact hdest

end Sepol
