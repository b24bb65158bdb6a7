import Sepol.LinkFixed

/-!
# Linking modules into a base

`hashtab_map` calls a callback for every entry of a table until one of them fails, so that the linker runs through a
list of calls: those for the own tables of a module, those for each of its declarations, and those for its scopes.
What it does with rules touches neither the symbol tables nor the maps nor the scopes; it is a parameter.
-/

namespace Sepol

/-- What the linker does with the rules of a policy: whether all conditional expressions are normalized, and whether
the rules and the scope indices of a declaration are copied. -/
structure LinkRules where
  condNormalize : LinkPolicy → Bool
  copyRules : LinkState → LinkDecl → Bool
  copyScopeIndex : LinkState → LinkDecl → Bool

/-! ### Scopes -/

/-- The ids of the declarations of a module are added to a list as those of the base. -/
def addDeclIds (avdeclMap : List Nat) (ids : List Nat) : List Nat → Except CopyError (List Nat)
  | [] => .ok ids
  | declId :: declIds => do
    let newId ← orError .undefined avdeclMap[declId]?
    let ids ← orError .failed (addIToA newId ids)
    addDeclIds avdeclMap ids declIds

/-- The record of a symbol in the base, which is a new one for a symbol without one. -/
def linkFindScope (table : List (CString × ScopeDatum)) (id : CString) :
    Except CopyError (List (CString × ScopeDatum) × ScopeDatum) :=
  match hashtabSearch table id with
  | some baseScope => .ok (table, baseScope)
  | none => do
    let table ← symtabInsertOr table id ⟨.req, []⟩
    return (table, ⟨.req, []⟩)

/-- The record of a symbol in the base after a module that requires or declares it. -/
def mergeScope (k : SymNum) (avdeclMap : List Nat) (baseScope scope : ScopeDatum) : Except CopyError ScopeDatum :=
  match baseScope.scope, scope.scope with
  | .req, .decl => do
    let declIds ← addDeclIds avdeclMap [] scope.declIds
    return ⟨.decl, declIds⟩
  | .decl, .req => .ok baseScope
  | .req, .req => do
    let declIds ← addDeclIds avdeclMap baseScope.declIds scope.declIds
    return ⟨.req, declIds⟩
  | .decl, .decl => do
    -- only roles and users may be multiply declared
    require .failed (k = .roles ∨ k = .users)
    let declIds ← addDeclIds avdeclMap baseScope.declIds scope.declIds
    return ⟨.decl, declIds⟩

def scopeCopyCallback (k : SymNum) (st : LinkState) (e : CString × ScopeDatum) : Except CopyError LinkState := do
  let found ← linkFindScope (st.scope k) e.1
  let baseScope ← mergeScope k st.avdeclMap found.2 e.2
  return { st with scope := Function.update st.scope k (hashtabModify found.1 e.1 fun _ => baseScope) }

/-! ### Calls -/

/-- A call of a callback, or another step of `copy_module` or `copy_avrule_block`. -/
inductive LinkCall where
  | beginModule (policy : LinkPolicy)
  | endModule
  | beginDecl (decl : LinkDecl)
  | copyRules (decl : LinkDecl)
  | copyScopeIndex (decl : LinkDecl)
  | copyClass (e : CString × KernelClass)
  | copyRole (e : CString × KernelRole)
  | copyType (e : CString × KernelType)
  | copyUser (e : CString × KernelUser)
  | copyBool (e : CString × KernelBool)
  | copySens (e : CString × KernelLevel)
  | copyCat (e : CString × KernelCat)
  | copyTypeBounds (e : CString × KernelType)
  | copyAlias (e : CString × KernelType)
  | copyRoleBounds (e : CString × KernelRole)
  | copyUserBounds (e : CString × KernelUser)
  | fixRole (e : CString × KernelRole)
  | fixType (e : CString × KernelType)
  | fixUser (e : CString × KernelUser)
  | copyScope (k : SymNum) (e : CString × ScopeDatum)

def LinkState.beginModule (st : LinkState) (policy : LinkPolicy) : LinkState :=
  { st with
    destDecl := none
    cur := policy
    mod := policy.prepare
    avdeclMap := List.replicate policy.numDecls 0 }

/-- The declarations of the module are entered in a table of their ids in the base. -/
def LinkState.beginDecl (st : LinkState) (decl : LinkDecl) : LinkState :=
  { st with destDecl := some .empty, avdeclMap := st.avdeclMap.set decl.declId st.nextDeclId }

/-- The declaration that was copied last is put to the others. -/
def LinkState.endDecl (st : LinkState) : LinkState :=
  { st with decls := st.decls ++ st.destDecl.toList, destDecl := none, nextDeclId := st.nextDeclId + 1 }

def LinkState.endModule (st : LinkState) : LinkState := { st with modules := st.modules ++ [(st.cur, st.mod)] }

def LinkState.call (rules : LinkRules) (st : LinkState) : LinkCall → Except CopyError LinkState
  | .beginModule policy => .ok (st.beginModule policy)
  | .endModule => .ok st.endModule
  | .beginDecl decl => .ok (st.beginDecl decl)
  | .copyRules decl => if rules.copyRules st decl then .ok st else .error .failed
  | .copyScopeIndex decl => if rules.copyScopeIndex st decl then .ok st.endDecl else .error .failed
  | .copyClass e => linkClassCopyCallback st e
  | .copyRole e => linkRoleCopyCallback st e
  | .copyType e => linkTypeCopyCallback st e
  | .copyUser e => linkUserCopyCallback st e
  | .copyBool e => linkBoolCopyCallback st e
  | .copySens e => linkSensCopyCallback st e
  | .copyCat e => linkCatCopyCallback st e
  | .copyTypeBounds e => linkTypeBoundsCopyCallback st e
  | .copyAlias e => linkAliasCopyCallback st e
  | .copyRoleBounds e => linkRoleBoundsCopyCallback st e
  | .copyUserBounds e => linkUserBoundsCopyCallback st e
  | .fixRole e => linkRoleFixCallback st e
  | .fixType e => linkTypeFixCallback st e
  | .fixUser e => linkUserFixCallback st e
  | .copyScope k e => scopeCopyCallback k st e

/-- A call within `link_modules`.  When the copy of a declaration fails, `copy_avrule_block` destroys the new
declaration twice, by itself and as one of its block. -/
def LinkState.step (rules : LinkRules) (st : LinkState) (call : LinkCall) : Except CopyError LinkState :=
  match st.call rules call with
  | .error .failed => .error (if st.destDecl.isSome then .undefined else .failed)
  | result => result

/-- The calls of `copy_identifiers` up to the aliases. -/
def copyCalls (tabs : LinkSymtabs) : List LinkCall :=
  tabs.pClasses.table.map .copyClass ++ tabs.pRoles.table.map .copyRole ++ tabs.pTypes.table.map .copyType ++
    tabs.pUsers.table.map .copyUser ++ tabs.pBools.table.map .copyBool ++ tabs.pLevels.table.map .copySens ++
    tabs.pCats.table.map .copyCat ++ tabs.pTypes.table.map .copyTypeBounds ++ tabs.pTypes.table.map .copyAlias

/-- The calls of `copy_identifiers` after the aliases. -/
def fixCalls (tabs : LinkSymtabs) : List LinkCall :=
  tabs.pRoles.table.map .copyRoleBounds ++ tabs.pUsers.table.map .copyUserBounds ++
    tabs.pRoles.table.map .fixRole ++ tabs.pTypes.table.map .fixType ++ tabs.pUsers.table.map .fixUser

/-- `copy_identifiers`. -/
def identifierCalls (tabs : LinkSymtabs) : List LinkCall := copyCalls tabs ++ fixCalls tabs

/-- `copy_avrule_decl`; the scope indices come after the identifiers. -/
def declCalls (decl : LinkDecl) : List LinkCall :=
  .beginDecl decl :: .copyRules decl :: identifierCalls decl.toLinkSymtabs ++ [.copyScopeIndex decl]

/-- `copy_module`: its own identifiers, then its declarations, and at last its scopes. -/
def moduleCalls (policy : LinkPolicy) : List LinkCall :=
  .beginModule policy :: identifierCalls policy.toLinkSymtabs ++ policy.decls.flatMap declCalls ++
    symNums.flatMap (fun k => (policy.scope k).map (.copyScope k)) ++ [.endModule]

end Sepol

/-!
## Scopes under the linker

The scopes of a module are copied after its identifiers and rules.  A symbol is declared in the base afterwards if it
was before or the module declares it; a second declaration is an error, unless it is one of a role or a user.
-/

namespace Sepol

open Outcome

private theorem hashtabSearch_append {α : Type} {table : List (CString × α)} {id id' : CString} {datum v : α}
    (h : hashtabSearch (table ++ [(id, datum)]) id' = some v) :
    hashtabSearch table id' = some v ∨ id' = id ∧ v = datum := by
  unfold hashtabSearch at h ⊢
  rw [List.find?_append, List.find?_singleton] at h
  cases hfind : table.find? (fun e => e.1 = id') with
  | some e =>
    rw [hfind] at h
    exact Or.inl h
  | none =>
    rw [hfind, Option.none_or] at h
    right
    by_cases hid : id = id'
    · simp only [hid, decide_true, if_true, Option.map_some] at h
      exact ⟨hid.symm, (Option.some.inj h).symm⟩
    · simp only [hid, decide_false] at h
      cases h

private theorem addDeclIds_spec (avdeclMap ids declIds : List Nat) :
    Ensures (· ≠ .aborted) (fun _ => True) (addDeclIds avdeclMap ids declIds) := by
  induction declIds generalizing ids with
  | nil => exact trivial
  | cons declId declIds ih =>
    refine (orError_spec CopyError.noConfusion _).bind fun newId _ => ?_
    exact (orError_spec CopyError.noConfusion _).bind fun ids' _ => ih ids'

/-- The record says that the symbol is declared if one of the two does; two declarations are allowed for roles and
users. -/
private theorem mergeScope_spec (k : SymNum) (avdeclMap : List Nat) (baseScope scope : ScopeDatum) :
    Ensures (· ≠ .aborted)
      (fun merged => (merged.scope = .decl ↔ baseScope.scope = .decl ∨ scope.scope = .decl) ∧
        (baseScope.scope = .decl → scope.scope = .decl → k = .roles ∨ k = .users))
      (mergeScope k avdeclMap baseScope scope) := by
  have hadd := fun ids => addDeclIds_spec avdeclMap ids scope.declIds
  unfold mergeScope
  cases hbase : baseScope.scope with
  | req =>
    cases hscope : scope.scope with
    | req => exact (hadd _).bind fun _ _ => ⟨by simp, by simp⟩
    | decl => exact (hadd _).bind fun _ _ => ⟨by simp, by simp⟩
  | decl =>
    cases hscope : scope.scope with
    | req => exact ⟨by simp [hbase], by simp⟩
    | decl =>
      refine (require_spec CopyError.noConfusion).bind fun _ hmultiple => ?_
      exact (hadd _).bind fun _ _ => ⟨by simp, fun _ _ => hmultiple⟩

theorem linkFindScope_spec (table : List (CString × ScopeDatum)) (id : CString) :
    Ensures (· ≠ .aborted)
      (fun found => hashtabSearch found.1 id = some found.2 ∧
        (found.1 = table ∨ hashtabSearch table id = none ∧ found.2 = ⟨.req, []⟩ ∧ found.1 = table ++ [(id, found.2)]))
      (linkFindScope table id) := by
  unfold linkFindScope
  cases hfind : hashtabSearch table id with
  | some baseScope => exact ⟨hfind, Or.inl rfl⟩
  | none =>
    refine (symtabInsertOr_spec ..).bind fun table' ⟨htable, hnone⟩ => ?_
    subst htable
    exact ⟨hashtabSearch_append_new hnone, Or.inr ⟨rfl, rfl, rfl⟩⟩

/-- What the record of a symbol says about its declaration. -/
def Declared (table : List (CString × ScopeDatum)) (id : CString) : Prop :=
  ∃ scope, hashtabSearch table id = some scope ∧ scope.scope = .decl

theorem declared_of_linkFindScope {table : List (CString × ScopeDatum)} {id id' : CString}
    {found : List (CString × ScopeDatum) × ScopeDatum} (h : found.1 = table ∨
      hashtabSearch table id = none ∧ found.2 = ⟨.req, []⟩ ∧ found.1 = table ++ [(id, found.2)]) :
    Declared found.1 id' ↔ Declared table id' := by
  rcases h with h | ⟨hnone, hnew, htable⟩
  · rw [h]
  · rw [htable]
    constructor
    · intro ⟨scope, hscope, hdecl⟩
      rcases hashtabSearch_append hscope with hscope | ⟨_, rfl⟩
      · exact ⟨scope, hscope, hdecl⟩
      · rw [hnew] at hdecl
        cases hdecl
    · intro ⟨scope, hscope, hdecl⟩
      refine ⟨scope, ?_, hdecl⟩
      unfold hashtabSearch at hscope ⊢
      obtain ⟨e, he, rfl⟩ := Option.map_eq_some_iff.1 hscope
      rw [List.find?_append, he]
      rfl

/-- The scope of one symbol is copied: it is declared afterwards if it was before or the module declares it. -/
theorem scopeCopyCallback_spec (k : SymNum) (st : LinkState) (e : CString × ScopeDatum) :
    Ensures (· ≠ .aborted)
      (fun st' => st' = { st with scope := st'.scope } ∧
        (∀ k' id, Declared (st'.scope k') id ↔
          Declared (st.scope k') id ∨ (k' = k ∧ id = e.1) ∧ e.2.scope = .decl) ∧
        (Declared (st.scope k) e.1 → e.2.scope = .decl → k = .roles ∨ k = .users))
      (scopeCopyCallback k st e) := by
  refine (linkFindScope_spec (st.scope k) e.1).bind fun found ⟨hfound, hcases⟩ => ?_
  refine (mergeScope_spec k st.avdeclMap found.2 e.2).bind fun merged ⟨hmerged, hmultiple⟩ => ?_
  have hdeclared : ∀ id, Declared found.1 id ↔ Declared (st.scope k) id := fun _ => declared_of_linkFindScope hcases
  refine ⟨rfl, fun k' id => ?_, fun ⟨scope, hscope, hdecl⟩ => hmultiple ?_⟩
  · show Declared (Function.update st.scope k _ k') id ↔ _
    by_cases hk : k' = k
    · subst hk
      rw [Function.update_self, ← hdeclared, Declared, Declared, hashtabSearch_modify]
      by_cases hid : id = e.1
      · subst hid
        simp [hfound, hmerged]
      · simp [hid]
    · rw [Function.update_of_ne hk]
      simp [hk]
  · rcases hcases with htable | ⟨hnone, _⟩
    · rw [htable, hscope] at hfound
      rw [← Option.some.inj hfound]
      exact hdecl
    · rw [hnone] at hscope
      cases hscope

end Sepol

/-!
## Runs of the linker

A call of a callback leaves the symbols of the base their values, may add symbols with the next values, and writes
only values of the base to the maps of the module.  When the symbols of a table are copied, the map has an entry for
each of them.
-/

namespace Sepol

open Outcome CallRun

variable {rules : LinkRules} {st st' st1 : LinkState} {tabs : LinkSymtabs} {mls : Bool}

/-! ### Positive values -/

/-- No symbol has the value 0. -/
def Symtab.Positive (symtab : Symtab Nat) : Prop := ∀ id v, hashtabSearch symtab.table id = some v → v ≠ 0

theorem Symtab.Grows.positive {s s' : Symtab Nat} (h : s.Grows s') (hs : s.Positive) : s'.Positive := by
  cases h with
  | same => exact hs
  | one id hnone =>
    intro id' v hv
    rcases hashtabSearch_append hv with hv | ⟨_, rfl⟩
    · exact hs id' v hv
    · omega

private theorem Symtab.positive_of_grows {s s' : Symtab Nat} (h : Relation.ReflTransGen Symtab.Grows s s')
    (hs : s.Positive) : s'.Positive := by
  induction h with
  | refl => exact hs
  | tail _ hgrows ih => exact hgrows.positive ih

/-- The symbols of the base have positive values; sensitivities need not where there is no MLS. -/
def LinkSymtabs.Positive (mls : Bool) (tabs : LinkSymtabs) : Prop :=
  ∀ k, (k = .levels → mls = true) → (tabs.values k).Positive

/-! ### Steps -/

/-- The map of the module has an entry for a value. -/
def LinkState.Mapped (st : LinkState) (k : SymNum) (value : Nat) : Prop :=
  ∃ v ≠ 0, mapEntry (st.mod.map k) value = some v

/-- What the callbacks do to values and maps. -/
structure LinkState.Steps (st st' : LinkState) : Prop where
  frame : st.Frame st'
  values : ∀ k, Relation.ReflTransGen Symtab.Grows (st.base.values k) (st'.base.values k)
  length : ∀ k, (st'.mod.map k).length = (st.mod.map k).length
  mapped : ∀ mls, st.base.Positive mls → ∀ k, (k = .levels → mls = true) → ∀ value, st.Mapped k value →
    st'.Mapped k value

theorem LinkState.Steps.positive (h : st.Steps st') (hpos : st.base.Positive mls) : st'.base.Positive mls :=
  fun k hk => Symtab.positive_of_grows (h.values k) (hpos k hk)

theorem LinkState.Steps.refl (st : LinkState) : st.Steps st :=
  ⟨(LinkState.Keeps.refl st).frame, fun _ => .refl, fun _ => rfl, fun _ _ _ _ _ h => h⟩

theorem LinkState.Steps.trans (h : st.Steps st1) (h' : st1.Steps st') : st.Steps st' where
  frame := h.frame.trans h'.frame
  values k := (h.values k).trans (h'.values k)
  length k := (h'.length k).trans (h.length k)
  mapped mls hpos k hk value hmapped := h'.mapped mls (h.positive hpos) k hk value
    (h.mapped mls hpos k hk value hmapped)

theorem LinkState.Keeps.steps (h : st.Keeps st') : st.Steps st' := by
  refine ⟨h.frame, fun k => ?_, fun k => by rw [h.mod], fun mls _ k _ value hmapped => ?_⟩
  · rw [h.values k]
  · rwa [LinkState.Mapped, h.mod]

/-- A positive value was written. -/
theorem LinkState.Writes.steps {k : SymNum} {value v : Nat} (h : st.Writes k value v st')
    (hv : ∀ mls, st.base.Positive mls → (k = .levels → mls = true) → v ≠ 0) :
    st.Steps st' ∧ mapEntry (st'.mod.map k) value = some v := by
  obtain ⟨hentry, hlength, hothers⟩ := setEntry_eq_ok h.map
  refine ⟨⟨h.frame, fun k' => ?_, fun k' => ?_, fun mls hpos k' hk' value' hmapped => ?_⟩, hentry⟩
  · by_cases hk : k' = k
    · rw [hk]
      exact .single h.grows
    · rw [h.others k' hk]
  · by_cases hk : k' = k
    · rw [hk, hlength]
    · rw [h.maps k' hk]
  · by_cases hk : k' = k
    · subst hk
      by_cases hvalue : value' = value
      · rw [hvalue]
        exact ⟨v, hv mls hpos hk', hentry⟩
      · rwa [LinkState.Mapped, hothers value' hvalue]
    · rwa [LinkState.Mapped, h.maps k' hk]

theorem LinkState.Copies.steps {k : SymNum} {id : CString} {value : Nat} (h : st.Copies k id value st') :
    st.Steps st' ∧ ∃ v, hashtabSearch (st'.base.values k).table id = some v ∧
      mapEntry (st'.mod.map k) value = some v := by
  obtain ⟨v, hv, hwrites⟩ := h
  obtain ⟨hsteps, hentry⟩ := hwrites.steps fun mls hpos hk => hwrites.grows.positive (hpos k hk) id v hv
  exact ⟨hsteps, v, hv, hentry⟩

theorem LinkState.Copies.mapped {k : SymNum} {id : CString} {value : Nat} (h : st.Copies k id value st')
    (hpos : st.base.Positive mls) (hk : k = .levels → mls = true) : st'.Mapped k value := by
  obtain ⟨hsteps, v, hv, hentry⟩ := h.steps
  exact ⟨v, hsteps.positive hpos k hk id v hv, hentry⟩

theorem LinkState.CopiesAlias.steps {e : CString × KernelType} (h : st.CopiesAlias e st') :
    st.Steps st' ∧ ∀ mls, st.base.Positive mls → st'.Mapped .types e.2.value := by
  obtain ⟨name, type, _, hsearch, hcases⟩ := h.target
  have hv : ∀ mls, st.base.Positive mls → (SymNum.types = .levels → mls = true) → type.value ≠ 0 := by
    intro mls hpos hk
    refine hpos .types hk name type.value ?_
    show hashtabSearch (st.base.pTypes.map (·.value)).table name = _
    rw [hashtabSearch_map, hsearch, Option.map_some]
  have hk : ∀ mls : Bool, SymNum.types = .levels → mls = true := fun _ heq => nomatch heq
  rcases hcases with hwrites | ⟨hkeeps, hentry⟩
  · obtain ⟨hsteps, hentry⟩ := hwrites.steps hv
    exact ⟨hsteps, fun mls hpos => ⟨_, hv mls hpos (hk mls), hentry⟩⟩
  · refine ⟨hkeeps.steps, fun mls hpos => ⟨_, hv mls hpos (hk mls), ?_⟩⟩
    rw [hkeeps.mod]
    exact hentry

theorem LinkState.CopiesPerm.steps {cls : CString} {clsValue : Nat} {e : CString × PermDatum}
    (h : st.CopiesPerm cls clsValue e st') : st.Steps st' := by
  refine ⟨h.frame, fun k => ?_, fun k => by rw [h.map], fun mls _ k _ value hmapped => ?_⟩
  · rw [h.values k]
  · rwa [LinkState.Mapped, h.map]

private theorem linkClassCopyCallback_steps {e : CString × KernelClass} (h : linkClassCopyCallback st e = .ok st') :
    st.Steps st' ∧ ∃ st1, st.Copies .classes e.1 e.2.value st1 ∧ st1.Steps st' := by
  have hspec := linkClassCopyCallback_cases st e
  rw [h] at hspec
  obtain ⟨req, st1, hfinds, hperms⟩ := hspec
  have hrest : st1.Steps st' := by
    refine inv_of_foldlM (p := st1.Steps) (.refl st1) hperms fun perm _ t t' ht hstep => ht.trans ?_
    have hperm := permissionCopyCallback_spec e.2 e.1 req t perm
    rw [hstep] at hperm
    exact hperm.1.steps
  exact ⟨hfinds.copies.steps.1.trans hrest, st1, hfinds.copies, hrest⟩

/-! ### Calls -/

/-- The calls of `copy_identifiers`. -/
def LinkCall.IsIdentifier : LinkCall → Prop
  | .beginModule _ | .endModule | .beginDecl _ | .copyRules _ | .copyScopeIndex _ | .copyScope .. => False
  | _ => True

theorem isIdentifier_of_mem {call : LinkCall} (h : call ∈ identifierCalls tabs) : call.IsIdentifier := by
  simp only [identifierCalls, copyCalls, fixCalls, List.mem_append, List.mem_map] at h
  rcases h with ((((((((h | h) | h) | h) | h) | h) | h) | h) | h) | ((((h | h) | h) | h) | h)
  all_goals
    obtain ⟨e, _, rfl⟩ := h
    trivial

theorem LinkState.call_steps {call : LinkCall} (hcall : call.IsIdentifier) (h : st.call rules call = .ok st') :
    st.Steps st' := by
  cases call with
  | beginModule | endModule | beginDecl | copyRules | copyScopeIndex | copyScope => exact hcall.elim
  | copyClass e => exact (linkClassCopyCallback_steps h).1
  | copyRole e => exact ((linkRoleCopyCallback_spec st e).of_eq_ok h).1.steps.1
  | copyType e =>
    rcases (linkTypeCopyCallback_spec st e).of_eq_ok h with ⟨_, rfl⟩ | ⟨_, hcopies, _⟩
    · exact .refl _
    · exact hcopies.steps.1
  | copyUser e => exact ((linkUserCopyCallback_spec st e).of_eq_ok h).1.steps.1
  | copyBool e => exact ((linkBoolCopyCallback_spec st e).of_eq_ok h).steps.1
  | copySens e => exact ((linkSensCopyCallback_spec st e).of_eq_ok h).steps.1
  | copyCat e => exact ((linkCatCopyCallback_spec st e).of_eq_ok h).steps.1
  | copyTypeBounds e => exact ((linkTypeBoundsCopyCallback_spec st e).of_eq_ok h).steps
  | copyAlias e =>
    rcases (linkAliasCopyCallback_spec st e).of_eq_ok h with ⟨_, rfl⟩ | ⟨_, hcopies⟩
    · exact .refl _
    · exact hcopies.steps.1
  | copyRoleBounds e => exact ((linkRoleBoundsCopyCallback_spec st e).of_eq_ok h).steps
  | copyUserBounds e => exact ((linkUserBoundsCopyCallback_spec st e).of_eq_ok h).steps
  | fixRole e => exact ((linkRoleFixCallback_spec st e).of_eq_ok h).steps
  | fixType e => exact ((linkTypeFixCallback_spec st e).of_eq_ok h).steps
  | fixUser e => exact ((linkUserFixCallback_spec st e).of_eq_ok h).steps

private theorem post_of_identifierCalls {calls : List LinkCall} (hcalls : ∀ call ∈ calls, call.IsIdentifier)
    (h : calls.foldlM (LinkState.call rules) st = .ok st') (hpos : st.base.Positive mls) {post : LinkState → Prop}
    (hkeep : ∀ t t' : LinkState, t.Steps t' → t.base.Positive mls → post t → post t') {call : LinkCall}
    (hcall : call ∈ calls)
    (hpost : ∀ t t' : LinkState, t.base.Positive mls → t.call rules call = .ok t' → post t') : post st' := by
  refine post_of_mem (p := fun t => t.base.Positive mls) h hpos ?_ ?_ hcall hpost
  · exact fun c hc t t' ht hstep => (LinkState.call_steps (hcalls c hc) hstep).positive ht
  · exact fun c hc t t' ht hstep => hkeep t t' (LinkState.call_steps (hcalls c hc) hstep) ht

/-- The symbols of a table are copied: the map has entries for them, and the sets of the symbols have a place. -/
structure LinkState.Copied (mls : Bool) (tabs : LinkSymtabs) (st : LinkState) : Prop where
  mapped : ∀ k, (k = .levels → mls = true) → ∀ e ∈ (tabs.values k).table, st.Mapped k e.2
  roles : ∀ e ∈ tabs.pRoles.table, (hashtabSearch st.destTabs.pRoles.table e.1).isSome
  types : ∀ e ∈ tabs.pTypes.table, e.2.flavor = .attrib → st.destTabs.HasAttrib e.1
  users : ∀ e ∈ tabs.pUsers.table, (hashtabSearch st.destTabs.pUsers.table e.1).isSome

theorem Symtab.Evolves.isSome {α : Type} {r : α → α → Prop} {symtab symtab' : Symtab α} (h : symtab.Evolves r symtab')
    {id : CString} (hid : (hashtabSearch symtab.table id).isSome) : (hashtabSearch symtab'.table id).isSome := by
  obtain ⟨a, ha⟩ := Option.isSome_iff_exists.1 hid
  obtain ⟨a', ha', _⟩ := h id a ha
  rw [ha']
  rfl

private theorem LinkSymtabs.Evolves.hasAttrib {tabs' : LinkSymtabs} (h : tabs.Evolves tabs') {id : CString}
    (hid : tabs.HasAttrib id) : tabs'.HasAttrib id := by
  obtain ⟨type, htype, hattrib⟩ := hid
  obtain ⟨type', htype', hsame⟩ := h.types id type htype
  exact ⟨type', htype', hsame.1 hattrib⟩

theorem LinkState.Steps.copied (h : st.Steps st') (hpos : st.base.Positive mls) (hcopied : st.Copied mls tabs) :
    st'.Copied mls tabs where
  mapped k hk e he := h.mapped mls hpos k hk e.2 (hcopied.mapped k hk e he)
  roles e he := h.frame.tabs.roles.isSome (hcopied.roles e he)
  types e he hattrib := h.frame.tabs.hasAttrib (hcopied.types e he hattrib)
  users e he := h.frame.tabs.users.isSome (hcopied.users e he)

theorem isIdentifier_of_mem_copyCalls {call : LinkCall} (h : call ∈ copyCalls tabs) : call.IsIdentifier :=
  @isIdentifier_of_mem tabs _ (List.mem_append_left _ h)

/-- After the copy callbacks the symbols of the table are copied. -/
theorem copied_of_copyCalls (h : (copyCalls tabs).foldlM (LinkState.call rules) st = .ok st')
    (hpos : st.base.Positive mls) : st'.Copied mls tabs := by
  have hpost := fun {post} hkeep {c} =>
    @post_of_identifierCalls rules st st' mls (copyCalls tabs)
      (fun _ => isIdentifier_of_mem_copyCalls) h hpos post hkeep c
  have hmapped : ∀ k, (k = .levels → mls = true) → ∀ value {c : LinkCall}, c ∈ copyCalls tabs →
      (∀ t t' : LinkState, t.base.Positive mls → t.call rules c = .ok t' → t'.Mapped k value) →
        st'.Mapped k value := by
    intro k hk value c hcall
    exact hpost (fun t t' hsteps ht hmapped => hsteps.mapped mls ht k hk value hmapped) hcall
  refine ⟨fun k hk e he => ?_, fun e he => ?_, fun e he hattrib => ?_, fun e he => ?_⟩
  · cases k with
    | commons => exact absurd he List.not_mem_nil
    | classes =>
      obtain ⟨e, hmem, rfl⟩ := List.mem_map.1 he
      refine hmapped .classes hk e.2.value (c := .copyClass e) (by simp [copyCalls, hmem]) fun t t' ht hstep => ?_
      obtain ⟨_, t1, hcopies, hrest⟩ := linkClassCopyCallback_steps hstep
      exact hrest.mapped mls (hcopies.steps.1.positive ht) .classes hk _ (hcopies.mapped ht hk)
    | roles =>
      obtain ⟨e, hmem, rfl⟩ := List.mem_map.1 he
      refine hmapped .roles hk e.2.value (c := .copyRole e) (by simp [copyCalls, hmem]) fun t t' ht hstep => ?_
      exact ((linkRoleCopyCallback_spec t e).of_eq_ok hstep).1.mapped ht hk
    | types =>
      obtain ⟨e, hmem, rfl⟩ := List.mem_map.1 he
      by_cases halias : e.2.IsAlias
      · refine hmapped .types hk e.2.value (c := .copyAlias e) (by simp [copyCalls, hmem]) fun t t' ht hstep => ?_
        rcases (linkAliasCopyCallback_spec t e).of_eq_ok hstep with ⟨hnot, _⟩ | ⟨_, hcopies⟩
        · exact absurd halias hnot
        · exact hcopies.steps.2 mls ht
      · refine hmapped .types hk e.2.value (c := .copyType e) (by simp [copyCalls, hmem]) fun t t' ht hstep => ?_
        rcases (linkTypeCopyCallback_spec t e).of_eq_ok hstep with ⟨hyes, _⟩ | ⟨_, hcopies, _⟩
        · exact absurd hyes halias
        · exact hcopies.mapped ht hk
    | users =>
      obtain ⟨e, hmem, rfl⟩ := List.mem_map.1 he
      refine hmapped .users hk e.2.value (c := .copyUser e) (by simp [copyCalls, hmem]) fun t t' ht hstep => ?_
      exact ((linkUserCopyCallback_spec t e).of_eq_ok hstep).1.mapped ht hk
    | bools =>
      obtain ⟨e, hmem, rfl⟩ := List.mem_map.1 he
      refine hmapped .bools hk e.2.value (c := .copyBool e) (by simp [copyCalls, hmem]) fun t t' ht hstep => ?_
      exact ((linkBoolCopyCallback_spec t e).of_eq_ok hstep).mapped ht hk
    | levels =>
      obtain ⟨e, hmem, rfl⟩ := List.mem_map.1 he
      refine hmapped .levels hk e.2.level.sens (c := .copySens e) (by simp [copyCalls, hmem]) fun t t' ht hstep => ?_
      exact ((linkSensCopyCallback_spec t e).of_eq_ok hstep).mapped ht hk
    | cats =>
      obtain ⟨e, hmem, rfl⟩ := List.mem_map.1 he
      refine hmapped .cats hk e.2.value (c := .copyCat e) (by simp [copyCalls, hmem]) fun t t' ht hstep => ?_
      exact ((linkCatCopyCallback_spec t e).of_eq_ok hstep).mapped ht hk
  · refine hpost (fun t t' hsteps _ hsome => hsteps.frame.tabs.roles.isSome hsome) (c := .copyRole e)
      (by simp [copyCalls, he]) fun t t' _ hstep => ?_
    exact ((linkRoleCopyCallback_spec t e).of_eq_ok hstep).2.1
  · refine hpost (fun t t' hsteps _ hhas => hsteps.frame.tabs.hasAttrib hhas) (c := .copyType e)
      (by simp [copyCalls, he]) fun t t' _ hstep => ?_
    rcases (linkTypeCopyCallback_spec t e).of_eq_ok hstep with ⟨hyes, _⟩ | ⟨_, _, hhas, _⟩
    · exact absurd hyes (by simp [KernelType.IsAlias, hattrib])
    · exact hhas hattrib
  · refine hpost (fun t t' hsteps _ hsome => hsteps.frame.tabs.users.isSome hsome) (c := .copyUser e)
      (by simp [copyCalls, he]) fun t t' _ hstep => ?_
    exact ((linkUserCopyCallback_spec t e).of_eq_ok hstep).2

/-! ### Other calls -/

/-- What the other steps leave as it is. -/
structure LinkState.KeepsBase (call : LinkCall) (st st' : LinkState) : Prop where
  base : st'.base = st.base
  mod : (∀ policy, call ≠ .beginModule policy) → st'.cur = st.cur ∧ st'.mod = st.mod
  scope : (∀ k e, call ≠ .copyScope k e) → st'.scope = st.scope

theorem LinkState.call_keepsBase {call : LinkCall} (hcall : ¬ call.IsIdentifier) (h : st.call rules call = .ok st') :
    st.KeepsBase call st' := by
  have hif : ∀ {c : Bool} {s : LinkState},
      (if c = true then .ok s else .error .failed : Except CopyError LinkState) = .ok st' → st' = s := by
    intro c s hc
    split at hc
    · exact (Except.ok.inj hc).symm
    · cases hc
  cases call with
  | beginModule policy =>
    obtain rfl := Except.ok.inj h
    exact ⟨rfl, fun hbegin => absurd rfl (hbegin policy), fun _ => rfl⟩
  | endModule =>
    obtain rfl := Except.ok.inj h
    exact ⟨rfl, fun _ => ⟨rfl, rfl⟩, fun _ => rfl⟩
  | beginDecl decl =>
    obtain rfl := Except.ok.inj h
    exact ⟨rfl, fun _ => ⟨rfl, rfl⟩, fun _ => rfl⟩
  | copyRules decl =>
    obtain rfl := hif h
    exact ⟨rfl, fun _ => ⟨rfl, rfl⟩, fun _ => rfl⟩
  | copyScopeIndex decl =>
    obtain rfl := hif h
    exact ⟨rfl, fun _ => ⟨rfl, rfl⟩, fun _ => rfl⟩
  | copyScope k e =>
    rw [((scopeCopyCallback_spec k st e).of_eq_ok h).1]
    exact ⟨rfl, fun _ => ⟨rfl, rfl⟩, fun hscope => absurd rfl (hscope k e)⟩
  | _ => exact absurd trivial hcall

theorem LinkState.call_positive {call : LinkCall} (h : st.call rules call = .ok st') (hpos : st.base.Positive mls) :
    st'.base.Positive mls := by
  by_cases hcall : call.IsIdentifier
  · exact (LinkState.call_steps hcall h).positive hpos
  · rw [(LinkState.call_keepsBase hcall h).base]
    exact hpos

end Sepol
