import Sepol.LinkFrames

/-!
# What the callbacks of the linker do

A copy callback writes the value of the symbol in the base to the map of the module; for an alias this is the value of
its type.  The other callbacks leave the maps alone.
-/

namespace Sepol

open Outcome CallRun

variable {α : Type} {symtab : Symtab α} {id : CString} {datum : α} {st st' st1 : LinkState}

/-! ### Symbols -/

/-- The tables have a role of the name that is an attribute if this one is. -/
def LinkSymtabs.HasRole (tabs : LinkSymtabs) (e : CString × KernelRole) : Prop :=
  ∃ role : KernelRole, hashtabSearch tabs.pRoles.table e.1 = some role ∧ (e.2.flavor = 1 ↔ role.flavor = 1)

theorem linkRoleCopyCallback_spec (st : LinkState) (e : CString × KernelRole) :
    Ensures (· ≠ .aborted)
      (fun st' => st.Copies .roles e.1 e.2.value st' ∧ (hashtabSearch st'.destTabs.pRoles.table e.1).isSome ∧
        st'.base.HasRole e)
      (linkRoleCopyCallback st e) := by
  have hfind := @symtabFindOrInsert_spec _ st.base.pRoles e.1 (newRole e.2.flavor) (·.value) fun _ => rfl
  refine hfind.bind fun found ⟨hgrows, hfound, hevolves, _⟩ => ?_
  refine (require_spec CopyError.noConfusion).bind fun _ hflavor => ?_
  refine (LinkState.insertDecl_adds .roles st { st.base with pRoles := found.1 }
    (fun tabs => (hashtabSearch tabs.pRoles.table e.1).isSome) hgrows (fun k hk => ?_) (fun _ => rfl)
    (st.base.evolves_roles (hevolves _ .refl)) ?_ fun decl => ?_).bind fun st1 ⟨hadds, hbase, hdest⟩ => ?_
  · cases k <;> first | rfl | exact absurd rfl hk
  · show (hashtabSearch found.1.table e.1).isSome
    rw [hfound]
    rfl
  · refine (symtabInsertDecl_spec ..).bind fun pRoles ⟨htable, hnone⟩ => ⟨decl.evolves_roles ?_, ?_⟩
    · exact Symtab.evolves_insert .refl htable
    · show (hashtabSearch pRoles.table e.1).isSome
      rw [htable, hashtabSearch_append_new hnone]
      rfl
  · refine (hadds.setMap_spec e.2.value found.2.value).mono fun st' ⟨hwrites, hbase', hdecl, _⟩ =>
      ⟨⟨_, ?_, hwrites⟩, ?_, ?_⟩
    · rw [hbase', hbase]
      show hashtabSearch (found.1.map (·.value)).table e.1 = _
      rw [hashtabSearch_map, hfound]
      rfl
    · rw [LinkState.destTabs, hbase', hdecl]
      exact hdest
    · rw [hbase', hbase]
      exact ⟨found.2, hfound, hflavor⟩

theorem linkUserCopyCallback_spec (st : LinkState) (e : CString × KernelUser) :
    Ensures (· ≠ .aborted)
      (fun st' => st.Copies .users e.1 e.2.value st' ∧ (hashtabSearch st'.destTabs.pUsers.table e.1).isSome)
      (linkUserCopyCallback st e) := by
  have hfind := @symtabFindOrInsert_spec _ st.base.pUsers e.1 newUser (·.value) fun _ => rfl
  refine hfind.bind fun found ⟨hgrows, hfound, hevolves, _⟩ => ?_
  refine (LinkState.insertDecl_adds .users st { st.base with pUsers := found.1 }
    (fun tabs => (hashtabSearch tabs.pUsers.table e.1).isSome) hgrows (fun k hk => ?_) (fun _ => rfl)
    (st.base.evolves_users (hevolves _ fun _ => trivial)) ?_ fun decl => ?_).bind fun st1 ⟨hadds, hbase, hdest⟩ => ?_
  · cases k <;> first | rfl | exact absurd rfl hk
  · show (hashtabSearch found.1.table e.1).isSome
    rw [hfound]
    rfl
  · refine (symtabInsertDecl_spec ..).bind fun pUsers ⟨htable, hnone⟩ => ⟨decl.evolves_users ?_, ?_⟩
    · exact Symtab.evolves_insert (fun _ => trivial) htable
    · show (hashtabSearch pUsers.table e.1).isSome
      rw [htable, hashtabSearch_append_new hnone]
      rfl
  · refine (hadds.setMap_spec e.2.value found.2.value).mono fun st' ⟨hwrites, hbase', hdecl, _⟩ =>
      ⟨⟨_, ?_, hwrites⟩, ?_⟩
    · rw [hbase', hbase]
      show hashtabSearch (found.1.map (·.value)).table e.1 = _
      rw [hashtabSearch_map, hfound]
      rfl
    · rw [LinkState.destTabs, hbase', hdecl]
      exact hdest

theorem search_modify {id' : CString} {f : α → α} {g : α → Nat} (h : ∀ a, g (f a) = g a)
    (hfound : hashtabSearch symtab.table id = some datum) :
    hashtabSearch ((symtab.modify id' f).map g).table id = some (g datum) := by
  rw [Symtab.map_modify _ _ h, hashtabSearch_map, hfound]
  rfl

/-- The tables have an attribute of the name. -/
def LinkSymtabs.HasAttrib (tabs : LinkSymtabs) (id : CString) : Prop :=
  ∃ type : KernelType, hashtabSearch tabs.pTypes.table id = some type ∧ type.flavor = .attrib

/-- The tables have a type of the name that is an attribute if this one is. -/
def LinkSymtabs.HasType (tabs : LinkSymtabs) (e : CString × KernelType) : Prop :=
  ∃ type : KernelType, hashtabSearch tabs.pTypes.table e.1 = some type ∧
    (e.2.flavor = .attrib ↔ type.flavor = .attrib)

theorem linkTypeCopyCallback_spec (st : LinkState) (e : CString × KernelType) :
    Ensures (· ≠ .aborted)
      (fun st' => e.2.IsAlias ∧ st' = st ∨
        ¬ e.2.IsAlias ∧ st.Copies .types e.1 e.2.value st' ∧ (e.2.flavor = .attrib → st'.destTabs.HasAttrib e.1) ∧
          st'.base.HasType e)
      (linkTypeCopyCallback st e) := by
  unfold linkTypeCopyCallback
  by_cases halias : e.2.IsAlias
  · rw [if_pos halias]
    exact Or.inl ⟨halias, rfl⟩
  · rw [if_neg halias]
    have hfind := @symtabFindOrInsert_spec _ st.base.pTypes e.1 (newType e.2) (·.value) fun _ => rfl
    refine hfind.bind fun found ⟨hgrows, hfound, hevolves, _⟩ => ?_
    refine (require_spec CopyError.noConfusion).bind fun _ hflavor => ?_
    have hvalue : ∀ type : KernelType,
        ({ type with flags := type.flags ||| e.2.flags } : KernelType).value = type.value :=
      fun _ => rfl
    have hsearch : hashtabSearch (found.1.modify e.1 fun type : KernelType =>
        { type with flags := type.flags ||| e.2.flags }).table e.1 =
        some { found.2 with flags := found.2.flags ||| e.2.flags } :=
      Symtab.search_modify_self hfound
    refine (LinkState.insertDecl_adds .types st
      { st.base with pTypes := found.1.modify e.1 fun type => { type with flags := type.flags ||| e.2.flags } }
      (fun tabs => e.2.flavor = .attrib → tabs.HasAttrib e.1) ?_ (fun k hk => ?_) (fun _ => rfl)
      (st.base.evolves_types ?_)
      (fun hattrib => ⟨_, hsearch, hflavor.1 hattrib⟩) fun decl => ?_).bind fun st1 ⟨hadds, hbase, hdest⟩ => ?_
    · show (st.base.pTypes.map (·.value)).Grows ((found.1.modify e.1 _).map (·.value))
      rw [Symtab.map_modify _ _ hvalue]
      exact hgrows
    · cases k <;> first | rfl | exact absurd rfl hk
    · exact (hevolves _ .refl).trans (fun _ _ _ => .trans) (Symtab.evolves_modify .refl fun _ _ => Iff.rfl)
    · refine (symtabInsertDecl_spec ..).bind fun pTypes ⟨htable, hnone⟩ => ⟨decl.evolves_types ?_, fun hattrib => ?_⟩
      · exact Symtab.evolves_insert .refl htable
      · refine ⟨newType e.2 found.2.value, ?_, hattrib⟩
        show hashtabSearch pTypes.table e.1 = _
        rw [htable, hashtabSearch_append_new hnone]
    · refine (hadds.setMap_spec e.2.value found.2.value).mono fun st' ⟨hwrites, hbase', hdecl, _⟩ =>
        Or.inr ⟨halias, ⟨_, ?_, hwrites⟩, ?_, ?_⟩
      · rw [hbase', hbase]
        exact search_modify hvalue hfound
      · rw [LinkState.destTabs, hbase', hdecl]
        exact hdest
      · rw [hbase', hbase]
        exact ⟨_, hsearch, hflavor⟩

theorem linkBoolCopyCallback_spec (st : LinkState) (e : CString × KernelBool) :
    Ensures (· ≠ .aborted) (fun st' => st.Copies .bools e.1 e.2.value st') (linkBoolCopyCallback st e) := by
  have hfind := @symtabFindOrInsert_spec _ st.base.pBools e.1 (fun value => { e.2 with value := value }) (·.value)
    fun _ => rfl
  refine hfind.bind fun found ⟨hgrows, hfound, _⟩ => ?_
  refine (require_spec CopyError.noConfusion).bind fun _ _ => ?_
  refine (orError_spec CopyError.noConfusion _).bind fun scope _ => ?_
  have hvalue : ∀ boolean : KernelBool, (if scope.scope = .decl then
      { boolean with state := e.2.state, flags := e.2.flags } else boolean : KernelBool).value = boolean.value := by
    intro boolean
    split <;> rfl
  have hadds : st.Adds .bools { st with base := { st.base with pBools := found.1.modify e.1 fun boolean =>
      if scope.scope = .decl then { boolean with state := e.2.state, flags := e.2.flags } else boolean } } := by
    refine ⟨?_, fun k' hk => ?_, fun _ => rfl, rfl,
      LinkState.frame_of_base rfl rfl (LinkSymtabs.evolves_others rfl rfl rfl)⟩
    · show (st.base.pBools.map (·.value)).Grows ((found.1.modify e.1 _).map (·.value))
      rw [Symtab.map_modify _ _ hvalue]
      exact hgrows
    · cases k' <;> first | rfl | exact absurd rfl hk
  refine (hadds.setMap_spec e.2.value found.2.value).mono fun st' ⟨hwrites, hbase', _⟩ => ⟨_, ?_, hwrites⟩
  rw [hbase']
  exact search_modify hvalue hfound

theorem linkSensCopyCallback_spec (st : LinkState) (e : CString × KernelLevel) :
    Ensures (· ≠ .aborted) (fun st' => st.Copies .levels e.1 e.2.level.sens st') (linkSensCopyCallback st e) := by
  refine (orError_spec CopyError.noConfusion _).bind fun baseLevel hfound => ?_
  refine ((LinkState.Adds.refl .levels st).setMap_spec _ _).mono fun st' ⟨hwrites, hbase, _⟩ => ⟨_, ?_, hwrites⟩
  rw [hbase]
  show hashtabSearch (st.base.pLevels.map _).table e.1 = _
  rw [hashtabSearch_map, hfound]
  rfl

theorem linkCatCopyCallback_spec (st : LinkState) (e : CString × KernelCat) :
    Ensures (· ≠ .aborted) (fun st' => st.Copies .cats e.1 e.2.value st') (linkCatCopyCallback st e) := by
  refine (orError_spec CopyError.noConfusion _).bind fun baseCat hfound => ?_
  refine ((LinkState.Adds.refl .cats st).setMap_spec _ _).mono fun st' ⟨hwrites, hbase, _⟩ => ⟨_, ?_, hwrites⟩
  rw [hbase]
  show hashtabSearch (st.base.pCats.map _).table e.1 = _
  rw [hashtabSearch_map, hfound]
  rfl

/-! ### Classes -/

/-- The value of a permission of a class of the base, from the class itself or from its common. -/
def LinkSymtabs.perm (tabs : LinkSymtabs) (cls id : CString) : Option Nat :=
  (hashtabSearch tabs.pClasses.table cls).bind fun cladatum => (cladatum.findPerm id).map (·.value)

/-- A permission of a class of the module was copied. -/
structure LinkState.CopiesPerm (cls : CString) (clsValue : Nat) (e : CString × PermDatum) (st st' : LinkState) :
    Prop where
  values : ∀ k, st'.base.values k = st.base.values k
  map : st'.mod.map = st.mod.map
  frame : st.Frame st'
  written : ∃ v row row', st'.base.perm cls e.1 = some v ∧ mapEntry st.mod.permMap clsValue = some row ∧
    setPermEntry row e.2.value v = .ok row' ∧ st'.mod.permMap = st.mod.permMap.set (clsValue - 1) row'

private theorem LinkSymtabs.perm_modify (tabs : LinkSymtabs) (cls : CString) (f : KernelClass → KernelClass)
    (cls' id : CString) :
    LinkSymtabs.perm { tabs with pClasses := tabs.pClasses.modify cls f } cls' id =
      (hashtabSearch tabs.pClasses.table cls').bind fun cladatum =>
        ((if cls' = cls then f cladatum else cladatum).findPerm id).map (·.value) := by
  rw [LinkSymtabs.perm, Symtab.search_modify]
  cases hashtabSearch tabs.pClasses.table cls' <;> rfl

theorem linkFindPerm_spec (st : LinkState) (cls : CString) (req : Bool) (id : CString) :
    Ensures (· ≠ .aborted)
      (fun r => r.1.base.perm cls id = some r.2.value ∧
        (r.1 = st ∨ req = true ∧ ∃ destClass table, hashtabSearch st.base.pClasses.table cls = some destClass ∧
          destClass.findPerm id = none ∧ r.2.value = destClass.permissions.nprim + 1 ∧
          table = destClass.permissions.table ++ [(id, r.2)] ∧
          r.1 = { st with base := { st.base with pClasses := st.base.pClasses.modify cls fun cladatum =>
            { cladatum with permissions := ⟨table, cladatum.permissions.nprim⟩ } } }))
      (linkFindPerm st cls req id) := by
  refine (orError_spec CopyError.noConfusion _).bind fun destClass hclass => ?_
  cases hperm : destClass.findPerm id with
  | some destPerm =>
    refine ⟨?_, Or.inl rfl⟩
    show st.base.perm cls id = some destPerm.value
    rw [LinkSymtabs.perm, hclass, Option.bind_some, hperm, Option.map_some]
  | none =>
    refine (require_spec CopyError.noConfusion).bind fun _ hreq => ?_
    refine (symtabInsertOr_spec ..).bind fun table ⟨htable, _⟩ => ?_
    refine ⟨?_, Or.inr ⟨hreq, destClass, table, hclass, hperm, rfl, htable, rfl⟩⟩
    have hnone : hashtabSearch destClass.permissions.table id = none := (Option.or_eq_none_iff.1 hperm).1
    refine (LinkSymtabs.perm_modify ..).trans ?_
    rw [hclass, Option.bind_some, if_pos rfl]
    show ((hashtabSearch table id).or _).map _ = _
    rw [htable, hashtabSearch_append_new hnone]
    rfl

private theorem LinkSymtabs.values_modify (tabs : LinkSymtabs) (cls : CString) {f : KernelClass → KernelClass}
    (hf : ∀ cladatum, (f cladatum).value = cladatum.value) (k : SymNum) :
    LinkSymtabs.values { tabs with pClasses := tabs.pClasses.modify cls f } k = tabs.values k := by
  cases k with
  | classes => exact Symtab.map_modify _ _ hf
  | _ => rfl

theorem permissionCopyCallback_spec (srcClass : KernelClass) (cls : CString) (req : Bool) (st : LinkState)
    (e : CString × PermDatum) :
    Ensures (· ≠ .aborted)
      (fun st' => st.CopiesPerm cls srcClass.value e st' ∧
        (st'.base = st.base ∨ req = true ∧ ∃ destClass newPerm,
          hashtabSearch st.base.pClasses.table cls = some destClass ∧
          destClass.findPerm e.1 = none ∧ newPerm.value = destClass.permissions.nprim + 1 ∧
          st'.base = { st.base with pClasses := st.base.pClasses.modify cls fun cladatum => { cladatum with
            permissions := ⟨destClass.permissions.table ++ [(e.1, newPerm)], cladatum.permissions.nprim⟩ } }))
      (permissionCopyCallback srcClass cls req st e) := by
  refine (linkFindPerm_spec st cls req e.1).bind fun found ⟨hperm, hfound⟩ => ?_
  refine (orError_spec CopyError.noConfusion _).bind fun row hrow => ?_
  refine (setEntry_spec ..).bind fun row' hrow' => ?_
  rcases hfound with rfl | ⟨hreq, destClass, table, hclass, hnone, hvalue, rfl, hst⟩
  · exact ⟨⟨fun _ => rfl, rfl, LinkState.frame_of_base rfl rfl (.refl _),
      _, row, row', hperm, hrow, hrow', rfl⟩, Or.inl rfl⟩
  · rw [hst] at hperm hrow ⊢
    have hothers : ∀ pClasses, st.base.Evolves { st.base with pClasses := pClasses } :=
      fun _ => LinkSymtabs.evolves_others rfl rfl rfl
    refine ⟨⟨?_, rfl, LinkState.frame_of_base rfl rfl (hothers _), _, row, row', hperm, hrow, hrow', rfl⟩,
      Or.inr ⟨hreq, destClass, found.2, hclass, hnone, hvalue, rfl⟩⟩
    exact LinkSymtabs.values_modify st.base cls fun _ => rfl

private theorem copyDefault_spec (old new : Nat) : Ensures (· ≠ .aborted) (fun _ => True) (copyDefault old new) := by
  unfold copyDefault
  split
  · exact trivial
  · split
    · exact CopyError.noConfusion
    · exact trivial

private theorem classCopyDefaultNewObject_spec (olddatum newdatum : KernelClass) :
    Ensures (· ≠ .aborted)
      (fun setDefaults => ∀ cladatum : KernelClass, (setDefaults cladatum).value = cladatum.value ∧
        (setDefaults cladatum).comdatum = cladatum.comdatum ∧
        (setDefaults cladatum).permissions = cladatum.permissions)
      (classCopyDefaultNewObject olddatum newdatum) :=
  (copyDefault_spec ..).bind fun _ _ => (copyDefault_spec ..).bind fun _ _ => (copyDefault_spec ..).bind fun _ _ =>
    (copyDefault_spec ..).bind fun _ _ _ => ⟨rfl, rfl, rfl⟩

/-- Before its permissions are copied, a class is in the base: it was there, or it is new and has no permissions. -/
structure LinkState.FindsClass (e : CString × KernelClass) (req : Bool) (st st' : LinkState) : Prop where
  copies : st.Copies .classes e.1 e.2.value st'
  perm : ∀ cls id, st'.base.perm cls id = st.base.perm cls id
  permMap : st'.mod.permMap = st.mod.permMap
  found : req = true ↔ hashtabSearch st.base.pClasses.table e.1 = none
  new : req = true → ∃ cladatum : KernelClass, hashtabSearch st'.base.pClasses.table e.1 = some cladatum ∧
    cladatum.comdatum = none ∧ cladatum.permissions = .empty

theorem linkFindClass_spec (st : LinkState) (id : CString) :
    Ensures (· ≠ .aborted)
      (fun r => st.Adds .classes r.1 ∧ hashtabSearch r.1.base.pClasses.table id = some r.2.1 ∧
        (∀ cls perm, r.1.base.perm cls perm = st.base.perm cls perm) ∧
        ((hashtabSearch st.base.pClasses.table id).isSome ∧ r.2.2 = false ∨
          hashtabSearch st.base.pClasses.table id = none ∧ r.2.2 = true ∧ ∃ value, r.2.1 = emptyClass value))
      (linkFindClass st id) := by
  unfold linkFindClass
  cases hfind : hashtabSearch st.base.pClasses.table id with
  | some newClass => exact ⟨.refl .classes st, hfind, fun _ _ => rfl, Or.inl ⟨rfl, rfl⟩⟩
  | none =>
    refine (orError_spec CopyError.noConfusion _).bind fun scope _ => ?_
    refine (require_spec CopyError.noConfusion).bind fun _ _ => ?_
    have hfound := @symtabFindOrInsert_spec _ st.base.pClasses id emptyClass (·.value) fun _ => rfl
    refine hfound.bind fun found ⟨hgrows, hsearch, _, hcases⟩ => ?_
    rcases hcases with ⟨hsome, _⟩ | ⟨_, hnew, htable⟩
    · rw [hfind] at hsome
      cases hsome
    · have hframe : st.Frame { st with base := { st.base with pClasses := found.1 } } :=
        LinkState.frame_of_base rfl rfl (LinkSymtabs.evolves_others rfl rfl rfl)
      refine ⟨⟨hgrows, fun k' hk => ?_, fun hk => absurd rfl hk, rfl, hframe⟩, hsearch, fun cls perm => ?_,
        Or.inr ⟨rfl, rfl, _, hnew⟩⟩
      · cases k' <;> first | rfl | exact absurd rfl hk
      · -- a class without permissions
        show LinkSymtabs.perm { st.base with pClasses := found.1 } cls perm = _
        unfold LinkSymtabs.perm
        show (hashtabSearch found.1.table cls).bind _ = _
        rw [htable, hnew]
        by_cases hcls : cls = id
        · subst hcls
          rw [hashtabSearch_append_new hfind, hfind]
          rfl
        · unfold hashtabSearch
          rw [List.find?_append, List.find?_singleton, if_neg (by simpa using Ne.symm hcls), Option.or_none]

private theorem LinkSymtabs.perm_modify_same (tabs : LinkSymtabs) (cls : CString) {f : KernelClass → KernelClass}
    (hf : ∀ cladatum : KernelClass, (f cladatum).comdatum = cladatum.comdatum ∧
      (f cladatum).permissions = cladatum.permissions) (cls' id : CString) :
    LinkSymtabs.perm { tabs with pClasses := tabs.pClasses.modify cls f } cls' id = tabs.perm cls' id := by
  rw [LinkSymtabs.perm_modify, LinkSymtabs.perm]
  congr 1
  funext cladatum
  by_cases hcls : cls' = cls
  · rw [if_pos hcls, KernelClass.findPerm, (hf cladatum).1, (hf cladatum).2, ← KernelClass.findPerm]
  · rw [if_neg hcls]

theorem linkClassCopyCallback_cases (st : LinkState) (e : CString × KernelClass) :
    Ensures (· ≠ .aborted)
      (fun st' => ∃ req st1, st.FindsClass e req st1 ∧
        e.2.permissions.table.foldlM (permissionCopyCallback e.2 e.1 req) st1 = .ok st')
      (linkClassCopyCallback st e) := by
  refine (linkFindClass_spec st e.1).bind fun found ⟨hadds, hsearch, hperm, hcases⟩ => ?_
  refine (hadds.setMap_spec e.2.value found.2.1.value).bind fun st1 ⟨hwrites, hbase, _, hpermMap⟩ => ?_
  refine (classCopyDefaultNewObject_spec e.2 found.2.1).bind fun setDefaults hdefaults => ?_
  have hvalue : ∀ cladatum : KernelClass, (setDefaults cladatum).value = cladatum.value := fun c => (hdefaults c).1
  have hkeep := fun c : KernelClass => (hdefaults c).2
  have hfold : ∀ perms st2, Ensures (· ≠ .aborted) (fun _ => True)
      (List.foldlM (permissionCopyCallback e.2 e.1 found.2.2) st2 perms) := by
    intro perms st2
    apply @Ensures.foldlM _ _ _ _ fun _ _ => True
    · exact fun p _ st2 _ => (permissionCopyCallback_spec e.2 e.1 found.2.2 st2 p).mono fun _ _ => trivial
    · exact trivial
  refine (hfold _ _).result.mono fun st' ⟨hrun, _⟩ => ⟨found.2.2, _, ?_, hrun⟩
  have hvalues := LinkSymtabs.values_modify st1.base e.1 hvalue
  have hfound : hashtabSearch (st1.base.pClasses.modify e.1 setDefaults).table e.1 = some (setDefaults found.2.1) :=
    Symtab.search_modify_self (by rw [hbase, hsearch])
  refine ⟨⟨found.2.1.value, ?_, ?_⟩, fun cls id => ?_, hpermMap, ?_, fun hreq => ⟨_, hfound, ?_⟩⟩
  · show hashtabSearch ((st1.base.pClasses.modify e.1 setDefaults).map (·.value)).table e.1 = _
    rw [hashtabSearch_map, hfound, Option.map_some, hvalue]
  · exact {
      grows := (hvalues .classes) ▸ hwrites.grows
      others := fun k hk => (hvalues k).trans (hwrites.others k hk)
      map := hwrites.map
      maps := hwrites.maps
      classes := fun hk => absurd rfl hk
      frame := hwrites.frame.trans (LinkState.frame_of_base rfl rfl (LinkSymtabs.evolves_others rfl rfl rfl)) }
  · refine (LinkSymtabs.perm_modify_same _ _ hkeep _ _).trans ?_
    rw [hbase]
    exact hperm cls id
  · rcases hcases with ⟨hsome, hreq⟩ | ⟨hnone, hreq, _⟩
    · rw [hreq]
      constructor
      · intro h
        cases h
      · intro h
        rw [h] at hsome
        cases hsome
    · exact ⟨fun _ => hnone, fun _ => hreq⟩
  · rcases hcases with ⟨_, hfalse⟩ | ⟨_, _, value, hnew⟩
    · rw [hfalse] at hreq
      cases hreq
    · rw [(hkeep _).1, (hkeep _).2, hnew]
      exact ⟨rfl, rfl⟩

end Sepol
