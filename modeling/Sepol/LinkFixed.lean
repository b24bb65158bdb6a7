import Sepol.LinkCopied

/-!
# Bounds, aliases and bitmaps

The callbacks that run when the symbols are there.  An alias makes the map of the module send its value to the type
that it is for; the callbacks for bounds and bitmaps change neither values nor maps.
-/

namespace Sepol

open Outcome CallRun

variable {st st' : LinkState} {e : CString × KernelType}

/-! ### Bounds -/

private theorem LinkSymtabs.values_roles {tabs : LinkSymtabs} {pRoles : Symtab KernelRole}
    (h : pRoles.map (·.value) = tabs.pRoles.map (·.value)) (k : SymNum) :
    LinkSymtabs.values { tabs with pRoles := pRoles } k = tabs.values k := by
  cases k <;> first | rfl | exact h

private theorem LinkSymtabs.values_types {tabs : LinkSymtabs} {pTypes : Symtab KernelType}
    (h : pTypes.map (·.value) = tabs.pTypes.map (·.value)) (k : SymNum) :
    LinkSymtabs.values { tabs with pTypes := pTypes } k = tabs.values k := by
  cases k <;> first | rfl | exact h

private theorem LinkSymtabs.values_users {tabs : LinkSymtabs} {pUsers : Symtab KernelUser}
    (h : pUsers.map (·.value) = tabs.pUsers.map (·.value)) (k : SymNum) :
    LinkSymtabs.values { tabs with pUsers := pUsers } k = tabs.values k := by
  cases k <;> first | rfl | exact h

private theorem LinkState.keeps_roles (st : LinkState) {pRoles : Symtab KernelRole}
    (hvalues : pRoles.map (·.value) = st.base.pRoles.map (·.value))
    (hevolves : st.base.pRoles.Evolves KernelRole.SameFlavor pRoles) :
    st.Keeps { st with base := { st.base with pRoles := pRoles } } := by
  exact ⟨LinkSymtabs.values_roles hvalues, rfl, rfl, LinkState.frame_of_base rfl rfl (st.base.evolves_roles hevolves)⟩

private theorem LinkState.keeps_types (st : LinkState) {pTypes : Symtab KernelType}
    (hvalues : pTypes.map (·.value) = st.base.pTypes.map (·.value))
    (hevolves : st.base.pTypes.Evolves KernelType.SameFlavor pTypes) :
    st.Keeps { st with base := { st.base with pTypes := pTypes } } := by
  exact ⟨LinkSymtabs.values_types hvalues, rfl, rfl, LinkState.frame_of_base rfl rfl (st.base.evolves_types hevolves)⟩

private theorem LinkState.keeps_users (st : LinkState) {pUsers : Symtab KernelUser}
    (hvalues : pUsers.map (·.value) = st.base.pUsers.map (·.value))
    (hevolves : st.base.pUsers.Evolves (fun _ _ => True) pUsers) :
    st.Keeps { st with base := { st.base with pUsers := pUsers } } := by
  exact ⟨LinkSymtabs.values_users hvalues, rfl, rfl, LinkState.frame_of_base rfl rfl (st.base.evolves_users hevolves)⟩

private theorem boundsCopy_spec {α : Type} (map : List Nat) (getBounds : α → Nat) (setBounds : Nat → α → α)
    (symtab : Symtab α)
    (id : CString) (bounds : Nat) :
    Ensures (· ≠ .aborted) (fun symtab' => symtab' = symtab ∨ ∃ v, symtab' = symtab.modify id (setBounds v))
      (boundsCopy map getBounds setBounds symtab id bounds) := by
  unfold boundsCopy
  by_cases hzero : bounds = 0
  · rw [if_pos hzero]
    exact Or.inl rfl
  · rw [if_neg hzero]
    refine (orError_spec CopyError.noConfusion _).bind fun boundsVal _ => ?_
    refine (orError_spec CopyError.noConfusion _).bind fun dest _ => ?_
    exact (require_spec CopyError.noConfusion).bind fun _ _ => Or.inr ⟨boundsVal, rfl⟩

theorem linkTypeBoundsCopyCallback_spec (st : LinkState) (e : CString × KernelType) :
    Ensures (· ≠ .aborted) st.Keeps (linkTypeBoundsCopyCallback st e) := by
  refine (boundsCopy_spec ..).bind fun pTypes hcases => ?_
  rcases hcases with rfl | ⟨v, rfl⟩
  · exact .refl st
  · refine st.keeps_types ?_ ?_
    · exact Symtab.map_modify _ _ fun _ => rfl
    · exact Symtab.evolves_modify .refl fun _ _ => Iff.rfl

theorem linkRoleBoundsCopyCallback_spec (st : LinkState) (e : CString × KernelRole) :
    Ensures (· ≠ .aborted) st.Keeps (linkRoleBoundsCopyCallback st e) := by
  refine (boundsCopy_spec ..).bind fun pRoles hcases => ?_
  rcases hcases with rfl | ⟨v, rfl⟩
  · exact .refl st
  · refine st.keeps_roles ?_ ?_
    · exact Symtab.map_modify _ _ fun _ => rfl
    · exact Symtab.evolves_modify .refl fun _ _ => rfl

theorem linkUserBoundsCopyCallback_spec (st : LinkState) (e : CString × KernelUser) :
    Ensures (· ≠ .aborted) st.Keeps (linkUserBoundsCopyCallback st e) := by
  refine (boundsCopy_spec ..).bind fun pUsers hcases => ?_
  rcases hcases with rfl | ⟨v, rfl⟩
  · exact .refl st
  · refine st.keeps_users ?_ ?_
    · exact Symtab.map_modify _ _ fun _ => rfl
    · exact Symtab.evolves_modify (fun _ => trivial) fun _ _ => trivial

/-! ### Aliases -/

private theorem LinkState.Keeps.writes {st1 : LinkState} {k : SymNum} {value v : Nat} (h : st.Keeps st1)
    (hwrites : st1.Writes k value v st') : st.Writes k value v st' where
  grows := h.values k ▸ hwrites.grows
  others k' hk := (hwrites.others k' hk).trans (h.values k')
  map := h.mod ▸ hwrites.map
  maps k' hk := h.mod ▸ hwrites.maps k' hk
  classes hk := ⟨(hwrites.classes hk).1.trans h.classes, h.mod ▸ (hwrites.classes hk).2⟩
  frame := h.frame.trans hwrites.frame

private theorem assertEntry_spec (map : List Nat) (value v : Nat) :
    Ensures (fun _ => True) (fun _ => mapEntry map value = some v) (assertEntry map value v) := by
  refine (orError_spec trivial _).bind fun entry hentry => (require_spec trivial).mono fun _ heq => ?_
  rw [hentry, heq]

private theorem assertAlias_spec (map : List Nat) (type baseType : KernelType) (target : Nat) :
    Ensures (fun _ => True)
      (fun _ => (baseType.primary = target ∧ mapEntry map type.primval = some target) ∧
        mapEntry map type.value = some target)
      (assertAlias map type baseType target) := by
  refine (require_spec trivial).bind fun _ hprimary => ?_
  refine (assertEntry_spec ..).bind fun _ hprimval => (assertEntry_spec ..).mono fun _ hvalue => ?_
  rw [← hprimary]
  exact ⟨⟨rfl, hprimval⟩, hvalue⟩

/-- The map has the value of the type for the value of the alias, or it had it before. -/
private theorem linkAlias_spec (st : LinkState) (e : CString × KernelType) (target flags : Nat) :
    Ensures (fun _ => True)
      (fun st' => st.Writes .types e.2.value target st' ∨
        st' = st ∧ mapEntry (st.mod.map .types) e.2.value = some target)
      (linkAlias st e target flags) := by
  have hsetMap : ∀ {st1 : LinkState}, st.Adds .types st1 → Ensures (fun _ => True)
      (fun st' => st.Writes .types e.2.value target st' ∨
        st' = st ∧ mapEntry (st.mod.map .types) e.2.value = some target) (st1.setMap .types e.2.value target) :=
    fun hadds => (hadds.setMap_spec _ _).weaken (fun _ _ => trivial) fun st' hwrites => Or.inl hwrites.1
  unfold linkAlias
  cases hbase : hashtabSearch st.base.pTypes.table e.1 with
  | none =>
    have hfind := @symtabFindOrInsert_spec _ st.base.pTypes e.1 (newAlias flags target) (·.value) fun _ => rfl
    refine (hfind.weaken (fun _ _ => trivial) fun _ h => h).bind fun found ⟨hgrows, _, hevolves, _⟩ => ?_
    refine hsetMap ⟨hgrows, fun k hk => ?_, fun _ => rfl, rfl, ?_⟩
    · cases k <;> first | rfl | exact absurd rfl hk
    · exact LinkState.frame_of_base rfl rfl (st.base.evolves_types (hevolves _ .refl))
  | some baseType =>
    match hflavor : baseType.flavor with
    | .alias =>
      simp only [hflavor]
      exact (assertAlias_spec ..).bind fun _ hentries => Or.inr ⟨rfl, hentries.2⟩
    | .attrib =>
      simp only [hflavor]
      exact trivial
    | .type =>
      simp only [hflavor]
      refine hsetMap ⟨?_, fun k hk => ?_, fun _ => rfl, rfl, ?_⟩
      · have hgrows : ∀ pTypes : Symtab KernelType, pTypes.map (·.value) = st.base.pTypes.map (·.value) →
            (st.base.pTypes.map (·.value)).Grows (pTypes.map (·.value)) := fun _ hsame => hsame ▸ .same _
        exact hgrows _ (Symtab.map_modify _ _ fun _ => rfl)
      · cases k <;> first | rfl | exact absurd rfl hk
      · refine LinkState.frame_of_base rfl rfl (st.base.evolves_types ?_)
        refine Symtab.evolves_modify .refl fun type htype => ?_
        -- the type of this name is not an attribute
        obtain rfl := Option.some.inj (hbase.symm.trans htype)
        rw [KernelType.SameFlavor, hflavor]
        simp

/-- An alias was copied: the map sends its value to a type of the base that the module names by the alias. -/
structure LinkState.CopiesAlias (e : CString × KernelType) (st st' : LinkState) : Prop where
  target : ∃ name type, st.cur.typeValToName (e.2.primval - 1) = some name ∧
    hashtabSearch st.base.pTypes.table name = some type ∧ (st.Writes .types e.2.value type.value st' ∨
      st.Keeps st' ∧ mapEntry (st.mod.map .types) e.2.value = some type.value)

private theorem aliasTarget_spec (st : LinkState) (type : KernelType) :
    Ensures (· ≠ .aborted)
      (fun target => type.primval ≤ st.cur.pTypes.nprim ∧ 0 < type.primval ∧
        st.cur.typeValToName (type.primval - 1) = some target.1 ∧
        hashtabSearch st.base.pTypes.table target.1 = some target.2)
      (aliasTarget st type) := by
  refine (require_spec CopyError.noConfusion).bind fun _ hrange => ?_
  refine (orError_spec CopyError.noConfusion _).bind fun targetId hid => ?_
  exact (orError_spec CopyError.noConfusion _).bind fun targetType htype => ⟨hrange.2, hrange.1, hid, htype⟩

private theorem LinkState.keeps_flags (st : LinkState) (id : CString) (flags : Nat) :
    st.Keeps { st with base := { st.base with
      pTypes := st.base.pTypes.modify id fun type => { type with flags := flags } } } := by
  refine st.keeps_types ?_ ?_
  · exact Symtab.map_modify _ _ fun _ => rfl
  · exact Symtab.evolves_modify .refl fun _ _ => Iff.rfl

theorem linkAliasCopyCallback_spec (st : LinkState) (e : CString × KernelType) :
    Ensures (fun _ => True)
      (fun st' => ¬ e.2.IsAlias ∧ st' = st ∨ e.2.IsAlias ∧ st.CopiesAlias e st')
      (linkAliasCopyCallback st e) := by
  unfold linkAliasCopyCallback
  by_cases halias : e.2.IsAlias
  · rw [if_neg (not_not.2 halias)]
    refine ((aliasTarget_spec st e.2).weaken (fun _ _ => trivial) fun _ h => h).bind fun target ⟨_, _, hid, htype⟩ =>
      ?_
    refine (require_spec trivial).bind fun _ _ => ?_
    have hkeeps := st.keeps_flags target.1 (target.2.flags ||| e.2.flags)
    refine (linkAlias_spec _ e target.2.value _).mono fun st' hcases =>
      Or.inr ⟨halias, target.1, target.2, hid, htype, ?_⟩
    rcases hcases with hwrites | ⟨rfl, hentry⟩
    · exact Or.inl (hkeeps.writes hwrites)
    · exact Or.inr ⟨hkeeps, hentry⟩
  · rw [if_pos halias]
    exact Or.inl ⟨halias, rfl⟩

/-- An alias that the base has already is there for the same type, and the map of the module sends the values of both
to this type already. -/
def LinkState.AliasAgrees (st : LinkState) (e : CString × KernelType) : Prop :=
  ∀ target baseType, aliasTarget st e.2 = .ok target → e.1 ≠ target.1 →
    hashtabSearch st.base.pTypes.table e.1 = some baseType → baseType.flavor = .alias →
      baseType.primary = target.2.value ∧ mapEntry (st.mod.map .types) e.2.primval = some target.2.value ∧
        mapEntry (st.mod.map .types) e.2.value = some target.2.value

private theorem assertEntry_aborts {map : List Nat} {value v : Nat} (hvalue : 0 < value ∧ value ≤ map.length) :
    assertEntry map value v = .error .aborted ↔ mapEntry map value ≠ some v := by
  have hentry : mapEntry map value = some (map.get ⟨value - 1, by omega⟩) := by
    rw [mapEntry, if_neg (by omega), List.getElem?_eq_getElem (by omega)]
    rfl
  unfold assertEntry require
  rw [hentry]
  by_cases heq : map.get ⟨value - 1, by omega⟩ = v
  · subst heq
    simp [orError, bind, Except.bind]
  · simp only [List.get_eq_getElem] at heq
    simp [orError, heq, bind, Except.bind]

private theorem assertEntry_ok {map : List Nat} {value v : Nat} (h : mapEntry map value = some v) :
    assertEntry map value v = .ok () := by
  unfold assertEntry require
  rw [h]
  simp [orError, bind, Except.bind]

private theorem assertAlias_aborts {map : List Nat} {type baseType : KernelType} {target : Nat}
    (hprimval : 0 < type.primval ∧ type.primval ≤ map.length) (hvalue : 0 < type.value ∧ type.value ≤ map.length) :
    assertAlias map type baseType target = .error .aborted ↔
      ¬ (baseType.primary = target ∧ mapEntry map type.primval = some target ∧
        mapEntry map type.value = some target) := by
  unfold assertAlias require
  by_cases hprimary : baseType.primary = target
  · rw [if_pos hprimary, hprimary]
    show (assertEntry map type.primval target >>= fun _ => assertEntry map type.value target) = _ ↔ _
    by_cases hentry : mapEntry map type.primval = some target
    · rw [assertEntry_ok hentry]
      show assertEntry map type.value target = _ ↔ _
      rw [assertEntry_aborts hvalue]
      simp [hentry]
    · rw [(assertEntry_aborts hprimval).2 hentry]
      simp [hentry, bind, Except.bind]
  · rw [if_neg hprimary]
    simp [hprimary, bind, Except.bind]

private theorem linkAlias_aborts {target flags : Nat}
    (hprimval : 0 < e.2.primval ∧ e.2.primval ≤ (st.mod.map .types).length)
    (hvalue : 0 < e.2.value ∧ e.2.value ≤ (st.mod.map .types).length) :
    linkAlias st e target flags = .error .aborted ↔
      ∃ baseType : KernelType, hashtabSearch st.base.pTypes.table e.1 = some baseType ∧ baseType.flavor = .alias ∧
        ¬ (baseType.primary = target ∧ mapEntry (st.mod.map .types) e.2.primval = some target ∧
          mapEntry (st.mod.map .types) e.2.value = some target) := by
  have hsetMap : ∀ st1 : LinkState, Ensures (· ≠ .aborted) (fun _ => True) (st1.setMap .types e.2.value target) :=
    fun st1 => ((LinkState.Adds.refl .types st1).setMap_spec ..).mono fun _ _ => trivial
  unfold linkAlias
  cases hbase : hashtabSearch st.base.pTypes.table e.1 with
  | none =>
    refine ⟨fun heq => absurd heq ?_, fun ⟨_, hsome, _⟩ => nomatch hsome⟩
    have hfind := @symtabFindOrInsert_spec _ st.base.pTypes e.1 (newAlias flags target) (·.value) fun _ => rfl
    exact Ensures.ne_error (hfind.bind fun found _ => hsetMap _) fun h => h rfl
  | some baseType =>
    have hunique : ∀ P : KernelType → Prop,
        (∃ type : KernelType, some baseType = some type ∧ type.flavor = .alias ∧ P type) ↔
          baseType.flavor = .alias ∧ P baseType := by
      intro P
      constructor
      · intro ⟨type, heq, h⟩
        obtain rfl := Option.some.inj heq
        exact h
      · exact fun h => ⟨baseType, rfl, h⟩
    rw [hunique]
    match hflavor : baseType.flavor with
    | .alias =>
      simp only [hflavor, true_and]
      rw [← assertAlias_aborts hprimval hvalue]
      cases assertAlias (st.mod.map .types) e.2 baseType target with
      | error err => simp [bind, Except.bind]
      | ok _ => simp [bind, Except.bind, pure, Except.pure]
    | .attrib => simp [hflavor]
    | .type =>
      simp only [hflavor, reduceCtorEq, false_and, iff_false]
      exact Ensures.ne_error (hsetMap _) fun h => h rfl

/-- An alias fails an assertion exactly when it does not agree with the one that the base has. -/
theorem linkAliasCopyCallback_aborts (hlength : (st.mod.map .types).length = st.cur.pTypes.nprim)
    (hvalue : 0 < e.2.value ∧ e.2.value ≤ st.cur.pTypes.nprim) :
    linkAliasCopyCallback st e = .error .aborted ↔ e.2.IsAlias ∧ ¬ st.AliasAgrees e := by
  unfold linkAliasCopyCallback
  by_cases halias : e.2.IsAlias
  · rw [if_neg (not_not.2 halias)]
    have htarget := aliasTarget_spec st e.2
    unfold LinkState.AliasAgrees
    cases hcase : aliasTarget st e.2 with
    | error err =>
      rw [hcase] at htarget
      refine ⟨fun heq => absurd (Except.error.inj heq) htarget, fun h => absurd ?_ h.2⟩
      exact fun _ _ hok => nomatch hok
    | ok target =>
      rw [hcase] at htarget
      obtain ⟨hle, hpos, _, _⟩ := htarget
      have hrange : 0 < e.2.primval ∧ e.2.primval ≤ (st.mod.map .types).length := by omega
      have hvalue' : 0 < e.2.value ∧ e.2.value ≤ (st.mod.map .types).length := by omega
      show (require .failed (e.1 ≠ target.1) >>= fun _ => _) = _ ↔ _
      by_cases hself : e.1 ≠ target.1
      · rw [require, if_pos hself]
        have hcore : ∀ st1 : LinkState, st1.mod = st.mod →
            hashtabSearch st1.base.pTypes.table e.1 = hashtabSearch st.base.pTypes.table e.1 → ∀ flags,
            (linkAlias st1 e target.2.value flags = .error .aborted ↔ e.2.IsAlias ∧ ¬ st.AliasAgrees e) := by
          intro st1 hmod hsearch flags
          rw [linkAlias_aborts (hmod ▸ hrange) (hmod ▸ hvalue'), hsearch, hmod, LinkState.AliasAgrees, hcase]
          constructor
          · intro ⟨baseType, hbase, hflavor, hdiffers⟩
            exact ⟨halias, fun hagrees => hdiffers (hagrees target baseType rfl hself hbase hflavor)⟩
          · intro ⟨_, hdiffers⟩
            push Not at hdiffers
            obtain ⟨target', baseType, hok, _, hbase, hflavor, hnot⟩ := hdiffers
            obtain rfl := Except.ok.inj hok
            exact ⟨baseType, hbase, hflavor, fun hall => hnot hall.1 hall.2.1 hall.2.2⟩
        -- the flags of the type were changed, which does not have the name of the alias
        have hsearch : ∀ f : KernelType → KernelType,
            hashtabSearch (st.base.pTypes.modify target.1 f).table e.1 = hashtabSearch st.base.pTypes.table e.1 := by
          intro f
          rw [Symtab.search_modify]
          simp only [if_neg hself, Option.map_id']
        unfold LinkState.AliasAgrees at hcore
        rw [hcase] at hcore
        refine hcore _ ?_ ?_ _
        · rfl
        · exact hsearch _
      · rw [require, if_neg hself]
        refine ⟨fun heq => (nomatch heq), fun h => absurd ?_ h.2⟩
        intro target' _ hok hne
        obtain rfl := Except.ok.inj hok
        exact absurd hne hself
  · rw [if_pos halias]
    exact ⟨fun heq => (nomatch heq), fun h => absurd h.1 halias⟩

/-! ### Bitmaps -/

private theorem LinkState.setDestTabs_keeps {tabs : LinkSymtabs} (hvalues : ∀ k, tabs.values k = st.destTabs.values k)
    (hclasses : tabs.pClasses = st.destTabs.pClasses) (hevolves : st.destTabs.Evolves tabs) :
    st.Keeps (st.setDestTabs tabs) := by
  obtain ⟨base, scope, decls, destDecl, nextDeclId, modules, cur, mod, avdeclMap⟩ := st
  cases destDecl with
  | none => exact ⟨hvalues, hclasses, rfl, rfl, rfl, hevolves, hevolves⟩
  | some decl => exact ⟨fun _ => rfl, rfl, rfl, rfl, rfl, .refl _, hevolves⟩

private theorem ensures_true {α β : Type} {x : Except CopyError α} {f : α → Except CopyError β} {post : β → Prop}
    (h : ∀ a, Ensures (fun _ => True) post (f a)) : Ensures (fun _ => True) post (x >>= f) := by
  cases x with
  | error err => exact trivial
  | ok a => exact h a

theorem linkRoleFixCallback_spec (st : LinkState) (e : CString × KernelRole) :
    Ensures (fun _ => True) st.Keeps (linkRoleFixCallback st e) := by
  unfold linkRoleFixCallback
  refine ensures_true fun destRole => ensures_true fun dominates => ensures_true fun types => ?_
  have hkeeps : ∀ roles, st.Keeps (st.setDestTabs { st.destTabs with
      pRoles := st.destTabs.pRoles.modify e.1 fun role =>
        { role with dominates := dominates, types := types, roles := roles } }) := by
    intro roles
    refine LinkState.setDestTabs_keeps (LinkSymtabs.values_roles ?_) rfl (st.destTabs.evolves_roles ?_)
    · exact Symtab.map_modify _ _ fun _ => rfl
    · exact Symtab.evolves_modify .refl fun _ _ => rfl
  by_cases hattrib : e.2.flavor = 1
  · simp only [if_pos hattrib]
    exact ensures_true fun roles => hkeeps roles
  · simp only [if_neg hattrib]
    exact hkeeps destRole.roles

theorem linkTypeFixCallback_spec (st : LinkState) (e : CString × KernelType) :
    Ensures (fun _ => True) st.Keeps (linkTypeFixCallback st e) := by
  unfold linkTypeFixCallback
  split
  · exact .refl st
  · refine ensures_true fun newType => ensures_true fun _ => ensures_true fun types => ?_
    refine LinkState.setDestTabs_keeps (LinkSymtabs.values_types ?_) rfl (st.destTabs.evolves_types ?_)
    · exact Symtab.map_modify _ _ fun _ => rfl
    · exact Symtab.evolves_modify .refl fun _ _ => Iff.rfl

theorem linkUserFixCallback_spec (st : LinkState) (e : CString × KernelUser) :
    Ensures (fun _ => True) st.Keeps (linkUserFixCallback st e) := by
  unfold linkUserFixCallback
  refine ensures_true fun newUser => ensures_true fun roles => ensures_true fun range => ensures_true fun dfltlevel =>
    ?_
  refine LinkState.setDestTabs_keeps (LinkSymtabs.values_users ?_) rfl (st.destTabs.evolves_users ?_)
  · exact Symtab.map_modify _ _ fun _ => rfl
  · exact Symtab.evolves_modify (fun _ => trivial) fun _ _ => trivial

end Sepol
