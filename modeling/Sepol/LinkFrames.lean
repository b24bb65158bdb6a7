import Sepol.Lib.CallRun
import Sepol.LinkIdentifiers
import Sepol.TypeAttrDual

/-!
# What the callbacks of the linker leave as it is

Every callback leaves the values of the symbols of the base as they are, or adds one symbol with the next value, and
the tables that the fix callbacks look into lose no symbol.  The map of the module is written at one value, or not at
all.
-/

namespace Sepol

open Outcome CallRun

variable {α : Type} {symtab symtab' : Symtab α} {id : CString} {datum : α} {k : SymNum} {value v : Nat}
  {st st' st1 : LinkState}

/-! ### Tables -/

theorem hashtabSearch_map (symtab : Symtab α) (f : α → Nat) (id : CString) :
    hashtabSearch (symtab.map f).table id = (hashtabSearch symtab.table id).map f := by
  unfold hashtabSearch Symtab.map
  rw [List.find?_map, Option.map_map, Option.map_map]
  rfl

/-- A change of the data of a symbol that keeps what `g` reads of it. -/
theorem Symtab.map_modify (symtab : Symtab α) (id : CString) {f : α → α} {g : α → Nat} (h : ∀ a, g (f a) = g a) :
    (symtab.modify id f).map g = symtab.map g := by
  unfold Symtab.modify Symtab.map hashtabModify
  rw [List.map_map]
  congr 1
  refine List.map_congr_left fun e _ => ?_
  by_cases hid : e.1 = id
  · simp [hid, h]
  · simp [hid]

/-- The same symbols, or one more with the next value. -/
inductive Symtab.Grows : Symtab Nat → Symtab Nat → Prop where
  | same (s : Symtab Nat) : s.Grows s
  | one (s : Symtab Nat) (id : CString) (h : hashtabSearch s.table id = none) :
      s.Grows ⟨s.table ++ [(id, s.nprim + 1)], s.nprim + 1⟩

theorem hashtabSearch_append_new {table : List (CString × α)} (h : hashtabSearch table id = none) :
    hashtabSearch (table ++ [(id, datum)]) id = some datum := by
  unfold hashtabSearch at h ⊢
  rw [List.find?_append, Option.map_eq_none_iff.1 h]
  simp

theorem symtabInsertOr_spec (table : List (CString × α)) (id : CString) (datum : α) :
    Ensures (· ≠ .aborted) (fun table' => table' = table ++ [(id, datum)] ∧ hashtabSearch table id = none)
      (symtabInsertOr table id datum) := by
  unfold symtabInsertOr hashtabInsert
  by_cases hfull : table.length = uint32Max
  · rw [if_pos hfull]
    exact CopyError.noConfusion
  · rw [if_neg hfull]
    by_cases hsome : (AssocTable.get id table).isSome
    · rw [if_pos hsome]
      exact CopyError.noConfusion
    · rw [if_neg hsome]
      have hnone : AssocTable.get id table = none := by simpa using hsome
      refine ⟨AssocTable.put_of_get_eq_none datum hnone, ?_⟩
      have hkey := AssocTable.get_eq_none_iff.1 hnone
      unfold hashtabSearch
      rw [Option.map_eq_none_iff, List.find?_eq_none]
      intro e he hid
      exact hkey (of_decide_eq_true hid ▸ List.mem_map_of_mem he)

/-- A symbol is found as it was, unless its datum was changed. -/
theorem hashtabSearch_modify (table : List (CString × α)) (id id' : CString) (f : α → α) :
    hashtabSearch (hashtabModify table id f) id' =
      (hashtabSearch table id').map fun a => if id' = id then f a else a := by
  induction table with
  | nil => rfl
  | cons e table ih =>
    unfold hashtabSearch hashtabModify at ih ⊢
    rw [List.map_cons, List.find?_cons, List.find?_cons]
    by_cases hid : e.1 = id
    · simp only [hid, if_true]
      by_cases hid' : id = id'
      · simp [hid']
      · simp only [hid', decide_false]
        exact ih
    · simp only [hid, if_false]
      by_cases hid' : e.1 = id'
      · have hne : id' ≠ id := hid' ▸ hid
        simp [hid', hne]
      · simp only [hid', decide_false]
        exact ih

theorem Symtab.search_modify (symtab : Symtab α) (id id' : CString) (f : α → α) :
    hashtabSearch (symtab.modify id f).table id' =
      (hashtabSearch symtab.table id').map fun a => if id' = id then f a else a :=
  hashtabSearch_modify symtab.table id id' f

theorem Symtab.search_modify_self {f : α → α} (h : hashtabSearch symtab.table id = some datum) :
    hashtabSearch (symtab.modify id f).table id = some (f datum) := by
  rw [Symtab.search_modify, h, Option.map_some, if_pos rfl]

/-- Every symbol that a table has is there afterwards, with a datum that is related to the one before. -/
def Symtab.Evolves (r : α → α → Prop) (symtab symtab' : Symtab α) : Prop :=
  ∀ id a, hashtabSearch symtab.table id = some a → ∃ a', hashtabSearch symtab'.table id = some a' ∧ r a a'

theorem Symtab.Evolves.refl {r : α → α → Prop} (hr : ∀ a, r a a) (symtab : Symtab α) : symtab.Evolves r symtab :=
  fun _ a ha => ⟨a, ha, hr a⟩

theorem Symtab.Evolves.trans {r : α → α → Prop} (hr : ∀ a b c, r a b → r b c → r a c) {symtab'' : Symtab α}
    (h : symtab.Evolves r symtab') (h' : symtab'.Evolves r symtab'') : symtab.Evolves r symtab'' := by
  intro id a ha
  obtain ⟨b, hb, hab⟩ := h id a ha
  obtain ⟨c, hc, hbc⟩ := h' id b hb
  exact ⟨c, hc, hr a b c hab hbc⟩

theorem Symtab.evolves_modify {r : α → α → Prop} (hr : ∀ a, r a a) {f : α → α}
    (hf : ∀ a, hashtabSearch symtab.table id = some a → r a (f a)) : symtab.Evolves r (symtab.modify id f) := by
  intro id' a ha
  refine ⟨if id' = id then f a else a, ?_, ?_⟩
  · rw [Symtab.search_modify, ha, Option.map_some]
  · by_cases hid : id' = id
    · rw [if_pos hid]
      exact hf a (hid ▸ ha)
    · rw [if_neg hid]
      exact hr a

private theorem Symtab.evolves_append {r : α → α → Prop} (hr : ∀ a, r a a) (n : Nat) :
    symtab.Evolves r ⟨symtab.table ++ [(id, datum)], n⟩ := by
  intro id' a ha
  refine ⟨a, ?_, hr a⟩
  unfold hashtabSearch at ha ⊢
  obtain ⟨e, he, hea⟩ := Option.map_eq_some_iff.1 ha
  rw [List.find?_append, he]
  exact congrArg some hea

theorem symtabFindOrInsert_spec {new : Nat → α} {f : α → Nat} (hnew : ∀ n, f (new n) = n) :
    Ensures (· ≠ .aborted)
      (fun r => (symtab.map f).Grows (r.1.map f) ∧ hashtabSearch r.1.table id = some r.2 ∧
        (∀ rel : α → α → Prop, (∀ a, rel a a) → symtab.Evolves rel r.1) ∧
        (hashtabSearch symtab.table id = some r.2 ∧ r.1 = symtab ∨
          hashtabSearch symtab.table id = none ∧ r.2 = new (symtab.nprim + 1) ∧
            r.1 = ⟨symtab.table ++ [(id, r.2)], symtab.nprim + 1⟩))
      (symtabFindOrInsert symtab id new) := by
  unfold symtabFindOrInsert
  cases hfind : hashtabSearch symtab.table id with
  | some datum => exact ⟨.same _, hfind, fun rel hrel => .refl hrel _, Or.inl ⟨rfl, rfl⟩⟩
  | none =>
    refine (symtabInsertOr_spec ..).bind fun table ⟨htable, _⟩ => ?_
    subst htable
    refine ⟨?_, hashtabSearch_append_new hfind, fun rel hrel => Symtab.evolves_append hrel _, Or.inr ⟨rfl, rfl, rfl⟩⟩
    have hone := Symtab.Grows.one (symtab.map f) id (by rw [hashtabSearch_map, hfind]; rfl)
    show (symtab.map f).Grows ⟨List.map _ (symtab.table ++ _), _⟩
    rw [List.map_append, List.map_singleton, hnew]
    exact hone

theorem Symtab.evolves_insert {r : α → α → Prop} (hr : ∀ a, r a a)
    (htable : symtab'.table = symtab.table ++ [(id, datum)]) : symtab.Evolves r symtab' := by
  have happend : symtab.Evolves r ⟨symtab.table ++ [(id, datum)], symtab'.nprim⟩ := Symtab.evolves_append hr _
  rw [← htable] at happend
  exact happend

/-- A role attribute stays one, and so does a regular role. -/
def KernelRole.SameFlavor (role role' : KernelRole) : Prop := role.flavor = role'.flavor

/-- An attribute stays one; a type may become an alias. -/
def KernelType.SameFlavor (type type' : KernelType) : Prop := type.flavor = .attrib ↔ type'.flavor = .attrib

theorem KernelRole.SameFlavor.refl (role : KernelRole) : role.SameFlavor role := rfl

theorem KernelType.SameFlavor.refl (type : KernelType) : type.SameFlavor type := Iff.rfl

theorem KernelType.SameFlavor.trans {type type' type'' : KernelType} (h : type.SameFlavor type')
    (h' : type'.SameFlavor type'') : type.SameFlavor type'' := Iff.trans h h'

/-- What is found stays, and is an attribute if it was one. -/
structure LinkSymtabs.Evolves (tabs tabs' : LinkSymtabs) : Prop where
  roles : tabs.pRoles.Evolves KernelRole.SameFlavor tabs'.pRoles
  types : tabs.pTypes.Evolves KernelType.SameFlavor tabs'.pTypes
  users : tabs.pUsers.Evolves (fun _ _ => True) tabs'.pUsers

theorem LinkSymtabs.Evolves.refl (tabs : LinkSymtabs) : tabs.Evolves tabs :=
  ⟨.refl .refl _, .refl .refl _, .refl (fun _ => trivial) _⟩

theorem LinkSymtabs.Evolves.trans {tabs tabs' tabs'' : LinkSymtabs} (h : tabs.Evolves tabs')
    (h' : tabs'.Evolves tabs'') : tabs.Evolves tabs'' where
  roles := h.roles.trans (r := KernelRole.SameFlavor) (fun _ _ _ => Eq.trans) h'.roles
  types := h.types.trans (r := KernelType.SameFlavor) (fun _ _ _ => .trans) h'.types
  users := h.users.trans (fun _ _ _ _ _ => trivial) h'.users

/-- Other tables may change. -/
theorem LinkSymtabs.evolves_others {tabs tabs' : LinkSymtabs} (hroles : tabs'.pRoles = tabs.pRoles)
    (htypes : tabs'.pTypes = tabs.pTypes) (husers : tabs'.pUsers = tabs.pUsers) : tabs.Evolves tabs' := by
  refine ⟨?_, ?_, ?_⟩
  · rw [hroles]
    exact .refl .refl _
  · rw [htypes]
    exact .refl .refl _
  · rw [husers]
    exact .refl (fun _ => trivial) _

theorem LinkSymtabs.evolves_roles (tabs : LinkSymtabs) {pRoles : Symtab KernelRole}
    (h : tabs.pRoles.Evolves KernelRole.SameFlavor pRoles) : tabs.Evolves { tabs with pRoles := pRoles } :=
  ⟨h, .refl .refl _, .refl (fun _ => trivial) _⟩

theorem LinkSymtabs.evolves_types (tabs : LinkSymtabs) {pTypes : Symtab KernelType}
    (h : tabs.pTypes.Evolves KernelType.SameFlavor pTypes) : tabs.Evolves { tabs with pTypes := pTypes } :=
  ⟨.refl .refl _, h, .refl (fun _ => trivial) _⟩

theorem LinkSymtabs.evolves_users (tabs : LinkSymtabs) {pUsers : Symtab KernelUser}
    (h : tabs.pUsers.Evolves (fun _ _ => True) pUsers) : tabs.Evolves { tabs with pUsers := pUsers } :=
  ⟨.refl .refl _, .refl .refl _, h⟩

/-! ### States -/

/-- A callback changes the base, the current declaration and the maps of the module; the tables lose no symbol. -/
structure LinkState.Frame (st st' : LinkState) : Prop where
  only : st' = { st with base := st'.base, destDecl := st'.destDecl, mod := st'.mod }
  decl : st'.destDecl.isSome = st.destDecl.isSome
  base : st.base.Evolves st'.base
  tabs : st.destTabs.Evolves st'.destTabs

theorem LinkState.Frame.trans (h : st.Frame st1) (h' : st1.Frame st') : st.Frame st' where
  only := by
    refine h'.only.trans ?_
    rw [h.only]
  decl := h'.decl.trans h.decl
  base := h.base.trans h'.base
  tabs := h.tabs.trans h'.tabs

theorem LinkState.Frame.cur (h : st.Frame st') : st'.cur = st.cur := by
  rw [h.only]

theorem LinkState.frame_of_base (honly : st' = { st with base := st'.base, destDecl := st'.destDecl, mod := st'.mod })
    (hdecl : st'.destDecl = st.destDecl) (hbase : st.base.Evolves st'.base) : st.Frame st' := by
  refine ⟨honly, by rw [hdecl], hbase, ?_⟩
  unfold LinkState.destTabs
  rw [hdecl]
  cases st.destDecl with
  | none => exact hbase
  | some decl => exact .refl decl

/-- The values of the base as they are, and none of the maps changed. -/
structure LinkState.Keeps (st st' : LinkState) : Prop where
  values : ∀ k, st'.base.values k = st.base.values k
  classes : st'.base.pClasses = st.base.pClasses
  mod : st'.mod = st.mod
  frame : st.Frame st'

/-- `v` is written to the map of the module for one kind of symbols, of which the base may have one more. -/
structure LinkState.Writes (k : SymNum) (value v : Nat) (st st' : LinkState) : Prop where
  grows : (st.base.values k).Grows (st'.base.values k)
  others : ∀ k', k' ≠ k → st'.base.values k' = st.base.values k'
  map : setEntry (st.mod.map k) value v = .ok (st'.mod.map k)
  maps : ∀ k', k' ≠ k → st'.mod.map k' = st.mod.map k'
  classes : k ≠ .classes → st'.base.pClasses = st.base.pClasses ∧ st'.mod.permMap = st.mod.permMap
  frame : st.Frame st'

/-- A symbol of the module was copied: its value in the base is written to the map. -/
def LinkState.Copies (k : SymNum) (id : CString) (value : Nat) (st st' : LinkState) : Prop :=
  ∃ v, hashtabSearch (st'.base.values k).table id = some v ∧ st.Writes k value v st'

theorem LinkState.Keeps.refl (st : LinkState) : st.Keeps st :=
  ⟨fun _ => rfl, rfl, rfl, rfl, rfl, .refl _, .refl _⟩

theorem require_spec {allowed : CopyError → Prop} {err : CopyError} {c : Prop} [Decidable c] (h : allowed err) :
    Ensures allowed (fun _ => c) (require err c) := by
  unfold require
  by_cases hc : c
  · rw [if_pos hc]
    exact hc
  · rw [if_neg hc]
    exact h

theorem orError_spec {allowed : CopyError → Prop} {err : CopyError} (h : allowed err) (x : Option α) :
    Ensures allowed (fun a => x = some a) (orError err x) := by
  cases x with
  | none => exact h
  | some a => exact rfl

theorem setEntry_spec (map : List α) (value : Nat) (a : α) :
    Ensures (· ≠ .aborted) (fun map' => setEntry map value a = .ok map') (setEntry map value a) := by
  cases h : setEntry map value a with
  | error err =>
    unfold setEntry require at h
    split at h
    · cases h
    · obtain rfl := Except.error.inj h
      exact CopyError.noConfusion
  | ok map' => exact rfl

/-- An entry that is set, and the others. -/
theorem setEntry_eq_ok {map map' : List α} {a : α} (h : setEntry map value a = .ok map') :
    mapEntry map' value = some a ∧ map'.length = map.length ∧
      ∀ value', value' ≠ value → mapEntry map' value' = mapEntry map value' := by
  unfold setEntry require at h
  split at h
  · rename_i hrange
    obtain rfl := Except.ok.inj h
    refine ⟨?_, List.length_set, fun value' hne => ?_⟩
    · rw [mapEntry, if_neg (by omega), List.getElem?_set_self (by omega)]
    · unfold mapEntry
      by_cases hzero : value' = 0
      · rw [if_pos hzero, if_pos hzero]
      · rw [if_neg hzero, if_neg hzero, List.getElem?_set_ne (by omega)]
  · cases h

/-- The base may have one more symbol of one kind. -/
structure LinkState.Adds (k : SymNum) (st st' : LinkState) : Prop where
  grows : (st.base.values k).Grows (st'.base.values k)
  others : ∀ k', k' ≠ k → st'.base.values k' = st.base.values k'
  classes : k ≠ .classes → st'.base.pClasses = st.base.pClasses
  mod : st'.mod = st.mod
  frame : st.Frame st'

theorem LinkState.Adds.refl (k : SymNum) (st : LinkState) : st.Adds k st :=
  ⟨.same _, fun _ _ => rfl, fun _ => rfl, rfl, rfl, rfl, .refl _, .refl _⟩

theorem LinkState.Adds.setMap_spec (h : st.Adds k st1) (value v : Nat) :
    Ensures (· ≠ .aborted)
      (fun st' => st.Writes k value v st' ∧ st'.base = st1.base ∧ st'.destDecl = st1.destDecl ∧
        st'.mod.permMap = st.mod.permMap)
      (st1.setMap k value v) := by
  refine (setEntry_spec (st1.mod.map k) value v).bind fun map hmap => ⟨?_, rfl, rfl, by rw [← h.mod]⟩
  have hframe : st1.Frame { st1 with mod := ⟨Function.update st1.mod.map k map, st1.mod.permMap⟩ } :=
    LinkState.frame_of_base rfl rfl (.refl _)
  refine ⟨h.grows, h.others, ?_, fun k' hk => ?_, fun hk => ⟨h.classes hk, by rw [← h.mod]⟩, h.frame.trans hframe⟩
  · rw [← h.mod, hmap]
    show Except.ok map = .ok (Function.update st1.mod.map k map k)
    rw [Function.update_self]
  · rw [← h.mod]
    exact Function.update_of_ne hk _ _

/-- A symbol is added to the base and, where there is one, to the declaration. -/
theorem LinkState.insertDecl_adds (k : SymNum) (st : LinkState) (base' : LinkSymtabs) (post : LinkSymtabs → Prop)
    {f : LinkSymtabs → Except CopyError LinkSymtabs} (hgrows : (st.base.values k).Grows (base'.values k))
    (hothers : ∀ k', k' ≠ k → base'.values k' = st.base.values k')
    (hclasses : k ≠ .classes → base'.pClasses = st.base.pClasses) (hevolves : st.base.Evolves base')
    (hbase : post base')
    (hf : ∀ decl, Ensures (· ≠ .aborted) (fun decl' => decl.Evolves decl' ∧ post decl') (f decl)) :
    Ensures (· ≠ .aborted) (fun st1 => st.Adds k st1 ∧ st1.base = base' ∧ post st1.destTabs)
      (LinkState.insertDecl { st with base := base' } f) := by
  obtain ⟨base, scope, decls, destDecl, nextDeclId, modules, cur, mod, avdeclMap⟩ := st
  cases destDecl with
  | none => exact ⟨⟨hgrows, hothers, hclasses, rfl, LinkState.frame_of_base rfl rfl hevolves⟩, rfl, hbase⟩
  | some decl =>
    refine (hf decl).bind fun decl' ⟨htabs, hpost⟩ => ?_
    exact ⟨⟨hgrows, hothers, hclasses, rfl, rfl, rfl, hevolves, htabs⟩, rfl, hpost⟩

theorem symtabInsertDecl_spec (symtab : Symtab α) (id : CString) (datum : α) :
    Ensures (· ≠ .aborted)
      (fun symtab' => symtab'.table = symtab.table ++ [(id, datum)] ∧ hashtabSearch symtab.table id = none)
      (symtabInsertDecl symtab id datum) := by
  exact (symtabInsertOr_spec ..).bind fun _ h => h

end Sepol
