import Sepol.LinkIdentifiers

/-!
# What a conversion looks up

`ebitmap_convert` and `mls_level_convert` look values up in the maps of a module, one after another.  The entry 0
fails an assertion; a lookup outside of the map and a value that no bitmap holds end the conversion otherwise.
-/

namespace Sepol

variable {α β σ : Type} {l l' : List (Option Nat)} {x : Except CopyError α}

/-- The first lookup that ends a conversion has the entry 0. -/
def MeetsHole (l : List (Option Nat)) : Prop := ∃ pre post, l = pre ++ some 0 :: post ∧ ∀ y ∈ pre, ∃ v ≠ 0, y = some v

/-- No lookup ends a conversion. -/
def AllFound (l : List (Option Nat)) : Prop := ∀ y ∈ l, ∃ v ≠ 0, y = some v

private theorem not_meetsHole_nil : ¬ MeetsHole [] := by
  intro ⟨pre, post, heq, _⟩
  cases pre <;> cases heq

private theorem meetsHole_append : MeetsHole (l ++ l') ↔ MeetsHole l ∨ AllFound l ∧ MeetsHole l' := by
  constructor
  · intro ⟨pre, post, heq, hpre⟩
    rcases List.append_eq_append_iff.1 heq with ⟨mid, rfl, hl'⟩ | ⟨mid, rfl, hmid⟩
    · exact Or.inr ⟨fun y hy => hpre y (List.mem_append_left _ hy), mid, post, hl',
        fun y hy => hpre y (List.mem_append_right _ hy)⟩
    · cases mid with
      | nil =>
        refine Or.inr ⟨fun y hy => hpre y ?_, [], post, hmid.symm, fun y hy => absurd hy List.not_mem_nil⟩
        rwa [List.append_nil] at hy
      | cons y mid =>
        obtain ⟨rfl, rfl⟩ := List.cons.inj hmid
        exact Or.inl ⟨pre, mid, rfl, hpre⟩
  · intro h
    rcases h with ⟨pre, post, rfl, hpre⟩ | ⟨hfound, pre, post, rfl, hpre⟩
    · exact ⟨pre, post ++ l', by simp, hpre⟩
    · refine ⟨l ++ pre, post, by simp, fun y hy => ?_⟩
      rcases List.mem_append.1 hy with hy | hy
      · exact hfound y hy
      · exact hpre y hy

private theorem allFound_append : AllFound (l ++ l') ↔ AllFound l ∧ AllFound l' := by
  simp only [AllFound, List.mem_append, or_imp, forall_and]

/-- The lookups decide whether a conversion fails an assertion and whether it has a result. -/
structure Converts (x : Except CopyError α) (l : List (Option Nat)) : Prop where
  aborts : x = .error .aborted ↔ MeetsHole l
  result : (∃ a, x = .ok a) ↔ AllFound l

theorem Converts.pure (a : α) : Converts (.ok a) [] := by
  refine ⟨⟨fun h => ?_, fun h => absurd h not_meetsHole_nil⟩,
    ⟨fun _ y hy => absurd hy List.not_mem_nil, fun _ => ⟨a, rfl⟩⟩⟩
  cases h

theorem Converts.bind {f : α → Except CopyError β} (h : Converts x l) (hf : ∀ a, Converts (f a) l') :
    Converts (x >>= f) (l ++ l') := by
  cases x with
  | error err =>
    have hnot : ¬ AllFound l := by
      intro hfound
      obtain ⟨a, ha⟩ := h.result.2 hfound
      cases ha
    refine ⟨?_, ?_⟩
    · show (Except.error err : Except CopyError β) = .error .aborted ↔ _
      rw [meetsHole_append, ← h.aborts, Except.error.injEq, Except.error.injEq]
      constructor
      · exact fun heq => Or.inl heq
      · exact fun hmeets => hmeets.resolve_right fun hfound => hnot hfound.1
    · rw [allFound_append]
      constructor
      · intro ⟨a, ha⟩
        cases ha
      · exact fun hfound => absurd hfound.1 hnot
  | ok a =>
    have hfound : AllFound l := h.result.1 ⟨a, rfl⟩
    have hmeets : ¬ MeetsHole l := by
      intro hmeets
      cases h.aborts.2 hmeets
    refine ⟨?_, ?_⟩
    · rw [meetsHole_append]
      refine (hf a).aborts.trans ⟨fun hrest => Or.inr ⟨hfound, hrest⟩, fun hrest => ?_⟩
      exact (hrest.resolve_left hmeets).2
    · rw [allFound_append]
      exact (hf a).result.trans ⟨fun hrest => ⟨hfound, hrest⟩, And.right⟩

theorem Converts.map {f : α → Except CopyError β} (h : Converts x l) (hf : ∀ a, ∃ b, f a = .ok b) :
    Converts (x >>= f) l := by
  have hbind : Converts (x >>= f) (l ++ []) := h.bind fun a => by
    obtain ⟨b, hb⟩ := hf a
    rw [hb]
    exact .pure b
  rwa [List.append_nil] at hbind

theorem Converts.foldlM {f : σ → α → Except CopyError σ} {look : α → List (Option Nat)}
    (hf : ∀ s a, Converts (f s a) (look a)) (as : List α) (s : σ) : Converts (as.foldlM f s) (as.flatMap look) := by
  induction as generalizing s with
  | nil => exact .pure s
  | cons a as ih =>
    rw [List.foldlM_cons, List.flatMap_cons]
    exact (hf s a).bind fun s' => ih s'

/-! ### Bitmaps -/

/-- The entry for a bit, as long as a bitmap can hold the value. -/
def bitEntry (map : List Nat) (bit : Nat) : Option Nat :=
  (map[bit]?).filter fun v => decide (v = 0) || (ebitmapSetBit ebitmapInit (v - 1) true).isSome

def bitEntries (map : List Nat) (e : Ebitmap) : List (Option Nat) := (ebitmapPositiveBits e).map (bitEntry map)

private theorem ebitmapSetBit_isSome (e : Ebitmap) (bit : Nat) :
    (ebitmapSetBit e bit true).isSome = (ebitmapSetBit ebitmapInit bit true).isSome := by
  unfold ebitmapSetBit
  dsimp only
  split <;> rfl

private theorem meetsHole_cons {y : Option Nat} :
    MeetsHole (y :: l) ↔ y = some 0 ∨ (∃ v ≠ 0, y = some v) ∧ MeetsHole l := by
  rw [← List.singleton_append, meetsHole_append]
  have hall : AllFound [y] ↔ ∃ v ≠ 0, y = some v := by simp [AllFound]
  have hone : MeetsHole [y] ↔ y = some 0 := by
    constructor
    · intro ⟨pre, post, heq, _⟩
      cases pre with
      | nil => exact (List.cons.inj heq).1
      | cons z pre =>
        have hnil := (List.cons.inj heq).2
        cases pre <;> cases hnil
    · intro h
      exact ⟨[], [], by rw [h]; rfl, fun z hz => absurd hz List.not_mem_nil⟩
  rw [hall, hone]

/-- One pass of the loop of `ebitmap_convert`. -/
def ebitmapConvertBit (map : List Nat) (bit : Nat) (dst : Ebitmap) : Except CopyError Ebitmap :=
  match map[bit]? with
  | none => .error .undefined
  | some value =>
    if value = 0 then .error .aborted
    else
      match ebitmapSetBit dst (value - 1) true with
      | none => .error .failed
      | some dst => .ok dst

private theorem converts_singleton {y : Option Nat} (haborts : x = .error .aborted ↔ y = some 0)
    (hresult : (∃ a, x = .ok a) ↔ ∃ v ≠ 0, y = some v) : Converts x [y] := by
  refine ⟨?_, ?_⟩
  · rw [meetsHole_cons, haborts]
    exact ⟨Or.inl, fun h => h.resolve_right fun hnil => not_meetsHole_nil hnil.2⟩
  · rw [hresult]
    simp [AllFound]

private theorem ebitmapConvertBit_converts (map : List Nat) (bit : Nat) (dst : Ebitmap) :
    Converts (ebitmapConvertBit map bit dst) [bitEntry map bit] := by
  unfold ebitmapConvertBit bitEntry
  cases map[bit]? with
  | none => exact converts_singleton (by simp) (by simp)
  | some value =>
    by_cases hzero : value = 0
    · simp only [hzero, if_true]
      exact converts_singleton (by simp) (by simp)
    · simp only [hzero, if_false, Option.filter_some, decide_false, Bool.false_or]
      rw [← ebitmapSetBit_isSome dst]
      cases ebitmapSetBit dst (value - 1) true with
      | none => exact converts_singleton (by simp) (by simp)
      | some dst' => exact converts_singleton (by simp [hzero]) (by simp [hzero])

theorem ebitmapConvertBits_cons (map : List Nat) (bit : Nat) (bits : List Nat) (dst : Ebitmap) :
    ebitmapConvertBits map (bit :: bits) dst = ebitmapConvertBit map bit dst >>= ebitmapConvertBits map bits := by
  unfold ebitmapConvertBit
  rw [ebitmapConvertBits]
  cases map[bit]? with
  | none => rfl
  | some value =>
    by_cases hzero : value = 0
    · simp only [hzero, if_true]
      rfl
    · simp only [hzero, if_false]
      cases ebitmapSetBit dst (value - 1) true <;> rfl

private theorem ebitmapConvertBits_converts (map : List Nat) (bits : List Nat) (dst : Ebitmap) :
    Converts (ebitmapConvertBits map bits dst) (bits.map (bitEntry map)) := by
  induction bits generalizing dst with
  | nil => exact .pure dst
  | cons bit bits ih =>
    rw [ebitmapConvertBits_cons, List.map_cons, ← List.singleton_append]
    exact (ebitmapConvertBit_converts map bit dst).bind ih

private theorem ebitmapConvert_converts (src dst : Ebitmap) (map : List Nat) :
    Converts (ebitmapConvert src dst map) (bitEntries map src) :=
  ebitmapConvertBits_converts map _ dst

private theorem ebitmapConvertUnion_converts (src dst : Ebitmap) (map : List Nat) :
    Converts (ebitmapConvertUnion src dst map) (bitEntries map src) :=
  (ebitmapConvert_converts src ebitmapInit map).map fun _ => ⟨_, rfl⟩

def typeSetEntries (mod : PolicyModule) (set : LinkTypeSet) : List (Option Nat) :=
  bitEntries (mod.map .types) set.types ++ bitEntries (mod.map .types) set.negset

theorem typeSetConvert_eq (types : LinkTypeSet) (mod : PolicyModule) :
    typeSetConvert types mod = (ebitmapConvert types.types ebitmapInit (mod.map .types) >>= fun dstTypes =>
      ebitmapConvert types.negset ebitmapInit (mod.map .types) >>= fun dstNegset =>
        .ok ⟨dstTypes, dstNegset, types.flags⟩) := by
  unfold typeSetConvert
  cases ebitmapConvert types.types ebitmapInit (mod.map .types) with
  | error err => rfl
  | ok dstTypes => cases ebitmapConvert types.negset ebitmapInit (mod.map .types) <;> rfl

private theorem typeSetConvert_converts (types : LinkTypeSet) (mod : PolicyModule) :
    Converts (typeSetConvert types mod) (typeSetEntries mod types) := by
  rw [typeSetConvert_eq]
  exact (ebitmapConvert_converts ..).bind fun _ => (ebitmapConvert_converts ..).map fun _ => ⟨_, rfl⟩

/-! ### Levels -/

private theorem requireEntry_eq (map : List Nat) (value : Nat) :
    requireEntry map value = match mapEntry map value with
      | none => .error .undefined
      | some entry => if entry = 0 then .error .aborted else .ok entry := by
  unfold requireEntry require
  cases mapEntry map value with
  | none => rfl
  | some entry =>
    by_cases hzero : entry = 0
    · simp [orError, hzero, bind, Except.bind]
    · simp [orError, hzero, bind, Except.bind, pure, Except.pure]

private theorem requireEntry_converts (map : List Nat) (value : Nat) :
    Converts (requireEntry map value) [mapEntry map value] := by
  rw [requireEntry_eq]
  cases mapEntry map value with
  | none => exact converts_singleton (by simp) (by simp)
  | some entry =>
    by_cases hzero : entry = 0
    · exact converts_singleton (by simp [hzero]) (by simp [hzero])
    · exact converts_singleton (by simp [hzero]) (by simp [hzero])

def levelEntries (st : LinkState) (level : MlsSemanticLevel) : List (Option Nat) :=
  if st.cur.mls = false ∨ level.sens = 0 then []
  else mapEntry (st.mod.map .levels) level.sens ::
    level.cat.flatMap fun cat => [mapEntry (st.mod.map .cats) cat.low, mapEntry (st.mod.map .cats) cat.high]

private theorem mlsCatConvert_converts (map : List Nat) (dst : List MlsSemanticCat) (srcCat : MlsSemanticCat) :
    Converts (mlsCatConvert map dst srcCat) [mapEntry map srcCat.low, mapEntry map srcCat.high] :=
  (requireEntry_converts ..).bind fun _ => (requireEntry_converts ..).map fun _ => ⟨_, rfl⟩

private theorem mlsLevelConvert_converts (st : LinkState) (src dst : MlsSemanticLevel) :
    Converts (mlsLevelConvert st src dst) (levelEntries st src) := by
  unfold mlsLevelConvert levelEntries
  by_cases hskip : st.cur.mls = false ∨ src.sens = 0
  · rw [if_pos hskip, if_pos hskip]
    exact .pure dst
  · rw [if_neg hskip, if_neg hskip]
    refine (requireEntry_converts ..).bind fun sens => Converts.map ?_ fun _ => ⟨_, rfl⟩
    exact Converts.foldlM (mlsCatConvert_converts (st.mod.map .cats)) src.cat dst.cat

private theorem mlsRangeConvert_converts (st : LinkState) (src dst : MlsSemanticRange) :
    Converts (mlsRangeConvert st src dst) (levelEntries st src.level0 ++ levelEntries st src.level1) :=
  (mlsLevelConvert_converts ..).bind fun _ => (mlsLevelConvert_converts ..).map fun _ => ⟨_, rfl⟩

/-! ### The fix callbacks -/

/-- What `role_fix_callback` looks up. -/
def roleEntries (mod : PolicyModule) (role : KernelRole) : List (Option Nat) :=
  bitEntries (mod.map .roles) role.dominates ++
    (typeSetEntries mod role.types ++ if role.flavor = 1 then bitEntries (mod.map .roles) role.roles else [])

theorem linkRoleFixCallback_converts {st : LinkState} {e : CString × KernelRole} {destRole : KernelRole}
    (hfound : hashtabSearch st.destTabs.pRoles.table e.1 = some destRole) :
    Converts (linkRoleFixCallback st e) (roleEntries st.mod e.2) := by
  unfold linkRoleFixCallback
  rw [hfound]
  refine (ebitmapConvertUnion_converts e.2.dominates destRole.dominates _).bind fun dominates => ?_
  refine ((typeSetConvert_converts e.2.types st.mod).map fun _ => ⟨_, rfl⟩).bind fun types => ?_
  by_cases hattrib : e.2.flavor = 1
  · simp only [if_pos hattrib]
    exact (ebitmapConvertUnion_converts e.2.roles destRole.roles _).map fun _ => ⟨_, rfl⟩
  · simp only [if_neg hattrib]
    exact .pure _

/-- What `type_fix_callback` looks up. -/
def typeEntries (mod : PolicyModule) (type : KernelType) : List (Option Nat) :=
  if type.flavor ≠ .attrib then [] else bitEntries (mod.map .types) type.types

theorem linkTypeFixCallback_converts {st : LinkState} {e : CString × KernelType}
    (hfound : e.2.flavor = .attrib → ∃ newType, hashtabSearch st.destTabs.pTypes.table e.1 = some newType ∧
      newType.flavor = .attrib) :
    Converts (linkTypeFixCallback st e) (typeEntries st.mod e.2) := by
  unfold linkTypeFixCallback typeEntries
  by_cases hattrib : e.2.flavor ≠ .attrib
  · rw [if_pos hattrib, if_pos hattrib]
    exact .pure st
  · rw [if_neg hattrib, if_neg hattrib]
    obtain ⟨newType, hsearch, hflavor⟩ := hfound (not_not.1 hattrib)
    rw [hsearch]
    show Converts (require .aborted (newType.flavor = .attrib) >>= fun _ => _) _
    rw [require, if_pos hflavor]
    exact (ebitmapConvertUnion_converts e.2.types newType.types _).map fun _ => ⟨_, rfl⟩

/-- What `user_fix_callback` looks up. -/
def userEntries (st : LinkState) (user : KernelUser) : List (Option Nat) :=
  bitEntries (st.mod.map .roles) user.roles.roles ++
    (levelEntries st user.range.level0 ++ levelEntries st user.range.level1 ++ levelEntries st user.dfltlevel)

theorem linkUserFixCallback_converts {st : LinkState} {e : CString × KernelUser} {newUser : KernelUser}
    (hfound : hashtabSearch st.destTabs.pUsers.table e.1 = some newUser) :
    Converts (linkUserFixCallback st e) (userEntries st e.2) := by
  unfold linkUserFixCallback
  rw [hfound]
  refine (ebitmapConvertUnion_converts e.2.roles.roles newUser.roles.roles _).bind fun roles => ?_
  refine (mlsRangeConvert_converts st e.2.range newUser.range).bind fun range => ?_
  exact (mlsLevelConvert_converts st e.2.dfltlevel newUser.dfltlevel).map fun _ => ⟨_, rfl⟩

end Sepol
