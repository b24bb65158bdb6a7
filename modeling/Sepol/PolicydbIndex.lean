import Sepol.PolicydbValidate

/-!
# Indexing the symbol tables

The functions `*_index`, which `policydb_read` maps over the symbol tables of the image, in `policydb_index_others`.
An array of the result has an entry for every symbol that is not an alias, and only those.
-/

namespace Sepol

/-! ### One table -/

section

variable {α : Type} (indexed : α → Bool) (value : α → Nat)

/-- The body of the functions `*_index`, on the array they fill; an entry of it stands for both `val_to_name` and
`val_to_struct`. -/
def symtabIndexStep (nprim : Nat) (array : Nat → Option (CString × α)) (e : CString × α) :
    Option (Nat → Option (CString × α)) :=
  if !indexed e.2 then some array
  else if !valueIsvalid (value e.2) nprim then none
  else if (array (value e.2 - 1)).isSome then none
  else some (Function.update array (value e.2 - 1) (some e))

/-- One pass of the loop of `policydb_index_others`. -/
def symtabIndex (symtab : Symtab α) : Option (Nat → Option (CString × α)) :=
  if symtab.nprim = 0 then some fun _ => none
  else symtab.table.foldlM (symtabIndexStep indexed value symtab.nprim) fun _ => none

variable {indexed value}

/-- What one entry does to the array. -/
private theorem symtabIndexStep_cases {nprim : Nat} {array array' : Nat → Option (CString × α)} {e : CString × α}
    (h : symtabIndexStep indexed value nprim array e = some array') :
    (indexed e.2 = false ∧ array' = array) ∨
    (indexed e.2 = true ∧ value e.2 ≠ 0 ∧ array (value e.2 - 1) = none ∧
      array' = Function.update array (value e.2 - 1) (some e)) := by
  unfold symtabIndexStep at h
  split at h
  · rename_i hi
    exact Or.inl ⟨by simpa using hi, (Option.some.inj h).symm⟩
  · rename_i hi
    split at h
    · cases h
    · rename_i hv
      split at h
      · cases h
      · rename_i hnone
        refine Or.inr ⟨by simpa using hi, ?_, by simpa using hnone, (Option.some.inj h).symm⟩
        intro hzero
        simp [valueIsvalid, hzero] at hv

/-- The entries of an array are symbols of the table that are not aliases, each under its value. -/
private def ArrayFrom (indexed : α → Bool) (value : α → Nat) (table : List (CString × α))
    (array : Nat → Option (CString × α)) : Prop :=
  ∀ i e, array i = some e → e ∈ table ∧ indexed e.2 = true ∧ value e.2 = i + 1

/-- Over the loop an entry of the array stays, and the symbols that were visited have theirs. -/
private theorem symtabIndex_run {nprim : Nat} {table l : List (CString × α)}
    {array array' : Nat → Option (CString × α)} (hl : ∀ e ∈ l, e ∈ table)
    (harray : ArrayFrom indexed value table array)
    (h : l.foldlM (symtabIndexStep indexed value nprim) array = some array') :
    ArrayFrom indexed value table array' ∧ (∀ i f, array i = some f → array' i = some f) ∧
      ∀ e ∈ l, indexed e.2 = true → array' (value e.2 - 1) = some e := by
  induction l generalizing array with
  | nil =>
    obtain rfl := Option.some.inj h
    exact ⟨harray, fun _ _ hi => hi, fun e he => absurd he List.not_mem_nil⟩
  | cons e l ih =>
    rw [List.foldlM_cons] at h
    obtain ⟨next, hstep, hrest⟩ := Option.bind_eq_some_iff.1 h
    have hl' : ∀ f ∈ l, f ∈ table := fun f hf => hl f (List.mem_cons_of_mem _ hf)
    rcases symtabIndexStep_cases hstep with ⟨hno, rfl⟩ | ⟨hyes, hvalue, hnone, rfl⟩
    · obtain ⟨hfrom, hkept, hmem⟩ := ih hl' harray hrest
      refine ⟨hfrom, hkept, fun f hf hindexed => ?_⟩
      rcases List.mem_cons.1 hf with rfl | hf
      · rw [hno] at hindexed
        cases hindexed
      · exact hmem f hf hindexed
    · have hnext : ArrayFrom indexed value table (Function.update array (value e.2 - 1) (some e)) := by
        intro i f hi
        by_cases heq : i = value e.2 - 1
        · rw [heq, Function.update_self] at hi
          obtain rfl := Option.some.inj hi
          exact ⟨hl _ (List.mem_cons_self ..), hyes, by omega⟩
        · rw [Function.update_of_ne heq] at hi
          exact harray i f hi
      obtain ⟨hfrom, hkept, hmem⟩ := ih hl' hnext hrest
      refine ⟨hfrom, fun i f hi => hkept i f ?_, fun f hf hindexed => ?_⟩
      · -- the entry was free before, so it is not the one at `i`
        rw [Function.update_of_ne, hi]
        intro heq
        rw [heq, hnone] at hi
        cases hi
      · rcases List.mem_cons.1 hf with rfl | hf
        · exact hkept _ _ (Function.update_self ..)
        · exact hmem f hf hindexed

theorem symtabIndex_entry {symtab : Symtab α} (hnprim : symtab.nprim ≠ 0) {array : Nat → Option (CString × α)}
    (h : symtabIndex indexed value symtab = some array) {e : CString × α} (he : e ∈ symtab.table)
    (hindexed : indexed e.2 = true) : array (value e.2 - 1) = some e := by
  rw [symtabIndex, if_neg hnprim] at h
  exact (symtabIndex_run (fun _ hf => hf) (fun _ _ hi => by cases hi) h).2.2 e he hindexed

/-- The name `m` of a table stands for the symbol with the name `n`, or for a value without a name: that name is `m`
unless `m` is an alias. -/
def Symtab.NameFor (symtab : Symtab α) (indexed : α → Bool) (value : α → Nat) (m : CString) (n : Option CString) :
    Prop :=
  ∃ d, hashtabSearch symtab.table m = some d ∧ (indexed d = true → n = some m) ∧
    ∀ name, n = some name → ∃ e, (name, e) ∈ symtab.table ∧ indexed e = true ∧ value e = value d

/-- A name stands for one symbol only. -/
theorem Symtab.NameFor.eq {symtab : Symtab α} {array : Nat → Option (CString × α)}
    (h : symtabIndex indexed value symtab = some array) {m name : CString} {d : α}
    (hname : symtab.NameFor indexed value m (some name)) (hd : hashtabSearch symtab.table m = some d)
    (hvalue : valueIsvalid (value d) symtab.nprim = true) : (array (value d - 1)).map Prod.fst = some name := by
  obtain ⟨d', hd', _, hprimary⟩ := hname
  obtain rfl := Option.some.inj (hd'.symm.trans hd)
  obtain ⟨e, he, hindexed, hvalue'⟩ := hprimary name rfl
  have hnprim : symtab.nprim ≠ 0 := by
    simp only [valueIsvalid, Bool.not_eq_true', Bool.or_eq_false_iff, decide_eq_false_iff_not] at hvalue
    omega
  rw [← hvalue', symtabIndex_entry hnprim h he hindexed]
  rfl

end

/-! ### The policy -/

/-- What `policydb_read` has read when it indexes the symbol tables. -/
structure ReadPolicydb where
  policyType : Nat
  policyvers : Nat
  mls : Bool
  pClasses : Symtab ClassDatum
  pRoles : Symtab RoleDatum
  pTypes : Symtab KernelType
  pUsers : Symtab UserDatum
  pLevels : Symtab KernelLevel
  pCats : Symtab KernelCat
  /-- The number of categories is a word. -/
  nprim_lt : pCats.nprim < 2 ^ 32
  teAvtab : Avtab
  teCondAvtab : Avtab
  condList : List CondNode
  typeAttrMap : Nat → Ebitmap
  attrTypeMap : Nat → Ebitmap

/-- The policy with the arrays. -/
def ReadPolicydb.indexed (p : ReadPolicydb) (roles : Nat → Option (CString × RoleDatum))
    (types : Nat → Option (CString × KernelType)) (users : Nat → Option (CString × UserDatum))
    (levels : Nat → Option (CString × KernelLevel)) (cats : Nat → Option (CString × KernelCat)) : Policydb where
  policyType := p.policyType
  policyvers := p.policyvers
  mls := p.mls
  pClasses := p.pClasses
  pRoles := p.pRoles
  pTypes := p.pTypes.map (·.toTypeDatum)
  pUsers := p.pUsers
  pLevels := p.pLevels.map (·.toLevelDatum)
  pCats := p.pCats.map (·.toCatDatum)
  pRoleValToName i := (roles i).map Prod.fst
  pTypeValToName i := (types i).map Prod.fst
  pUserValToName i := (users i).map Prod.fst
  pSensValToName i := (levels i).map Prod.fst
  pCatValToName i := (cats i).map Prod.fst
  roleValToStruct i := (roles i).map Prod.snd
  userValToStruct i := (users i).map Prod.snd
  typeValToStruct i := (types i).map fun e => e.2.toTypeDatum
  teAvtab := p.teAvtab
  teCondAvtab := p.teCondAvtab
  condList := p.condList
  typeAttrMap := p.typeAttrMap
  attrTypeMap := p.attrTypeMap

end Sepol
