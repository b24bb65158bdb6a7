import Sepol.TypeAttrMap

/-!
# Expansion of type sets

`type_set_expand` of `expand.c`.  A set lists types and attributes, of which some are replaced by their members, and
takes away the types and the members of the attributes in its negative set.  `TYPE_STAR` stands for all values that
are not those of attributes, and `TYPE_COMP` flips these values; a value that has no type counts in both cases.
-/

namespace Sepol

/-- The number of types of a policy and its array `type_val_to_struct`, which has so many entries. -/
structure TypeTable where
  nprim : BitVec 32
  typeValToStruct : Nat → Option KernelType

def TypeTable.isAttrib (p : TypeTable) (i : Nat) : Bool :=
  match p.typeValToStruct i with
  | some type => type.flavor = .attrib
  | none => false

/-- The loop over the listed types. -/
def typeSetExpandTypes (p : TypeTable) (expand : Bool) : List Nat → Ebitmap → Except CopyError Ebitmap
  | [], types => .ok types
  | i :: bits, types =>
    if i ≥ p.nprim.toNat then .error .failed
    else
      match p.typeValToStruct i with
      | none => .error .failed
      | some type =>
        if type.flavor = .attrib ∧ (expand ∨ type.flags &&& typeFlagsExpandAttrTrue ≠ 0) then
          typeSetExpandTypes p expand bits (ebitmapUnion types type.types)
        else
          match ebitmapSetBit types i true with
          | none => .error .failed
          | some types => typeSetExpandTypes p expand bits types

/-- The loop over the negative set, which does not compare the values with the number of types. -/
def typeSetExpandNeg (p : TypeTable) : List Nat → Ebitmap → Except CopyError Ebitmap
  | [], negTypes => .ok negTypes
  | i :: bits, negTypes =>
    if i ≥ p.nprim.toNat then .error .undefined
    else
      match p.typeValToStruct i with
      | some type =>
        if type.flavor = .attrib then typeSetExpandNeg p bits (ebitmapUnion negTypes type.types)
        else
          match ebitmapSetBit negTypes i true with
          | none => .error .failed
          | some negTypes => typeSetExpandNeg p bits negTypes
      | none =>
        match ebitmapSetBit negTypes i true with
        | none => .error .failed
        | some negTypes => typeSetExpandNeg p bits negTypes

/-- The loop for `TYPE_STAR`. -/
def typeSetExpandStar (p : TypeTable) (negTypes : Ebitmap) : List Nat → Ebitmap → Except CopyError Ebitmap
  | [], t => .ok t
  | i :: rest, t =>
    if ebitmapGetBit negTypes i then typeSetExpandStar p negTypes rest t
    else if p.isAttrib i then typeSetExpandStar p negTypes rest t
    else
      match ebitmapSetBit t i true with
      | none => .error .failed
      | some t => typeSetExpandStar p negTypes rest t

/-- The loop that takes the negative set away. -/
def typeSetExpandMinus (negTypes : Ebitmap) : List Nat → Ebitmap → Except CopyError Ebitmap
  | [], t => .ok t
  | i :: bits, t =>
    if !ebitmapGetBit negTypes i then
      match ebitmapSetBit t i true with
      | none => .error .failed
      | some t => typeSetExpandMinus negTypes bits t
    else typeSetExpandMinus negTypes bits t

/-- The loop for `TYPE_COMP`. -/
def typeSetExpandComp (p : TypeTable) : List Nat → Ebitmap → Except CopyError Ebitmap
  | [], t => .ok t
  | i :: rest, t =>
    if p.isAttrib i then
      if ebitmapGetBit t i then .error .aborted else typeSetExpandComp p rest t
    else
      match ebitmapSetBit t i (!ebitmapGetBit t i) with
      | none => .error .failed
      | some t => typeSetExpandComp p rest t

/-- `type_set_expand`. -/
def typeSetExpand (p : TypeTable) (set : LinkTypeSet) (alwaysexpand : Bool) : Except CopyError Ebitmap :=
  let expand := alwaysexpand || !ebitmapIsEmpty set.negset || set.flags ≠ 0
  match typeSetExpandTypes p expand (ebitmapPositiveBits set.types) ebitmapInit with
  | .error e => .error e
  | .ok types =>
    match typeSetExpandNeg p (ebitmapPositiveBits set.negset) ebitmapInit with
    | .error e => .error e
    | .ok negTypes =>
      if set.flags &&& typeStar ≠ 0 then typeSetExpandStar p negTypes (List.range p.nprim.toNat) ebitmapInit
      else
        match typeSetExpandMinus negTypes (ebitmapPositiveBits types) ebitmapInit with
        | .error e => .error e
        | .ok t =>
          if set.flags &&& typeComp ≠ 0 then typeSetExpandComp p (List.range p.nprim.toNat) t
          else .ok t

/-! ### The denotation -/

/-- What a listed value stands for: the members of an attribute that is expanded, and otherwise itself. -/
def TypeTable.members (p : TypeTable) (expand : Bool) (i : Nat) : Set Nat :=
  match p.typeValToStruct i with
  | some type =>
    if type.flavor = .attrib ∧ (expand ∨ type.flags &&& typeFlagsExpandAttrTrue ≠ 0) then {j | j ∈ type.types}
      else {i}
  | none => {i}

/-- The values that are not those of attributes. -/
def TypeTable.types (p : TypeTable) : Set Nat := {i | i < p.nprim.toNat ∧ p.isAttrib i = false}

/-- Attributes are expanded when the caller asks for it, or the set is more than a list. -/
def LinkTypeSet.Expands (set : LinkTypeSet) (alwaysexpand : Bool) : Bool :=
  alwaysexpand || !ebitmapIsEmpty set.negset || set.flags ≠ 0

/-- The values that a set lists, and those that it takes away. -/
def LinkTypeSet.listed (p : TypeTable) (set : LinkTypeSet) (alwaysexpand : Bool) : Set Nat :=
  {j | ∃ i ∈ set.types, j ∈ p.members (set.Expands alwaysexpand) i}

def LinkTypeSet.negated (p : TypeTable) (set : LinkTypeSet) : Set Nat := {j | ∃ i ∈ set.negset, j ∈ p.members true i}

/-- The values of a type set. -/
def LinkTypeSet.denote (p : TypeTable) (set : LinkTypeSet) (alwaysexpand : Bool) : Set Nat :=
  if set.flags &&& typeStar ≠ 0 then p.types \ set.negated p
  else if set.flags &&& typeComp ≠ 0 then symmDiff p.types (set.listed p alwaysexpand \ set.negated p)
  else set.listed p alwaysexpand \ set.negated p

variable {p : TypeTable} {set : LinkTypeSet} {e t types negTypes : Ebitmap} {S N : Set Nat} {expand : Bool}

/-! ### Sets of values as bitmaps -/

theorem Denotes.init : Denotes ebitmapInit ∅ := ⟨Ebitmap.Canonical.init, fun i => by simp⟩

theorem Denotes.union {e' : Ebitmap} {S' : Set Nat} (h : Denotes e S) (h' : Denotes e' S') :
    Denotes (ebitmapUnion e e') (S ∪ S') := by
  refine ⟨h.1.union h'.1, fun i => ?_⟩
  rw [mem_ebitmapUnion h.1 h'.1, h.2, h'.2, Set.mem_union]

/-- A bit that can be set or cleared. -/
theorem Denotes.setBit {e' : Ebitmap} {i : Nat} {value : Bool} (h : Denotes e S) (hi : i < 2 ^ 32)
    (he : ebitmapSetBit e i value = some e') : Denotes e' (if value then insert i S else S \ {i}) := by
  have hbit : i < 2 ^ 32 - 64 := by
    by_contra hlast
    have hnone : ebitmapSetBit e i value = none := by
      have := (ebitmapSetBit_eq_none_iff e (BitVec.ofNat 32 i) value).2 (by
        rw [BitVec.toNat_ofNat, Nat.mod_eq_of_lt hi]
        exact Nat.le_of_not_lt hlast)
      rwa [BitVec.toNat_ofNat, Nat.mod_eq_of_lt hi] at this
    rw [hnone] at he
    cases he
  cases value with
  | false =>
    obtain ⟨e'', he'', hcanon, hmem⟩ := ebitmapSetBit_false h.1 hbit
    rw [he''] at he
    cases he
    exact ⟨hcanon, fun j => by rw [hmem, h.2]; rfl⟩
  | true =>
    refine ⟨h.1.setBit hbit he, fun j => ?_⟩
    rw [mem_of_ebitmapSetBit h.1 hbit he, h.2]
    exact or_comm

theorem Denotes.congr {S' : Set Nat} (h : Denotes e S) (hS : S = S') : Denotes e S' := hS ▸ h

private theorem lt_of_positiveBit (he : e.Canonical) {i : Nat} (hi : i ∈ ebitmapPositiveBits e) :
    i < 2 ^ 32 - 64 := by
  have hmem := (mem_ebitmapPositiveBits he).1 hi
  have hlt := he.lt_of_mem hmem
  have hhigh := he.highbit_le
  omega

/-! ### The loops -/

private theorem union_members_cons (p : TypeTable) (expand : Bool) (S : Set Nat) (i : Nat) (bits : List Nat) :
    S ∪ p.members expand i ∪ {j | ∃ i ∈ bits, j ∈ p.members expand i} =
      S ∪ {j | ∃ i' ∈ i :: bits, j ∈ p.members expand i'} := by
  ext j
  simp only [Set.mem_union, Set.mem_ofPred_eq, List.exists_mem_cons_iff, or_assoc]

private theorem union_insert_cons {P : Nat → Prop} (S : Set Nat) {i : Nat} (rest : List Nat) (hi : P i) :
    insert i S ∪ {j | j ∈ rest ∧ P j} = S ∪ {j | j ∈ i :: rest ∧ P j} := by
  ext j
  simp only [Set.mem_union, Set.mem_ofPred_eq, List.mem_cons, Set.mem_insert_iff]
  constructor
  · rintro ((rfl | hj) | hj)
    · exact Or.inr ⟨Or.inl rfl, hi⟩
    · exact Or.inl hj
    · exact Or.inr ⟨Or.inr hj.1, hj.2⟩
  · rintro (hj | ⟨rfl | hj, hj'⟩)
    · exact Or.inl (Or.inr hj)
    · exact Or.inl (Or.inl rfl)
    · exact Or.inr ⟨hj, hj'⟩

private theorem mem_cons_skip {P : Nat → Prop} {i : Nat} (rest : List Nat) (hi : ¬ P i) :
    ({j | j ∈ rest ∧ P j} : Set Nat) = {j | j ∈ i :: rest ∧ P j} := by
  ext j
  simp only [Set.mem_ofPred_eq, List.mem_cons]
  refine ⟨fun h => ⟨Or.inr h.1, h.2⟩, fun h => ⟨h.1.resolve_left fun heq => ?_, h.2⟩⟩
  rw [heq] at h
  exact hi h.2

/-- The attributes of the policy have canonical sets of members. -/
def TypeTable.Canonical (p : TypeTable) : Prop :=
  ∀ (i : Nat) (type : KernelType), p.typeValToStruct i = some type → type.types.Canonical

private theorem typeSetExpandTypes_spec (hp : p.Canonical) (bits : List Nat) (hbits : ∀ i ∈ bits, i < 2 ^ 32)
    (h : Denotes e S) (hok : typeSetExpandTypes p expand bits e = .ok types) :
    Denotes types (S ∪ {j | ∃ i ∈ bits, j ∈ p.members expand i}) := by
  induction bits generalizing e S with
  | nil =>
    cases hok
    exact h.congr (by simp)
  | cons i bits ih =>
    have hrest : ∀ i ∈ bits, i < 2 ^ 32 := fun i hi => hbits i (List.mem_cons_of_mem _ hi)
    rw [← union_members_cons]
    rw [typeSetExpandTypes] at hok
    split at hok
    · cases hok
    · split at hok
      · cases hok
      · rename_i type htype
        split at hok
        · rename_i hattr
          have hM : p.members expand i = {j | j ∈ type.types} := by
            rw [TypeTable.members, htype]
            exact if_pos hattr
          rw [hM]
          exact ih hrest (h.union ⟨hp i type htype, fun j => Iff.rfl⟩) hok
        · rename_i hattr
          have hM : p.members expand i = {i} := by
            rw [TypeTable.members, htype]
            exact if_neg hattr
          split at hok
          · cases hok
          · rename_i e' hset
            rw [hM, Set.union_singleton]
            exact ih hrest (h.setBit (hbits i (List.mem_cons_self ..)) hset) hok

private theorem typeSetExpandNeg_spec (hp : p.Canonical) (bits : List Nat) (hbits : ∀ i ∈ bits, i < 2 ^ 32)
    (h : Denotes e S) (hok : typeSetExpandNeg p bits e = .ok negTypes) :
    Denotes negTypes (S ∪ {j | ∃ i ∈ bits, j ∈ p.members true i}) := by
  induction bits generalizing e S with
  | nil =>
    cases hok
    exact h.congr (by simp)
  | cons i bits ih =>
    have hrest : ∀ i ∈ bits, i < 2 ^ 32 := fun i hi => hbits i (List.mem_cons_of_mem _ hi)
    rw [← union_members_cons]
    rw [typeSetExpandNeg] at hok
    split at hok
    · cases hok
    · split at hok
      · rename_i type htype
        split at hok
        · rename_i hattr
          have hM : p.members true i = {j | j ∈ type.types} := by
            rw [TypeTable.members, htype]
            exact if_pos ⟨hattr, Or.inl rfl⟩
          rw [hM]
          exact ih hrest (h.union ⟨hp i type htype, fun j => Iff.rfl⟩) hok
        · rename_i hattr
          have hM : p.members true i = {i} := by
            rw [TypeTable.members, htype]
            exact if_neg fun h => hattr h.1
          split at hok
          · cases hok
          · rename_i e' hset
            rw [hM, Set.union_singleton]
            exact ih hrest (h.setBit (hbits i (List.mem_cons_self ..)) hset) hok
      · rename_i hnone
        have hM : p.members true i = {i} := by
          rw [TypeTable.members, hnone]
        split at hok
        · cases hok
        · rename_i e' hset
          rw [hM, Set.union_singleton]
          exact ih hrest (h.setBit (hbits i (List.mem_cons_self ..)) hset) hok

private theorem typeSetExpandStar_spec (hneg : Denotes negTypes N) (rest : List Nat) (hrest : ∀ i ∈ rest, i < 2 ^ 32)
    (h : Denotes e S) (hok : typeSetExpandStar p negTypes rest e = .ok t) :
    Denotes t (S ∪ {i | i ∈ rest ∧ p.isAttrib i = false ∧ i ∉ N}) := by
  induction rest generalizing e S with
  | nil =>
    cases hok
    exact h.congr (by simp)
  | cons i rest ih =>
    have htail : ∀ i ∈ rest, i < 2 ^ 32 := fun i hi => hrest i (List.mem_cons_of_mem _ hi)
    have hget : ebitmapGetBit negTypes i = true ↔ i ∈ N := (ebitmapGetBit_iff hneg.1 i).trans (hneg.2 i)
    rw [typeSetExpandStar] at hok
    split at hok
    · rename_i hin
      rw [← mem_cons_skip rest fun hi => hi.2 (hget.1 hin)]
      exact ih htail h hok
    · rename_i hout
      split at hok
      · rename_i hattr
        rw [← mem_cons_skip rest fun hi => by rw [hattr] at hi; exact Bool.noConfusion hi.1]
        exact ih htail h hok
      · rename_i hattr
        split at hok
        · cases hok
        · rename_i e' hset
          rw [← union_insert_cons S rest ⟨by simpa using hattr, fun hi => hout (hget.2 hi)⟩]
          exact ih htail (h.setBit (hrest i (List.mem_cons_self ..)) hset) hok

private theorem typeSetExpandMinus_spec (hneg : Denotes negTypes N) (bits : List Nat) (hbits : ∀ i ∈ bits, i < 2 ^ 32)
    (h : Denotes e S) (hok : typeSetExpandMinus negTypes bits e = .ok t) :
    Denotes t (S ∪ {i | i ∈ bits ∧ i ∉ N}) := by
  induction bits generalizing e S with
  | nil =>
    cases hok
    exact h.congr (by simp)
  | cons i bits ih =>
    have htail : ∀ i ∈ bits, i < 2 ^ 32 := fun i hi => hbits i (List.mem_cons_of_mem _ hi)
    have hget : ebitmapGetBit negTypes i = true ↔ i ∈ N := (ebitmapGetBit_iff hneg.1 i).trans (hneg.2 i)
    rw [typeSetExpandMinus] at hok
    split at hok
    · rename_i hout
      have hi : i ∉ N := fun h => by simp [hget.2 h] at hout
      split at hok
      · cases hok
      · rename_i e' hset
        rw [← union_insert_cons S bits hi]
        exact ih htail (h.setBit (hbits i (List.mem_cons_self ..)) hset) hok
    · rename_i hin
      have hi : i ∈ N := hget.1 (by simpa using hin)
      rw [← mem_cons_skip bits (not_not.2 hi)]
      exact ih htail h hok

/-- Every value of the list that is not that of an attribute is flipped. -/
private theorem typeSetExpandComp_spec (rest : List Nat) (hrest : ∀ i ∈ rest, i < 2 ^ 32) (hnodup : rest.Nodup)
    (h : Denotes e S) (hok : typeSetExpandComp p rest e = .ok t) :
    Denotes t (symmDiff {i | i ∈ rest ∧ p.isAttrib i = false} S) := by
  induction rest generalizing e S with
  | nil =>
    cases hok
    refine h.congr ?_
    ext j
    simp [Set.mem_symmDiff]
  | cons i rest ih =>
    have htail : ∀ i ∈ rest, i < 2 ^ 32 := fun i hi => hrest i (List.mem_cons_of_mem _ hi)
    have hnew : i ∉ rest := (List.nodup_cons.1 hnodup).1
    have hget : ebitmapGetBit e i = true ↔ i ∈ S := (ebitmapGetBit_iff h.1 i).trans (h.2 i)
    rw [typeSetExpandComp] at hok
    split at hok
    · rename_i hattr
      split at hok
      · cases hok
      · rw [← mem_cons_skip rest fun hi => by rw [hattr] at hi; exact Bool.noConfusion hi]
        exact ih htail (List.nodup_cons.1 hnodup).2 h hok
    · rename_i hattr
      have hattr' : p.isAttrib i = false := by simpa using hattr
      split at hok
      · cases hok
      · rename_i e' hset
        have hset' := h.setBit (hrest i (List.mem_cons_self ..)) hset
        refine (ih htail (List.nodup_cons.1 hnodup).2 hset' hok).congr ?_
        ext j
        simp only [Set.mem_symmDiff, Set.mem_ofPred_eq, List.mem_cons]
        by_cases hj : j = i
        · subst hj
          by_cases hS : j ∈ S
          · simp [hget.2 hS, hS, hnew, hattr']
          · have hfalse : ebitmapGetBit e j = false := by
              rw [Bool.eq_false_iff]
              exact fun h => hS (hget.1 h)
            simp [hfalse, hS, hnew, hattr']
        · have hflip : (j ∈ if (!ebitmapGetBit e i) = true then insert i S else S \ {i}) ↔ j ∈ S := by
            split
            · simp [hj]
            · simp [hj]
          simp only [hflip, hj, false_or]

/-! ### Success -/

private theorem exists_setBit {i : Nat} (value : Bool) (h : Denotes e S) (hi : i < 2 ^ 32 - 64) :
    ∃ e', ebitmapSetBit e i value = some e' := by
  cases value with
  | false =>
    obtain ⟨e', he', -⟩ := ebitmapSetBit_false h.1 hi
    exact ⟨e', he'⟩
  | true => exact ⟨_, ebitmapSetBit_true hi e⟩

private theorem typeSetExpandTypes_ok (expand : Bool) (hp : p.Canonical) (bits : List Nat) (h : Denotes e S)
    (hbits : ∀ i ∈ bits, i < 2 ^ 32 - 64 ∧ i < p.nprim.toNat ∧ (p.typeValToStruct i).isSome) :
    ∃ types, typeSetExpandTypes p expand bits e = .ok types := by
  induction bits generalizing e S with
  | nil => exact ⟨e, rfl⟩
  | cons i bits ih =>
    obtain ⟨hi, hlt, hsome⟩ := hbits i (List.mem_cons_self ..)
    have hrest := fun i hi => hbits i (List.mem_cons_of_mem _ hi)
    obtain ⟨type, htype⟩ := Option.isSome_iff_exists.1 hsome
    rw [typeSetExpandTypes, if_neg (by omega), htype]
    dsimp only
    split
    · exact ih (h.union ⟨hp i type htype, fun j => Iff.rfl⟩) hrest
    · obtain ⟨e', he'⟩ := exists_setBit true h hi
      rw [he']
      exact ih (h.setBit (by omega) he') hrest

private theorem typeSetExpandNeg_ok (hp : p.Canonical) (bits : List Nat) (h : Denotes e S)
    (hbits : ∀ i ∈ bits, i < 2 ^ 32 - 64 ∧ i < p.nprim.toNat) :
    ∃ negTypes, typeSetExpandNeg p bits e = .ok negTypes := by
  induction bits generalizing e S with
  | nil => exact ⟨e, rfl⟩
  | cons i bits ih =>
    obtain ⟨hi, hlt⟩ := hbits i (List.mem_cons_self ..)
    have hrest := fun i hi => hbits i (List.mem_cons_of_mem _ hi)
    obtain ⟨e', he'⟩ := exists_setBit true h hi
    rw [typeSetExpandNeg, if_neg (by omega)]
    split
    · rename_i type htype
      split
      · exact ih (h.union ⟨hp i type htype, fun j => Iff.rfl⟩) hrest
      · rw [he']
        exact ih (h.setBit (by omega) he') hrest
    · rw [he']
      exact ih (h.setBit (by omega) he') hrest

private theorem typeSetExpandStar_ok (rest : List Nat) (hrest : ∀ i ∈ rest, i < 2 ^ 32 - 64) (h : Denotes e S) :
    ∃ t, typeSetExpandStar p negTypes rest e = .ok t := by
  induction rest generalizing e S with
  | nil => exact ⟨e, rfl⟩
  | cons i rest ih =>
    have htail := fun i hi => hrest i (List.mem_cons_of_mem _ hi)
    have hi := hrest i (List.mem_cons_self ..)
    obtain ⟨e', he'⟩ := exists_setBit true h hi
    rw [typeSetExpandStar]
    split
    · exact ih htail h
    · split
      · exact ih htail h
      · rw [he']
        exact ih htail (h.setBit (by omega) he')

private theorem typeSetExpandMinus_ok (negTypes : Ebitmap) (bits : List Nat) (hbits : ∀ i ∈ bits, i < 2 ^ 32 - 64)
    (h : Denotes e S) :
    ∃ t, typeSetExpandMinus negTypes bits e = .ok t := by
  induction bits generalizing e S with
  | nil => exact ⟨e, rfl⟩
  | cons i bits ih =>
    have htail := fun i hi => hbits i (List.mem_cons_of_mem _ hi)
    have hi := hbits i (List.mem_cons_self ..)
    obtain ⟨e', he'⟩ := exists_setBit true h hi
    rw [typeSetExpandMinus]
    split
    · rw [he']
      exact ih htail (h.setBit (by omega) he')
    · exact ih htail h

/-- The assertion holds as long as the set has no attribute: the loop never adds one. -/
private theorem typeSetExpandComp_ok (rest : List Nat) (hrest : ∀ i ∈ rest, i < 2 ^ 32 - 64) (h : Denotes e S)
    (hattr : ∀ i ∈ S, p.isAttrib i = false) : ∃ t, typeSetExpandComp p rest e = .ok t := by
  induction rest generalizing e S with
  | nil => exact ⟨e, rfl⟩
  | cons i rest ih =>
    have htail := fun i hi => hrest i (List.mem_cons_of_mem _ hi)
    have hi := hrest i (List.mem_cons_self ..)
    rw [typeSetExpandComp]
    split
    · rename_i his
      have hget : ¬ ebitmapGetBit e i = true := by
        rw [ebitmapGetBit_iff h.1, h.2]
        intro hmem
        rw [hattr i hmem] at his
        exact Bool.noConfusion his
      rw [if_neg hget]
      exact ih htail h hattr
    · rename_i hnot
      obtain ⟨e', he'⟩ := exists_setBit (!ebitmapGetBit e i) h hi
      rw [he']
      refine ih htail (h.setBit (by omega) he') fun j hj => ?_
      split at hj
      · rcases hj with rfl | hj
        · simpa using hnot
        · exact hattr j hj
      · exact hattr j hj.1

/-! ### The whole function -/

/-- The members of attributes are not attributes. -/
def TypeTable.Flat (p : TypeTable) : Prop :=
  ∀ (i : Nat) (type : KernelType), p.typeValToStruct i = some type → type.flavor = .attrib →
    ∀ j ∈ type.types, p.isAttrib j = false

private theorem isAttrib_of_listed (hflat : p.Flat) (hflags : set.flags ≠ 0) {alwaysexpand : Bool} {j : Nat}
    (hj : j ∈ set.listed p alwaysexpand) : p.isAttrib j = false := by
  obtain ⟨i, -, hj⟩ := hj
  have hexp : set.Expands alwaysexpand = true := by
    rw [LinkTypeSet.Expands, decide_eq_true hflags, Bool.or_true]
  rw [hexp, TypeTable.members] at hj
  split at hj
  · rename_i type htype
    split at hj
    · rename_i hattr
      exact hflat i type htype hattr.1 j hj
    · rename_i hattr
      rw [show j = i from hj, TypeTable.isAttrib, htype]
      exact decide_eq_false fun h => hattr ⟨h, Or.inl rfl⟩
  · rename_i hnone
    rw [show j = i from hj, TypeTable.isAttrib, hnone]

section

variable {p : TypeTable} {set : LinkTypeSet} {alwaysexpand : Bool}

private theorem lt_word_of_positiveBit {e : Ebitmap} (he : e.Canonical) : ∀ i ∈ ebitmapPositiveBits e, i < 2 ^ 32 :=
  fun _ hi => Nat.lt_of_lt_of_le (lt_of_positiveBit he hi) (Nat.sub_le _ _)

private theorem lt_word_of_value : ∀ i ∈ List.range p.nprim.toNat, i < 2 ^ 32 :=
  fun _ hi => Nat.lt_trans (List.mem_range.1 hi) p.nprim.isLt

/-- What the first loop computes. -/
private theorem denotes_listed (hp : p.Canonical) (htypes : set.types.Canonical) {types : Ebitmap}
    (h : typeSetExpandTypes p (set.Expands alwaysexpand) (ebitmapPositiveBits set.types) ebitmapInit = .ok types) :
    Denotes types (set.listed p alwaysexpand) := by
  refine (typeSetExpandTypes_spec hp _ (lt_word_of_positiveBit htypes) .init h).congr ?_
  simp only [Set.empty_union, mem_ebitmapPositiveBits htypes]
  rfl

/-- What the second loop computes. -/
private theorem denotes_negated (hp : p.Canonical) (hnegset : set.negset.Canonical) {negTypes : Ebitmap}
    (h : typeSetExpandNeg p (ebitmapPositiveBits set.negset) ebitmapInit = .ok negTypes) :
    Denotes negTypes (set.negated p) := by
  refine (typeSetExpandNeg_spec hp _ (lt_word_of_positiveBit hnegset) .init h).congr ?_
  simp only [Set.empty_union, mem_ebitmapPositiveBits hnegset]
  rfl

/-- What the third loop computes. -/
private theorem denotes_minus {types negTypes t : Ebitmap} (ht : Denotes types (set.listed p alwaysexpand))
    (hn : Denotes negTypes (set.negated p))
    (h : typeSetExpandMinus negTypes (ebitmapPositiveBits types) ebitmapInit = .ok t) :
    Denotes t (set.listed p alwaysexpand \ set.negated p) := by
  refine (typeSetExpandMinus_spec hn _ (lt_word_of_positiveBit ht.1) .init h).congr ?_
  simp only [Set.empty_union, mem_ebitmapPositiveBits ht.1, ht.2]
  rfl

/-- What is computed is what the set denotes. -/
private theorem denotes_of_typeSetExpand (hp : p.Canonical) (htypes : set.types.Canonical)
    (hnegset : set.negset.Canonical) {t : Ebitmap} (hok : typeSetExpand p set alwaysexpand = .ok t) :
    Denotes t (set.denote p alwaysexpand) := by
  unfold typeSetExpand at hok
  rw [← LinkTypeSet.Expands] at hok
  dsimp only at hok
  split at hok
  · cases hok
  · rename_i types htys
    split at hok
    · cases hok
    · rename_i negTypes hneg
      rw [LinkTypeSet.denote]
      split at hok
      · rename_i hstar
        rw [if_pos hstar]
        refine (typeSetExpandStar_spec (denotes_negated hp hnegset hneg) _ lt_word_of_value .init hok).congr ?_
        ext i
        simp only [Set.empty_union, List.mem_range, TypeTable.types, Set.mem_ofPred_eq, Set.mem_sdiff, and_assoc]
      · rename_i hstar
        rw [if_neg hstar]
        split at hok
        · cases hok
        · rename_i t' hmin
          have ht' := denotes_minus (denotes_listed hp htypes htys) (denotes_negated hp hnegset hneg) hmin
          split at hok
          · rename_i hcomp
            rw [if_pos hcomp]
            refine (typeSetExpandComp_spec _ lt_word_of_value List.nodup_range ht' hok).congr ?_
            simp only [List.mem_range]
            rfl
          · rename_i hcomp
            rw [if_neg hcomp]
            cases hok
            exact ht'

/-- A set whose values are in the table is expanded. -/
private theorem exists_typeSetExpand (hp : p.Canonical) (htypes : set.types.Canonical)
    (hnegset : set.negset.Canonical)
    (hnprim : p.nprim.toNat ≤ lastWord) (hdata : ∀ i ∈ set.types, i < p.nprim.toNat ∧ (p.typeValToStruct i).isSome)
    (hindex : ∀ i ∈ set.negset, i < p.nprim.toNat) (hflat : p.Flat) :
    ∃ t, typeSetExpand p set alwaysexpand = .ok t := by
  have hrange : ∀ i ∈ List.range p.nprim.toNat, i < 2 ^ 32 - 64 := fun i hi =>
    Nat.lt_of_lt_of_le (List.mem_range.1 hi) hnprim
  obtain ⟨types, htys⟩ := typeSetExpandTypes_ok (set.Expands alwaysexpand) hp
    (ebitmapPositiveBits set.types) .init fun i hi =>
      ⟨lt_of_positiveBit htypes hi, hdata i ((mem_ebitmapPositiveBits htypes).1 hi)⟩
  obtain ⟨negTypes, hneg⟩ := typeSetExpandNeg_ok hp (ebitmapPositiveBits set.negset) .init fun i hi =>
    ⟨lt_of_positiveBit hnegset hi, hindex i ((mem_ebitmapPositiveBits hnegset).1 hi)⟩
  have hlisted := denotes_listed hp htypes htys
  unfold typeSetExpand
  rw [← LinkTypeSet.Expands]
  dsimp only
  rw [htys]
  dsimp only
  rw [hneg]
  dsimp only
  split
  · exact typeSetExpandStar_ok _ hrange .init
  · obtain ⟨t, hmin⟩ := typeSetExpandMinus_ok negTypes (ebitmapPositiveBits types)
      (fun i hi => lt_of_positiveBit hlisted.1 hi) .init
    rw [hmin]
    dsimp only
    split
    · rename_i hcomp
      have hflags : set.flags ≠ 0 := by
        intro h
        rw [h] at hcomp
        exact hcomp (by decide)
      exact typeSetExpandComp_ok _ hrange (denotes_minus hlisted (denotes_negated hp hnegset hneg) hmin)
        fun i hi => isAttrib_of_listed hflat hflags hi.1
    · exact ⟨t, rfl⟩

end

/-- Every result of `type_set_expand` is the denotation of the set; and there is a result when the listed values have
types, the values of the negative set are in the array, and no attribute is a member of an attribute. -/
theorem typeSetExpand_denotes (p : TypeTable) (set : LinkTypeSet) (alwaysexpand : Bool) (hp : p.Canonical)
    (htypes : set.types.Canonical) (hnegset : set.negset.Canonical) :
    (∀ t, typeSetExpand p set alwaysexpand = .ok t →
      t.Canonical ∧ ∀ i, i ∈ t ↔ i ∈ set.denote p alwaysexpand) ∧
    (p.nprim.toNat ≤ lastWord → (∀ i ∈ set.types, i < p.nprim.toNat ∧ (p.typeValToStruct i).isSome) →
      (∀ i ∈ set.negset, i < p.nprim.toNat) → p.Flat → ∃ t, typeSetExpand p set alwaysexpand = .ok t) := by
  constructor
  · intro t hok
    exact denotes_of_typeSetExpand hp htypes hnegset hok
  · intro hnprim hdata hindex hflat
    exact exists_typeSetExpand hp htypes hnegset hnprim hdata hindex hflat

/-- A policy with the types 1 and 3 and the attribute 2 with the member 1; the value 4 has no type. -/
def attributeTable : TypeTable where
  nprim := 4
  typeValToStruct := fun i =>
    match i with
    | 0 => some ⟨⟨1, .type, 0⟩, 1, ebitmapInit, 0⟩
    | 1 => some ⟨⟨2, .attrib, 0⟩, 1, ebitmapOfList [0], 0⟩
    | 2 => some ⟨⟨3, .type, 0⟩, 1, ebitmapInit, 0⟩
    | _ => none

theorem attributeTable_canonical : attributeTable.Canonical := by
  intro i type htype
  match i with
  | 0 | 2 =>
    cases htype
    exact .init
  | 1 =>
    cases htype
    exact ebitmapOfList_canonical _
  | i + 3 => cases htype

/-- The complement of the attribute has the other type. -/
theorem typeSetExpand_denotes_comp :
    ∃ t, typeSetExpand attributeTable ⟨ebitmapOfList [1], ebitmapInit, typeComp⟩ false = .ok t ∧ 2 ∈ t ∧
      ∀ i, i ∈ t ↔ i ∈ LinkTypeSet.denote attributeTable ⟨ebitmapOfList [1], ebitmapInit, typeComp⟩ false :=
  ⟨_, rfl, by decide, ((typeSetExpand_denotes attributeTable ⟨ebitmapOfList [1], ebitmapInit, typeComp⟩ false
    attributeTable_canonical (ebitmapOfList_canonical _) .init).1 _ rfl).2⟩

/-- The set `*` has the value 4, of which there is no type; and the set with both flags is not complemented. -/
theorem typeSetExpand_gap :
    attributeTable.typeValToStruct 3 = none ∧
      (∃ t, typeSetExpand attributeTable ⟨ebitmapInit, ebitmapInit, typeStar⟩ true = .ok t ∧ 3 ∈ t) ∧
      typeSetExpand attributeTable ⟨ebitmapInit, ebitmapInit, typeStar ||| typeComp⟩ true =
        typeSetExpand attributeTable ⟨ebitmapInit, ebitmapInit, typeStar⟩ true :=
  ⟨rfl, ⟨_, rfl, by decide⟩, rfl⟩

end Sepol
