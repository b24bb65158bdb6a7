import Sepol.BoundsRecursion
import Sepol.MlsGrammar
import Sepol.TypeAttrMap

/-!
# The two maps are inverse to each other

For a type and an attribute that is kept, the type has the bit of the attribute in `type_attr_map` exactly when the
attribute has the bit of the type in `attr_type_map`, whether the maps are read or made by an expansion.
-/

namespace Sepol

/-! ### Setting bits in several bitmaps -/

def Canonicals (maps : Nat → Ebitmap) : Prop := ∀ i, (maps i).Canonical

theorem canonicals_update {maps : Nat → Ebitmap} (h : Canonicals maps) {e : Ebitmap} (he : e.Canonical) (i : Nat) :
    Canonicals (Function.update maps i e) := by
  intro j
  by_cases hj : j = i
  · rw [hj, Function.update_self]
    exact he
  · rw [Function.update_of_ne hj]
    exact h j

/-- What setting one bit in some of the bitmaps does to them. -/
private theorem setColumn_spec {v : Nat} (hv : v < 2 ^ 32) {bits : List Nat} {maps maps' : Nat → Ebitmap}
    (hmaps : Canonicals maps) (h : setColumn v bits maps = some maps') :
    Canonicals maps' ∧ ∀ i j, j ∈ maps' i ↔ j ∈ maps i ∨ (i ∈ bits ∧ j = v) := by
  induction bits generalizing maps with
  | nil =>
    obtain rfl := Option.some.inj h
    exact ⟨hmaps, fun i j => by simp⟩
  | cons k bits ih =>
    rw [setColumn] at h
    obtain ⟨e, he, h⟩ := Option.bind_eq_some_iff.1 h
    have hlt := lt_of_ebitmapSetBit he hv
    obtain ⟨hcanonical, hmem⟩ := ih (canonicals_update hmaps ((hmaps k).setBit hlt he) k) h
    refine ⟨hcanonical, fun i j => ?_⟩
    rw [hmem]
    by_cases hi : i = k
    · subst hi
      rw [Function.update_self, mem_of_ebitmapSetBit (hmaps i) hlt he]
      simp only [List.mem_cons, true_or, true_and]
      tauto
    · rw [Function.update_of_ne hi]
      simp only [List.mem_cons, hi, false_or]

private theorem setOwnBit_spec {i : Nat} (hi : i < 2 ^ 32) {maps maps' : Nat → Ebitmap} (hmaps : Canonicals maps)
    (h : setOwnBit i maps = some maps') :
    Canonicals maps' ∧ ∀ k j, j ∈ maps' k ↔ j ∈ maps k ∨ (k = i ∧ j = i) := by
  obtain ⟨hcanonical, hmem⟩ := setColumn_spec hi hmaps h
  refine ⟨hcanonical, fun k j => ?_⟩
  rw [hmem, List.mem_singleton]

/-! ### Reading -/

variable {p : KernelPolicydb}

/-- The maps after the indices below `n` were read. -/
structure ReadMaps (p : KernelPolicydb) (n : Nat) (maps : TypeAttrMaps) : Prop where
  types : Canonicals maps.typeAttrMap
  attrs : Canonicals maps.attrTypeMap
  dual : ∀ i j, i ≠ j → (j ∈ maps.typeAttrMap i ↔ i ∈ maps.attrTypeMap j)
  rest : ∀ i, n ≤ i → ∀ j, j ∉ maps.typeAttrMap i
  own : ∀ i < n, ∀ type, p.typeValToStruct i = some type → type.flavor ≠ .attrib →
    i ∈ maps.typeAttrMap i ∧ i ∈ maps.attrTypeMap i

private theorem setOwnIf_spec {i : Nat} (hi : i < 2 ^ 32) {c : Bool} {maps maps' : Nat → Ebitmap}
    (hmaps : Canonicals maps) (h : setOwnIf c i maps = some maps') :
    Canonicals maps' ∧ ∀ k j, j ∈ maps' k ↔ j ∈ maps k ∨ (c = true ∧ k = i ∧ j = i) := by
  cases c with
  | false =>
    obtain rfl := Option.some.inj h
    exact ⟨hmaps, fun k j => by simp⟩
  | true =>
    obtain ⟨hcanonical, hmem⟩ := setOwnBit_spec hi hmaps h
    exact ⟨hcanonical, fun k j => by rw [hmem]; simp⟩

/-- The part of one pass that reads a bitmap. -/
private theorem typeAttrMapRead_bits {n : Nat} (hn : n < 2 ^ 32) {maps maps' : TypeAttrMaps} {fp rest : List Byte}
    (h : ReadMaps p n maps)
    (hread : typeAttrMapReadBits p n maps fp = some (maps', rest)) :
    Canonicals maps'.typeAttrMap ∧ Canonicals maps'.attrTypeMap ∧
      (∀ i j, i ≠ j → (j ∈ maps'.typeAttrMap i ↔ i ∈ maps'.attrTypeMap j)) ∧
      (∀ i, n < i → ∀ j, j ∉ maps'.typeAttrMap i) ∧
      (∀ i < n, ∀ j, j ∈ maps.typeAttrMap i → j ∈ maps'.typeAttrMap i) ∧
      ∀ i j, j ∈ maps.attrTypeMap i → j ∈ maps'.attrTypeMap i := by
  unfold typeAttrMapReadBits at hread
  split at hread
  · cases hread
    exact ⟨h.types, h.attrs, h.dual, fun i hi j => h.rest i (by omega) j, fun i _ j hj => hj, fun i j hj => hj⟩
  · obtain ⟨⟨e, fp'⟩, he, hread⟩ := Option.bind_eq_some_iff.1 hread
    obtain ⟨_, _, hread⟩ := Option.bind_eq_some_iff.1 hread
    obtain ⟨attrTypeMap, hcolumn, hread⟩ := Option.bind_eq_some_iff.1 hread
    cases hread
    have hcanonical := (ebitmapRead_spec he).1
    obtain ⟨hattrs, hmem⟩ := setColumn_spec hn h.attrs hcolumn
    refine ⟨canonicals_update h.types hcanonical n, hattrs, fun i j hij => ?_, fun i hi j => ?_, fun i hi j hj => ?_,
      fun i j hj => (hmem i j).2 (Or.inl hj)⟩
    · rw [hmem]
      simp only [List.mem_filter, mem_ebitmapPositiveBits hcanonical, decide_eq_true_eq]
      by_cases hin : i = n
      · subst hin
        rw [Function.update_self]
        -- before this pass no bitmap of `attr_type_map` has the bit
        have hnot : i ∉ maps.attrTypeMap j := fun hi => h.rest i (le_refl i) j ((h.dual i j hij).2 hi)
        constructor
        · intro hj
          exact Or.inr ⟨⟨hj, Ne.symm hij⟩, rfl⟩
        · rintro (hi | ⟨⟨hj, _⟩, _⟩)
          · exact absurd hi hnot
          · exact hj
      · rw [Function.update_of_ne hin, h.dual i j hij]
        simp [hin]
    · dsimp only
      rw [Function.update_of_ne (by omega)]
      exact h.rest i (by omega) j
    · dsimp only
      rw [Function.update_of_ne (by omega)]
      exact hj

/-- One pass of the loop. -/
private theorem typeAttrMapRead_step {n : Nat} (hn : n < 2 ^ 32) {maps maps' : TypeAttrMaps} {fp rest : List Byte}
    (h : ReadMaps p n maps) (hread : typeAttrMapRead p n maps fp = some (maps', rest)) :
    ReadMaps p (n + 1) maps' := by
  unfold typeAttrMapRead at hread
  obtain ⟨⟨maps1, fp1⟩, hbits, hread⟩ := Option.bind_eq_some_iff.1 hread
  obtain ⟨typeAttrMap, htypes, hread⟩ := Option.bind_eq_some_iff.1 hread
  obtain ⟨attrTypeMap, hattrs, hread⟩ := Option.bind_eq_some_iff.1 hread
  cases hread
  obtain ⟨hcanT, hcanA, hdual, hrest, hkeepT, hkeepA⟩ := typeAttrMapRead_bits hn h hbits
  obtain ⟨hcanT', hmemT⟩ := setOwnIf_spec hn hcanT htypes
  obtain ⟨hcanA', hmemA⟩ := setOwnIf_spec hn hcanA hattrs
  refine ⟨hcanT', hcanA', fun i j hij => ?_, fun i hi j hj => ?_, fun i hi type htype hflavor => ?_⟩
  · have hT : j ∈ typeAttrMap i ↔ j ∈ maps1.typeAttrMap i := by
      rw [hmemT]
      refine or_iff_left ?_
      rintro ⟨_, rfl, rfl⟩
      exact hij rfl
    have hA : i ∈ attrTypeMap j ↔ i ∈ maps1.attrTypeMap j := by
      rw [hmemA]
      refine or_iff_left ?_
      rintro ⟨_, rfl, rfl⟩
      exact hij rfl
    dsimp only
    rw [hT, hA]
    exact hdual i j hij
  · rcases (hmemT i j).1 hj with hj | ⟨_, rfl, _⟩
    · exact hrest i (by omega) j hj
    · omega
  · by_cases hin : i = n
    · subst hin
      refine ⟨(hmemT i i).2 (Or.inr ⟨?_, rfl, rfl⟩), (hmemA i i).2 (Or.inr ⟨?_, rfl, rfl⟩)⟩
      · rw [htype]
        rfl
      · rw [htype]
        simpa using hflavor
    · obtain ⟨hT, hA⟩ := h.own i (by omega) type htype hflavor
      exact ⟨(hmemT i i).2 (Or.inl (hkeepT i (by omega) i hT)), (hmemA i i).2 (Or.inl (hkeepA i i hA))⟩

private theorem typeAttrMapsRead_run {n k : Nat} (hk : n + k ≤ 2 ^ 32) {maps maps' : TypeAttrMaps}
    {fp rest : List Byte}
    (h : ReadMaps p n maps) (hread : typeAttrMapsRead p (List.range' n k) maps fp = some (maps', rest)) :
    ReadMaps p (n + k) maps' := by
  induction k generalizing n maps fp with
  | zero =>
    cases hread
    exact h
  | succ k ih =>
    rw [List.range'_succ, typeAttrMapsRead] at hread
    obtain ⟨⟨maps1, fp1⟩, hstep, hread⟩ := Option.bind_eq_some_iff.1 hread
    have hnext := ih (by omega) (typeAttrMapRead_step (by omega) h hstep) hread
    rw [Nat.add_right_comm] at hnext
    exact hnext

private theorem typeAttrMapsInit_read : ReadMaps p 0 typeAttrMapsInit :=
  ⟨fun _ => .init, fun _ => .init, fun i j _ => by simp [typeAttrMapsInit], fun i _ j => by simp [typeAttrMapsInit],
    fun i hi => absurd hi (Nat.not_lt_zero i)⟩

/-! ### The maps of an expansion -/

/-- The entry of an attribute that is kept as an attribute. -/
def KeptAttribute (e : CString × KernelType) : Prop :=
  e.2.flavor = .attrib ∧ e.2.flags &&& typeFlagsExpandAttrTrue = 0

/-- The maps after the entries of a set were visited. -/
structure VisitedMaps (nprim : Nat) (D : Set (CString × KernelType)) (maps : TypeAttrMaps) : Prop where
  pos : ∀ e ∈ D, e.2.value ≠ 0
  types : Canonicals maps.typeAttrMap
  attrs : Canonicals maps.attrTypeMap
  column : ∀ i j, i ≠ j →
    (j ∈ maps.typeAttrMap i ↔ ∃ e ∈ D, KeptAttribute e ∧ e.2.value = j + 1 ∧ i ∈ e.2.types)
  row : ∀ e ∈ D, KeptAttribute e → ∀ t, t + 1 ≠ e.2.value → (t ∈ maps.attrTypeMap (e.2.value - 1) ↔ t ∈ e.2.types)
  ownType : ∀ i < nprim, (∀ e ∈ D, e.2.flavor = .attrib → e.2.value ≠ i + 1) → i ∈ maps.typeAttrMap i
  ownAttr : ∀ e ∈ D, e.2.flavor ≠ .attrib → (∀ f ∈ D, f.2.flavor = .attrib → f.2.value ≠ e.2.value) →
    e.2.value - 1 ∈ maps.attrTypeMap (e.2.value - 1)

variable {nprim : Nat} {D : Set (CString × KernelType)} {maps maps' : TypeAttrMaps} {e : CString × KernelType}

/-- A kept attribute adds its column to the one map and its row to the other. -/
private theorem VisitedMaps.kept (h : VisitedMaps nprim D maps) (hkept : KeptAttribute e) (hvalue : e.2.value ≠ 0)
    (hsmall : e.2.value ≤ uint16Max) (htypes : e.2.types.Canonical)
    (hnew : ∀ f ∈ D, f.2.flavor = .attrib → f.2.value ≠ e.2.value) {typeAttrMap : Nat → Ebitmap}
    (hcolumn : setColumn (e.2.value - 1) (ebitmapPositiveBits e.2.types) maps.typeAttrMap = some typeAttrMap) :
    VisitedMaps nprim (insert e D)
      ⟨typeAttrMap, Function.update maps.attrTypeMap (e.2.value - 1) (ebitmapCpy e.2.types)⟩ := by
  unfold uint16Max at hsmall
  obtain ⟨hcanonical, hmem⟩ := setColumn_spec (by omega) h.types hcolumn
  rw [ebitmapCpy_eq]
  have hpos : ∀ f ∈ insert e D, f.2.value ≠ 0 := by
    intro f hf
    rcases Set.mem_insert_iff.1 hf with rfl | hf
    · exact hvalue
    · exact h.pos f hf
  -- another entry of `D` with this value is no attribute
  have hother : ∀ f ∈ D, f.2.value - 1 = e.2.value - 1 → f.2.flavor ≠ .attrib := by
    intro f hf heq hflavor
    have hfpos := h.pos f hf
    exact hnew f hf hflavor (by omega)
  refine ⟨hpos, hcanonical, canonicals_update h.attrs htypes _, fun i j hij => ?_, fun f hf hfkept t ht => ?_,
    fun i hi hno => ?_, fun f hf hflavor hno => ?_⟩
  · dsimp only
    rw [hmem, h.column i j hij, mem_ebitmapPositiveBits htypes]
    constructor
    · rintro (⟨f, hf, hrest⟩ | ⟨hi, rfl⟩)
      · exact ⟨f, Set.mem_insert_of_mem e hf, hrest⟩
      · exact ⟨e, Set.mem_insert e D, hkept, by omega, hi⟩
    · rintro ⟨f, hf, hfkept, hfvalue, hi⟩
      rcases Set.mem_insert_iff.1 hf with rfl | hf
      · exact Or.inr ⟨hi, by omega⟩
      · exact Or.inl ⟨f, hf, hfkept, hfvalue, hi⟩
  · dsimp only
    rcases Set.mem_insert_iff.1 hf with rfl | hf
    · rw [Function.update_self]
    · rw [Function.update_of_ne fun heq => hother f hf heq hfkept.1]
      exact h.row f hf hfkept t ht
  · exact (hmem i i).2 (Or.inl (h.ownType i hi fun f hf => hno f (Set.mem_insert_of_mem e hf)))
  · have hne := hno e (Set.mem_insert e D) hkept.1
    rcases Set.mem_insert_iff.1 hf with rfl | hf
    · exact absurd rfl hne
    · have hfpos := h.pos f hf
      dsimp only
      rw [Function.update_of_ne (by omega)]
      exact h.ownAttr f hf hflavor fun g hg => hno g (Set.mem_insert_of_mem e hg)

/-- An attribute that is expanded loses its own bit. -/
private theorem VisitedMaps.expanded (h : VisitedMaps nprim D maps) (hflavor : e.2.flavor = .attrib)
    (hkept : ¬ KeptAttribute e) (hvalue : e.2.value ≠ 0) (hsmall : e.2.value ≤ uint16Max) {b : Ebitmap}
    (hset : ebitmapSetBit (maps.typeAttrMap (e.2.value - 1)) (e.2.value - 1) false = some b) :
    VisitedMaps nprim (insert e D)
      { maps with typeAttrMap := Function.update maps.typeAttrMap (e.2.value - 1) b } := by
  unfold uint16Max at hsmall
  have hbit : e.2.value - 1 < 2 ^ 32 - 64 := by omega
  obtain ⟨b', hb', hcanonical, hmem⟩ := ebitmapSetBit_false (h.types (e.2.value - 1)) hbit
  obtain rfl := Option.some.inj (hb'.symm.trans hset)
  -- only the own bit changes
  have hmaps : ∀ i j, j ∈ Function.update maps.typeAttrMap (e.2.value - 1) b' i ↔
      j ∈ maps.typeAttrMap i ∧ ¬ (i = e.2.value - 1 ∧ j = e.2.value - 1) := by
    intro i j
    by_cases hi : i = e.2.value - 1
    · subst hi
      rw [Function.update_self, hmem]
      simp
    · rw [Function.update_of_ne hi]
      simp [hi]
  refine ⟨fun f hf => ?_, canonicals_update h.types hcanonical _, h.attrs, fun i j hij => ?_, fun f hf hfkept => ?_,
    fun i hi hno => ?_, fun f hf hfflavor hno => ?_⟩
  · rcases Set.mem_insert_iff.1 hf with rfl | hf
    · exact hvalue
    · exact h.pos f hf
  · dsimp only
    rw [hmaps, h.column i j hij]
    constructor
    · rintro ⟨⟨f, hf, hrest⟩, _⟩
      exact ⟨f, Set.mem_insert_of_mem e hf, hrest⟩
    · rintro ⟨f, hf, hfkept, hrest⟩
      rcases Set.mem_insert_iff.1 hf with rfl | hf
      · exact absurd hfkept hkept
      · refine ⟨⟨f, hf, hfkept, hrest⟩, ?_⟩
        rintro ⟨rfl, rfl⟩
        exact hij rfl
  · rcases Set.mem_insert_iff.1 hf with rfl | hf
    · exact absurd hfkept hkept
    · exact h.row f hf hfkept
  · have hne := hno e (Set.mem_insert e D) hflavor
    refine (hmaps i i).2 ⟨h.ownType i hi fun f hf => hno f (Set.mem_insert_of_mem e hf), ?_⟩
    rintro ⟨hi', _⟩
    omega
  · rcases Set.mem_insert_iff.1 hf with rfl | hf
    · exact absurd hflavor hfflavor
    · exact h.ownAttr f hf hfflavor fun g hg => hno g (Set.mem_insert_of_mem e hg)

/-- A type or an alias sets its own bit. -/
private theorem VisitedMaps.type (h : VisitedMaps nprim D maps) (hflavor : e.2.flavor ≠ .attrib)
    (hvalue : e.2.value ≠ 0) (hsmall : e.2.value ≤ uint16Max) {attrTypeMap : Nat → Ebitmap}
    (hset : setOwnBit (e.2.value - 1) maps.attrTypeMap = some attrTypeMap) :
    VisitedMaps nprim (insert e D) { maps with attrTypeMap := attrTypeMap } := by
  unfold uint16Max at hsmall
  obtain ⟨hcanonical, hmem⟩ := setOwnBit_spec (by omega) h.attrs hset
  have hkept : ¬ KeptAttribute e := fun hk => hflavor hk.1
  refine ⟨fun f hf => ?_, h.types, hcanonical, fun i j hij => ?_, fun f hf hfkept t ht => ?_, fun i hi hno => ?_,
    fun f hf hfflavor hno => ?_⟩
  · rcases Set.mem_insert_iff.1 hf with rfl | hf
    · exact hvalue
    · exact h.pos f hf
  · rw [h.column i j hij]
    constructor
    · rintro ⟨f, hf, hrest⟩
      exact ⟨f, Set.mem_insert_of_mem e hf, hrest⟩
    · rintro ⟨f, hf, hfkept, hrest⟩
      rcases Set.mem_insert_iff.1 hf with rfl | hf
      · exact absurd hfkept hkept
      · exact ⟨f, hf, hfkept, hrest⟩
  · rcases Set.mem_insert_iff.1 hf with rfl | hf
    · exact absurd hfkept hkept
    · dsimp only
      rw [hmem, ← h.row f hf hfkept t ht]
      refine or_iff_left ?_
      rintro ⟨h1, h2⟩
      have hfpos := h.pos f hf
      omega
  · exact h.ownType i hi fun f hf => hno f (Set.mem_insert_of_mem e hf)
  · rcases Set.mem_insert_iff.1 hf with rfl | hf
    · exact (hmem _ _).2 (Or.inr ⟨rfl, rfl⟩)
    · exact (hmem _ _).2 (Or.inl (h.ownAttr f hf hfflavor fun g hg => hno g (Set.mem_insert_of_mem e hg)))

/-- One entry of the table. -/
private theorem typeAttrMapCallback_step (h : VisitedMaps nprim D maps) (hsmall : e.2.value ≤ uint16Max)
    (htypes : e.2.types.Canonical)
    (hnew : e.2.flavor = .attrib → ∀ f ∈ D, f.2.flavor = .attrib → f.2.value ≠ e.2.value)
    (hrun : typeAttrMapCallback maps e = some maps') : VisitedMaps nprim (insert e D) maps' := by
  unfold typeAttrMapCallback at hrun
  dsimp only at hrun
  split at hrun
  · cases hrun
  · rename_i hvalue
    split at hrun
    · rename_i hflavor
      split at hrun
      · rename_i hflags
        obtain ⟨typeAttrMap, hcolumn, rfl⟩ := Option.map_eq_some_iff.1 hrun
        exact h.kept ⟨hflavor, hflags⟩ hvalue hsmall htypes (hnew hflavor) hcolumn
      · rename_i hflags
        obtain ⟨b, hset, rfl⟩ := Option.map_eq_some_iff.1 hrun
        exact h.expanded hflavor (fun hkept => hflags hkept.2) hvalue hsmall hset
    · rename_i hflavor
      obtain ⟨attrTypeMap, hset, rfl⟩ := Option.map_eq_some_iff.1 hrun
      exact h.type hflavor hvalue hsmall hset

/-- The entries of a table of types: their values are small, and those of types and attributes are distinct. -/
structure DistinctTypes (entries : List (CString × KernelType)) : Prop where
  values : entries.Pairwise fun e f => e.2.primary ≠ 0 → f.2.primary ≠ 0 → e.2.value ≠ f.2.value
  attrib : ∀ e ∈ entries, e.2.flavor = .attrib → e.2.primary ≠ 0
  small : ∀ e ∈ entries, e.2.value ≤ uint16Max
  types : ∀ e ∈ entries, e.2.types.Canonical

private theorem typeAttrMap_run {entries : List (CString × KernelType)} (h : VisitedMaps nprim D maps)
    (hentries : DistinctTypes entries)
    (hnew : ∀ e ∈ entries, e.2.flavor = .attrib → ∀ f ∈ D, f.2.flavor = .attrib → f.2.value ≠ e.2.value)
    (hrun : entries.foldlM typeAttrMapCallback maps = some maps') :
    VisitedMaps nprim (D ∪ {e | e ∈ entries}) maps' := by
  induction entries generalizing D maps with
  | nil =>
    obtain rfl := Option.some.inj hrun
    simpa using h
  | cons e rest ih =>
    rw [List.foldlM_cons] at hrun
    obtain ⟨next, hstep, hrest⟩ := Option.bind_eq_some_iff.1 hrun
    have hhead := List.mem_cons_self (a := e) (l := rest)
    have htail : ∀ f ∈ rest, f ∈ e :: rest := fun f hf => List.mem_cons_of_mem e hf
    have hvalues := List.pairwise_cons.1 hentries.values
    have hnext := typeAttrMapCallback_step h (hentries.small e hhead) (hentries.types e hhead) (hnew e hhead) hstep
    have hset : D ∪ {f | f ∈ e :: rest} = insert e D ∪ {f | f ∈ rest} := by
      ext f
      simp only [Set.mem_union, Set.mem_ofPred_eq, List.mem_cons, Set.mem_insert_iff]
      tauto
    rw [hset]
    refine ih hnext ⟨hvalues.2, fun f hf => hentries.attrib f (htail f hf), fun f hf => hentries.small f (htail f hf),
      fun f hf => hentries.types f (htail f hf)⟩ (fun f hf hflavor g hg hg' => ?_) hrest
    rcases Set.mem_insert_iff.1 hg with rfl | hg
    · exact hvalues.1 f hf (hentries.attrib g hhead hg') (hentries.attrib f (htail f hf) hflavor)
    · exact hnew f (htail f hf) hflavor g hg hg'

private theorem ownBits_run {bits : List Nat} (hbits : ∀ i ∈ bits, i < 2 ^ 32) {f f' : Nat → Ebitmap}
    (hf : Canonicals f) (hrun : bits.foldlM (fun maps i => setOwnBit i maps) f = some f') :
    Canonicals f' ∧ ∀ k j, j ∈ f' k ↔ j ∈ f k ∨ (k ∈ bits ∧ j = k) := by
  induction bits generalizing f with
  | nil =>
    obtain rfl := Option.some.inj hrun
    exact ⟨hf, fun k j => by simp⟩
  | cons i bits ih =>
    rw [List.foldlM_cons] at hrun
    obtain ⟨next, hstep, hrest⟩ := Option.bind_eq_some_iff.1 hrun
    obtain ⟨hnext, hmem⟩ := setOwnBit_spec (hbits i List.mem_cons_self) hf hstep
    obtain ⟨hcanonical, hmem'⟩ := ih (fun k hk => hbits k (List.mem_cons_of_mem i hk)) hnext hrest
    refine ⟨hcanonical, fun k j => ?_⟩
    rw [hmem', hmem, List.mem_cons]
    constructor
    · rintro ((hj | ⟨rfl, rfl⟩) | ⟨hk, rfl⟩)
      · exact Or.inl hj
      · exact Or.inr ⟨Or.inl rfl, rfl⟩
      · exact Or.inr ⟨Or.inr hk, rfl⟩
    · rintro (hj | ⟨rfl | hk, rfl⟩)
      · exact Or.inl (Or.inl hj)
      · exact Or.inl (Or.inr ⟨rfl, rfl⟩)
      · exact Or.inr ⟨hk, rfl⟩

/-- The maps after the whole table was visited. -/
private theorem expandTypeAttrMaps_visited {entries : List (CString × KernelType)} (hnprim : nprim ≤ uint16Max)
    (hentries : DistinctTypes entries) (hrun : expandTypeAttrMaps nprim entries = some maps) :
    VisitedMaps nprim {e | e ∈ entries} maps := by
  unfold uint16Max at hnprim
  obtain ⟨typeAttrMap, hown, hrun⟩ := Option.bind_eq_some_iff.1 hrun
  have hlt : ∀ i ∈ List.range nprim, i < 2 ^ 32 := by
    intro i hi
    have := List.mem_range.1 hi
    omega
  obtain ⟨hcanonical, hmem⟩ := ownBits_run hlt (fun _ => .init) hown
  have hstart : VisitedMaps nprim ∅ ⟨typeAttrMap, fun _ => ebitmapInit⟩ := by
    refine ⟨fun f hf => absurd hf (Set.notMem_empty f), hcanonical, fun _ => .init, fun i j hij => ?_,
      fun f hf => absurd hf (Set.notMem_empty f), fun i hi _ => ?_, fun f hf => absurd hf (Set.notMem_empty f)⟩
    · refine iff_of_false (fun hj => ?_) ?_
      · rcases (hmem i j).1 hj with hj | ⟨_, hj⟩
        · exact not_mem_ebitmapInit j hj
        · exact hij hj.symm
      · rintro ⟨f, hf, _⟩
        exact Set.notMem_empty f hf
    · exact (hmem i i).2 (Or.inr ⟨List.mem_range.2 hi, rfl⟩)
  have hvisited := typeAttrMap_run hstart hentries (fun e _ _ f hf => absurd hf (Set.notMem_empty f)) hrun
  rwa [Set.empty_union] at hvisited

/-- For a type and an attribute that is kept the two maps agree, and a type has its own bit in both. -/
structure DualFor (entries : List (CString × KernelType)) (maps : TypeAttrMaps) : Prop where
  dual : ∀ t ∈ entries, t.2.primary ≠ 0 → t.2.flavor ≠ .attrib → ∀ a ∈ entries, KeptAttribute a →
    (a.2.value - 1 ∈ maps.typeAttrMap (t.2.value - 1) ↔ t.2.value - 1 ∈ maps.attrTypeMap (a.2.value - 1))
  own : ∀ t ∈ entries, t.2.primary ≠ 0 → t.2.flavor ≠ .attrib →
    t.2.value - 1 ∈ maps.typeAttrMap (t.2.value - 1) ∧ t.2.value - 1 ∈ maps.attrTypeMap (t.2.value - 1)

private theorem VisitedMaps.dualFor {entries : List (CString × KernelType)} (hentries : DistinctTypes entries)
    (hbound : ∀ e ∈ entries, e.2.primary ≠ 0 → e.2.value ≤ nprim)
    (h : VisitedMaps nprim {e | e ∈ entries} maps) : DualFor entries maps := by
  have hsymm : Std.Symm fun e f : CString × KernelType =>
      e.2.primary ≠ 0 → f.2.primary ≠ 0 → e.2.value ≠ f.2.value :=
    ⟨fun e f hne hf he => (hne he hf).symm⟩
  have hinj : ∀ e ∈ entries, e.2.primary ≠ 0 → ∀ f ∈ entries, f.2.primary ≠ 0 → e.2.value = f.2.value → e = f := by
    intro e he hprimary f hf hprimary' heq
    by_contra hne
    exact hentries.values.forall he hf hne hprimary hprimary' heq
  have hapart : ∀ t ∈ entries, t.2.primary ≠ 0 → t.2.flavor ≠ .attrib → ∀ a ∈ entries, a.2.flavor = .attrib →
      a.2.value ≠ t.2.value := by
    intro t ht hprimary hflavor a ha hattrib heq
    have heq' := hinj a ha (hentries.attrib a ha hattrib) t ht hprimary heq
    rw [heq'] at hattrib
    exact hflavor hattrib
  refine ⟨fun t ht hprimary hflavor a ha hkept => ?_, fun t ht hprimary hflavor => ⟨?_, ?_⟩⟩
  · have hne := hapart t ht hprimary hflavor a ha hkept.1
    have htpos := h.pos t ht
    have hapos := h.pos a ha
    rw [h.column _ _ (by omega), h.row a ha hkept (t.2.value - 1) (by omega)]
    constructor
    · rintro ⟨e, he, hekept, hvalue, hmem⟩
      have heq := hinj e he (hentries.attrib e he hekept.1) a ha (hentries.attrib a ha hkept.1) (by omega)
      rwa [heq] at hmem
    · intro hmem
      exact ⟨a, ha, hkept, by omega, hmem⟩
  · have htpos := h.pos t ht
    have hle := hbound t ht hprimary
    refine h.ownType _ (by omega) fun a ha hattrib => ?_
    have hne := hapart t ht hprimary hflavor a ha hattrib
    omega
  · exact h.ownAttr t ht hflavor (hapart t ht hprimary hflavor)

/-! ### The types of an expansion -/

variable {base : ExpandBase} {st st' : ExpandTypes}

structure ExpandTypes.Ok (st : ExpandTypes) : Prop where
  distinct : DistinctTypes st.pTypes.table
  nprim : st.pTypes.nprim ≤ uint16Max
  bound : ∀ e ∈ st.pTypes.table, e.2.value ≤ st.pTypes.nprim
  typemap : ∀ i, st.typemap i ≤ st.pTypes.nprim

theorem hashtabInsert_eq_some {α : Type} {table table' : List (CString × α)} {key : CString} {datum : α}
    (h : (hashtabInsert table key datum).toOption = some table') : table' = table ++ [(key, datum)] := by
  unfold hashtabInsert at h
  split at h
  · cases h
  · split at h
    · cases h
    · rename_i hnone
      obtain rfl := Option.some.inj h
      exact AssocTable.put_of_get_eq_none datum (by simpa using hnone)

/-- An entry of a new symbol that is added at the end of the table. -/
private theorem DistinctTypes.append {entries : List (CString × KernelType)} (h : DistinctTypes entries)
    (hnew : e.2.primary ≠ 0 → ∀ f ∈ entries, f.2.value ≠ e.2.value) (hattrib : e.2.flavor = .attrib → e.2.primary ≠ 0)
    (hsmall : e.2.value ≤ uint16Max) (htypes : e.2.types.Canonical) : DistinctTypes (entries ++ [e]) := by
  refine ⟨?_, fun f hf => ?_, fun f hf => ?_, fun f hf => ?_⟩
  · rw [List.pairwise_append]
    refine ⟨h.values, List.pairwise_singleton .., fun f hf g hg _ hprimary => ?_⟩
    rw [List.mem_singleton.1 hg] at hprimary ⊢
    exact hnew hprimary f hf
  · rcases List.mem_append.1 hf with hf | hf
    · exact h.attrib f hf
    · rw [List.mem_singleton.1 hf]
      exact hattrib
  · rcases List.mem_append.1 hf with hf | hf
    · exact h.small f hf
    · rw [List.mem_singleton.1 hf]
      exact hsmall
  · rcases List.mem_append.1 hf with hf | hf
    · exact h.types f hf
    · rw [List.mem_singleton.1 hf]
      exact htypes

private theorem typeCopyCallback_ok (h : st.Ok) (hrun : typeCopyCallback base st e = some st') : st'.Ok := by
  unfold typeCopyCallback at hrun
  dsimp only at hrun
  split at hrun
  · obtain rfl := Option.some.inj hrun
    exact h
  · split at hrun
    · obtain rfl := Option.some.inj hrun
      exact h
    · obtain ⟨_, hguard, hrun⟩ := Option.bind_eq_some_iff.1 hrun
      obtain ⟨table, hinsert, hrun⟩ := Option.bind_eq_some_iff.1 hrun
      obtain ⟨permissiveMap, _, hrun⟩ := Option.bind_eq_some_iff.1 hrun
      obtain rfl := Option.some.inj hrun
      obtain rfl := hashtabInsert_eq_some hinsert
      have hle : st.pTypes.nprim + 1 ≤ uint16Max := by
        by_contra hgt
        simp [guard, hgt] at hguard
      refine ⟨h.distinct.append (fun _ f hf => ?_) (fun _ => Nat.one_ne_zero) hle .init, hle, fun f hf => ?_,
        fun i => ?_⟩
      · have := h.bound f hf
        dsimp only
        omega
      · rcases List.mem_append.1 hf with hf | hf
        · have := h.bound f hf
          dsimp only
          omega
        · rw [List.mem_singleton.1 hf]
      · dsimp only
        by_cases hi : i = e.2.value - 1
        · rw [hi, Function.update_self]
        · have := h.typemap i
          rw [Function.update_of_ne hi]
          omega

private theorem aliasCopyCallback_ok (h : st.Ok) (hrun : aliasCopyCallback base st e = some st') : st'.Ok := by
  unfold aliasCopyCallback at hrun
  dsimp only at hrun
  split at hrun
  · obtain rfl := Option.some.inj hrun
    exact h
  · split at hrun
    · obtain rfl := Option.some.inj hrun
      exact h
    · obtain ⟨name, _, hrun⟩ := Option.bind_eq_some_iff.1 hrun
      split at hrun
      · obtain rfl := Option.some.inj hrun
        exact h
      · obtain ⟨table, hinsert, hrun⟩ := Option.bind_eq_some_iff.1 hrun
        obtain ⟨permissiveMap, _, hrun⟩ := Option.bind_eq_some_iff.1 hrun
        obtain rfl := Option.some.inj hrun
        obtain rfl := hashtabInsert_eq_some hinsert
        have hvalue := fun i => h.typemap i
        have hnprim := h.nprim
        refine ⟨h.distinct.append (fun hprimary => absurd rfl hprimary) (fun hflavor => by cases hflavor)
          ((hvalue _).trans hnprim) .init, hnprim, fun f hf => ?_, fun i => ?_⟩
        · rcases List.mem_append.1 hf with hf | hf
          · exact h.bound f hf
          · rw [List.mem_singleton.1 hf]
            exact hvalue _
        · dsimp only
          by_cases hi : i = e.2.value - 1
          · rw [hi, Function.update_self]
            exact hvalue _
          · rw [Function.update_of_ne hi]
            exact hvalue i

/-- A change of the sets and bounds of entries. -/
private theorem ExpandTypes.Ok.modify (h : st.Ok) (key : CString) {f : KernelType → KernelType}
    (hvalue : ∀ type, (f type).value = type.value) (hprimary : ∀ type, (f type).primary = type.primary)
    (hflavor : ∀ type, (f type).flavor = type.flavor)
    (htypes : ∀ type : KernelType, type.types.Canonical → (f type).types.Canonical) :
    ExpandTypes.Ok { st with pTypes.table := hashtabModify st.pTypes.table key f } := by
  -- an entry afterwards comes from one before, with the same value
  have hentry : ∀ e : CString × KernelType, (if e.1 = key then (e.1, f e.2) else e).2.value = e.2.value ∧
      (if e.1 = key then (e.1, f e.2) else e).2.primary = e.2.primary ∧
      (if e.1 = key then (e.1, f e.2) else e).2.flavor = e.2.flavor ∧
      (e.2.types.Canonical → (if e.1 = key then (e.1, f e.2) else e).2.types.Canonical) := by
    intro e
    split
    · exact ⟨hvalue e.2, hprimary e.2, hflavor e.2, htypes e.2⟩
    · exact ⟨rfl, rfl, rfl, fun ht => ht⟩
  refine ⟨⟨?_, ?_, ?_, ?_⟩, h.nprim, ?_, h.typemap⟩
  · refine List.pairwise_map.2 (h.distinct.values.imp fun {a b} hab => ?_)
    rw [(hentry a).1, (hentry b).1, (hentry a).2.1, (hentry b).2.1]
    exact hab
  · intro e' he'
    obtain ⟨e, he, rfl⟩ := List.mem_map.1 he'
    rw [(hentry e).2.2.1, (hentry e).2.1]
    exact h.distinct.attrib e he
  · intro e' he'
    obtain ⟨e, he, rfl⟩ := List.mem_map.1 he'
    rw [(hentry e).1]
    exact h.distinct.small e he
  · intro e' he'
    obtain ⟨e, he, rfl⟩ := List.mem_map.1 he'
    exact (hentry e).2.2.2 (h.distinct.types e he)
  · intro e' he'
    obtain ⟨e, he, rfl⟩ := List.mem_map.1 he'
    rw [(hentry e).1]
    exact h.bound e he

private theorem mapBits_canonical {map : Nat → Nat} (hmap : ∀ i, map i ≤ uint16Max) {bits : List Nat}
    {dst dst' : Ebitmap} (hdst : dst.Canonical)
    (hrun : bits.foldlM (fun dst i => if map i = 0 then some dst else ebitmapSetBit dst (map i - 1) true) dst =
      some dst') : dst'.Canonical := by
  induction bits generalizing dst with
  | nil =>
    obtain rfl := Option.some.inj hrun
    exact hdst
  | cons i bits ih =>
    rw [List.foldlM_cons] at hrun
    obtain ⟨next, hstep, hrest⟩ := Option.bind_eq_some_iff.1 hrun
    refine ih ?_ hrest
    split at hstep
    · obtain rfl := Option.some.inj hstep
      exact hdst
    · have hle := hmap i
      unfold uint16Max at hle
      exact hdst.setBit (by omega) hstep

private theorem attrConvertCallback_ok (h : st.Ok) (hrun : attrConvertCallback base st e = some st') : st'.Ok := by
  unfold attrConvertCallback at hrun
  split at hrun
  · obtain rfl := Option.some.inj hrun
    exact h
  · split at hrun
    · obtain rfl := Option.some.inj hrun
      exact h
    · split at hrun
      · cases hrun
      · obtain ⟨tmpUnion, hmap, rfl⟩ := Option.map_eq_some_iff.1 hrun
        have hunion := mapBits_canonical (fun i => (h.typemap i).trans h.nprim) .init hmap
        exact h.modify e.1 (fun _ => rfl) (fun _ => rfl) (fun _ => rfl) fun type htype => htype.union hunion

private theorem typeBoundsCopyCallback_ok (h : st.Ok) (hrun : typeBoundsCopyCallback base st e = some st') :
    st'.Ok := by
  unfold typeBoundsCopyCallback at hrun
  split at hrun
  · obtain rfl := Option.some.inj hrun
    exact h
  · split at hrun
    · obtain rfl := Option.some.inj hrun
      exact h
    · dsimp only at hrun
      split at hrun
      · cases hrun
      · split at hrun
        · cases hrun
        · obtain rfl := Option.some.inj hrun
          exact h.modify e.1 (fun _ => rfl) (fun _ => rfl) (fun _ => rfl) fun type htype => htype

private theorem foldlM_ok {α : Type} {step : ExpandTypes → α → Option ExpandTypes}
    (hstep : ∀ st a st', st.Ok → step st a = some st' → st'.Ok) {l : List α} (h : st.Ok)
    (hrun : l.foldlM step st = some st') : st'.Ok := by
  induction l generalizing st with
  | nil =>
    obtain rfl := Option.some.inj hrun
    exact h
  | cons a l ih =>
    rw [List.foldlM_cons] at hrun
    obtain ⟨next, hnext, hrest⟩ := Option.bind_eq_some_iff.1 hrun
    exact ih (hstep st a next h hnext) hrest

private theorem expandTypes_ok (hrun : expandTypes base = some st) : st.Ok := by
  have hstart : ExpandTypes.Ok ⟨symtabInit, ebitmapInit, fun _ => 0⟩ :=
    ⟨⟨List.Pairwise.nil, fun e he => absurd he List.not_mem_nil, fun e he => absurd he List.not_mem_nil,
      fun e he => absurd he List.not_mem_nil⟩, Nat.zero_le _, fun e he => absurd he List.not_mem_nil,
      fun _ => Nat.zero_le _⟩
  obtain ⟨st1, h1, hrun⟩ := Option.bind_eq_some_iff.1 hrun
  obtain ⟨st2, h2, hrun⟩ := Option.bind_eq_some_iff.1 hrun
  obtain ⟨st3, h3, hrun⟩ := Option.bind_eq_some_iff.1 hrun
  obtain ⟨st4, h4, hrun⟩ := Option.bind_eq_some_iff.1 hrun
  obtain ⟨_, _, hrun⟩ := Option.bind_eq_some_iff.1 hrun
  have hok1 := foldlM_ok (fun _ _ _ => typeCopyCallback_ok) hstart h1
  have hok2 := foldlM_ok (fun _ _ _ => attrConvertCallback_ok) hok1 h2
  have hok3 := foldlM_ok (fun _ _ _ => typeBoundsCopyCallback_ok) hok2 h3
  have hok4 := foldlM_ok (fun _ _ _ => aliasCopyCallback_ok) hok3 h4
  exact foldlM_ok (fun _ _ _ hok htable => foldlM_ok (fun _ _ _ => attrConvertCallback_ok) hok htable) hok4 hrun

private theorem DistinctTypes.perm {entries entries' : List (CString × KernelType)} (h : DistinctTypes entries)
    (hperm : entries'.Perm entries) : DistinctTypes entries' := by
  refine ⟨(hperm.pairwise_iff fun {a b} hab hb ha => (hab ha hb).symm).2 h.values, fun e he => ?_, fun e he => ?_,
    fun e he => ?_⟩
  · exact h.attrib e (hperm.subset he)
  · exact h.small e (hperm.subset he)
  · exact h.types e (hperm.subset he)

private theorem expandModule_dualFor {order : List (CString × KernelType) → List (CString × KernelType)}
    (horder : ∀ entries, (order entries).Perm entries) {others : ExpandTypes → TypeAttrMaps → Bool}
    (hrun : expandModule base order others = some (st, maps)) : DualFor st.pTypes.table maps := by
  obtain ⟨st', htypes, hrun⟩ := Option.bind_eq_some_iff.1 hrun
  obtain ⟨maps', hmaps, hrun⟩ := Option.bind_eq_some_iff.1 hrun
  obtain ⟨_, _, hrun⟩ := Option.bind_eq_some_iff.1 hrun
  cases hrun
  have hok := expandTypes_ok htypes
  have hdistinct := hok.distinct.perm (horder st.pTypes.table)
  have hvisited := expandTypeAttrMaps_visited hok.nprim hdistinct hmaps
  have hset : {e | e ∈ order st.pTypes.table} = {e | e ∈ st.pTypes.table} := by
    ext e
    exact (horder st.pTypes.table).mem_iff
  rw [hset] at hvisited
  exact hvisited.dualFor hok.distinct fun e he _ => hok.bound e he

/-! ### Both maps -/

/-- In a policy that was read: for a type and any other index, of an attribute or of one that has no entry in the
tables, the two maps agree, and a type has its own bit in both. -/
structure KernelDual (p : KernelPolicydb) : Prop where
  dual : ∀ i type, p.typeValToStruct i = some type → type.flavor ≠ .attrib → ∀ j, j ≠ i →
    (j ∈ p.typeAttrMap i ↔ i ∈ p.attrTypeMap j)
  own : ∀ i type, p.typeValToStruct i = some type → type.flavor ≠ .attrib →
    i ∈ p.typeAttrMap i ∧ i ∈ p.attrTypeMap i

/-- The values of the types of a policy that was accepted are in range. -/
private theorem typeValToStruct_lt (hvalid : policydbValidate p = true) {i : Nat} {type : KernelType}
    (htype : p.typeValToStruct i = some type) : i < p.pTypes.nprim := by
  obtain ⟨flavors, haccepted⟩ := exists_accepted hvalid
  obtain ⟨entry, hentry, rfl⟩ := Option.map_eq_some_iff.1 htype
  obtain ⟨hmem, hvalue⟩ := mem_of_indexEntry hentry
  have hdatum := haccepted.types entry hmem
  have hnprim := (validateArrayInit_nprim haccepted.arrays).2.2
  unfold validateTypeDatum at hdatum
  split at hdatum
  · cases hdatum
  · rename_i hin
    have hin : validateValue entry.2.value flavors.types = true := by simpa using hin
    unfold validateValue at hin
    split at hin
    · cases hin
    · rename_i hrange
      have hle : entry.2.value ≤ flavors.types.nprim := by omega
      rw [hnprim] at hle
      have hle : entry.2.value ≤ p.pTypes.nprim := hle
      omega

private theorem policydbReadKernel_dual {readTables : PolicydbHeader → List Byte → Option (KernelTables × List Byte)}
    {fp : List Byte} (h : policydbReadKernel readTables fp = some p) : KernelDual p := by
  obtain ⟨⟨header, fp1⟩, _, h⟩ := Option.bind_eq_some_iff.1 h
  obtain ⟨_, _, h⟩ := Option.bind_eq_some_iff.1 h
  obtain ⟨⟨tables, fp2⟩, _, h⟩ := Option.bind_eq_some_iff.1 h
  obtain ⟨⟨maps, rest⟩, hmaps, h⟩ := Option.bind_eq_some_iff.1 h
  obtain ⟨_, hguard, h⟩ := Option.bind_eq_some_iff.1 h
  obtain rfl := Option.some.inj h
  have hvalid : policydbValidate { tables.p with typeAttrMap := maps.typeAttrMap, attrTypeMap := maps.attrTypeMap } =
      true := by
    by_contra hno
    simp [guard, hno] at hguard
  rw [List.range_eq_range'] at hmaps
  have hlt := tables.nprim_lt
  have hread := typeAttrMapsRead_run (by omega) typeAttrMapsInit_read hmaps
  rw [Nat.zero_add] at hread
  refine ⟨fun i type htype hflavor j hj => ?_, fun i type htype hflavor => ?_⟩
  · exact hread.dual i j (Ne.symm hj)
  · exact hread.own i (typeValToStruct_lt hvalid htype) type htype hflavor

/-- The maps between types and attributes are dual in a kernel policy that was read and in the expansion of a module.
-/
theorem typeAttrMaps_dual :
    (∀ (readTables : PolicydbHeader → List Byte → Option (KernelTables × List Byte)) (fp : List Byte)
        (p : KernelPolicydb), policydbReadKernel readTables fp = some p → KernelDual p) ∧
      ∀ (base : ExpandBase) (order : List (CString × KernelType) → List (CString × KernelType))
        (others : ExpandTypes → TypeAttrMaps → Bool) (st : ExpandTypes) (maps : TypeAttrMaps),
        (∀ entries, (order entries).Perm entries) → expandModule base order others = some (st, maps) →
          DualFor st.pTypes.table maps :=
  ⟨fun _ _ _ h => policydbReadKernel_dual h, fun _ _ _ _ _ horder hrun => expandModule_dualFor horder hrun⟩

/-- A kernel policy with the type `t` and the attribute `a`. -/
def attributeTables : KernelTables where
  p := { boundedTypePolicydb 0 with
    pTypes := ⟨[(['t'], ⟨⟨1, .type, 0⟩, 1, ebitmapInit, 0⟩), (['a'], ⟨⟨2, .attrib, 0⟩, 1, ebitmapInit, 0⟩)], 2⟩ }
  nprim_lt := by decide

/-- An image with a header, and the bitmap with the attribute for the type. -/
def attributeImage : List Byte :=
  cpuToLe32 policydbMagic ++ cpuToLe32 8 ++ cstringBytes ['S', 'E', ' ', 'L', 'i', 'n', 'u', 'x'] ++ cpuToLe32 33 ++
    cpuToLe32 0 ++ cpuToLe32 8 ++ cpuToLe32 7 ++ ebitmapWrite (ebitmapOfList [0, 1]) ++
      ebitmapWrite (ebitmapOfList [1])

/-- A module with the type `t` and the attribute `a`, which has it. -/
def attributeBase : ExpandBase where
  symValToName := fun _ _ => none
  classValToStruct := fun _ => none
  scope := fun _ => [(['t'], ⟨.decl, [1]⟩), (['a'], ⟨.decl, [1]⟩)]
  declValToStruct := fun _ => some ⟨1, ⟨fun _ => ebitmapInit, []⟩, ⟨fun _ => ebitmapInit, []⟩⟩
  global := []
  enabled := fun _ => true
  pTypes := ⟨[(['t'], ⟨⟨1, .type, 0⟩, 1, ebitmapInit, 0⟩), (['a'], ⟨⟨2, .attrib, 0⟩, 1, ebitmapOfList [0], 0⟩)], 2⟩
  declTypes := []

private theorem attributeImage_read :
    (policydbReadKernel (fun _ fp => some (attributeTables, fp)) attributeImage).isSome = true := by decide +kernel

private theorem attributeBase_expand : (expandModule attributeBase id fun _ _ => true).isSome = true := by
  decide +kernel

/-- Reading and expanding a policy with one type and one attribute. -/
theorem typeAttrMaps_dual_attribute :
    KernelDual ((policydbReadKernel (fun _ fp => some (attributeTables, fp)) attributeImage).get
        attributeImage_read) ∧
      DualFor ((expandModule attributeBase id fun _ _ => true).get attributeBase_expand).1.pTypes.table
        ((expandModule attributeBase id fun _ _ => true).get attributeBase_expand).2 :=
  ⟨typeAttrMaps_dual.1 _ attributeImage _ (Option.some_get attributeImage_read).symm,
    typeAttrMaps_dual.2 attributeBase id (fun _ _ => true) _ _ (fun entries => List.Perm.refl entries)
      (Option.some_get attributeBase_expand).symm⟩

end Sepol
