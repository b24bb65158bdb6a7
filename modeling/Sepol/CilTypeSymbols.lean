import Sepol.CilAvrule
import Sepol.CilConstraintEmit
import Sepol.Requirements
import Sepol.TypeAttrDual

/-!
# The types and attributes of a compiled CIL policy

The first two passes of the compiler over the declarations of types, attributes and aliases (`cil_binary.c`).  Types
and the attributes that are kept get values from 1 on, and `type_attr_map` tells for each type which attributes it
has. Every type of the database is found under its name, and no two symbols share a value.
-/

namespace Sepol

/-! ### Declarations -/

/-- The declarations of the tree, in its order. -/
inductive CilTypeDecl where
  | type (fqn : CString)
  | typeattribute (fqn : CString) (keep : Bool) (members : Ebitmap) (canonical : members.Canonical)
  | typealias (fqn actual : CString)

def CilTypeDecl.typeName : CilTypeDecl → Option CString
  | .type fqn => some fqn
  | _ => none

/-- The symbol with a value of its own that a declaration makes. -/
def CilTypeDecl.entry : CilTypeDecl → Option (CString × TypeFlavor)
  | .type fqn => some (fqn, .type)
  | .typeattribute fqn keep _ _ => if keep then some (fqn, .attrib) else none
  | .typealias _ _ => none

/-- The types are numbered in the order of their declarations (`__cil_post_db_count_helper`), and the bitmaps of
attributes are sets of these numbers. -/
structure CilBinaryDb.Counts (db : CilBinaryDb) (decls : List CilTypeDecl) : Prop where
  numTypes : db.numTypes = (decls.filterMap CilTypeDecl.typeName).length
  valToType : ∀ i < db.numTypes, (decls.filterMap CilTypeDecl.typeName)[i]? = some (db.valToType i)
  members : ∀ fqn keep members canonical, .typeattribute fqn keep members canonical ∈ decls →
    ∀ i ∈ members, i < db.numTypes

/-- A source or target of a rule is one of the declared types or attributes. -/
def CilConsDatum.Declared (decls : List CilTypeDecl) (db : CilBinaryDb) : CilConsDatum → Prop
  | .value v => (v : Nat) < db.numTypes
  | .attr fqn keep members canonical => .typeattribute fqn keep members canonical ∈ decls

/-! ### The first pass -/

/-- `symtab_insert` of a symbol with a value; all names are declared in one block, so that a second insertion of a
name fails. -/
def cilInsertType (pTypes : Symtab TypeDatum) (key : CString) (flavor : TypeFlavor) : Option (Symtab TypeDatum) := do
  let table ← (hashtabInsert pTypes.table key ⟨pTypes.nprim + 1, flavor, 0⟩).toOption
  return ⟨table, pTypes.nprim + 1⟩

def cilTypeToPolicydb (pTypes : Symtab TypeDatum) (fqn : CString) : Option (Symtab TypeDatum) :=
  cilInsertType pTypes fqn .type

def cilTypeattributeToPolicydb (pTypes : Symtab TypeDatum) (fqn : CString) (keep : Bool) :
    Option (Symtab TypeDatum) :=
  if !keep then some pTypes else cilInsertType pTypes fqn .attrib

/-- Pass 1 of `__cil_node_to_policydb`. -/
def cilTypePassOne (pTypes : Symtab TypeDatum) : CilTypeDecl → Option (Symtab TypeDatum)
  | .type fqn => cilTypeToPolicydb pTypes fqn
  | .typeattribute fqn keep _ _ => cilTypeattributeToPolicydb pTypes fqn keep
  | .typealias _ _ => some pTypes

/-- `__cil_type_val_array_insert`, mapped over the table. -/
def cilTypeValArray (pTypes : Symtab TypeDatum) : Option (Nat → Option (CString × TypeDatum)) :=
  pTypes.table.foldlM (fun array e =>
    if e.2.value < 1 ∨ e.2.value > pTypes.nprim then none
    else some (Function.update array (e.2.value - 1) (some e))) fun _ => none

/-! ### The second pass -/

/-- `maps` is `none` as long as `type_attr_map` is `NULL`. -/
structure CilTypeState where
  pTypes : Symtab TypeDatum
  maps : Option TypeAttrMaps

/-- The loop body of `__cil_typeattr_bitmap_init`. -/
def cilTypeattrBitmapInitStep (array : Nat → Option (CString × TypeDatum)) (maps : TypeAttrMaps) (i : Nat) :
    Option TypeAttrMaps := do
  let row ← ebitmapSetBit ebitmapInit i true
  let typeAttrMap := Function.update maps.typeAttrMap i row
  if (array i).any fun e => e.2.flavor ≠ .attrib then do
    let own ← ebitmapSetBit ebitmapInit i true
    return ⟨typeAttrMap, Function.update maps.attrTypeMap i own⟩
  else return ⟨typeAttrMap, Function.update maps.attrTypeMap i ebitmapInit⟩

/-- `__cil_typeattr_bitmap_init`. -/
def cilTypeattrBitmapInit (array : Nat → Option (CString × TypeDatum)) (nprim : Nat) : Option TypeAttrMaps :=
  (List.range nprim).foldlM (cilTypeattrBitmapInitStep array) typeAttrMapsInit

/-- A bit is set and the return code is not looked at. -/
def cilSetMapBit (maps : Nat → Ebitmap) (i bit : Nat) : Nat → Ebitmap :=
  Function.update maps i ((ebitmapSetBit (maps i) bit true).getD (maps i))

/-- The loop body of `cil_typeattribute_to_bitmap`, for a type with number `i` in an attribute with a value. -/
def cilTypeattributeBit (db : CilBinaryDb) (table : List (CString × TypeDatum)) (value : Nat) (maps : TypeAttrMaps)
    (i : Nat) : Option TypeAttrMaps := do
  let sepolType ← hashtabSearch table (db.valToType i)
  return ⟨cilSetMapBit maps.typeAttrMap (sepolType.value - 1) (value - 1),
    cilSetMapBit maps.attrTypeMap (value - 1) (sepolType.value - 1)⟩

/-- `cil_typeattribute_to_bitmap`. -/
def cilTypeattributeToBitmap (db : CilBinaryDb) (array : Nat → Option (CString × TypeDatum)) (st : CilTypeState)
    (fqn : CString) (keep : Bool) (members : Ebitmap) : Option CilTypeState :=
  if !keep then some st
  else do
    let maps ← st.maps.or (cilTypeattrBitmapInit array st.pTypes.nprim)
    let sepolType ← hashtabSearch st.pTypes.table fqn
    let maps ← (ebitmapPositiveBits members).foldlM (cilTypeattributeBit db st.pTypes.table sepolType.value) maps
    return { st with maps := some maps }

/-- `cil_typealias_to_policydb`: an alias has the value of its type. -/
def cilTypealiasToPolicydb (st : CilTypeState) (fqn actual : CString) : Option CilTypeState := do
  let sepolType ← hashtabSearch st.pTypes.table actual
  let table ← (hashtabInsert st.pTypes.table fqn ⟨sepolType.value, .type, 0⟩).toOption
  return { st with pTypes := { st.pTypes with table := table } }

/-- Pass 2 of `__cil_node_to_policydb`. -/
def cilTypePassTwo (db : CilBinaryDb) (array : Nat → Option (CString × TypeDatum)) (st : CilTypeState) :
    CilTypeDecl → Option CilTypeState
  | .type _ => some st
  | .typeattribute fqn keep members _ => cilTypeattributeToBitmap db array st fqn keep members
  | .typealias fqn actual => cilTypealiasToPolicydb st fqn actual

/-- What `cil_binary_create_allocated_pdb` does with the declarations of types. -/
def cilTypesToPolicydb (p : Policydb) (db : CilBinaryDb) (decls : List CilTypeDecl) : Option Policydb := do
  let pTypes ← decls.foldlM cilTypePassOne symtabInit
  let array ← cilTypeValArray pTypes
  let st ← decls.foldlM (cilTypePassTwo db array) ⟨pTypes, none⟩
  let maps ← st.maps.or (cilTypeattrBitmapInit array st.pTypes.nprim)
  return { p with
    pTypes := st.pTypes, pTypeValToName := fun i => (array i).map Prod.fst,
    typeValToStruct := fun i => (array i).map Prod.snd,
    typeAttrMap := maps.typeAttrMap, attrTypeMap := maps.attrTypeMap }

/-! ### Values and names after the first pass -/

variable {p q : Policydb} {db : CilBinaryDb} {decls done : List CilTypeDecl} {entries : List (CString × TypeFlavor)}
  {s s' : Symtab TypeDatum} {key : CString} {flavor : TypeFlavor} {array : Nat → Option (CString × TypeDatum)}
  {maps maps' : TypeAttrMaps} {st st' : CilTypeState} {d : CilConsDatum} {i : Nat}

private theorem hashtabSearch_of_mem {α : Type} {table : List (CString × α)} {key : CString} {datum : α}
    (hkeys : (table.map Prod.fst).Nodup) (h : (key, datum) ∈ table) : hashtabSearch table key = some datum := by
  obtain ⟨datum', hd⟩ := Option.isSome_iff_exists.1 (hashtabSearch_isSome h)
  have heq := List.inj_on_of_nodup_map hkeys (mem_of_hashtabSearch hd) h rfl
  rw [← (Prod.mk.inj heq).2]
  exact hd

private theorem hashtabInsert_new {α : Type} {table table' : List (CString × α)} {key : CString} {datum : α}
    (h : (hashtabInsert table key datum).toOption = some table') : key ∉ table.map Prod.fst := by
  unfold hashtabInsert at h
  split at h
  · cases h
  · split at h
    · cases h
    · rename_i hnone
      exact AssocTable.get_eq_none_iff.1 (by simpa using hnone)

/-- The symbols that are in the table, each with a value of its own. -/
structure CilTypesNumbered (entries : List (CString × TypeFlavor)) (s : Symtab TypeDatum) : Prop where
  entries : s.table.map (fun e => (e.1, e.2.flavor)) = entries
  keys : (s.table.map Prod.fst).Nodup
  values : s.table.map (fun e => e.2.value) = List.range' 1 s.nprim

theorem CilTypesNumbered.init : CilTypesNumbered [] symtabInit := ⟨rfl, List.nodup_nil, rfl⟩

private theorem CilTypesNumbered.insertType (h : CilTypesNumbered entries s)
    (hs : cilInsertType s key flavor = some s') : CilTypesNumbered (entries ++ [(key, flavor)]) s' := by
  obtain ⟨table, htable, hs⟩ := Option.bind_eq_some_iff.1 hs
  obtain rfl := Option.some.inj hs
  have hnew := hashtabInsert_new htable
  obtain rfl := hashtabInsert_eq_some htable
  refine ⟨?_, ?_, ?_⟩
  · rw [List.map_append, h.entries]
    rfl
  · rw [List.map_append, List.nodup_append]
    refine ⟨h.keys, List.nodup_singleton _, fun a ha b hb => ?_⟩
    obtain rfl := List.mem_singleton.1 hb
    exact fun heq => hnew (heq ▸ ha)
  · rw [List.map_append, h.values, List.range'_1_concat, Nat.add_comm]
    rfl

private theorem cilTypePassOne_numbered {decl : CilTypeDecl} (h : CilTypesNumbered entries s)
    (hs : cilTypePassOne s decl = some s') : CilTypesNumbered (entries ++ decl.entry.toList) s' := by
  cases decl with
  | type fqn => exact h.insertType hs
  | typeattribute fqn keep members canonical =>
    cases keep with
    | false =>
      obtain rfl := Option.some.inj hs
      exact (List.append_nil entries).symm ▸ h
    | true => exact h.insertType hs
  | typealias fqn actual =>
    obtain rfl := Option.some.inj hs
    exact (List.append_nil entries).symm ▸ h

private theorem cilTypesPassOne_numbered (h : CilTypesNumbered entries s)
    (hs : decls.foldlM cilTypePassOne s = some s') :
    CilTypesNumbered (entries ++ decls.filterMap CilTypeDecl.entry) s' := by
  induction decls generalizing s entries with
  | nil =>
    obtain rfl := Option.some.inj hs
    rwa [List.filterMap_nil, List.append_nil]
  | cons decl decls ih =>
    rw [List.foldlM_cons] at hs
    obtain ⟨s1, hstep, hs⟩ := Option.bind_eq_some_iff.1 hs
    have hall := ih (cilTypePassOne_numbered h hstep) hs
    rw [List.append_assoc] at hall
    rw [List.filterMap_cons]
    cases hentry : decl.entry with
    | none =>
      rw [hentry] at hall
      exact hall
    | some e =>
      rw [hentry] at hall
      exact hall

private theorem CilTypesNumbered.exists_value (h : CilTypesNumbered entries s) (he : (key, flavor) ∈ entries) :
    ∃ datum, hashtabSearch s.table key = some datum ∧ 0 < datum.value ∧ datum.value ≤ s.nprim := by
  rw [← h.entries] at he
  obtain ⟨⟨key', datum⟩, hmem, heq⟩ := List.mem_map.1 he
  obtain ⟨rfl, _⟩ := Prod.mk.inj heq
  have hvalue := List.mem_map_of_mem (f := fun e : CString × TypeDatum => e.2.value) hmem
  rw [h.values, List.mem_range'_1] at hvalue
  obtain ⟨hpos, hle⟩ : 1 ≤ datum.value ∧ datum.value < 1 + s.nprim := hvalue
  exact ⟨datum, hashtabSearch_of_mem h.keys hmem, hpos, by omega⟩

private theorem CilTypesNumbered.eq_of_value (h : CilTypesNumbered entries s) {key' : CString}
    {datum datum' : TypeDatum}
    (hk : hashtabSearch s.table key = some datum) (hk' : hashtabSearch s.table key' = some datum')
    (heq : datum.value = datum'.value) : key = key' := by
  have hnodup : (s.table.map fun e => e.2.value).Nodup := h.values ▸ List.nodup_range'
  exact (Prod.mk.inj (List.inj_on_of_nodup_map hnodup (mem_of_hashtabSearch hk) (mem_of_hashtabSearch hk') heq)).1

theorem CilTypesNumbered.nodup (h : CilTypesNumbered entries s) : (entries.map Prod.fst).Nodup := by
  rw [← h.entries, List.map_map]
  exact h.keys

/-- No two declarations make symbols with the same name. -/
private theorem eq_of_entry {decl decl' : CilTypeDecl} {flavor' : TypeFlavor}
    (hnodup : ((decls.filterMap CilTypeDecl.entry).map Prod.fst).Nodup) (hmem : decl ∈ decls) (hmem' : decl' ∈ decls)
    (hentry : decl.entry = some (key, flavor)) (hentry' : decl'.entry = some (key, flavor')) : decl = decl' := by
  induction decls with
  | nil => exact absurd hmem List.not_mem_nil
  | cons first decls ih =>
    have hlater : ∀ {x : CilTypeDecl} {fl : TypeFlavor}, x ∈ decls → x.entry = some (key, fl) →
        key ∈ (decls.filterMap CilTypeDecl.entry).map Prod.fst := fun hx he =>
      List.mem_map.2 ⟨_, List.mem_filterMap.2 ⟨_, hx, he⟩, rfl⟩
    rcases List.mem_cons.1 hmem with rfl | hdecl
    · rw [List.filterMap_cons_some hentry, List.map_cons, List.nodup_cons] at hnodup
      rcases List.mem_cons.1 hmem' with rfl | hdecl'
      · rfl
      · exact absurd (hlater hdecl' hentry') hnodup.1
    · rcases List.mem_cons.1 hmem' with rfl | hdecl'
      · rw [List.filterMap_cons_some hentry', List.map_cons, List.nodup_cons] at hnodup
        exact absurd (hlater hdecl hentry) hnodup.1
      · refine ih ?_ hdecl hdecl'
        cases hfirst : first.entry with
        | none => rwa [List.filterMap_cons_none hfirst] at hnodup
        | some e =>
          rw [List.filterMap_cons_some hfirst, List.map_cons, List.nodup_cons] at hnodup
          exact hnodup.2

private theorem CilTypeDecl.entry_of_typeName {decl : CilTypeDecl} (h : decl.typeName = some key) :
    decl.entry = some (key, .type) := by
  cases decl with
  | type fqn =>
    obtain rfl := Option.some.inj h
    rfl
  | typeattribute _ _ _ _ => cases h
  | typealias _ _ => cases h

private theorem nodup_typeNames (h : ((decls.filterMap CilTypeDecl.entry).map Prod.fst).Nodup) :
    (decls.filterMap CilTypeDecl.typeName).Nodup := by
  induction decls with
  | nil => exact List.nodup_nil
  | cons first decls ih =>
    have htail : ((decls.filterMap CilTypeDecl.entry).map Prod.fst).Nodup := by
      cases hfirst : first.entry with
      | none => rwa [List.filterMap_cons_none hfirst] at h
      | some e =>
        rw [List.filterMap_cons_some hfirst, List.map_cons, List.nodup_cons] at h
        exact h.2
    cases hname : first.typeName with
    | none =>
      rw [List.filterMap_cons_none hname]
      exact ih htail
    | some name =>
      rw [List.filterMap_cons_some hname, List.nodup_cons]
      refine ⟨fun hmem => ?_, ih htail⟩
      obtain ⟨decl, hdecl, hdname⟩ := List.mem_filterMap.1 hmem
      rw [List.filterMap_cons_some (CilTypeDecl.entry_of_typeName hname), List.map_cons, List.nodup_cons] at h
      exact h.1 (List.mem_map.2 ⟨_, List.mem_filterMap.2 ⟨decl, hdecl, CilTypeDecl.entry_of_typeName hdname⟩, rfl⟩)

/-! ### The map from types to their attributes -/

private theorem bit_fits {bit : Nat} (h : bit ≤ uint16Max) : bit < 2 ^ 32 - 64 := by
  simp only [uint16Max] at h
  omega

private theorem cilTypeattrBitmapInit_spec {n : Nat} (hn : n ≤ uint16Max)
    (h : cilTypeattrBitmapInit array n = some maps) :
    Canonicals maps.typeAttrMap ∧ ∀ i j, j ∈ maps.typeAttrMap i ↔ i < n ∧ j = i := by
  unfold cilTypeattrBitmapInit at h
  induction n generalizing maps with
  | zero =>
    obtain rfl := Option.some.inj h
    exact ⟨fun _ => .init, fun i j => by simp [typeAttrMapsInit]⟩
  | succ n ih =>
    rw [List.range_succ, List.foldlM_append] at h
    obtain ⟨maps1, hmaps1, h⟩ := Option.bind_eq_some_iff.1 h
    obtain ⟨hcanonical, hmem⟩ := ih (by omega) hmaps1
    rw [List.foldlM_cons] at h
    obtain ⟨maps2, hstep, h⟩ := Option.bind_eq_some_iff.1 h
    obtain rfl := Option.some.inj h
    obtain ⟨row, hrow, hstep⟩ := Option.bind_eq_some_iff.1 hstep
    have htypes : maps2.typeAttrMap = Function.update maps1.typeAttrMap n row := by
      dsimp only at hstep
      split at hstep
      · obtain ⟨own, _, hstep⟩ := Option.bind_eq_some_iff.1 hstep
        obtain rfl := Option.some.inj hstep
        rfl
      · obtain rfl := Option.some.inj hstep
        rfl
    have hfit := bit_fits (show n ≤ uint16Max by omega)
    rw [htypes]
    refine ⟨canonicals_update hcanonical (Ebitmap.Canonical.init.setBit hfit hrow) n, fun i j => ?_⟩
    by_cases hi : i = n
    · rw [hi, Function.update_self, mem_of_ebitmapSetBit .init hfit hrow, or_iff_right (not_mem_ebitmapInit j)]
      exact (and_iff_right (Nat.lt_succ_self n)).symm
    · rw [Function.update_of_ne hi, hmem]
      exact and_congr_left fun _ => by omega

private theorem cilSetMapBit_spec {f : Nat → Ebitmap} (hf : Canonicals f) {bit : Nat} (hbit : bit ≤ uint16Max)
    (k : Nat) : Canonicals (cilSetMapBit f k bit) ∧
      ∀ i j, j ∈ cilSetMapBit f k bit i ↔ j ∈ f i ∨ j = bit ∧ i = k := by
  have hfit := bit_fits hbit
  obtain ⟨e, he⟩ : ∃ e, ebitmapSetBit (f k) bit true = some e := ⟨_, ebitmapSetBit_true hfit (f k)⟩
  unfold cilSetMapBit
  rw [he, Option.getD_some]
  refine ⟨canonicals_update hf ((hf k).setBit hfit he) k, fun i j => ?_⟩
  by_cases hi : i = k
  · rw [hi, Function.update_self, mem_of_ebitmapSetBit (hf k) hfit he]
    simp
  · rw [Function.update_of_ne hi]
    simp [hi]

/-- The loop over the types of an attribute with a value. -/
private theorem cilTypeattributeBits_spec {table : List (CString × TypeDatum)} {value : Nat} {l : List Nat}
    (hvalue : value ≤ uint16Max) (hf : Canonicals maps.typeAttrMap)
    (h : l.foldlM (cilTypeattributeBit db table value) maps = some maps') :
    Canonicals maps'.typeAttrMap ∧ ∀ i j, j ∈ maps'.typeAttrMap i ↔ j ∈ maps.typeAttrMap i ∨
      j = value - 1 ∧ ∃ t ∈ l, ∃ type, hashtabSearch table (db.valToType t) = some type ∧ i = type.value - 1 := by
  induction l generalizing maps with
  | nil =>
    obtain rfl := Option.some.inj h
    exact ⟨hf, fun i j => by simp⟩
  | cons t l ih =>
    rw [List.foldlM_cons] at h
    obtain ⟨maps1, hstep, h⟩ := Option.bind_eq_some_iff.1 h
    obtain ⟨type, htype, hstep⟩ := Option.bind_eq_some_iff.1 hstep
    obtain rfl := Option.some.inj hstep
    obtain ⟨hf1, hmem1⟩ := cilSetMapBit_spec hf (show value - 1 ≤ uint16Max by omega) (type.value - 1)
    obtain ⟨hf', hmem'⟩ := ih hf1 h
    refine ⟨hf', fun i j => ?_⟩
    rw [hmem', hmem1, or_assoc]
    refine or_congr_right ?_
    constructor
    · rintro (⟨hj, hi⟩ | ⟨hj, u, hu, rest⟩)
      · exact ⟨hj, t, List.mem_cons_self .., type, htype, hi⟩
      · exact ⟨hj, u, List.mem_cons_of_mem _ hu, rest⟩
    · rintro ⟨hj, u, hu, type', htype', hi⟩
      rcases List.mem_cons.1 hu with rfl | hu
      · rw [htype] at htype'
        obtain rfl := Option.some.inj htype'
        exact Or.inl ⟨hj, hi⟩
      · exact Or.inr ⟨hj, u, hu, type', htype', hi⟩

/-- The attribute of a declaration is kept and has the type with an index of `type_attr_map`; `j` is its own index. -/
def CilTypeDecl.GivesBit (s : Symtab TypeDatum) (db : CilBinaryDb) (decl : CilTypeDecl) (i j : Nat) : Prop :=
  ∃ fqn members canonical attr, decl = .typeattribute fqn true members canonical ∧
    hashtabSearch s.table fqn = some attr ∧ j = attr.value - 1 ∧
    ∃ t ∈ members, ∃ type, hashtabSearch s.table (db.valToType t) = some type ∧ i = type.value - 1

/-- The map after the attributes of some declarations. -/
structure CilMapsFor (s : Symtab TypeDatum) (db : CilBinaryDb) (done : List CilTypeDecl) (maps : TypeAttrMaps) :
    Prop where
  canonical : Canonicals maps.typeAttrMap
  mem : ∀ i j, j ∈ maps.typeAttrMap i ↔ (i < s.nprim ∧ j = i) ∨ ∃ decl ∈ done, decl.GivesBit s db i j

/-- The state of the second pass after some declarations; `s` are the symbols after the first pass. -/
structure CilTypeState.After (s : Symtab TypeDatum) (db : CilBinaryDb)
    (array : Nat → Option (CString × TypeDatum)) (done : List CilTypeDecl) (st : CilTypeState) : Prop where
  nprim : st.pTypes.nprim = s.nprim
  found : ∀ key datum, hashtabSearch s.table key = some datum → hashtabSearch st.pTypes.table key = some datum
  maps : ∀ maps, st.maps.or (cilTypeattrBitmapInit array st.pTypes.nprim) = some maps → CilMapsFor s db done maps

theorem CilTypeState.After.init (hs : s.nprim ≤ uint16Max) : (⟨s, none⟩ : CilTypeState).After s db array [] := by
  refine ⟨rfl, fun _ _ h => h, fun maps hmaps => ?_⟩
  obtain ⟨hcanonical, hmem⟩ := cilTypeattrBitmapInit_spec hs hmaps
  exact ⟨hcanonical, fun i j => by simp [hmem]⟩

/-- A declaration that gives no attribute changes nothing in the map. -/
theorem CilMapsFor.skip {decl : CilTypeDecl} (h : CilMapsFor s db done maps)
    (hdecl : ∀ i j, ¬ decl.GivesBit s db i j) : CilMapsFor s db (done ++ [decl]) maps := by
  refine ⟨h.canonical, fun i j => ?_⟩
  rw [h.mem]
  refine or_congr_right ⟨fun ⟨x, hx, hbit⟩ => ⟨x, List.mem_append_left _ hx, hbit⟩, ?_⟩
  rintro ⟨x, hx, hbit⟩
  rcases List.mem_append.1 hx with hx | hx
  · exact ⟨x, hx, hbit⟩
  · rw [List.mem_singleton.1 hx] at hbit
    exact absurd hbit (hdecl i j)

/-- The symbols of all declarations are found after the first pass. -/
structure CilTypesFound (s : Symtab TypeDatum) (db : CilBinaryDb) (decls : List CilTypeDecl) : Prop where
  type : ∀ i < db.numTypes, ∃ datum, hashtabSearch s.table (db.valToType i) = some datum ∧
    0 < datum.value ∧ datum.value ≤ s.nprim
  attr : ∀ fqn members canonical, .typeattribute fqn true members canonical ∈ decls →
    ∃ datum, hashtabSearch s.table fqn = some datum ∧ 0 < datum.value ∧ datum.value ≤ s.nprim
  members : ∀ fqn keep members canonical, .typeattribute fqn keep members canonical ∈ decls →
    ∀ i ∈ members, i < db.numTypes

theorem CilTypesNumbered.found (h : CilTypesNumbered (decls.filterMap CilTypeDecl.entry) s) (hdb : db.Counts decls) :
    CilTypesFound s db decls := by
  refine ⟨fun i hi => ?_, fun fqn members canonical hmem => ?_, hdb.members⟩
  · obtain ⟨decl, hdecl, hname⟩ := List.mem_filterMap.1 (List.mem_of_getElem? (hdb.valToType i hi))
    exact h.exists_value (List.mem_filterMap.2 ⟨decl, hdecl, CilTypeDecl.entry_of_typeName hname⟩)
  · exact h.exists_value (List.mem_filterMap.2 ⟨_, hmem, rfl⟩)

theorem CilTypeState.After.step (hs : s.nprim ≤ uint16Max) (hfound : CilTypesFound s db decls) {decl : CilTypeDecl}
    (hdecl : decl ∈ decls) (h : st.After s db array done) (hst : cilTypePassTwo db array st decl = some st') :
    st'.After s db array (done ++ [decl]) := by
  have hskip : (∀ i j, ¬ decl.GivesBit s db i j) → st.After s db array (done ++ [decl]) := fun hno =>
    ⟨h.nprim, h.found, fun maps hmaps => (h.maps maps hmaps).skip hno⟩
  cases decl with
  | type fqn =>
    obtain rfl := Option.some.inj hst
    refine hskip fun i j hbit => ?_
    obtain ⟨_, _, _, _, heq, _⟩ := hbit
    cases heq
  | typealias fqn actual =>
    obtain ⟨sepolType, _, hst⟩ := Option.bind_eq_some_iff.1 hst
    obtain ⟨table, htable, hst⟩ := Option.bind_eq_some_iff.1 hst
    obtain rfl := Option.some.inj hst
    have hnone : ∀ i j, ¬ (CilTypeDecl.typealias fqn actual).GivesBit s db i j := by
      rintro i j ⟨_, _, _, _, heq, _⟩
      cases heq
    refine ⟨h.nprim, fun key datum hkey => ?_, (hskip hnone).maps⟩
    obtain rfl := hashtabInsert_eq_some htable
    have hold := h.found key datum hkey
    unfold hashtabSearch at hold ⊢
    obtain ⟨e, he, hdatum⟩ := Option.map_eq_some_iff.1 hold
    rw [List.find?_append, he, ← hdatum]
    rfl
  | typeattribute fqn keep members canonical =>
    cases keep with
    | false =>
      obtain rfl := Option.some.inj hst
      refine hskip fun i j hbit => ?_
      obtain ⟨_, _, _, _, heq, _⟩ := hbit
      cases heq
    | true =>
      obtain ⟨maps, hmaps, hst⟩ := Option.bind_eq_some_iff.1 hst
      obtain ⟨attr, hattr, hst⟩ := Option.bind_eq_some_iff.1 hst
      obtain ⟨maps', hbits, hst⟩ := Option.bind_eq_some_iff.1 hst
      obtain rfl := Option.some.inj hst
      obtain ⟨attr', hattr', _, hle⟩ := hfound.attr fqn members canonical hdecl
      have heq : attr' = attr := Option.some.inj ((h.found _ _ hattr').symm.trans hattr)
      subst heq
      have hfor := h.maps maps hmaps
      obtain ⟨hcanonical, hmem⟩ := cilTypeattributeBits_spec (by omega) hfor.canonical hbits
      refine ⟨h.nprim, h.found, fun maps2 hmaps2 => ?_⟩
      obtain rfl := Option.some.inj hmaps2
      refine ⟨hcanonical, fun i j => ?_⟩
      rw [hmem, hfor.mem, or_assoc]
      refine or_congr_right ?_
      constructor
      · rintro (⟨x, hx, hbit⟩ | ⟨hj, t, ht, type, htype, hi⟩)
        · exact ⟨x, List.mem_append_left _ hx, hbit⟩
        · have ht' := (mem_ebitmapPositiveBits canonical).1 ht
          obtain ⟨type', htype', _⟩ := hfound.type t (hfound.members _ _ _ _ hdecl t ht')
          obtain rfl := Option.some.inj ((h.found _ _ htype').symm.trans htype)
          exact ⟨_, List.mem_append_right _ (List.mem_singleton_self _), fqn, members, canonical, attr',
            rfl, hattr', hj,
            t, ht', type', htype', hi⟩
      · rintro ⟨x, hx, hbit⟩
        rcases List.mem_append.1 hx with hx | hx
        · exact Or.inl ⟨x, hx, hbit⟩
        · rw [List.mem_singleton.1 hx] at hbit
          obtain ⟨fqn', members', canonical', attr, heq, hsearch, hj, t, ht, type, htype, hi⟩ := hbit
          obtain ⟨rfl, _, rfl⟩ := CilTypeDecl.typeattribute.inj heq
          obtain rfl := Option.some.inj (hattr'.symm.trans hsearch)
          exact Or.inr ⟨hj, t, (mem_ebitmapPositiveBits canonical).2 ht, type, h.found _ _ htype, hi⟩

theorem CilTypeState.After.run (hs : s.nprim ≤ uint16Max) (hfound : CilTypesFound s db decls)
    {rest : List CilTypeDecl} (hrest : ∀ decl ∈ rest, decl ∈ decls) (h : st.After s db array done)
    (hst : rest.foldlM (cilTypePassTwo db array) st = some st') : st'.After s db array (done ++ rest) := by
  induction rest generalizing st done with
  | nil =>
    obtain rfl := Option.some.inj hst
    exact (List.append_nil done).symm ▸ h
  | cons decl rest ih =>
    rw [List.foldlM_cons] at hst
    obtain ⟨st1, hstep, hst⟩ := Option.bind_eq_some_iff.1 hst
    have hall := ih (fun x hx => hrest x (List.mem_cons_of_mem _ hx))
      (h.step hs hfound (hrest decl (List.mem_cons_self ..)) hstep) hst
    rwa [List.append_assoc] at hall

/-! ### What the map says of a type -/

/-- A symbol of a rule: a type, or an attribute that is kept. -/
def CilConsDatum.Kept : CilConsDatum → Prop
  | .value _ => True
  | .attr _ keep _ _ => keep = true

/-- A symbol of the policy is found under the name, and `type_attr_map` has its bit for the types with the numbers
that the set holds and for no other type. -/
def CilNamesSet (p : Policydb) (db : CilBinaryDb) (name : CString) (set : Nat → Prop) : Prop :=
  ∃ v, cilGetSepolValue p .type name = some v ∧ 0 < v ∧ v ≤ p.pTypes.nprim ∧
    ∀ i < db.numTypes, ∀ vi, cilGetSepolValue p .type (db.valToType i) = some vi →
      (v - 1 ∈ p.typeAttrMap (vi - 1) ↔ set i)

/-- The policy has all types of a database and all attributes that are kept. -/
structure CilTypesWritten (p : Policydb) (db : CilBinaryDb) (decls : List CilTypeDecl) : Prop where
  type : ∀ t < db.numTypes, CilNamesSet p db (db.valToType t) fun i => i = t
  attr : ∀ fqn members canonical, .typeattribute fqn true members canonical ∈ decls →
    CilNamesSet p db fqn fun i => i ∈ members

theorem CilTypesWritten.datum (h : CilTypesWritten p db decls) (hd : d.Declared decls db) (hkept : d.Kept) :
    CilNamesSet p db (db.fqn .type d) d.Has := by
  cases d with
  | value v => exact h.type v hd
  | attr fqn keep members canonical =>
    have hkeep : keep = true := hkept
    subst hkeep
    exact h.attr fqn members canonical hd

private theorem valToType_inj (hdb : db.Counts decls) (hnodup : (decls.filterMap CilTypeDecl.typeName).Nodup)
    {j : Nat} (hi : i < db.numTypes) (hj : j < db.numTypes) (heq : db.valToType i = db.valToType j) : i = j := by
  have hlt : i < (decls.filterMap CilTypeDecl.typeName).length := hdb.numTypes ▸ hi
  refine (List.getElem?_inj hlt hnodup).1 ?_
  rw [hdb.valToType i hi, hdb.valToType j hj, heq]

private theorem exists_decl (hdb : db.Counts decls) (hi : i < db.numTypes) : ∃ decl ∈ decls,
    decl.entry = some (db.valToType i, .type) := by
  obtain ⟨decl, hdecl, hname⟩ := List.mem_filterMap.1 (List.mem_of_getElem? (hdb.valToType i hi))
  exact ⟨decl, hdecl, CilTypeDecl.entry_of_typeName hname⟩

private theorem attr_ne_type (hdb : db.Counts decls)
    (hnodup : ((decls.filterMap CilTypeDecl.entry).map Prod.fst).Nodup) {fqn : CString} {members : Ebitmap}
    {canonical : members.Canonical} (hd : .typeattribute fqn true members canonical ∈ decls) (hi : i < db.numTypes) :
    fqn ≠ db.valToType i := by
  rintro rfl
  obtain ⟨decl, hdecl, hentry⟩ := exists_decl hdb hi
  have heq := eq_of_entry hnodup hd hdecl rfl hentry
  rw [← heq] at hentry
  cases hentry

private theorem cilTypePassTwo_nprim {decl : CilTypeDecl} (h : cilTypePassTwo db array st decl = some st') :
    st'.pTypes.nprim = st.pTypes.nprim := by
  cases decl with
  | type fqn =>
    obtain rfl := Option.some.inj h
    rfl
  | typealias fqn actual =>
    obtain ⟨sepolType, _, h⟩ := Option.bind_eq_some_iff.1 h
    obtain ⟨table, _, h⟩ := Option.bind_eq_some_iff.1 h
    obtain rfl := Option.some.inj h
    rfl
  | typeattribute fqn keep members canonical =>
    cases keep with
    | false =>
      obtain rfl := Option.some.inj h
      rfl
    | true =>
      obtain ⟨maps, _, h⟩ := Option.bind_eq_some_iff.1 h
      obtain ⟨attr, _, h⟩ := Option.bind_eq_some_iff.1 h
      obtain ⟨maps', _, h⟩ := Option.bind_eq_some_iff.1 h
      obtain rfl := Option.some.inj h
      rfl

private theorem cilTypesPassTwo_nprim {rest : List CilTypeDecl}
    (h : rest.foldlM (cilTypePassTwo db array) st = some st') : st'.pTypes.nprim = st.pTypes.nprim := by
  induction rest generalizing st with
  | nil =>
    obtain rfl := Option.some.inj h
    rfl
  | cons decl rest ih =>
    rw [List.foldlM_cons] at h
    obtain ⟨st1, hstep, h⟩ := Option.bind_eq_some_iff.1 h
    rw [ih h, cilTypePassTwo_nprim hstep]

theorem cilTypesToPolicydb_written (hdb : db.Counts decls) (hp : cilTypesToPolicydb q db decls = some p)
    (hfit : p.pTypes.nprim ≤ uint16Max) : CilTypesWritten p db decls := by
  obtain ⟨s, hs, hp⟩ := Option.bind_eq_some_iff.1 hp
  obtain ⟨array, _, hp⟩ := Option.bind_eq_some_iff.1 hp
  obtain ⟨st, hst, hp⟩ := Option.bind_eq_some_iff.1 hp
  obtain ⟨maps, hmaps, hp⟩ := Option.bind_eq_some_iff.1 hp
  obtain rfl := Option.some.inj hp
  have hnum : CilTypesNumbered (decls.filterMap CilTypeDecl.entry) s := cilTypesPassOne_numbered .init hs
  have hnodup := hnum.nodup
  have hfound := hnum.found hdb
  have hnprim : s.nprim ≤ uint16Max := cilTypesPassTwo_nprim hst ▸ hfit
  have hinit : (⟨s, none⟩ : CilTypeState).After s db array [] := .init hnprim
  have hafter := hinit.run hnprim hfound (fun _ hx => hx) hst
  rw [List.nil_append] at hafter
  have hmap := hafter.maps maps hmaps
  have hvalue : ∀ {key : CString} {datum : TypeDatum}, hashtabSearch s.table key = some datum →
      (hashtabSearch st.pTypes.table key).map TypeDatum.value = some datum.value := fun h => by
    rw [hafter.found _ _ h]
    rfl
  refine ⟨fun w hw => ?_, fun fqn members canonical hd => ?_⟩
  · obtain ⟨datum, hsearch, hpos, hle⟩ := hfound.type w hw
    refine ⟨datum.value, hvalue hsearch, hpos, hafter.nprim.symm ▸ hle, fun i hi vi hvi => ?_⟩
    obtain ⟨datum', hsearch', hpos', hle'⟩ := hfound.type i hi
    obtain rfl : datum'.value = vi := Option.some.inj ((hvalue hsearch').symm.trans hvi)
    refine (hmap.mem _ _).trans ⟨?_, fun hiw => ?_⟩
    · rintro (⟨_, heq⟩ | ⟨decl, hdecl, fqn, members, canonical, attr, rfl, hattr, heq, _⟩)
      · have hv : datum'.value = datum.value := by omega
        exact valToType_inj hdb (nodup_typeNames hnodup) hi hw (hnum.eq_of_value hsearch' hsearch hv)
      · -- an attribute does not have the value of a type
        obtain ⟨attr', hattr', hpos'', _⟩ := hfound.attr _ _ _ hdecl
        obtain rfl := Option.some.inj (hattr'.symm.trans hattr)
        exact absurd (hnum.eq_of_value hattr' hsearch (by omega)) (attr_ne_type hdb hnodup hdecl hw)
    · have hiw : i = w := hiw
      subst hiw
      obtain rfl := Option.some.inj (hsearch'.symm.trans hsearch)
      exact Or.inl ⟨by omega, rfl⟩
  · obtain ⟨datum, hsearch, hpos, hle⟩ := hfound.attr _ _ _ hd
    refine ⟨datum.value, hvalue hsearch, hpos, hafter.nprim.symm ▸ hle, fun i hi vi hvi => ?_⟩
    obtain ⟨datum', hsearch', hpos', hle'⟩ := hfound.type i hi
    obtain rfl : datum'.value = vi := Option.some.inj ((hvalue hsearch').symm.trans hvi)
    refine (hmap.mem _ _).trans ⟨?_, fun hmem => ?_⟩
    · rintro (⟨_, heq⟩ | ⟨decl, hdecl, fqn', members', canonical', attr, rfl, hattr, heq, t, ht, type, htype, hti⟩)
      · exact absurd (hnum.eq_of_value hsearch hsearch' (by omega)) (attr_ne_type hdb hnodup hd hi)
      · obtain ⟨attr', hattr', hpos'', _⟩ := hfound.attr _ _ _ hdecl
        obtain rfl := Option.some.inj (hattr'.symm.trans hattr)
        have hname := hnum.eq_of_value hattr' hsearch (by omega)
        subst hname
        obtain ⟨_, _, rfl⟩ := CilTypeDecl.typeattribute.inj (eq_of_entry hnodup hdecl hd rfl rfl)
        have htn := hfound.members _ _ _ _ hdecl t ht
        obtain ⟨type', htype', hpos3, _⟩ := hfound.type t htn
        obtain rfl := Option.some.inj (htype'.symm.trans htype)
        have hname := hnum.eq_of_value hsearch' htype' (by omega)
        obtain rfl := valToType_inj hdb (nodup_typeNames hnodup) hi htn hname
        exact ht
    · exact Or.inr ⟨_, hd, fqn, members, canonical, datum, rfl, hsearch, rfl, i, hmem, datum', hsearch', rfl⟩

end Sepol
