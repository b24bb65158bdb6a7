import Sepol.AvtabOldRoundtrip

/-!
# Old rule tables survive a write and a read

The table that `avtab_read` gets from the bytes of `avtab_write` has, for a pair of individual types, a class and a
specifier, one entry with the combination of the entries that stand for them, and no entry where there are none.
-/

namespace Sepol

open Accumulate Grouping

variable {p : Policydb} {a expa h : Avtab} {k : AvtabKey} {n m : AvtabNode} {g : List AvtabNode}
  {gs : List (List AvtabNode)} {flag : AvtabKey → Bool}

/-! ### Groups of the expanded table -/

private theorem OldTable.oldKey_of_grant (h : OldTable p a) {g : AvtabKey × AvtabDatum} (hg : g ∈ avtabGrants p a) :
    OldKey g.1 := by
  obtain ⟨n, hn, hk, _⟩ := mem_avtabGrants_iff.1 hg
  unfold OldKey
  rw [keySlot_specified_of_mem hk]
  exact h.old n hn

private theorem Expanded.exists_grant {grants : List (AvtabKey × AvtabDatum)} (h : Expanded flag grants expa)
    (hn : n ∈ avtabNodes expa) : ∃ g ∈ grants, keySlot g.1 = keySlot n.key := by
  have hval := h.totals.val n hn
  by_contra hno
  rw [Accumulate.total_eq_none
    (List.filter_eq_nil_iff.2 fun g hg hslot => hno ⟨g, hg, of_decide_eq_true hslot⟩)] at hval
  cases hval

private theorem OldTable.oldExpanded (h : OldTable p a) (hexp : Expanded flag (avtabGrants p a) expa) :
    OldExpanded expa := by
  refine ⟨hexp.filled, fun n hn => ?_, ?_⟩
  · obtain ⟨g, hg, hslot⟩ := hexp.exists_grant hn
    have hold := h.oldKey_of_grant hg
    unfold OldKey at hold ⊢
    rwa [← hslot]
  · exact List.Nodup.map_on (fun n hn m hm => hexp.totals.unique n m hn hm) (List.Nodup.of_map _ hexp.filled.addr)

private theorem OldExpanded.isGroup (h : OldExpanded expa)
    (hgs : Groups (fun n => keyGroup n.key) (avtabNodes expa) gs) (hg : g ∈ gs) : IsGroup g := by
  have hsub : ∀ n ∈ g, n ∈ avtabNodes expa := fun n hn => hgs.subset hg hn
  refine ⟨fun n hn => h.old n (hsub n hn), hgs.same g hg, ?_⟩
  have hnodup : (gs.flatten.map fun n => keySlot n.key).Nodup := ((hgs.perm.map _).nodup_iff).2 h.slots
  exact hnodup.sublist ((List.sublist_flatten_of_mem hg).map _)

/-! ### Reading the whole file -/

private theorem length_recordBytes (hg : g ≠ []) : 12 ≤ (recordBytes g).length := by
  obtain ⟨cur, l, rfl⟩ := List.exists_cons_of_ne_nil hg
  rw [recordBytes_eq rfl]
  simp only [List.length_append, length_cpuToLe32]
  omega

private theorem length_flatMap_recordBytes (hgs : ∀ g ∈ gs, g ≠ []) :
    gs.length * 12 ≤ (gs.flatMap recordBytes).length := by
  induction gs with
  | nil => exact Nat.le_refl _
  | cons g gs ih =>
    have hg := length_recordBytes (hgs g (List.mem_cons_self ..))
    have hrest := ih fun g hg => hgs g (List.mem_cons_of_mem _ hg)
    rw [List.flatMap_cons, List.length_append, List.length_cons]
    omega

/-- The count of the records and the records are read as a table with their entries. -/
private theorem avtabRead_records {vers : Nat} (hvers : vers < policydbVersionAvtab)
    (hgroups : ∀ g ∈ gs, IsGroup g ∧ g ≠ [])
    (hnodup : (gs.flatten.map fun n => keySlot n.key).Nodup) (hpos : 0 < gs.length) (hlt : gs.length < 2 ^ 32 - 1)
    (rest : List Byte) :
    ∃ h, avtabRead (cpuToLe32 (BitVec.ofNat 32 gs.length).toNat ++ gs.flatMap recordBytes ++ rest) vers =
      some (h, rest) ∧ ReadBack h gs.flatten := by
  have hnat : (BitVec.ofNat 32 gs.length).toNat = gs.length := by
    rw [BitVec.toNat_ofNat]
    omega
  have hnel : le32ToCpu (cpuToLe32 gs.length) 0 = gs.length := by
    have hzero := le32ToCpu_zero (length_cpuToLe32 gs.length) []
    rw [List.append_nil] at hzero
    rw [hzero, ofBytes_cpuToLe32 (by omega)]
  have hfirst : nextEntry (cpuToLe32 gs.length ++ (gs.flatMap recordBytes ++ rest)) 4 =
      some (cpuToLe32 gs.length, gs.flatMap recordBytes ++ rest) := by
    have happend := nextEntry_append (cpuToLe32 gs.length) (gs.flatMap recordBytes ++ rest)
    rwa [length_cpuToLe32] at happend
  have hsize : gs.length * 12 ≤ (gs.flatMap recordBytes ++ rest).length := by
    have hle := length_flatMap_recordBytes fun g hg => (hgroups g hg).2
    rw [List.length_append]
    omega
  have hstart : ReadBack (avtabAlloc gs.length) [] := by
    refine ⟨avtabAlloc_filled (by omega), ?_⟩
    rw [avtabNodes_avtabAlloc]
  obtain ⟨h, hitems, hr⟩ := avtabReadItems_records hvers hgroups (by rwa [List.append_nil]) hstart rest
  rw [List.append_nil] at hr
  refine ⟨h, ?_, hr⟩
  unfold avtabRead
  rw [hnat, List.append_assoc, hfirst]
  simp only [Option.bind_eq_bind, Option.bind_some, hnel, guard]
  rw [if_pos ⟨by omega, hsize⟩]
  exact hitems

/-! ### The combination of the entries -/

/-- The nodes that stand for the types, the class and the specifier of a key. -/
def coveringNodes (p : Policydb) (a : Avtab) (k : AvtabKey) : List AvtabNode :=
  (avtabNodes a).filter fun n => p.Covers n.key.sourceType k.sourceType ∧ p.Covers n.key.targetType k.targetType ∧
    n.key.targetClass = k.targetClass ∧ (keySlot n.key).specified = k.specified

/-- The data of several entries together; there is only one for a type rule. -/
def joinedData (specified : BitVec 16) (data : List (BitVec 32)) : BitVec 32 :=
  if specified = avtabAuditdeny then Words.inter data
  else if IsAvSpec specified then Words.union data
  else
    match data with
    | [v] => v
    | _ => 0

/-- The number of the records of a table: one for the types, the class and the kind of the rules. -/
def recordCount (p : Policydb) (a : Avtab) : Nat := ((avtabGrants p a).map fun g => keyGroup g.1).toFinset.card

private theorem mem_coveringNodes_iff : n ∈ coveringNodes p a k ↔
    n ∈ avtabNodes a ∧ p.Covers n.key.sourceType k.sourceType ∧
    p.Covers n.key.targetType k.targetType ∧ n.key.targetClass = k.targetClass ∧
    (keySlot n.key).specified = k.specified := by
  unfold coveringNodes
  rw [List.mem_filter, decide_eq_true_eq]

/-- The grants of a key are the nodes that stand for it. -/
private theorem exists_grant_iff (hfits : p.TypesFit) {d : AvtabDatum} :
    (∃ g ∈ avtabGrants p a, keySlot g.1 = k ∧ g.2 = d) ↔ ∃ n ∈ coveringNodes p a k, n.datum = d := by
  constructor
  · intro hex
    obtain ⟨g, hg, hslot, hd⟩ := hex
    obtain ⟨n, hn, hk, hdatum⟩ := mem_avtabGrants_iff.1 hg
    obtain ⟨hs, ht, hc, _⟩ := (mem_expandAvtabKeys_iff hfits).1 hk
    have hspec := keySlot_specified_of_mem hk
    refine ⟨n, mem_coveringNodes_iff.2 ⟨hn, ?_, ?_, ?_, ?_⟩, hdatum.symm.trans hd⟩
    · rw [← hslot]
      exact hs
    · rw [← hslot]
      exact ht
    · rw [← hslot]
      exact hc.symm
    · rw [← hslot, hspec]
  · intro hex
    obtain ⟨n, hn, hd⟩ := hex
    obtain ⟨hn, hs, ht, hc, hspec⟩ := mem_coveringNodes_iff.1 hn
    refine ⟨({ k with specified := n.key.specified }, d), mem_avtabGrants_iff.2 ⟨n, hn, ?_, hd.symm⟩, ?_, rfl⟩
    · exact (mem_expandAvtabKeys_iff hfits).2 ⟨hs, ht, hc.symm, rfl⟩
    · unfold keySlot at hspec ⊢
      dsimp only at hspec ⊢
      rw [hspec]

private theorem foldl_combineData {l : List (AvtabKey × AvtabDatum)} (hk : IsAvSpec k.specified)
    (hl : ∀ g ∈ l, keySlot g.1 = k) : l.foldl (fun v g => combineData g.1 g.2.data v) (dataStart k) =
      joinedData k.specified (l.map fun g => g.2.data) := by
  by_cases hd : k.specified = avtabAuditdeny
  · unfold joinedData dataStart Words.inter
    rw [if_pos hd, if_pos hd, List.foldl_map]
    refine List.foldl_ext _ _ _ fun v g hg => ?_
    unfold combineData
    rw [hl g hg, if_pos hd]
  · unfold joinedData dataStart Words.union
    rw [if_neg hd, if_neg hd, if_pos hk, List.foldl_map]
    refine List.foldl_ext _ _ _ fun v g hg => ?_
    unfold combineData
    rw [hl g hg, if_neg hd, if_pos hk]

private theorem foldl_combineData_type {l : List (AvtabKey × AvtabDatum)} {v : BitVec 32}
    (hk : IsTypeSpec k.specified) (hl : ∀ g ∈ l, keySlot g.1 = k ∧ g.2.data = v) (hne : l ≠ []) (start : BitVec 32) :
    l.foldl (fun v g => combineData g.1 g.2.data v) start = v := by
  have hav := not_isAvSpec_of_isTypeSpec hk
  have hd : k.specified ≠ avtabAuditdeny := fun hd => hav (hd ▸ by decide)
  obtain ⟨init, g, rfl⟩ := (List.eq_nil_or_concat' l).resolve_left hne
  obtain ⟨hslot, hdata⟩ := hl g (by simp)
  rw [List.foldl_append]
  unfold combineData
  rw [List.foldl_cons, List.foldl_nil, hslot, if_neg hd, if_neg hav, hdata]

private theorem joinedData_congr {specified : BitVec 16} {l l' : List (BitVec 32)} (hspec : IsAvSpec specified)
    (hl : ∀ v, v ∈ l ↔ v ∈ l') : joinedData specified l = joinedData specified l' := by
  unfold joinedData
  rw [if_pos hspec, if_pos hspec, Words.inter_congr hl, Words.union_congr hl]

/-- A type rule is the only one for its types. -/
private theorem OldTable.coveringNodes_type (h : OldTable p a) (hk : IsTypeSpec k.specified)
    (hn : n ∈ coveringNodes p a k) : coveringNodes p a k = [n] := by
  have hkey : ∀ m ∈ coveringNodes p a k, m ∈ avtabNodes a ∧ keySlot m.key = k := by
    intro m hm
    obtain ⟨hm, hs, ht, hc, hspec⟩ := mem_coveringNodes_iff.1 hm
    obtain ⟨his, hit⟩ := h.individual m hm (hspec ▸ hk)
    unfold Policydb.Covers at hs ht
    rw [if_pos his] at hs
    rw [if_pos hit] at ht
    refine ⟨hm, ?_⟩
    unfold keySlot at hspec ⊢
    dsimp only at hspec
    rw [hspec, ← hs, ← ht, hc]
  have hall : ∀ m ∈ coveringNodes p a k, m = n := by
    intro m hm
    obtain ⟨hm, hmk⟩ := hkey m hm
    obtain ⟨hn, hnk⟩ := hkey n hn
    refine h.unique m hm n hn ?_ (hmk.trans hnk.symm)
    rw [hmk]
    exact hk
  have hnodup : (coveringNodes p a k).Nodup := (List.Nodup.of_map _ h.filled.addr).filter _
  have hle : (coveringNodes p a k).length ≤ 1 :=
    (List.Nodup.subperm hnodup fun m hm => List.mem_singleton.2 (hall m hm)).length_le
  obtain ⟨m, hm⟩ := List.length_eq_one_iff.1 (le_antisymm hle (List.length_pos_of_mem hn))
  rw [hm] at hn ⊢
  rw [List.mem_singleton.1 hn]

/-- The total of a key is the combination of the nodes that stand for it. -/
private theorem OldTable.total_eq (h : OldTable p a) (hk : k.specified ∈ writeSpecOrder) :
    total (fun g : AvtabKey × AvtabDatum => keySlot g.1) dataStart (fun g v => combineData g.1 g.2.data v)
      (avtabGrants p a) k = if coveringNodes p a k = [] then none
        else some (joinedData k.specified ((coveringNodes p a k).map fun n => n.datum.data)) := by
  have hgrants : ∀ g ∈ (avtabGrants p a).filter (fun g => keySlot g.1 = k),
      keySlot g.1 = k ∧ ∃ n ∈ coveringNodes p a k, n.datum = g.2 := by
    intro g hg
    obtain ⟨hg, hslot⟩ := List.mem_filter.1 hg
    exact ⟨of_decide_eq_true hslot, (exists_grant_iff h.fits).1 ⟨g, hg, of_decide_eq_true hslot, rfl⟩⟩
  have hnodes : ∀ n ∈ coveringNodes p a k,
      ∃ g ∈ (avtabGrants p a).filter (fun g => keySlot g.1 = k), g.2 = n.datum := by
    intro n hn
    obtain ⟨g, hg, hslot, hd⟩ := (exists_grant_iff h.fits).2 ⟨n, hn, rfl⟩
    exact ⟨g, List.mem_filter.2 ⟨hg, decide_eq_true hslot⟩, hd⟩
  by_cases hempty : coveringNodes p a k = []
  · rw [if_pos hempty]
    refine Accumulate.total_eq_none (List.eq_nil_iff_forall_not_mem.2 fun g hg => ?_)
    obtain ⟨_, n, hn, _⟩ := hgrants g hg
    rw [hempty] at hn
    cases hn
  · obtain ⟨n, hn⟩ := List.exists_mem_of_ne_nil _ hempty
    obtain ⟨g, hg, hgn⟩ := hnodes n hn
    rw [if_neg hempty, total_eq_some (List.ne_nil_of_mem hg)]
    congr 1
    rcases mem_writeSpecOrder_iff.1 hk with hav | htype
    · rw [foldl_combineData hav fun g hg => (hgrants g hg).1]
      refine joinedData_congr hav fun v => ?_
      simp only [List.mem_map]
      constructor
      · intro hex
        obtain ⟨g, hg, hv⟩ := hex
        obtain ⟨_, n, hn, hd⟩ := hgrants g hg
        exact ⟨n, hn, by rw [hd, hv]⟩
      · intro hex
        obtain ⟨n, hn, hv⟩ := hex
        obtain ⟨g, hg, hd⟩ := hnodes n hn
        exact ⟨g, hg, by rw [hd, hv]⟩
    · have hone := h.coveringNodes_type htype hn
      have hdata : ∀ g ∈ (avtabGrants p a).filter (fun g => keySlot g.1 = k),
          keySlot g.1 = k ∧ g.2.data = n.datum.data := by
        intro g hg
        obtain ⟨hslot, m, hm, hd⟩ := hgrants g hg
        rw [hone] at hm
        rw [← hd, List.mem_singleton.1 hm]
        exact ⟨hslot, rfl⟩
      have hav := not_isAvSpec_of_isTypeSpec htype
      have hd : k.specified ≠ avtabAuditdeny := fun hd => hav (hd ▸ by decide)
      rw [foldl_combineData_type htype hdata (List.ne_nil_of_mem hg), hone]
      unfold joinedData
      rw [if_neg hd, if_neg hav]
      rfl

/-! ### The table that is read -/

private theorem keyGroup_eq_of_keySlot {k k' : AvtabKey} (hslot : keySlot k = keySlot k') :
    keyGroup k = keyGroup k' := by
  refine keyGroup_eq_iff.2 ⟨(keySlot_eq_iff.1 hslot).1, ?_⟩
  rw [hslot]

private theorem Expanded.length_groups (hexp : Expanded flag (avtabGrants p a) expa)
    (hgs : Groups (fun n => keyGroup n.key) (avtabNodes expa) gs) : gs.length = recordCount p a := by
  rw [hgs.length_eq]
  unfold recordCount
  congr 1
  ext key
  rw [List.mem_toFinset, List.mem_toFinset, List.mem_map, List.mem_map]
  constructor
  · intro hex
    obtain ⟨n, hn, hkey⟩ := hex
    obtain ⟨g, hg, hslot⟩ := hexp.exists_grant hn
    exact ⟨g, hg, (keyGroup_eq_of_keySlot hslot).trans hkey⟩
  · intro hex
    obtain ⟨g, hg, hkey⟩ := hex
    have hne : (avtabGrants p a).filter (fun g' => keySlot g'.1 = keySlot g.1) ≠ [] :=
      List.ne_nil_of_mem (List.mem_filter.2 ⟨hg, decide_eq_true rfl⟩)
    obtain ⟨n, hn, hslot⟩ := hexp.totals.exists_of_eq_some (keySlot g.1) _ (total_eq_some hne)
    exact ⟨n, hn, (keyGroup_eq_of_keySlot hslot).trans hkey⟩

private theorem ReadBack.represents {table : AvtabKey → Option (BitVec 32)} (hr : ReadBack h (avtabNodes expa))
    (hslots : ((avtabNodes expa).map fun n => keySlot n.key).Nodup)
    (htotals : Represents (fun n => n ∈ avtabNodes expa) (fun n => keySlot n.key) (fun n => n.datum.data) table) :
    Represents (fun n => n ∈ avtabNodes h) (fun n => keySlot n.key) (fun n => n.datum.data) table := by
  have hfst : ∀ l : List AvtabNode, (l.map slotData).map Prod.fst = l.map fun n => keySlot n.key := fun l => by
    rw [List.map_map]
    rfl
  have hnodup : ((avtabNodes h).map fun n => keySlot n.key).Nodup := by
    rw [← hfst, (hr.perm.map Prod.fst).nodup_iff, hfst]
    exact hslots
  refine ⟨fun n hn => ?_, fun k b hb => ?_, fun n m hn hm hslot => List.inj_on_of_nodup_map hnodup hn hm hslot⟩
  · obtain ⟨m, hm, heq⟩ := List.mem_map.1 (hr.perm.subset (List.mem_map_of_mem hn))
    obtain ⟨hslot, hdata⟩ := Prod.mk.inj heq
    rw [← hslot, ← hdata]
    exact htotals.val m hm
  · obtain ⟨m, hm, hslot⟩ := htotals.exists_of_eq_some k b hb
    obtain ⟨n, hn, heq⟩ := List.mem_map.1 (hr.perm.symm.subset (List.mem_map_of_mem hm))
    exact ⟨n, hn, (Prod.mk.inj heq).1.trans hslot⟩

/-- An old table that is written and read has, for a pair of types, a class and a specifier, one entry with the
combination of the entries that stand for them, and none where there are none. -/
theorem avtabRead_avtabWrite (targetPlatform : Nat) (hkern : p.policyType = policyKern)
    (hvers : p.policyvers < policydbVersionAvtab) (ha : OldTable p a) (hpos : 0 < recordCount p a)
    (hlt : recordCount p a < 2 ^ 32 - 1) (rest : List Byte) :
    ∃ bytes h, avtabWrite p targetPlatform a = some bytes ∧ avtabRead (bytes ++ rest) p.policyvers = some (h, rest) ∧
      ∀ k : AvtabKey, k.specified ∈ writeSpecOrder →
        if coveringNodes p a k = [] then ∀ n ∈ avtabNodes h, keySlot n.key ≠ k
        else ∃ n ∈ avtabNodes h, keySlot n.key = k ∧
          n.datum.data = joinedData k.specified ((coveringNodes p a k).map fun n => n.datum.data) ∧
          ∀ m ∈ avtabNodes h, keySlot m.key = k → m = n := by
  obtain ⟨flag, expa, hexpa, hexp⟩ := ha.expandAvtab
  have hold := ha.oldExpanded hexp
  obtain ⟨gs, hgs, hwrite⟩ := avtabWriteOld_groups hexpa hold
  have hlength := Expanded.length_groups hexp hgs
  obtain ⟨h, hread, hr⟩ := avtabRead_records hvers (fun g hg => ⟨hold.isGroup hgs hg, hgs.ne_nil g hg⟩)
    (((hgs.perm.map _).nodup_iff).2 hold.slots) (by omega) (by omega) rest
  have htotals := (hr.congr hgs.perm).represents hold.slots hexp.totals
  refine ⟨_, h, (if_pos ⟨hkern, hvers⟩).trans hwrite, hread, fun k hk => ?_⟩
  have htotal := ha.total_eq hk
  split
  · rename_i hempty
    rw [if_pos hempty] at htotal
    exact fun n hn => htotals.not_mem htotal hn
  · rename_i hne
    rw [if_neg hne] at htotal
    exact htotals.exists_unique htotal

/-! ### Examples -/

/-- A policy with a type of value 1, and an attribute of value 2 that contains it. -/
def oldPolicy : Policydb where
  __ := policydbInit
  policyvers := 15
  pTypes := ⟨[], 2⟩
  typeValToStruct := fun i => if i = 0 then some ⟨1, .type, 0⟩ else if i = 1 then some ⟨2, .attrib, 0⟩ else none
  typeAttrMap := fun i => if i = 0 then ebitmapOfList [0, 1] else ebitmapOfList [i]
  attrTypeMap := fun _ => ebitmapOfList [0]

/-- The rules that allow permission 1 for the attribute and permission 2 for the type, and a transition. -/
def oldRules : Avtab := avtabRun 1 [.insert ⟨2, 1, 1, avtabAllowed⟩ ⟨1, avtabExtendedPermsInit⟩,
  .insert ⟨1, 1, 1, avtabAllowed⟩ ⟨2, avtabExtendedPermsInit⟩,
  .insert ⟨1, 1, 1, avtabTransition⟩ ⟨1, avtabExtendedPermsInit⟩]

private theorem oldTable_of_disabled (hf : a.Filled) (hfits : p.TypesFit) (hold : ∀ n ∈ avtabNodes a, OldKey n.key)
    (hindividual : ∀ n ∈ avtabNodes a, IsTypeSpec (keySlot n.key).specified →
      isIndividual p n.key.sourceType = true ∧ isIndividual p n.key.targetType = true)
    (hunique : ∀ n ∈ avtabNodes a, ∀ m ∈ avtabNodes a, IsTypeSpec (keySlot n.key).specified →
      keySlot n.key = keySlot m.key → n = m)
    (hflag : ∀ n ∈ avtabNodes a, hasSpecified n.key.specified avtabEnabled = false) : OldTable p a :=
  ⟨hf, hfits, hold, hindividual, hunique, fun n hn m hm _ _ _ _ => by rw [hflag n hn, hflag m hm]⟩

private theorem oldPolicy_typesFit : oldPolicy.TypesFit := by
  have hall : ∀ i ∈ ebitmapPositiveBits (ebitmapOfList [0]), i + 1 < 2 ^ 16 := by decide
  exact fun _ => hall

private theorem oldRules_oldTable : OldTable oldPolicy oldRules := by
  have hsingle : ∀ call ∈ [AvtabCall.insert ⟨2, 1, 1, avtabAllowed⟩ ⟨1, avtabExtendedPermsInit⟩,
      .insert ⟨1, 1, 1, avtabAllowed⟩ ⟨2, avtabExtendedPermsInit⟩,
      .insert ⟨1, 1, 1, avtabTransition⟩ ⟨1, avtabExtendedPermsInit⟩], SingleBit call.key.specified := by
    intro call hcall
    refine OldKey.singleBit ?_
    revert call
    decide
  exact oldTable_of_disabled (avtabRun_filled (by decide) _ hsingle) oldPolicy_typesFit (by decide) (by decide)
    (by decide) (by decide)

theorem avtabRead_avtabWrite_example : ∃ bytes h, avtabWrite oldPolicy 0 oldRules = some bytes ∧
    avtabRead (bytes ++ []) 15 = some (h, []) ∧ ∀ k : AvtabKey, k.specified ∈ writeSpecOrder →
      if coveringNodes oldPolicy oldRules k = [] then ∀ n ∈ avtabNodes h, keySlot n.key ≠ k
      else ∃ n ∈ avtabNodes h, keySlot n.key = k ∧
        n.datum.data = joinedData k.specified ((coveringNodes oldPolicy oldRules k).map fun n => n.datum.data) ∧
        ∀ m ∈ avtabNodes h, keySlot m.key = k → m = n :=
  avtabRead_avtabWrite 0 rfl (by decide) oldRules_oldTable (by decide +kernel) (by decide +kernel) []

/-- Two rules for the same types, class and specifier, one of them with the flag `AVTAB_ENABLED`. -/
def flaggedRules : Avtab := avtabRun 1
  [.insertNonunique ⟨1, 1, 1, avtabAllowed ||| avtabEnabled⟩ ⟨2, avtabExtendedPermsInit⟩,
    .insertNonunique ⟨1, 1, 1, avtabAllowed⟩ ⟨1, avtabExtendedPermsInit⟩]

private theorem avtabWriteSlots_eq_none {i : Nat} {is : List Nat} {commit : Bool} {st : AvtabWriteState} (hi : i ∈ is)
    (hempty : ∀ j, j ≠ i → expa.htable j = []) (hchain : avtabWriteChain commit (expa.htable i) st = none) :
    avtabWriteSlots commit expa is st = none := by
  induction is with
  | nil => cases hi
  | cons j is ih =>
    unfold avtabWriteSlots
    by_cases hj : j = i
    · rw [hj, hchain]
    · have hrest := (List.mem_cons.1 hi).resolve_left (Ne.symm hj)
      rw [hempty j hj]
      unfold avtabWriteChain
      dsimp only
      rw [ih hrest]
      rfl

private theorem htable_eq_nil (ha : a.Allocated) {i : Nat} (hnodes : ∀ n ∈ avtabNodes a, avtabHash n.key a.mask = i)
    {j : Nat} (hj : j ≠ i) : a.htable j = [] := by
  by_cases hlt : j < a.nslot
  · rw [List.eq_nil_iff_forall_not_mem]
    intro n hn
    have hmem : n ∈ avtabNodes a := List.mem_flatMap.2 ⟨j, List.mem_range.2 hlt, hn⟩
    exact hj ((ha.ok.slot j n hn).symm.trans (hnodes n hmem))
  · exact ha.ok.bound j (by omega)

/-- The expanded table has both rules, which are not merged. -/
private theorem expandAvtab_flaggedRules : expandAvtab oldPolicy flaggedRules =
    some (insertedTable (insertedTable (avtabAlloc maxAvtabSize) ⟨1, 1, 1, avtabAllowed⟩ ⟨1, avtabExtendedPermsInit⟩)
      ⟨1, 1, 1, avtabAllowed ||| avtabEnabled⟩ ⟨2, avtabExtendedPermsInit⟩) := by
  have hgrants : avtabGrants oldPolicy flaggedRules = [(⟨1, 1, 1, avtabAllowed⟩, ⟨1, avtabExtendedPermsInit⟩),
      (⟨1, 1, 1, avtabAllowed ||| avtabEnabled⟩, ⟨2, avtabExtendedPermsInit⟩)] := by decide +kernel
  have halloc : (avtabAlloc maxAvtabSize).Allocated := avtabAlloc_allocated (by decide)
  have hfirst : expandAvtabInsert (avtabAlloc maxAvtabSize) ⟨1, 1, 1, avtabAllowed⟩ ⟨1, avtabExtendedPermsInit⟩ =
      some (insertedTable (avtabAlloc maxAvtabSize) ⟨1, 1, 1, avtabAllowed⟩ ⟨1, avtabExtendedPermsInit⟩) := by
    have hfind : expandAvtabFind (avtabAlloc maxAvtabSize) ⟨1, 1, 1, avtabAllowed⟩
        ⟨1, avtabExtendedPermsInit⟩ = none := by decide +kernel
    unfold expandAvtabInsert
    rw [hfind]
    dsimp only
    rw [avtabInsertNonunique_eq halloc]
    rfl
  have hflag : ∀ node ∈ expandAvtabFind (insertedTable (avtabAlloc maxAvtabSize) ⟨1, 1, 1, avtabAllowed⟩
      ⟨1, avtabExtendedPermsInit⟩) ⟨1, 1, 1, avtabAllowed ||| avtabEnabled⟩ ⟨2, avtabExtendedPermsInit⟩,
      hasSpecified node.key.specified avtabEnabled = false := by
    decide +kernel
  obtain ⟨node, hnode⟩ : ∃ node, expandAvtabFind (insertedTable (avtabAlloc maxAvtabSize) ⟨1, 1, 1, avtabAllowed⟩
      ⟨1, avtabExtendedPermsInit⟩) ⟨1, 1, 1, avtabAllowed ||| avtabEnabled⟩ ⟨2, avtabExtendedPermsInit⟩ = some node :=
    Option.isSome_iff_exists.1 (by decide +kernel)
  have hsecond : hasSpecified (avtabAllowed ||| avtabEnabled) avtabEnabled ≠
      hasSpecified node.key.specified avtabEnabled := by
    rw [hflag node hnode]
    decide
  rw [expandAvtab_eq, hgrants, List.foldlM_cons, hfirst, Option.bind_eq_bind, Option.bind_some, List.foldlM_cons]
  unfold expandAvtabInsert
  rw [hnode]
  dsimp only
  rw [if_pos hsecond, avtabInsertNonunique_eq (insertedTable_allocated halloc _ _)]
  rfl

/-- The writer finds only one of the two rules of the record. -/
private theorem avtabWrite_flaggedRules : avtabWrite oldPolicy 0 flaggedRules = none := by
  have halloc : (avtabAlloc maxAvtabSize).Allocated := avtabAlloc_allocated (by decide)
  have hinserted := insertedTable_allocated halloc ⟨1, 1, 1, avtabAllowed⟩ ⟨1, avtabExtendedPermsInit⟩
  obtain ⟨expa, hexpa⟩ : ∃ expa, expa = insertedTable (insertedTable (avtabAlloc maxAvtabSize) ⟨1, 1, 1, avtabAllowed⟩
      ⟨1, avtabExtendedPermsInit⟩) ⟨1, 1, 1, avtabAllowed ||| avtabEnabled⟩ ⟨2, avtabExtendedPermsInit⟩ := ⟨_, rfl⟩
  have hok : expa.Allocated := hexpa ▸ insertedTable_allocated hinserted _ _
  have hmask : expa.mask = (avtabAlloc maxAvtabSize).mask := by
    rw [hexpa]
    rfl
  have hnodes : ∀ n ∈ avtabNodes expa, avtabHash n.key expa.mask =
      avtabHash ⟨1, 1, 1, avtabAllowed⟩ (avtabAlloc maxAvtabSize).mask := by
    intro n hn
    rw [hexpa, (avtabNodes_insertedTable hinserted _ _).mem_iff, List.mem_cons,
      (avtabNodes_insertedTable halloc _ _).mem_iff, avtabNodes_avtabAlloc, List.mem_singleton] at hn
    rw [hmask]
    rcases hn with rfl | rfl <;> rfl
  have hslot : avtabHash ⟨1, 1, 1, avtabAllowed⟩ (avtabAlloc maxAvtabSize).mask ∈ List.range expa.nslot :=
    List.mem_range.2 (hmask ▸ avtabHash_lt hok.mask _)
  have hchain : avtabWriteChain false
      (expa.htable (avtabHash ⟨1, 1, 1, avtabAllowed⟩ (avtabAlloc maxAvtabSize).mask))
      ⟨fun _ => false, some expa.nel⟩ = none := by
    rw [hexpa]
    exact Option.isNone_iff_eq_none.1 (by decide +kernel)
  have hslots := avtabWriteSlots_eq_none hslot (fun j hj => htable_eq_nil hok hnodes hj) hchain
  have hold : avtabWriteOld oldPolicy flaggedRules = none := by
    unfold avtabWriteOld
    simp only [expandAvtab_flaggedRules, ← hexpa, Option.bind_eq_bind, Option.bind_some, hslots, Option.bind_none]
  exact (if_pos ⟨rfl, by decide⟩).trans hold

/-- Without entries the writer puts a count of 0 into the file, which the reader refuses; and two rules that differ in
their flags cannot be written. -/
theorem avtabRead_avtabWrite_not :
    ((avtabAlloc 1).Filled ∧ avtabNodes (avtabAlloc 1) = [] ∧
      ¬ ∃ bytes h, avtabWrite oldPolicy 0 (avtabAlloc 1) = some bytes ∧ avtabRead bytes 15 = some (h, [])) ∧
    flaggedRules.Filled ∧ (∀ n ∈ avtabNodes flaggedRules, OldKey n.key ∧
        isIndividual oldPolicy n.key.sourceType = true ∧ isIndividual oldPolicy n.key.targetType = true) ∧
      ¬ ∃ bytes h, avtabWrite oldPolicy 0 flaggedRules = some bytes ∧ avtabRead bytes 15 = some (h, []) := by
  refine ⟨⟨avtabAlloc_filled (by decide), avtabNodes_avtabAlloc 1, ?_⟩, ?_, by decide +kernel, ?_⟩
  · intro hex
    obtain ⟨bytes, h, hwrite, hread⟩ := hex
    have hempty : OldTable oldPolicy (avtabAlloc 1) := by
      refine oldTable_of_disabled (avtabAlloc_filled (by decide)) oldPolicy_typesFit ?_ ?_ ?_ ?_ <;>
        rw [avtabNodes_avtabAlloc] <;> simp
    obtain ⟨flag, expa, hexpa, hexp⟩ := hempty.expandAvtab
    obtain ⟨gs, hgs, hold⟩ := avtabWriteOld_groups hexpa (hempty.oldExpanded hexp)
    have hlength := hexp.length_groups hgs
    have hzero : recordCount oldPolicy (avtabAlloc 1) = 0 := by decide +kernel
    rw [hzero, List.length_eq_zero_iff] at hlength
    rw [hlength] at hold
    have hbytes : avtabWrite oldPolicy 0 (avtabAlloc 1) = _ := (if_pos ⟨rfl, by decide⟩).trans hold
    rw [hwrite] at hbytes
    rw [Option.some.inj hbytes] at hread
    have hnone : (avtabRead (cpuToLe32 (BitVec.ofNat 32 ([] : List (List AvtabNode)).length).toNat ++
      [].flatMap recordBytes) 15).isNone = true := by decide +kernel
    rw [hread] at hnone
    cases hnone
  · refine avtabRun_filled (by decide) _ fun call hcall => OldKey.singleBit ?_
    revert call
    decide
  · intro hex
    obtain ⟨bytes, h, hwrite, _⟩ := hex
    rw [avtabWrite_flaggedRules] at hwrite
    cases hwrite

end Sepol
