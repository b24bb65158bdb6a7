import Sepol.Lib.Accumulate
import Sepol.AvtabRead
import Sepol.AvtabUpdate

/-!
# Expanding the attributes of a table

`expand_avtab` and the functions that it calls.  The expanded table has one entry for every key that an entry of the
table expands to, and its data is the combination of the data of these entries, provided that the entries of one key
agree in the flag `AVTAB_ENABLED` and that a type rule shares its key with no other entry.
-/

namespace Sepol

open Accumulate

/-- The constant `MAX_AVTAB_SIZE`. -/
abbrev maxAvtabSize : Nat := 2 ^ 21

/-- The search of `expand_avtab_insert`. -/
def expandAvtabFind (a : Avtab) (k : AvtabKey) (d : AvtabDatum) : Option AvtabNode :=
  if hasSpecified k.specified avtabXperms then
    (avtabSearchNodes a k).find? fun node =>
      node.datum.xperms.specified = d.xperms.specified && node.datum.xperms.driver = d.xperms.driver
  else avtabSearch a k

/-- The switch of `expand_avtab_insert`, over the specifier without the flag; `none` stands for a type conflict. -/
def expandAvtabDatum (specified : BitVec 16) (d avd : AvtabDatum) : Option AvtabDatum :=
  if specified = avtabAllowed ∨ specified = avtabAuditallow then some { avd with data := avd.data ||| d.data }
  else if specified = avtabAuditdeny then some { avd with data := avd.data &&& d.data }
  else if specified = avtabXpermsAllowed ∨ specified = avtabXpermsAuditallow ∨ specified = avtabXpermsDontaudit then
    some { avd with xperms := { avd.xperms with perms := fun i => avd.xperms.perms i ||| d.xperms.perms i } }
  else none

/-- `expand_avtab_insert`. -/
def expandAvtabInsert (a : Avtab) (k : AvtabKey) (d : AvtabDatum) : Option Avtab :=
  match expandAvtabFind a k d with
  | none => (avtabInsertNonunique a k d).map Prod.fst
  | some node =>
    if hasSpecified k.specified avtabEnabled ≠ hasSpecified node.key.specified avtabEnabled then
      (avtabInsertNonunique a k d).map Prod.fst
    else
      (expandAvtabDatum (k.specified &&& ~~~avtabEnabled) d node.datum).map fun avd =>
        avtabUpdateNode a node.addr fun n => { n with datum := avd }

/-- An individual type, as opposed to an attribute or a value without a type. -/
def isIndividual (p : Policydb) (value : BitVec 16) : Bool :=
  match p.typeValToStruct (value.toNat - 1) with
  | some type => type.flavor ≠ .attrib
  | none => false

/-- The types of `attr_type_map` for a value, as they stand in a key. -/
def attrTypes (p : Policydb) (value : BitVec 16) : List (BitVec 16) :=
  (ebitmapPositiveBits (p.attrTypeMap (value.toNat - 1))).map fun i => BitVec.ofNat 16 (i + 1)

/-- The keys that `expand_avtab_node` inserts for a key. -/
def expandAvtabKeys (p : Policydb) (k : AvtabKey) : List AvtabKey :=
  if isIndividual p k.sourceType && isIndividual p k.targetType then [k]
  else if isIndividual p k.sourceType then
    (attrTypes p k.targetType).map fun j => { k with targetType := j }
  else if isIndividual p k.targetType then
    (attrTypes p k.sourceType).map fun i => { k with sourceType := i }
  else
    (attrTypes p k.sourceType).flatMap fun i =>
      (attrTypes p k.targetType).map fun j => { k with sourceType := i, targetType := j }

/-- `expand_avtab_node`. -/
def expandAvtabNode (p : Policydb) (k : AvtabKey) (d : AvtabDatum) (expa : Avtab) : Option Avtab :=
  (expandAvtabKeys p k).foldlM (fun expa newkey => expandAvtabInsert expa newkey d) expa

/-- `expand_avtab`; the loops of `avtab_map` end at the first error. -/
def expandAvtab (p : Policydb) (a : Avtab) : Option Avtab :=
  (avtabNodes a).foldlM (fun expa n => expandAvtabNode p n.key n.datum expa) (avtabAlloc maxAvtabSize)

/-! ### The types of an entry -/

/-- A value of a key stands for a type: it is the type, or an attribute that contains it. -/
def Policydb.Covers (p : Policydb) (value type : BitVec 16) : Prop :=
  if isIndividual p value then type = value
  else type.toNat ∈ (ebitmapPositiveBits (p.attrTypeMap (value.toNat - 1))).map (· + 1)

instance (p : Policydb) (value type : BitVec 16) : Decidable (p.Covers value type) :=
  inferInstanceAs (Decidable (if isIndividual p value then type = value
    else type.toNat ∈ (ebitmapPositiveBits (p.attrTypeMap (value.toNat - 1))).map (· + 1)))

/-- The types of the attributes fit in the fields of a key. -/
def Policydb.TypesFit (p : Policydb) : Prop :=
  ∀ value : BitVec 16, ∀ i ∈ ebitmapPositiveBits (p.attrTypeMap (value.toNat - 1)), i + 1 < 2 ^ 16

variable {p : Policydb} {a expa : Avtab} {k k' : AvtabKey} {d : AvtabDatum} {n m : AvtabNode}

private theorem mem_attrTypes_iff (hfits : p.TypesFit) {value type : BitVec 16} : type ∈ attrTypes p value ↔
    type.toNat ∈ (ebitmapPositiveBits (p.attrTypeMap (value.toNat - 1))).map (· + 1) := by
  unfold attrTypes
  simp only [List.mem_map]
  refine exists_congr fun i => and_congr_right fun hi => ?_
  have hlt := hfits value i hi
  rw [← BitVec.toNat_inj, BitVec.toNat_ofNat, Nat.mod_eq_of_lt hlt]

theorem mem_expandAvtabKeys_iff (hfits : p.TypesFit) :
    k' ∈ expandAvtabKeys p k ↔ p.Covers k.sourceType k'.sourceType ∧
    p.Covers k.targetType k'.targetType ∧ k'.targetClass = k.targetClass ∧ k'.specified = k.specified := by
  obtain ⟨s, t, c, spec⟩ := k
  obtain ⟨s', t', c', spec'⟩ := k'
  unfold expandAvtabKeys Policydb.Covers
  simp only [← mem_attrTypes_iff hfits]
  cases hs : isIndividual p s with
  | true =>
    cases ht : isIndividual p t with
    | true => simp
    | false =>
      simp
      tauto
  | false =>
    cases ht : isIndividual p t with
    | true =>
      simp
      tauto
    | false =>
      simp
      tauto

/-! ### One insertion -/

/-- A key without the flag `AVTAB_ENABLED`. -/
def keySlot (k : AvtabKey) : AvtabKey := { k with specified := k.specified &&& ~~~avtabEnabled }

theorem keySlot_eq_iff : keySlot k = keySlot k' ↔ sameKey k k' := by
  unfold keySlot sameKey sameTypes
  rw [AvtabKey.mk.injEq]
  tauto

def IsAvSpec (specified : BitVec 16) : Prop := specified ∈ [avtabAllowed, avtabAuditdeny, avtabAuditallow]

def IsTypeSpec (specified : BitVec 16) : Prop := specified ∈ [avtabTransition, avtabChange, avtabMember]

instance (specified : BitVec 16) : Decidable (IsAvSpec specified) := inferInstanceAs (Decidable (_ ∈ _))

instance (specified : BitVec 16) : Decidable (IsTypeSpec specified) := inferInstanceAs (Decidable (_ ∈ _))

/-- The specifier of a key is one of access vector or type rules. -/
def OldKey (k : AvtabKey) : Prop := IsAvSpec (keySlot k).specified ∨ IsTypeSpec (keySlot k).specified

instance (k : AvtabKey) : Decidable (OldKey k) := inferInstanceAs (Decidable (_ ∨ _))

/-- The data of a key after one more insertion. -/
def combineData (k : AvtabKey) (data v : BitVec 32) : BitVec 32 :=
  if (keySlot k).specified = avtabAuditdeny then v &&& data
  else if IsAvSpec (keySlot k).specified then v ||| data
  else data

/-- The data that the first insertion of a key is combined with. -/
def dataStart (slot : AvtabKey) : BitVec 32 := if slot.specified = avtabAuditdeny then BitVec.allOnes 32 else 0

theorem OldKey.cases (h : OldKey k) : (keySlot k).specified = avtabAllowed ∨ (keySlot k).specified = avtabAuditdeny ∨
    (keySlot k).specified = avtabAuditallow ∨ (keySlot k).specified = avtabTransition ∨
    (keySlot k).specified = avtabChange ∨ (keySlot k).specified = avtabMember := by
  unfold OldKey IsAvSpec IsTypeSpec at h
  simp only [List.mem_cons, List.not_mem_nil, or_false] at h
  tauto

theorem OldKey.singleBit (h : OldKey k) : SingleBit k.specified := by
  have hslot : (keySlot k).specified = k.specified &&& ~~~avtabEnabled := rfl
  unfold SingleBit
  rw [← hslot]
  rcases h.cases with h | h | h | h | h | h <;> rw [h]
  · exact ⟨0, by decide, by decide⟩
  · exact ⟨2, by decide, by decide⟩
  · exact ⟨1, by decide, by decide⟩
  · exact ⟨4, by decide, by decide⟩
  · exact ⟨6, by decide, by decide⟩
  · exact ⟨5, by decide, by decide⟩

theorem OldKey.not_xperms (h : OldKey k) : hasSpecified k.specified avtabXperms = false := by
  have hslot : (keySlot k).specified = k.specified &&& ~~~avtabEnabled := rfl
  rw [← hasSpecified_xperms, ← hslot]
  rcases h.cases with h | h | h | h | h | h <;> rw [h] <;> decide

private theorem combineData_start (k : AvtabKey) (data : BitVec 32) :
    combineData k data (dataStart (keySlot k)) = data := by
  unfold combineData dataStart
  by_cases hd : (keySlot k).specified = avtabAuditdeny
  · rw [if_pos hd, if_pos hd, BitVec.allOnes_and]
  · rw [if_neg hd, if_neg hd]
    split
    · exact BitVec.zero_or
    · rfl

/-- The table has the totals of the insertions, and its flags. -/
structure Expanded (flag : AvtabKey → Bool) (grants : List (AvtabKey × AvtabDatum)) (expa : Avtab) : Prop where
  filled : expa.Filled
  totals : Represents (fun n => n ∈ avtabNodes expa) (fun n => keySlot n.key) (fun n => n.datum.data)
    (total (fun g : AvtabKey × AvtabDatum => keySlot g.1) dataStart (fun g v => combineData g.1 g.2.data v) grants)
  flag : ∀ n ∈ avtabNodes expa, hasSpecified n.key.specified avtabEnabled = flag (keySlot n.key)

variable {flag : AvtabKey → Bool} {grants : List (AvtabKey × AvtabDatum)}

private theorem expandAvtabDatum_eq (hk : IsAvSpec (keySlot k).specified) (d avd : AvtabDatum) :
    expandAvtabDatum (k.specified &&& ~~~avtabEnabled) d avd =
      some { avd with data := combineData k d.data avd.data } := by
  have hslot : k.specified &&& ~~~avtabEnabled = (keySlot k).specified := rfl
  unfold expandAvtabDatum combineData
  rw [hslot, if_pos hk]
  have hcases := hk
  unfold IsAvSpec at hcases
  simp only [List.mem_cons, List.not_mem_nil, or_false] at hcases
  rcases hcases with h | h | h <;> rw [h] <;> rfl

theorem Expanded.total_eq_none (h : Expanded flag grants expa) (hk : OldKey k) (hsearch : avtabSearch expa k = none) :
    total (fun g : AvtabKey × AvtabDatum => keySlot g.1) dataStart (fun g v => combineData g.1 g.2.data v) grants
      (keySlot k) = none := by
  have hnone := (avtabSearch_eq_some_or_none h.filled.alloc k).2.1 hsearch
  rw [Option.eq_none_iff_forall_ne_some]
  intro b hb
  obtain ⟨n, hn, hslot⟩ := h.totals.exists_of_eq_some _ b hb
  have hsame := keySlot_eq_iff.1 hslot.symm
  exact hnone n hn ((matchesKey_iff_sameKey hk.singleBit (h.filled.single n hn)).2 hsame)

/-- One insertion adds to the total of its key. -/
private theorem expandAvtabInsert_expanded (h : Expanded flag grants expa) (hk : OldKey k)
    (hflag : hasSpecified k.specified avtabEnabled = flag (keySlot k))
    (hnew : ∀ g ∈ grants, keySlot g.1 = keySlot k → IsAvSpec (keySlot k).specified) :
    ∃ expa', expandAvtabInsert expa k d = some expa' ∧ Expanded flag (grants ++ [(k, d)]) expa' := by
  have hfind : expandAvtabFind expa k d = avtabSearch expa k := if_neg (by rw [hk.not_xperms]; decide)
  have hsome := (avtabSearch_eq_some_or_none h.filled.alloc k).1
  have htotals := h.totals
  unfold expandAvtabInsert
  rw [hfind]
  cases hsearch : avtabSearch expa k with
  | none =>
    have hperm := avtabNodes_insertedTable h.filled.alloc k d
    have hmem : ∀ m, m ∈ avtabNodes (insertedTable expa k d) ↔ m = ⟨k, d, expa.fresh⟩ ∨ m ∈ avtabNodes expa :=
      fun m => by
      rw [hperm.mem_iff, List.mem_cons]
    have hnone := h.total_eq_none hk hsearch
    dsimp only
    rw [avtabInsertNonunique_eq h.filled.alloc]
    refine ⟨_, rfl, insertedTable_filled h.filled hk.singleBit d, ?_, fun m hm => ?_⟩
    · rw [total_concat, hnone, Option.getD_none, combineData_start]
      exact htotals.insert (n := ⟨k, d, expa.fresh⟩) hnone hmem
    · rcases (hmem m).1 hm with rfl | hm
      · exact hflag
      · exact h.flag m hm
  | some node =>
    obtain ⟨hnode, hmatch⟩ := hsome node hsearch
    have hslot : keySlot k = keySlot node.key :=
      keySlot_eq_iff.2 ((matchesKey_iff_sameKey hk.singleBit (h.filled.single node hnode)).1 hmatch)
    have hval := htotals.val node hnode
    -- an insertion of the same key came before, so this is not a type rule
    have hav : IsAvSpec (keySlot k).specified := by
      by_contra hav
      have hown : grants.filter (fun g => keySlot g.1 = keySlot node.key) = [] := by
        rw [List.filter_eq_nil_iff]
        intro g hg hgk
        exact hav (hnew g hg ((of_decide_eq_true hgk).trans hslot.symm))
      rw [Accumulate.total_eq_none hown] at hval
      cases hval
    have hupdate : ∀ m, m ∈ avtabNodes (avtabUpdateNode expa node.addr fun n =>
        { n with datum := { node.datum with data := combineData k d.data node.datum.data } }) ↔
        m = { node with datum := { node.datum with data := combineData k d.data node.datum.data } } ∨
          m ∈ avtabNodes expa ∧ m ≠ node := fun m => mem_avtabNodes_updateNode h.filled hnode
    have hkeeps : KeepsKey fun n : AvtabNode =>
        { n with datum := { node.datum with data := combineData k d.data node.datum.data } } :=
      ⟨fun _ => rfl, fun _ => ⟨rfl, rfl, rfl⟩, fun _ => rfl⟩
    dsimp only
    rw [if_neg (by rw [hflag, h.flag node hnode, hslot]; exact not_not_intro rfl), expandAvtabDatum_eq hav]
    refine ⟨_, rfl, avtabUpdateNode_filled hkeeps h.filled _, ?_, fun m hm => ?_⟩
    · rw [total_concat]
      rw [← hslot] at hval
      rw [hval, Option.getD_some, hslot]
      exact htotals.replace hnode
        { node with datum := { node.datum with data := combineData k d.data node.datum.data } }
        rfl hupdate
    · rcases (hupdate m).1 hm with rfl | ⟨hm, _⟩
      · exact h.flag node hnode
      · exact h.flag m hm

/-! ### The whole table -/

/-- The insertions for the entries of a table. -/
def avtabGrants (p : Policydb) (a : Avtab) : List (AvtabKey × AvtabDatum) :=
  (avtabNodes a).flatMap fun n => (expandAvtabKeys p n.key).map fun k => (k, n.datum)

theorem mem_avtabGrants_iff {g : AvtabKey × AvtabDatum} :
    g ∈ avtabGrants p a ↔ ∃ n ∈ avtabNodes a, g.1 ∈ expandAvtabKeys p n.key ∧ g.2 = n.datum := by
  obtain ⟨k, d⟩ := g
  unfold avtabGrants
  simp only [List.mem_flatMap, List.mem_map, Prod.mk.injEq]
  constructor
  · rintro ⟨n, hn, k', hk', rfl, rfl⟩
    exact ⟨n, hn, hk', rfl⟩
  · rintro ⟨n, hn, hk, rfl⟩
    exact ⟨n, hn, k, hk, rfl, rfl⟩

theorem expandAvtab_eq (p : Policydb) (a : Avtab) : expandAvtab p a =
    (avtabGrants p a).foldlM (fun expa g => expandAvtabInsert expa g.1 g.2) (avtabAlloc maxAvtabSize) := by
  unfold expandAvtab avtabGrants
  generalize avtabAlloc maxAvtabSize = expa
  induction avtabNodes a generalizing expa with
  | nil => rfl
  | cons n l ih =>
    rw [List.foldlM_cons, List.flatMap_cons, List.foldlM_append, List.foldlM_map]
    exact congrArg _ (funext fun expa => ih expa)

/-- Insertions of keys that agree in their flags, and of one key again only for access vectors. -/
private theorem avtabGrants_expanded {grants' : List (AvtabKey × AvtabDatum)}
    (hold : ∀ g ∈ grants, OldKey g.1 ∧ hasSpecified g.1.specified avtabEnabled = flag (keySlot g.1))
    (hpair : grants.Pairwise fun g g' => keySlot g.1 = keySlot g'.1 → IsAvSpec (keySlot g.1).specified)
    (hbefore : ∀ g' ∈ grants', ∀ g ∈ grants, keySlot g'.1 = keySlot g.1 → IsAvSpec (keySlot g'.1).specified)
    (h : Expanded flag grants' expa) :
    ∃ expa', grants.foldlM (fun expa g => expandAvtabInsert expa g.1 g.2) expa = some expa' ∧
      Expanded flag (grants' ++ grants) expa' := by
  induction grants generalizing expa grants' with
  | nil => exact ⟨expa, rfl, by rwa [List.append_nil]⟩
  | cons g grants ih =>
    obtain ⟨hg, hgflag⟩ := hold g (List.mem_cons_self ..)
    obtain ⟨hpairg, hpair⟩ := List.pairwise_cons.1 hpair
    have hnew : ∀ g' ∈ grants', keySlot g'.1 = keySlot g.1 → IsAvSpec (keySlot g.1).specified :=
      fun g' hg' hslot => by
      rw [← hslot]
      exact hbefore g' hg' g (List.mem_cons_self ..) hslot
    obtain ⟨expa₁, hins, h₁⟩ := @expandAvtabInsert_expanded _ _ g.2 _ _ h hg hgflag hnew
    have hbefore₁ : ∀ g' ∈ grants' ++ [g], ∀ a ∈ grants, keySlot g'.1 = keySlot a.1 →
        IsAvSpec (keySlot g'.1).specified := by
      intro g' hg' a ha hslot
      rcases List.mem_append.1 hg' with hg' | hg'
      · exact hbefore g' hg' a (List.mem_cons_of_mem _ ha) hslot
      · obtain rfl := List.mem_singleton.1 hg'
        exact hpairg a ha hslot
    obtain ⟨expa₂, hrun, h₂⟩ := ih (fun a ha => hold a (List.mem_cons_of_mem _ ha)) hpair hbefore₁ h₁
    refine ⟨expa₂, ?_, ?_⟩
    · rw [List.foldlM_cons, hins]
      exact hrun
    · rwa [List.append_assoc, List.singleton_append] at h₂

/-- A table without extended permissions in a policy whose attributes have types that fit in a key, whose type rules
are between individual types and have keys of their own, and whose entries agree in the flag `AVTAB_ENABLED` where
they expand to the same key. -/
structure OldTable (p : Policydb) (a : Avtab) : Prop where
  filled : a.Filled
  fits : p.TypesFit
  old : ∀ n ∈ avtabNodes a, OldKey n.key
  individual : ∀ n ∈ avtabNodes a, IsTypeSpec (keySlot n.key).specified →
    isIndividual p n.key.sourceType = true ∧ isIndividual p n.key.targetType = true
  unique : ∀ n ∈ avtabNodes a, ∀ m ∈ avtabNodes a, IsTypeSpec (keySlot n.key).specified →
    keySlot n.key = keySlot m.key → n = m
  flag : ∀ n ∈ avtabNodes a, ∀ m ∈ avtabNodes a, n.key.targetClass = m.key.targetClass →
    (keySlot n.key).specified = (keySlot m.key).specified →
    (∃ s, p.Covers n.key.sourceType s ∧ p.Covers m.key.sourceType s) →
    (∃ t, p.Covers n.key.targetType t ∧ p.Covers m.key.targetType t) →
    hasSpecified n.key.specified avtabEnabled = hasSpecified m.key.specified avtabEnabled

theorem keySlot_specified_of_mem (hk : k' ∈ expandAvtabKeys p k) :
    (keySlot k').specified = (keySlot k).specified := by
  have hspec : k'.specified = k.specified := by
    unfold expandAvtabKeys at hk
    split at hk
    · rw [List.mem_singleton.1 hk]
    · split at hk
      · obtain ⟨j, _, rfl⟩ := List.mem_map.1 hk
        rfl
      · split at hk
        · obtain ⟨i, _, rfl⟩ := List.mem_map.1 hk
          rfl
        · obtain ⟨i, _, hk⟩ := List.mem_flatMap.1 hk
          obtain ⟨j, _, rfl⟩ := List.mem_map.1 hk
          rfl
  unfold keySlot
  rw [hspec]

theorem not_isAvSpec_of_isTypeSpec {specified : BitVec 16} (h : IsTypeSpec specified) : ¬ IsAvSpec specified := by
  unfold IsTypeSpec at h
  simp only [List.mem_cons, List.not_mem_nil, or_false] at h
  rcases h with h | h | h <;> rw [h] <;> decide

private theorem OldTable.keys_of_not_isAvSpec (h : OldTable p a) (hn : n ∈ avtabNodes a)
    (hav : ¬ IsAvSpec (keySlot n.key).specified) : expandAvtabKeys p n.key = [n.key] := by
  obtain ⟨hs, ht⟩ := h.individual n hn ((h.old n hn).resolve_left hav)
  unfold expandAvtabKeys
  rw [hs, ht]
  rfl

/-- The table expands, to the totals of its insertions. -/
theorem OldTable.expandAvtab (h : OldTable p a) : ∃ flag expa, Sepol.expandAvtab p a = some expa ∧
    Expanded flag (avtabGrants p a) expa := by
  have hkey : ∀ g ∈ avtabGrants p a, ∃ n ∈ avtabNodes a, g.1 ∈ expandAvtabKeys p n.key := fun g hg => by
    obtain ⟨n, hn, hk, _⟩ := mem_avtabGrants_iff.1 hg
    exact ⟨n, hn, hk⟩
  let flag : AvtabKey → Bool := fun slot =>
    (avtabGrants p a).any fun g => keySlot g.1 = slot && hasSpecified g.1.specified avtabEnabled
  have hflag : ∀ g ∈ avtabGrants p a, hasSpecified g.1.specified avtabEnabled = flag (keySlot g.1) := by
    intro g hg
    rw [Bool.eq_iff_iff]
    constructor
    · intro henabled
      exact List.any_eq_true.2 ⟨g, hg, by rw [henabled]; simp⟩
    · intro hany
      obtain ⟨g', hg', hslot⟩ := List.any_eq_true.1 hany
      rw [Bool.and_eq_true, decide_eq_true_eq] at hslot
      obtain ⟨n, hn, hk⟩ := hkey g hg
      obtain ⟨m, hm, hk'⟩ := hkey g' hg'
      obtain ⟨hs, ht, hc, hspec⟩ := (mem_expandAvtabKeys_iff h.fits).1 hk
      obtain ⟨hs', ht', hc', hspec'⟩ := (mem_expandAvtabKeys_iff h.fits).1 hk'
      obtain ⟨⟨hsource, htarget, hclass⟩, hsame⟩ := keySlot_eq_iff.1 hslot.1
      rw [hsource] at hs'
      rw [htarget] at ht'
      have heq := h.flag n hn m hm (by rw [← hc, ← hc', hclass])
        (by rw [← keySlot_specified_of_mem hk, ← keySlot_specified_of_mem hk']; exact hsame.symm)
        ⟨_, hs, hs'⟩ ⟨_, ht, ht'⟩
      rw [hspec, heq, ← hspec']
      exact hslot.2
  have hold : ∀ g ∈ avtabGrants p a, OldKey g.1 := by
    intro g hg
    obtain ⟨n, hn, hk⟩ := hkey g hg
    unfold OldKey
    rw [keySlot_specified_of_mem hk]
    exact h.old n hn
  have hpair : (avtabGrants p a).Pairwise fun g g' =>
      keySlot g.1 = keySlot g'.1 → IsAvSpec (keySlot g.1).specified := by
    have hnodup : (avtabNodes a).Nodup := List.Nodup.of_map _ h.filled.addr
    unfold avtabGrants
    rw [List.pairwise_flatMap]
    refine ⟨fun n hn => ?_, List.Pairwise.imp_of_mem (fun {n m} hn hm hne => ?_) hnodup⟩
    · by_cases hav : IsAvSpec (keySlot n.key).specified
      · refine List.pairwise_map.2 (List.pairwise_of_forall_mem_list fun k hk _ _ _ => ?_)
        rw [keySlot_specified_of_mem hk]
        exact hav
      · rw [h.keys_of_not_isAvSpec hn hav]
        exact List.pairwise_singleton ..
    · intro g hg g' hg' hslot
      obtain ⟨k, hk, rfl⟩ := List.mem_map.1 hg
      obtain ⟨k', hk', rfl⟩ := List.mem_map.1 hg'
      dsimp only at hslot ⊢
      rw [keySlot_specified_of_mem hk]
      by_contra hav
      have hspec : (keySlot n.key).specified = (keySlot m.key).specified := by
        rw [← keySlot_specified_of_mem hk, hslot, keySlot_specified_of_mem hk']
      rw [h.keys_of_not_isAvSpec hn hav] at hk
      rw [h.keys_of_not_isAvSpec hm (by rwa [← hspec])] at hk'
      obtain rfl := List.mem_singleton.1 hk
      obtain rfl := List.mem_singleton.1 hk'
      exact hne (h.unique n hn m hm ((h.old n hn).resolve_left hav) hslot)
  have hempty : Expanded flag [] (avtabAlloc maxAvtabSize) := by
    refine ⟨avtabAlloc_filled (by decide), Represents.empty fun n hn => ?_, fun n hn => ?_⟩
    · rw [avtabNodes_avtabAlloc] at hn
      cases hn
    · rw [avtabNodes_avtabAlloc] at hn
      cases hn
  obtain ⟨expa, hrun, hexp⟩ := avtabGrants_expanded (fun g hg => ⟨hold g hg, hflag g hg⟩) hpair
    (fun g' hg' => by cases hg') hempty
  exact ⟨flag, expa, (expandAvtab_eq p a).trans hrun, hexp⟩

end Sepol
