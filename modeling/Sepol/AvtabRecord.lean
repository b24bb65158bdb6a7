import Sepol.Lib.Grouping
import Sepol.AvtabWrite

/-!
# Records of the old format

The nodes of the expanded table that have their types and class in common, and are all for access vectors or all for
type rules, go into one record.  `avtab_write_item` writes the record at the first node of a group, takes the other
nodes of the group off the count and marks them; at a marked node it writes nothing.
-/

namespace Sepol

variable {key : AvtabKey} {k k' : AvtabKey} {n m cur : AvtabNode} {g l next : List AvtabNode} {st : AvtabWriteState}
  {spec : BitVec 16} {val : BitVec 32}

/-! ### Specifiers -/

theorem mem_writeSpecOrder_iff : spec ∈ writeSpecOrder ↔ IsAvSpec spec ∨ IsTypeSpec spec := by
  unfold writeSpecOrder IsAvSpec IsTypeSpec
  simp only [List.mem_cons, List.not_mem_nil, or_false]
  tauto

/-- A node of the old format has a bit of the order when it is its specifier. -/
theorem OldKey.hasSpecified_iff (h : OldKey k) (hspec : spec ∈ writeSpecOrder) :
    hasSpecified k.specified spec = true ↔ (keySlot k).specified = spec := by
  have hmask : spec &&& ~~~avtabEnabled = spec := by
    unfold writeSpecOrder at hspec
    simp only [List.mem_cons, List.not_mem_nil, or_false] at hspec
    rcases hspec with h | h | h | h | h | h <;> rw [h] <;> decide
  have hold : OldKey ⟨0, 0, 0, spec⟩ := by
    unfold OldKey keySlot
    rw [hmask]
    exact mem_writeSpecOrder_iff.1 hspec
  have hiff := hasSpecified_iff_of_singleBit hold.singleBit h.singleBit
  rw [hmask] at hiff
  have hcomm : hasSpecified k.specified spec = hasSpecified spec k.specified := by
    rw [hasSpecified, hasSpecified, BitVec.and_comm]
  rw [hcomm, hiff, eq_comm]
  rfl

/-- The word of a node has the bits of its specifier. -/
private theorem wordHas_specWord (n : AvtabNode) (spec : BitVec 16) :
    wordHas (specWord n) spec = hasSpecified (keySlot n.key).specified spec := by
  have hhigh : avtabEnabledOld &&& spec.setWidth 32 = 0#32 := by
    ext i hi
    by_cases h : i < 16
    · have hbit : avtabEnabledOld.getLsbD i = false := by
        have : ∀ j < 16, avtabEnabledOld.getLsbD j = false := by decide
        exact this i h
      rw [← BitVec.getLsbD_eq_getElem, BitVec.getLsbD_and, hbit]
      simp
    · rw [← BitVec.getLsbD_eq_getElem, BitVec.getLsbD_and, BitVec.getLsbD_setWidth,
        BitVec.getLsbD_of_ge spec i (by omega)]
      simp
  have hword : specWord n &&& spec.setWidth 32 = ((keySlot n.key).specified &&& spec).setWidth 32 := by
    unfold specWord keySlot
    dsimp only
    split
    · have hor : ∀ x y z : BitVec 32, (x ||| y) &&& z = (x &&& z) ||| (y &&& z) := fun x y z => by
        ext i hi
        simp only [BitVec.getElem_and, BitVec.getElem_or]
        cases x[i] <;> cases y[i] <;> cases z[i] <;> rfl
      rw [hor, hhigh, BitVec.or_zero]
      simp only [BitVec.setWidth_and]
    · simp only [BitVec.setWidth_and]
  unfold wordHas hasSpecified
  rw [hword, decide_eq_decide, not_iff_not]
  constructor
  · intro h
    have := congrArg (BitVec.setWidth 16) h
    simpa using this
  · intro h
    rw [h]
    rfl

/-! ### Groups -/

/-- The group of a key: types, class, and the kind of rules. -/
def keyGroup (k : AvtabKey) : AvtabKey :=
  { k with specified := if IsAvSpec (keySlot k).specified then avtabAv else avtabType }

theorem keyGroup_eq_iff : keyGroup k = keyGroup k' ↔
    sameTypes k k' ∧ (IsAvSpec (keySlot k).specified ↔ IsAvSpec (keySlot k').specified) := by
  have hne : avtabAv ≠ avtabType := by decide
  unfold keyGroup sameTypes
  rw [AvtabKey.mk.injEq]
  by_cases h : IsAvSpec (keySlot k).specified
  · by_cases h' : IsAvSpec (keySlot k').specified
    · simp [h, h']
    · simp [h, h', hne]
  · by_cases h' : IsAvSpec (keySlot k').specified
    · simp [h, h', hne.symm]
    · simp [h, h']

/-- The nodes of one record. -/
structure IsGroup (g : List AvtabNode) : Prop where
  old : ∀ n ∈ g, OldKey n.key
  same : ∀ n ∈ g, ∀ m ∈ g, keyGroup n.key = keyGroup m.key
  slots : (g.map fun n => keySlot n.key).Nodup

/-- The nodes of a group that are found for some specifiers. -/
def specEntries (g : List AvtabNode) (specs : List (BitVec 16)) : List AvtabNode :=
  specs.filterMap fun spec => g.find? fun n => hasSpecified n.key.specified spec

/-- The nodes of a group in the order in which their data is written. -/
def groupEntries (g : List AvtabNode) : List AvtabNode := specEntries g writeSpecOrder

/-- The word of specifiers of a record. -/
def groupWord (g : List AvtabNode) : BitVec 32 := Words.union (g.map specWord)

/-- The bytes of the record of a group. -/
def recordBytes (g : List AvtabNode) : List Byte :=
  match g with
  | [] => []
  | cur :: _ =>
    cpuToLe32 (4 + (groupEntries g).length) ++ (cpuToLe32 cur.key.sourceType.toNat ++
      cpuToLe32 cur.key.targetType.toNat ++ cpuToLe32 cur.key.targetClass.toNat ++ cpuToLe32 (groupWord g).toNat ++
      (groupEntries g).flatMap fun n => cpuToLe32 n.datum.data.toNat)

theorem recordBytes_eq (hg : cur :: l = g) :
    recordBytes g = cpuToLe32 (4 + (groupEntries g).length) ++ (cpuToLe32 cur.key.sourceType.toNat ++
      cpuToLe32 cur.key.targetType.toNat ++ cpuToLe32 cur.key.targetClass.toNat ++ cpuToLe32 (groupWord g).toNat ++
      (groupEntries g).flatMap fun n => cpuToLe32 n.datum.data.toNat) := by
  subst hg
  rfl

theorem IsGroup.eq_of_specified (h : IsGroup g) (hn : n ∈ g) (hm : m ∈ g)
    (hspec : (keySlot n.key).specified = (keySlot m.key).specified) : n = m := by
  have hslot : keySlot n.key = keySlot m.key := keySlot_eq_iff.2 ⟨(keyGroup_eq_iff.1 (h.same n hn m hm)).1, hspec⟩
  exact List.inj_on_of_nodup_map h.slots hn hm hslot

/-- The node of a group that is found for a specifier. -/
theorem IsGroup.find?_eq_some_iff (h : IsGroup g) (hspec : spec ∈ writeSpecOrder) :
    g.find? (fun n => hasSpecified n.key.specified spec) = some n ↔ n ∈ g ∧ (keySlot n.key).specified = spec := by
  constructor
  · intro hfind
    have hn := List.mem_of_find?_eq_some hfind
    exact ⟨hn, ((h.old n hn).hasSpecified_iff hspec).1
      (List.find?_some (p := fun n : AvtabNode => hasSpecified n.key.specified spec) hfind)⟩
  · rintro ⟨hn, rfl⟩
    have hsome : (g.find? fun m => hasSpecified m.key.specified (keySlot n.key).specified).isSome :=
      List.find?_isSome.2 ⟨n, hn, ((h.old n hn).hasSpecified_iff hspec).2 rfl⟩
    obtain ⟨m, hm⟩ := Option.isSome_iff_exists.1 hsome
    have hmem := List.mem_of_find?_eq_some hm
    have heq := ((h.old m hmem).hasSpecified_iff hspec).1
      (List.find?_some (p := fun m : AvtabNode => hasSpecified m.key.specified (keySlot n.key).specified) hm)
    rw [hm, h.eq_of_specified hmem hn heq]

/-- The data of every node of a group is written once. -/
theorem IsGroup.entries_perm (h : IsGroup g) : (groupEntries g).Perm g := by
  have hnodup : g.Nodup := List.Nodup.of_map _ h.slots
  have horder : writeSpecOrder.Nodup := by decide
  refine (List.perm_ext_iff_of_nodup ?_ hnodup).2 fun n => ?_
  · unfold groupEntries specEntries
    refine List.pairwise_filterMap.2 (horder.imp_of_mem fun {a b} ha hb hne n hn m hm heq => hne ?_)
    obtain ⟨-, rfl⟩ := (h.find?_eq_some_iff ha).1 hn
    obtain ⟨-, rfl⟩ := (h.find?_eq_some_iff hb).1 hm
    rw [heq]
  · unfold groupEntries specEntries
    rw [List.mem_filterMap]
    constructor
    · rintro ⟨spec, hspec, hfind⟩
      exact ((h.find?_eq_some_iff hspec).1 hfind).1
    · intro hn
      have hspec : (keySlot n.key).specified ∈ writeSpecOrder := mem_writeSpecOrder_iff.2 (h.old n hn)
      exact ⟨_, hspec, (h.find?_eq_some_iff hspec).2 ⟨hn, rfl⟩⟩

/-! ### The word of specifiers -/

theorem OldKey.keySlot (h : OldKey k) : OldKey (keySlot k) := by
  have hslot : (Sepol.keySlot (Sepol.keySlot k)).specified = (Sepol.keySlot k).specified := by
    unfold Sepol.keySlot
    rw [BitVec.and_assoc, BitVec.and_self]
  unfold OldKey
  rwa [hslot]

private theorem OldKey.hasSpecified_keySlot_iff (h : OldKey k) (hspec : spec ∈ writeSpecOrder) :
    hasSpecified (Sepol.keySlot k).specified spec = true ↔ (Sepol.keySlot k).specified = spec := by
  have hslot : (Sepol.keySlot (Sepol.keySlot k)).specified = (Sepol.keySlot k).specified := by
    unfold Sepol.keySlot
    rw [BitVec.and_assoc, BitVec.and_self]
  rw [h.keySlot.hasSpecified_iff hspec, hslot]

private theorem OldKey.hasSpecified_av (h : OldKey k) :
    hasSpecified (Sepol.keySlot k).specified avtabAv = decide (IsAvSpec (Sepol.keySlot k).specified) := by
  rcases h.cases with h | h | h | h | h | h <;> rw [h] <;> decide

private theorem OldKey.hasSpecified_type (h : OldKey k) :
    hasSpecified (Sepol.keySlot k).specified avtabType = decide (¬ IsAvSpec (Sepol.keySlot k).specified) := by
  rcases h.cases with h | h | h | h | h | h <;> rw [h] <;> decide

theorem wordHas_groupWord_iff : wordHas (groupWord g) spec = true ↔
    ∃ n ∈ g, hasSpecified (keySlot n.key).specified spec = true := by
  have hunion := @Words.union_and_ne_zero_iff 32 (g.map specWord) (spec.setWidth 32)
  unfold wordHas groupWord
  rw [decide_eq_true_eq, hunion]
  simp only [List.mem_map, exists_exists_and_eq_and, ← wordHas_specWord]
  unfold wordHas
  simp only [decide_eq_true_eq]

private theorem IsGroup.wordHas_iff (h : IsGroup g) (hspec : spec ∈ writeSpecOrder) :
    wordHas (groupWord g) spec = true ↔ (g.find? fun n => hasSpecified n.key.specified spec).isSome = true := by
  rw [wordHas_groupWord_iff, Option.isSome_iff_exists]
  refine exists_congr fun n => ?_
  rw [h.find?_eq_some_iff hspec]
  exact and_congr_right fun hn => (h.old n hn).hasSpecified_keySlot_iff hspec

/-- The word of a group has bits of one kind only. -/
theorem IsGroup.wordHas_kind (h : IsGroup g) (hcur : cur ∈ g) :
    wordHas (groupWord g) (avtabAv ||| avtabType) = true ∧
      ¬ (wordHas (groupWord g) avtabAv = true ∧ wordHas (groupWord g) avtabType = true) := by
  constructor
  · refine wordHas_groupWord_iff.2 ⟨cur, hcur, ?_⟩
    rcases (h.old cur hcur).cases with h | h | h | h | h | h <;> rw [h] <;> decide
  · rintro ⟨hav, htype⟩
    obtain ⟨n, hn, hnav⟩ := wordHas_groupWord_iff.1 hav
    obtain ⟨m, hm, hmtype⟩ := wordHas_groupWord_iff.1 htype
    rw [(h.old n hn).hasSpecified_av, decide_eq_true_eq] at hnav
    rw [(h.old m hm).hasSpecified_type, decide_eq_true_eq] at hmtype
    exact hmtype ((keyGroup_eq_iff.1 (h.same n hn m hm)).2.1 hnav)

/-! ### Writing a record -/

/-- The marks after the nodes of a list are marked. -/
def markAll (merged : Nat → Bool) (l : List AvtabNode) : Nat → Bool := fun b => merged b || l.any fun n => n.addr = b

private theorem markAll_cons (merged : Nat → Bool) (n : AvtabNode) (l : List AvtabNode) :
    markAll (Function.update merged n.addr true) l = markAll merged (n :: l) := by
  funext b
  unfold markAll
  rw [List.any_cons, ← Bool.or_assoc]
  by_cases hb : b = n.addr
  · rw [hb, Function.update_self]
    simp
  · rw [Function.update_of_ne hb]
    simp [Ne.symm hb]

theorem markAll_congr (merged : Nat → Bool) {l l' : List AvtabNode} (h : ∀ n, n ∈ l ↔ n ∈ l') :
    markAll merged l = markAll merged l' := by
  funext b
  unfold markAll
  congr 1
  rw [Bool.eq_iff_iff, List.any_eq_true, List.any_eq_true]
  exact exists_congr fun n => and_congr_left fun _ => h n

/-- The loop over the specifiers writes the nodes that the group has for them, marks them, and takes those that are
not the current one off the count. -/
private theorem avtabWriteSpecs_eq {specs : List (BitVec 16)}
    (hword : ∀ s ∈ specs, wordHas val s = true ↔ (g.find? fun n => hasSpecified n.key.specified s).isSome = true)
    (hcur : ∀ s ∈ specs, hasSpecified cur.key.specified s = true →
      g.find? (fun n => hasSpecified n.key.specified s) = some cur)
    (hnext : ∀ s ∈ specs, wordHas val s = true → hasSpecified cur.key.specified s = false →
      (avtabSearchNodeNext (cur :: next) s).head? = g.find? fun n => hasSpecified n.key.specified s)
    (set : Int) (st : AvtabWriteState) :
    avtabWriteSpecs cur next val specs set st =
      some ((specEntries g specs).flatMap (fun n => cpuToLe32 n.datum.data.toNat), set - (specEntries g specs).length,
        ⟨markAll st.merged (specEntries g specs),
          st.nel.map fun nel => nel - BitVec.ofNat 32 ((specEntries g specs).countP fun n => n ≠ cur)⟩) := by
  induction specs generalizing set st with
  | nil =>
    have hmark : markAll st.merged [] = st.merged := by
      funext b
      exact Bool.or_false _
    have hnel : (st.nel.map fun nel => nel - BitVec.ofNat 32 0) = st.nel := by
      cases st.nel with
      | none => rfl
      | some nel => simp
    unfold avtabWriteSpecs specEntries
    simp only [List.filterMap_nil, List.flatMap_nil, List.length_nil, List.countP_nil, hmark, hnel]
    simp
  | cons s specs ih =>
    have ih := ih (fun a ha => hword a (List.mem_cons_of_mem _ ha)) (fun a ha => hcur a (List.mem_cons_of_mem _ ha))
      fun a ha => hnext a (List.mem_cons_of_mem _ ha)
    unfold avtabWriteSpecs
    cases hfind : g.find? (fun n => hasSpecified n.key.specified s) with
    | none =>
      have hentries : specEntries g (s :: specs) = specEntries g specs := List.filterMap_cons_none hfind
      have hno : ¬ wordHas val s = true := by
        rw [hword s (List.mem_cons_self ..), hfind]
        decide
      rw [if_neg hno, hentries, ih]
    | some n =>
      have hentries : specEntries g (s :: specs) = n :: specEntries g specs := List.filterMap_cons_some hfind
      have hyes : wordHas val s = true := by
        rw [hword s (List.mem_cons_self ..), hfind]
        rfl
      have hhas : hasSpecified n.key.specified s = true :=
        List.find?_some (p := fun n : AvtabNode => hasSpecified n.key.specified s) hfind
      have hset : set - 1 - ((specEntries g specs).length : Int) =
        set - ((specEntries g specs).length + 1 : Nat) := by
        push_cast
        ring
      rw [if_pos hyes, hentries]
      cases hc : hasSpecified cur.key.specified s with
      | true =>
        have hnc : n = cur := Option.some.inj (hfind.symm.trans (hcur s (List.mem_cons_self ..) hc))
        subst hnc
        simp only [if_true, ih, Option.map_some, markAll_cons, List.flatMap_cons, List.length_cons, hset]
        rw [List.countP_cons_of_neg (by simp)]
      | false =>
        have hne : n ≠ cur := by
          rintro rfl
          rw [hc] at hhas
          cases hhas
        have hsearch := (hnext s (List.mem_cons_self ..) hyes hc).trans hfind
        have hnel : ∀ k : Nat, ((st.nel.map fun nel => nel - 1).map fun nel => nel - BitVec.ofNat 32 k) =
            st.nel.map fun nel => nel - BitVec.ofNat 32 (k + 1) := fun k => by
          rw [Option.map_map]
          refine congrArg (fun f => st.nel.map f) (funext fun nel => ?_)
          rw [Function.comp_apply, Nat.add_comm, BitVec.ofNat_add, ← sub_sub]
          rfl
        simp only [Bool.false_eq_true, if_false, hsearch, ih, Option.map_some, markAll_cons, List.flatMap_cons,
          List.length_cons, hset]
        rw [List.countP_cons_of_pos (by simpa using hne), hnel]

/-- The nodes behind a node of a chain that are in its group. -/
private theorem filter_hit_eq (hold : ∀ n ∈ cur :: next, OldKey n.key) {lookup : BitVec 16}
    (hlookup : lookup = if IsAvSpec (keySlot cur.key).specified then avtabAv else avtabType) :
    next.filter (avtabHit cur.key (lookup &&& ~~~avtabEnabled)) =
      next.filter fun n => keyGroup n.key = keyGroup cur.key := by
  refine List.filter_congr fun n hn => ?_
  have hn := hold n (List.mem_cons_of_mem _ hn)
  have hmask : lookup &&& ~~~avtabEnabled = lookup := by
    rw [hlookup]
    split <;> decide
  have hspec : hasSpecified lookup n.key.specified =
      decide (IsAvSpec (keySlot cur.key).specified ↔ IsAvSpec (keySlot n.key).specified) := by
    have hslot : hasSpecified lookup n.key.specified = hasSpecified (keySlot n.key).specified lookup := by
      have hcomm : (keySlot n.key).specified &&& lookup = lookup &&& n.key.specified := by
        unfold keySlot
        dsimp only
        rw [BitVec.and_assoc, BitVec.and_comm (~~~avtabEnabled), hmask, BitVec.and_comm]
      rw [hasSpecified, hasSpecified, hcomm]
    rw [hslot, hlookup]
    by_cases hav : IsAvSpec (keySlot cur.key).specified
    · rw [if_pos hav, hn.hasSpecified_av]
      simp [hav]
    · rw [if_neg hav, hn.hasSpecified_type]
      simp [hav]
  rw [hmask, Bool.eq_iff_iff, avtabHit_iff, hspec, decide_eq_true_eq, decide_eq_true_eq, eq_comm, keyGroup_eq_iff]

theorem length_flatMap_cpuToLe32 (l : List AvtabNode) :
    (l.flatMap fun n => cpuToLe32 n.datum.data.toNat).length = 4 * l.length := by
  induction l with
  | nil => rfl
  | cons n l ih =>
    rw [List.flatMap_cons, List.length_append, ih, length_cpuToLe32, List.length_cons]
    omega

/-- The first node of a group that is not marked writes the record of the group. -/
theorem avtabWriteItemOld_first (hold : ∀ n ∈ cur :: next, OldKey n.key)
    (hslots : ((cur :: next).map fun n => keySlot n.key).Nodup)
    (hsorted : (cur :: next).Pairwise fun a b => avtabKeyLe a.key b.key) (hmerged : st.merged cur.addr = false)
    (hg : cur :: next.filter (fun n => keyGroup n.key = keyGroup cur.key) = g) (commit : Bool) :
    avtabWriteItemOld cur next true commit st = some (if commit then recordBytes g else [],
      ⟨markAll st.merged g, st.nel.map fun nel => nel - BitVec.ofNat 32 (g.length - 1)⟩) := by
  have hsub : g.Sublist (cur :: next) := hg ▸ List.Sublist.cons_cons _ List.filter_sublist
  have hmem : ∀ n ∈ g, keyGroup n.key = keyGroup cur.key := by
    rw [← hg]
    intro n hn
    rcases List.mem_cons.1 hn with rfl | hn
    · rfl
    · exact of_decide_eq_true (List.mem_filter.1 hn).2
  have hgroup : IsGroup g := ⟨fun n hn => hold n (hsub.subset hn), fun n hn m hm => by rw [hmem n hn, hmem m hm],
    hslots.sublist (hsub.map _)⟩
  have hcur : cur ∈ g := hg ▸ List.mem_cons_self ..
  have hcurold := hold cur (List.mem_cons_self ..)
  have hstops := fun specified => stopsAfterHits_of_pairwise (List.pairwise_cons.1 hsorted).2 cur.key specified
  -- the search for similar entries finds the rest of the group
  have hnodes : ∃ nodes, avtabWriteSimilar cur next true = some nodes ∧ cur :: nodes = g := by
    have heach : ∀ lookup, avtabForEachNode lookup next.length (avtabSearchNodeNext (cur :: next) lookup) =
        next.filter (avtabHit cur.key (lookup &&& ~~~avtabEnabled)) := fun lookup =>
      avtabForEachNode_eq _ _ (le_refl _) (hstops _)
    unfold avtabWriteSimilar
    rw [wordHas_specWord, wordHas_specWord, hcurold.hasSpecified_av, hcurold.hasSpecified_type]
    by_cases hav : IsAvSpec (keySlot cur.key).specified
    · refine ⟨_, by rw [if_neg (by decide), if_pos (decide_eq_true hav)], ?_⟩
      rw [heach, filter_hit_eq hold (if_pos hav).symm, hg]
    · refine ⟨_, by rw [if_neg (by decide), if_neg (by simpa using hav), if_pos (decide_eq_true hav)], ?_⟩
      rw [heach, filter_hit_eq hold (if_neg hav).symm, hg]
  have hnext : ∀ s ∈ writeSpecOrder, wordHas (groupWord g) s = true → hasSpecified cur.key.specified s = false →
      (avtabSearchNodeNext (cur :: next) s).head? = g.find? fun n => hasSpecified n.key.specified s := by
    intro s hs hword hcs
    -- a node with this specifier is in the group, so the specifier is of the kind of the group
    obtain ⟨n₀, hn₀⟩ := Option.isSome_iff_exists.1 ((hgroup.wordHas_iff hs).1 hword)
    obtain ⟨hn₀, hn₀s⟩ := (hgroup.find?_eq_some_iff hs).1 hn₀
    have hkind := (keyGroup_eq_iff.1 (hmem n₀ hn₀)).2
    have hmask : s &&& ~~~avtabEnabled = s := by
      rw [← hn₀s]
      unfold keySlot
      rw [BitVec.and_assoc, BitVec.and_self]
    have hhead : (avtabSearchNodeNext (cur :: next) s).head? =
      next.find? (avtabHit cur.key (s &&& ~~~avtabEnabled)) :=
      SortedChain.head?_seekUntil (hstops _)
    rw [hhead, ← hg, List.find?_cons_of_neg (by rw [hcs]; decide), List.find?_filter]
    refine List.find?_congr fun n hn => ?_
    have hn := hold n (List.mem_cons_of_mem _ hn)
    have hiff := hn.hasSpecified_iff hs
    have hcomm : hasSpecified s n.key.specified = hasSpecified n.key.specified s := by
      rw [hasSpecified, hasSpecified, BitVec.and_comm]
    rw [hmask, Bool.eq_iff_iff, avtabHit_iff, decide_eq_true_eq, decide_eq_true_eq, hcomm, keyGroup_eq_iff]
    constructor
    · rintro ⟨htypes, hspec⟩
      refine ⟨⟨⟨htypes.1.symm, htypes.2.1.symm, htypes.2.2.symm⟩, ?_⟩, hspec⟩
      rw [hiff.1 hspec, ← hn₀s]
      exact hkind
    · rintro ⟨⟨htypes, _⟩, hspec⟩
      exact ⟨⟨htypes.1.symm, htypes.2.1.symm, htypes.2.2.symm⟩, hspec⟩
  have hentries := @avtabWriteSpecs_eq cur g next (groupWord g) writeSpecOrder (fun s hs => hgroup.wordHas_iff hs)
    (fun s hs hc => (hgroup.find?_eq_some_iff hs).2 ⟨hcur, (hcurold.hasSpecified_iff hs).1 hc⟩) hnext
  have hperm := hgroup.entries_perm
  obtain ⟨hany, hboth⟩ := hgroup.wordHas_kind hcur
  have hcount : (groupEntries g).countP (fun n => n ≠ cur) = g.length - 1 := by
    have hnodup : g.Nodup := List.Nodup.of_map _ hgroup.slots
    rw [hperm.countP_eq, ← hg] at *
    rw [List.countP_cons_of_neg (by simp), List.length_cons, Nat.add_sub_cancel]
    refine List.countP_eq_length.2 fun n hn => decide_eq_true ?_
    rintro rfl
    exact (List.nodup_cons.1 hnodup).1 hn
  have hmark : markAll st.merged (groupEntries g) = markAll st.merged g := markAll_congr _ fun n => hperm.mem_iff
  obtain ⟨nodes, hsimilar, hN⟩ := hnodes
  have hword : nodes.foldl (fun val node => val ||| specWord node) (specWord cur) = groupWord g := by
    rw [← hN]
    unfold groupWord Words.union
    rw [List.map_cons, List.foldl_cons, List.foldl_map]
    congr 1
    exact BitVec.zero_or.symm
  have hset : (1 + (nodes.length : Int)) - (groupEntries g).length = 0 := by
    have hlength := congrArg List.length hN
    rw [List.length_cons] at hlength
    rw [hperm.length_eq]
    omega
  have hdata : avtabWriteData cur next true (groupWord g) (1 + nodes.length) st =
      some ((groupEntries g).flatMap (fun n => cpuToLe32 n.datum.data.toNat),
        1 + (nodes.length : Int) - (groupEntries g).length, ⟨markAll st.merged (groupEntries g),
          st.nel.map fun nel => nel - BitVec.ofNat 32 ((groupEntries g).countP fun n => n ≠ cur)⟩) :=
    hentries (1 + nodes.length) st
  unfold avtabWriteItemOld
  rw [if_neg (by rw [hmerged]; decide), hsimilar]
  simp only [Option.bind_eq_bind, Option.bind_some, hword, guard, if_pos hany, if_pos hboth, hdata]
  rw [if_pos hset, hmark, hcount]
  have hlength : (cpuToLe32 cur.key.sourceType.toNat ++ cpuToLe32 cur.key.targetType.toNat ++
      cpuToLe32 cur.key.targetClass.toNat ++ cpuToLe32 (groupWord g).toNat ++
        (groupEntries g).flatMap fun n => cpuToLe32 n.datum.data.toNat).length / 4 = 4 + (groupEntries g).length := by
    simp only [List.length_append, length_cpuToLe32, length_flatMap_cpuToLe32]
    omega
  rw [recordBytes_eq hg, ← hlength]
  rfl

end Sepol
