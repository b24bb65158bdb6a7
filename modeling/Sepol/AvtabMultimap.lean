import Sepol.AvtabInsert

/-!
# The access vector table as a multimap

`avtab_insert_nonunique`, and what holds after any calls of it and of `avtab_insert` on a table from `avtab_alloc`
(`Avtab.Filled`): the chains are in order, `nel` counts the nodes modulo 2^32, and the early exits of the searches
lose no entry.
-/

namespace Sepol

open SortedChain (insertUntil StopsAfterHits)

/-- `avtab_insert_nonunique`: the table and the new node; `none` stands for a table that was not allocated. -/
def avtabInsertNonunique (h : Avtab) (key : AvtabKey) (datum : AvtabDatum) : Option (Avtab × AvtabNode) :=
  if h.nslot = 0 then none
  else
    let specified := key.specified &&& ~~~avtabEnabled
    let hvalue := avtabHash key h.mask
    let newnode := ⟨key, datum, h.fresh⟩
    let chain := insertUntil (fun cur => avtabHit key specified cur || avtabStop key cur) newnode (h.htable hvalue)
    some ({ avtabSetChain h hvalue chain with nel := h.nel + 1, fresh := h.fresh + 1 }, newnode)

/-- A call of one of the two functions that insert. -/
inductive AvtabCall
  | insert (key : AvtabKey) (datum : AvtabDatum)
  | insertNonunique (key : AvtabKey) (datum : AvtabDatum)

def AvtabCall.key : AvtabCall → AvtabKey
  | insert key _ => key
  | insertNonunique key _ => key

/-- The table after a call; a call that fails returns before it changes anything. -/
def AvtabCall.run (h : Avtab) : AvtabCall → Avtab
  | insert key datum => (avtabInsert h key datum).getD h
  | insertNonunique key datum => ((avtabInsertNonunique h key datum).map Prod.fst).getD h

/-- Calls on a table for `nrules` rules. -/
def avtabRun (nrules : Nat) (calls : List AvtabCall) : Avtab := calls.foldl AvtabCall.run (avtabAlloc nrules)

variable {h : Avtab} {key : AvtabKey} {n : AvtabNode} {datum : AvtabDatum} {specified : BitVec 16}

/-- A specifier with one bit, apart from the enabled flag. -/
def SingleBit (specified : BitVec 16) : Prop := ∃ i < 15, specified &&& ~~~avtabEnabled = 1#16 <<< i

/-- Two keys with the same types, class and specifier; the enabled flag is not part of it. -/
def sameKey (a b : AvtabKey) : Prop :=
  sameTypes a b ∧ a.specified &&& ~~~avtabEnabled = b.specified &&& ~~~avtabEnabled

/-- An entry with the types and class of a key and a specifier bit of it. -/
def matchesKey (key : AvtabKey) (n : AvtabNode) : Prop :=
  sameTypes key n.key ∧ hasSpecified (key.specified &&& ~~~avtabEnabled) n.key.specified = true

theorem sameKey.symm {a b : AvtabKey} (h : sameKey a b) : sameKey b a :=
  ⟨⟨h.1.1.symm, h.1.2.1.symm, h.1.2.2.symm⟩, h.2.symm⟩

theorem sameKey.trans {a b c : AvtabKey} (h1 : sameKey a b) (h2 : sameKey b c) : sameKey a c :=
  ⟨⟨h1.1.1.trans h2.1.1, h1.1.2.1.trans h2.1.2.1, h1.1.2.2.trans h2.1.2.2⟩, h1.2.trans h2.2⟩

instance (a b : AvtabKey) : Decidable (sameTypes a b) := inferInstanceAs (Decidable (_ ∧ _))

instance (a b : AvtabKey) : Decidable (sameKey a b) := inferInstanceAs (Decidable (_ ∧ _))

instance (key : AvtabKey) (n : AvtabNode) : Decidable (matchesKey key n) := inferInstanceAs (Decidable (_ ∧ _))

/-- The state of a table after insertions with single-bit specifiers. -/
structure Avtab.Filled (h : Avtab) : Prop where
  alloc : h.Allocated
  nel : h.nel = BitVec.ofNat 32 (avtabNodes h).length
  fresh : h.fresh = (avtabNodes h).length
  addr : ((avtabNodes h).map AvtabNode.addr).Nodup
  addrLt : ∀ n ∈ avtabNodes h, n.addr < h.fresh
  single : ∀ n ∈ avtabNodes h, SingleBit n.key.specified

/-! ### Insertion -/

/-- A successful insertion puts the node before the first hit or the first larger key; it fails only at a hit whose
specifier is not for extended permissions. -/
private theorem avtabInsertChain_cases (newnode : AvtabNode) {l : List AvtabNode}
    (hl : StopsAfterHits (avtabHit key specified) (avtabStop key) l) :
    avtabInsertChain key specified newnode l =
      if (∃ cur ∈ l, avtabHit key specified cur = true) ∧ hasSpecified specified avtabXperms = false then none
      else some (insertUntil (fun cur => avtabHit key specified cur || avtabStop key cur) newnode l) := by
  induction l with
  | nil => simp [avtabInsertChain, insertUntil]
  | cons cur next ih =>
    rw [avtabInsertChain]
    by_cases hhit : avtabHit key specified cur = true
    · rw [if_pos hhit]
      cases hx : hasSpecified specified avtabXperms with
      | true => simp [insertUntil, hhit]
      | false => rw [if_neg (by simp), if_pos ⟨⟨cur, List.mem_cons_self .., hhit⟩, rfl⟩]
    · rw [if_neg hhit]
      by_cases hstop : avtabStop key cur = true
      · have hnone : ¬ ∃ c ∈ cur :: next, avtabHit key specified c = true := by
          rintro ⟨c, hc, hchit⟩
          rcases List.mem_cons.1 hc with rfl | hc
          · exact hhit hchit
          · rw [(List.pairwise_cons.1 hl).1 c hc hstop] at hchit
            cases hchit
        rw [if_pos hstop, if_neg fun hex => hnone hex.1]
        simp [insertUntil, hstop]
      · have hex : (∃ c ∈ cur :: next, avtabHit key specified c = true) ↔
            ∃ c ∈ next, avtabHit key specified c = true := by
          simp [hhit]
        rw [if_neg hstop, ih (List.pairwise_cons.1 hl).2]
        simp only [hex]
        split
        · rfl
        · simp [insertUntil, hhit, hstop]

/-- The chain of a key holds all nodes that match it. -/
theorem mem_htable_and_hit_iff (ok : h.Ok) :
    n ∈ h.htable (avtabHash key h.mask) ∧ avtabHit key (key.specified &&& ~~~avtabEnabled) n = true ↔
      n ∈ avtabNodes h ∧ matchesKey key n := by
  rw [ok.mem_htable_iff, avtabHit_iff, matchesKey]
  constructor
  · rintro ⟨⟨hn, _⟩, hhit⟩
    exact ⟨hn, hhit⟩
  · rintro ⟨hn, hhit⟩
    exact ⟨⟨hn, (avtabHash_congr hhit.1 _).symm⟩, hhit⟩

/-- The chain of a key with a new node in it. -/
def insertedChain (h : Avtab) (key : AvtabKey) (datum : AvtabDatum) : List AvtabNode :=
  insertUntil (fun cur => avtabHit key (key.specified &&& ~~~avtabEnabled) cur || avtabStop key cur)
    ⟨key, datum, h.fresh⟩ (h.htable (avtabHash key h.mask))

/-- The table with a new node. -/
def insertedTable (h : Avtab) (key : AvtabKey) (datum : AvtabDatum) : Avtab :=
  { avtabSetChain h (avtabHash key h.mask) (insertedChain h key datum) with nel := h.nel + 1, fresh := h.fresh + 1 }

theorem avtabInsertNonunique_eq (ha : h.Allocated) (key : AvtabKey) (datum : AvtabDatum) :
    avtabInsertNonunique h key datum = some (insertedTable h key datum, ⟨key, datum, h.fresh⟩) := by
  have hlt := avtabHash_lt ha.mask key
  rw [avtabInsertNonunique, if_neg (by omega)]
  rfl

theorem avtabInsert_eq (ha : h.Allocated) (key : AvtabKey) (datum : AvtabDatum) :
    avtabInsert h key datum =
      if (∃ n ∈ avtabNodes h, matchesKey key n) ∧
        hasSpecified (key.specified &&& ~~~avtabEnabled) avtabXperms = false then none
      else some (insertedTable h key datum) := by
  have hlt := avtabHash_lt ha.mask key
  have hex : (∃ cur ∈ h.htable (avtabHash key h.mask), avtabHit key (key.specified &&& ~~~avtabEnabled) cur = true) ↔
      ∃ n ∈ avtabNodes h, matchesKey key n := exists_congr fun n => mem_htable_and_hit_iff ha.ok
  rw [avtabInsert, if_neg (by omega)]
  dsimp only
  rw [avtabInsertChain_cases _ (ha.ok.stopsAfterHits ..)]
  simp only [hex]
  split
  · rfl
  · rfl

private theorem insertedChain_perm (h : Avtab) (key : AvtabKey) (datum : AvtabDatum) :
    (insertedChain h key datum).Perm (⟨key, datum, h.fresh⟩ :: h.htable (avtabHash key h.mask)) :=
  SortedChain.insertUntil_perm ..

private theorem insertedChain_sorted (ok : h.Ok) (key : AvtabKey) (datum : AvtabDatum) :
    (insertedChain h key datum).Pairwise fun a b => avtabKeyLe a.key b.key := by
  refine SortedChain.insertUntil_pairwise (r := fun a b : AvtabNode => avtabKeyLe a.key b.key)
    (fun h1 h2 => avtabKeyLe_trans h1 h2) (ok.sorted _) (fun n _ hs => ?_) fun n _ hs => ?_
  · by_contra hle
    rw [avtabStop_iff.2 hle, Bool.or_true] at hs
    cases hs
  · rcases Bool.or_eq_true_iff.1 hs with hhit | hstop
    · obtain ⟨⟨h1, h2, h3⟩, _⟩ := avtabHit_iff.1 hhit
      exact Or.inr ⟨h1, Or.inr ⟨h2, h3 ▸ BitVec.le_refl _⟩⟩
    · exact avtabKeyLe_of_not (avtabStop_iff.1 hstop)

theorem avtabNodes_insertedTable (ha : h.Allocated) (key : AvtabKey) (datum : AvtabDatum) :
    (avtabNodes (insertedTable h key datum)).Perm (⟨key, datum, h.fresh⟩ :: avtabNodes h) := by
  have hlt := List.mem_range.2 (avtabHash_lt ha.mask key)
  have hperm := SortedChain.flatMap_update_perm List.nodup_range hlt h.htable (insertedChain_perm h key datum)
  refine (List.Perm.of_eq ?_).trans hperm
  rw [avtabNodes]
  refine List.flatMap_congr fun i _ => ?_
  by_cases hi : i = avtabHash key h.mask
  · rw [hi, Function.update_self]
    exact if_pos rfl
  · rw [Function.update_of_ne hi]
    exact if_neg hi

theorem insertedTable_allocated (ha : h.Allocated) (key : AvtabKey) (datum : AvtabDatum) :
    (insertedTable h key datum).Allocated := by
  refine ⟨ha.ok.setChain (avtabHash_lt ha.mask key) (fun n hn => ?_) (insertedChain_sorted ha.ok key datum), ha.mask⟩
  rcases List.mem_cons.1 ((insertedChain_perm h key datum).mem_iff.1 hn) with rfl | hn
  · rfl
  · exact ha.ok.slot _ n hn

theorem insertedTable_filled (hf : h.Filled) (hkey : SingleBit key.specified) (datum : AvtabDatum) :
    (insertedTable h key datum).Filled := by
  have hperm := avtabNodes_insertedTable hf.alloc key datum
  have hmem : ∀ n ∈ avtabNodes (insertedTable h key datum), n = ⟨key, datum, h.fresh⟩ ∨ n ∈ avtabNodes h :=
    fun n hn => List.mem_cons.1 (hperm.mem_iff.1 hn)
  refine ⟨insertedTable_allocated hf.alloc key datum, ?_, ?_, ?_, fun n hn => ?_, fun n hn => ?_⟩
  · rw [hperm.length_eq, List.length_cons, BitVec.ofNat_add, ← hf.nel]
    rfl
  · rw [hperm.length_eq, List.length_cons, ← hf.fresh]
    rfl
  · rw [(hperm.map AvtabNode.addr).nodup_iff, List.map_cons, List.nodup_cons]
    refine ⟨fun hin => ?_, hf.addr⟩
    obtain ⟨n, hn, haddr⟩ := List.mem_map.1 hin
    have := hf.addrLt n hn
    dsimp only at haddr
    omega
  · rcases hmem n hn with rfl | hn
    · exact Nat.lt_succ_self _
    · exact Nat.lt_succ_of_lt (hf.addrLt n hn)
  · rcases hmem n hn with rfl | hn
    · exact hkey
    · exact hf.single n hn

/-! ### Runs -/

private theorem AvtabCall.run_filled (hf : h.Filled) (call : AvtabCall) (hcall : SingleBit call.key.specified) :
    (call.run h).Filled := by
  cases call with
  | insert key datum =>
    rw [AvtabCall.run, avtabInsert_eq hf.alloc]
    split
    · exact hf
    · exact insertedTable_filled hf hcall datum
  | insertNonunique key datum =>
    rw [AvtabCall.run, avtabInsertNonunique_eq hf.alloc]
    exact insertedTable_filled hf hcall datum

@[simp] theorem avtabNodes_avtabAlloc (nrules : Nat) : avtabNodes (avtabAlloc nrules) = [] := by
  rw [avtabNodes, List.flatMap_eq_nil_iff]
  intro i _
  unfold avtabAlloc
  split
  · rfl
  · rfl

theorem avtabAlloc_filled {nrules : Nat} (hn : nrules ≠ 0) : (avtabAlloc nrules).Filled := by
  have hempty := avtabNodes_avtabAlloc nrules
  refine ⟨avtabAlloc_allocated hn, ?_, ?_, ?_, ?_, ?_⟩
  · rw [hempty, avtabAlloc, if_neg hn]
    rfl
  · rw [hempty, avtabAlloc, if_neg hn]
    rfl
  · rw [hempty]
    exact List.nodup_nil
  · simp [hempty]
  · simp [hempty]

theorem avtabRun_filled {nrules : Nat} (hn : nrules ≠ 0) (calls : List AvtabCall)
    (hcalls : ∀ call ∈ calls, SingleBit call.key.specified) : (avtabRun nrules calls).Filled := by
  rw [avtabRun]
  generalize avtabAlloc nrules = h, avtabAlloc_filled hn = hf
  induction calls generalizing h with
  | nil => exact hf
  | cons call calls ih =>
    exact ih (fun c hc => hcalls c (List.mem_cons_of_mem _ hc)) _
      (call.run_filled hf (hcalls call (List.mem_cons_self ..)))

/-! ### Searches -/

/-- A specifier bit in common is the same specifier when both have one bit only. -/
theorem hasSpecified_iff_of_singleBit {a b : BitVec 16} (ha : SingleBit a) (hb : SingleBit b) :
    hasSpecified (a &&& ~~~avtabEnabled) b = true ↔ a &&& ~~~avtabEnabled = b &&& ~~~avtabEnabled := by
  obtain ⟨i, hi, hia⟩ := ha
  obtain ⟨j, hj, hjb⟩ := hb
  have hmask : a &&& ~~~avtabEnabled &&& b = a &&& ~~~avtabEnabled &&& (b &&& ~~~avtabEnabled) := by
    ext k hk
    simp only [BitVec.getElem_and]
    cases a[k] <;> cases b[k] <;> cases (~~~avtabEnabled)[k] <;> rfl
  have hone : ∀ i < 15, ∀ k < 16, (1#16 <<< i).getLsbD k = decide (k = i) := by decide
  rw [hasSpecified, hmask, hia, hjb, decide_eq_true_eq, ne_eq]
  constructor
  · intro hne
    by_contra hij
    refine hne (BitVec.eq_of_getLsbD_eq fun k hk => ?_)
    rw [BitVec.getLsbD_and, hone i hi k hk, hone j hj k hk]
    by_cases hki : k = i
    · have hkj : k ≠ j := fun hkj => hij (by rw [← hki, ← hkj])
      simp [hkj]
    · simp [hki]
  · intro heq hz
    have hbit := hone i hi i (by omega)
    rw [← heq, BitVec.and_self] at hz
    rw [hz] at hbit
    simp at hbit

theorem matchesKey_iff_sameKey (hkey : SingleBit key.specified) (hn : SingleBit n.key.specified) :
    matchesKey key n ↔ sameKey key n.key :=
  and_congr_right fun _ => hasSpecified_iff_of_singleBit hkey hn

/-- The loop over `avtab_search_node` and `avtab_search_node_next` visits the nodes that match, and no other. -/
theorem avtabSearchNodes_eq_filter (ha : h.Allocated) (key : AvtabKey) :
    avtabSearchNodes h key = (avtabNodes h).filter fun n => matchesKey key n := by
  have hlt := List.mem_range.2 (avtabHash_lt ha.mask key)
  have hmatch : ∀ l : List AvtabNode, (l.filter fun n => matchesKey key n) =
      l.filter (avtabHit key (key.specified &&& ~~~avtabEnabled)) := fun l =>
    List.filter_congr fun n _ => by
      rw [Bool.eq_iff_iff, avtabHit_iff, decide_eq_true_eq]
      rfl
  rw [avtabSearchNodes_eq ha.ok, avtabNodes, List.filter_flatMap,
    SortedChain.flatMap_eq_of_forall_ne List.nodup_range hlt fun i _ hi => ?_, hmatch]
  rw [List.filter_eq_nil_iff]
  intro n hn hmatch
  have hslot := ha.ok.slot i n hn
  rw [decide_eq_true_eq] at hmatch
  rw [← hslot, avtabHash_congr hmatch.1] at hi
  exact hi rfl

/-- `avtab_search` finds a matching node exactly when there is one. -/
theorem avtabSearch_eq_some_or_none (ha : h.Allocated) (key : AvtabKey) :
    (∀ n, avtabSearch h key = some n → n ∈ avtabNodes h ∧ matchesKey key n) ∧
      (avtabSearch h key = none ↔ ∀ n ∈ avtabNodes h, ¬ matchesKey key n) := by
  rw [avtabSearch_eq ha.ok]
  constructor
  · intro n hn
    exact (mem_htable_and_hit_iff ha.ok).1 ⟨List.mem_of_find?_eq_some hn, List.find?_some hn⟩
  · rw [List.find?_eq_none]
    constructor
    · intro hnone n hn hm
      have hchain := (mem_htable_and_hit_iff ha.ok).2 ⟨hn, hm⟩
      exact hnone n hchain.1 hchain.2
    · intro hnone n hn hhit
      have hnode := (mem_htable_and_hit_iff ha.ok).1 ⟨hn, hhit⟩
      exact hnone n hnode.1 hnode.2

theorem hasSpecified_xperms (s : BitVec 16) :
    hasSpecified (s &&& ~~~avtabEnabled) avtabXperms = hasSpecified s avtabXperms := by
  have hmask : ~~~avtabEnabled &&& avtabXperms = avtabXperms := by decide
  rw [hasSpecified, hasSpecified, BitVec.and_assoc, hmask]

/-- `avtab_insert` refuses a key exactly when an entry has it already that is not for extended permissions. -/
private theorem avtabInsert_eq_none_iff (hf : h.Filled) (hkey : SingleBit key.specified) (datum : AvtabDatum) :
    avtabInsert h key datum = none ↔
      ∃ n ∈ avtabNodes h, sameKey key n.key ∧ hasSpecified n.key.specified avtabXperms = false := by
  have hsame : ∀ n ∈ avtabNodes h, matchesKey key n ↔ sameKey key n.key := fun n hn =>
    and_congr_right fun _ => hasSpecified_iff_of_singleBit hkey (hf.single n hn)
  have hxperms : ∀ n : AvtabNode, sameKey key n.key →
      hasSpecified (key.specified &&& ~~~avtabEnabled) avtabXperms = hasSpecified n.key.specified avtabXperms := by
    intro n hn
    rw [hn.2, hasSpecified_xperms]
  have hnone : avtabInsert h key datum = none ↔ (∃ n ∈ avtabNodes h, matchesKey key n) ∧
      hasSpecified (key.specified &&& ~~~avtabEnabled) avtabXperms = false := by
    rw [avtabInsert_eq hf.alloc]
    split
    · rename_i hex
      exact iff_of_true rfl hex
    · rename_i hex
      exact iff_of_false (by simp) hex
  rw [hnone]
  constructor
  · rintro ⟨⟨n, hn, hm⟩, hx⟩
    have hkey := (hsame n hn).1 hm
    exact ⟨n, hn, hkey, (hxperms n hkey).symm.trans hx⟩
  · rintro ⟨n, hn, hkey, hx⟩
    exact ⟨⟨n, hn, (hsame n hn).2 hkey⟩, (hxperms n hkey).trans hx⟩

/-- After any insertions with single-bit specifiers the table is a sorted multimap, and neither insertions nor
searches miss an entry by stopping early. -/
theorem avtabRun_multimap {nrules : Nat} (hn : nrules ≠ 0) (calls : List AvtabCall)
    (hcalls : ∀ call ∈ calls, SingleBit call.key.specified) :
    (∀ i, ((avtabRun nrules calls).htable i).Pairwise fun a b => avtabKeyLe a.key b.key) ∧
    (avtabRun nrules calls).nel = BitVec.ofNat 32 (avtabNodes (avtabRun nrules calls)).length ∧
    (∀ key datum, SingleBit key.specified → (avtabInsert (avtabRun nrules calls) key datum = none ↔
      ∃ n ∈ avtabNodes (avtabRun nrules calls), sameKey key n.key ∧
        hasSpecified n.key.specified avtabXperms = false)) ∧
    (∀ key, (∀ n, avtabSearch (avtabRun nrules calls) key = some n →
        n ∈ avtabNodes (avtabRun nrules calls) ∧ matchesKey key n) ∧
      (avtabSearch (avtabRun nrules calls) key = none ↔
        ∀ n ∈ avtabNodes (avtabRun nrules calls), ¬ matchesKey key n)) ∧
    ∀ key, (avtabSearchNodes (avtabRun nrules calls) key).Nodup ∧
      avtabSearchNodes (avtabRun nrules calls) key =
        (avtabNodes (avtabRun nrules calls)).filter fun n => matchesKey key n := by
  have hf := avtabRun_filled hn calls hcalls
  refine ⟨hf.alloc.ok.sorted, hf.nel, fun key datum hkey => avtabInsert_eq_none_iff hf hkey datum,
    avtabSearch_eq_some_or_none hf.alloc, fun key => ⟨?_, avtabSearchNodes_eq_filter hf.alloc key⟩⟩
  rw [avtabSearchNodes_eq_filter hf.alloc]
  exact (List.Nodup.of_map _ hf.addr).filter _

/-- An `allow` rule and an enabled copy of it: the third insertion of the key fails. -/
theorem avtabRun_multimap_example :
    ∃ n ∈ avtabNodes (avtabRun 2 [.insert ⟨1, 2, 3, avtabAllowed⟩ ⟨1, 0, 0, fun _ => 0⟩,
        .insertNonunique ⟨1, 2, 3, avtabAllowed ||| avtabEnabled⟩ ⟨2, 0, 0, fun _ => 0⟩]),
      sameKey ⟨1, 2, 3, avtabAllowed⟩ n.key ∧ hasSpecified n.key.specified avtabXperms = false := by
  refine ((avtabRun_multimap (by decide) _ fun call hcall => ?_).2.2.1 ⟨1, 2, 3, avtabAllowed⟩ ⟨4, 0, 0, fun _ => 0⟩
    ⟨0, by decide, by decide⟩).1 (Option.isNone_iff_eq_none.1 (by decide))
  simp only [List.mem_cons, List.not_mem_nil, or_false] at hcall
  rcases hcall with rfl | rfl <;> exact ⟨0, by decide, by decide⟩

private theorem length_avtabNodes_insertNonunique (hf : h.Filled) (hkey : SingleBit key.specified) (n : Nat) :
    (avtabNodes ((List.replicate n (AvtabCall.insertNonunique key datum)).foldl AvtabCall.run h)).length =
      (avtabNodes h).length + n := by
  induction n generalizing h with
  | zero => rfl
  | succ n ih =>
    rw [List.replicate_succ, List.foldl_cons, AvtabCall.run, avtabInsertNonunique_eq hf.alloc, Option.map_some,
      Option.getD_some, ih (insertedTable_filled hf hkey datum),
      (avtabNodes_insertedTable hf.alloc key datum).length_eq, List.length_cons]
    omega

/-- After 2^32 insertions of a key the field `nel` is 0 again. -/
theorem not_avtabRun_nel :
    ¬ ∀ (nrules : Nat) (calls : List AvtabCall), nrules ≠ 0 → (∀ call ∈ calls, SingleBit call.key.specified) →
      (avtabRun nrules calls).nel.toNat = (avtabNodes (avtabRun nrules calls)).length := by
  intro h
  have hkey : SingleBit avtabAllowed := ⟨0, by decide, by decide⟩
  have hcalls : ∀ call ∈ List.replicate (2 ^ 32)
    (AvtabCall.insertNonunique ⟨1, 1, 1, avtabAllowed⟩ ⟨1, 0, 0, fun _ => 0⟩),
      SingleBit call.key.specified := fun call hcall => by
    rw [List.eq_of_mem_replicate hcall]
    exact hkey
  have hlength := @length_avtabNodes_insertNonunique (avtabAlloc 1) ⟨1, 1, 1, avtabAllowed⟩ ⟨1, 0, 0, fun _ => 0⟩
    (avtabAlloc_filled (by decide)) hkey (2 ^ 32)
  rw [avtabNodes_avtabAlloc, List.length_nil, Nat.zero_add] at hlength
  have hnel := h 1 _ (by decide) hcalls
  rw [(avtabRun_filled (by decide) _ hcalls).nel, BitVec.toNat_ofNat] at hnel
  rw [avtabRun] at hnel
  rw [hlength] at hnel
  omega

end Sepol
