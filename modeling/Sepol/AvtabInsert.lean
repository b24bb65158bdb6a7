import Sepol.Avtab

/-!
# Insertions into access vector tables

A new node goes behind the nodes with smaller or equal keys of the chain of its hash value, so the chains stay in
order (`Avtab.Ok`).  A search finds the new node for its key and what it found before for other keys.
-/

namespace Sepol

open SortedChain (seekUntil insertUntil modifyUntil StopsAfterHits)

variable {h : Avtab} {key key' : AvtabKey} {n : AvtabNode} {datum : AvtabDatum} {f : AvtabDatum → AvtabDatum}

/-- A table whose chains are in order and whose mask keeps hash values below the number of slots. -/
structure Avtab.Allocated (h : Avtab) : Prop where
  ok : h.Ok
  mask : h.mask.toNat < h.nslot

theorem avtabHash_lt (hmask : h.mask.toNat < h.nslot) (key : AvtabKey) : avtabHash key h.mask < h.nslot := by
  refine lt_of_le_of_lt ?_ hmask
  rw [avtabHash, BitVec.toNat_and]
  exact Nat.and_le_right

/-- The table that `avtab_alloc` makes is allocated. -/
theorem avtabAlloc_allocated {nrules : Nat} (hn : nrules ≠ 0) : (avtabAlloc nrules).Allocated := by
  have hempty : ∀ i, (avtabAlloc nrules).htable i = [] := fun i => by
    rw [avtabAlloc, if_neg hn]
  refine ⟨⟨fun i n hi => ?_, fun i _ => hempty i, fun i => ?_⟩, ?_⟩
  · rw [hempty] at hi
    cases hi
  · rw [hempty]
    exact List.Pairwise.nil
  · rw [avtabAlloc, if_neg hn]
    have hslot : ∀ s : Nat, 1 ≤ (if 2 ^ s > 2 ^ 20 then 2 ^ 20 else 2 ^ s) := fun s => by
      have := Nat.one_le_two_pow (n := s)
      split <;> omega
    exact lt_of_le_of_lt (Nat.mod_le _ _) (Nat.sub_lt (hslot _) Nat.one_pos)

theorem avtabSearch_eq (ok : h.Ok) (key : AvtabKey) :
    avtabSearch h key = (h.htable (avtabHash key h.mask)).find? (avtabHit key (key.specified &&& ~~~avtabEnabled)) :=
  SortedChain.head?_seekUntil (ok.stopsAfterHits ..)

theorem avtabSearch_of_empty (hempty : ∀ i, h.htable i = []) (key : AvtabKey) : avtabSearch h key = none := by
  rw [avtabSearch, avtabSearchNode, hempty]
  rfl

private theorem avtabStop_congr (hkey : sameTypes key' key) (n : AvtabNode) : avtabStop key' n = avtabStop key n := by
  rw [avtabStop, avtabStop, hkey.1, hkey.2.1, hkey.2.2]

private theorem avtabHit_of_stop {specified : BitVec 16} (hstop : avtabStop key n = true) :
    avtabHit key specified n = false := by
  rw [Bool.eq_false_iff]
  intro hhit
  obtain ⟨⟨h1, h2, h3⟩, _⟩ := avtabHit_iff.1 hhit
  simp [avtabStop, h1, h2, h3] at hstop

theorem avtabStop_iff : avtabStop key n = true ↔ ¬ avtabKeyLe n.key key := by
  simp only [avtabStop, avtabKeyLe, Bool.or_eq_true, Bool.and_eq_true, decide_eq_true_eq, BitVec.lt_def,
    BitVec.le_def,
    ← BitVec.toNat_inj]
  omega

theorem avtabKeyLe_of_not {a b : AvtabKey} (hab : ¬ avtabKeyLe a b) : avtabKeyLe b a := by
  simp only [avtabKeyLe, BitVec.lt_def, BitVec.le_def, ← BitVec.toNat_inj] at hab ⊢
  omega

theorem avtabKeyLe_trans {a b c : AvtabKey} (hab : avtabKeyLe a b) (hbc : avtabKeyLe b c) : avtabKeyLe a c := by
  simp only [avtabKeyLe, BitVec.lt_def, BitVec.le_def, ← BitVec.toNat_inj] at hab hbc ⊢
  omega

/-- A walk over all nodes whose steps succeed. -/
theorem avtabMap_of_foldlM {σ : Type} {apply : AvtabKey → AvtabDatum → σ → Int × σ} {step : σ → AvtabNode → Option σ}
    (hstep : ∀ n s s', step s n = some s' → apply n.key n.datum s = (0, s')) {s s' : σ}
    (hl : (avtabNodes h).foldlM step s = some s') : avtabMap h apply s = (0, s') := by
  rw [avtabMap]
  generalize avtabNodes h = l at hl ⊢
  induction l generalizing s with
  | nil =>
    obtain rfl : s = s' := by simpa using hl
    rfl
  | cons n l ih =>
    rw [List.foldlM_cons] at hl
    obtain ⟨s1, h1, hl⟩ := Option.bind_eq_some_iff.1 hl
    rw [avtabMapNodes, hstep n s s1 h1]
    exact ih hl

/-! ### Other chains -/

/-- A chain with the keys of its hash value, in order, may take the place of another one. -/
theorem Avtab.Ok.setChain (ok : h.Ok) {i : Nat} (hi : i < h.nslot) {chain : List AvtabNode} {nel : BitVec 32}
    {fresh : Nat}
    (hslot : ∀ n ∈ chain, avtabHash n.key h.mask = i)
    (hsorted : chain.Pairwise fun a b => avtabKeyLe a.key b.key) :
    Avtab.Ok { avtabSetChain h i chain with nel := nel, fresh := fresh } where
  slot := fun j n hn => by
    dsimp only [avtabSetChain] at hn ⊢
    split at hn
    · rename_i hj
      exact hj ▸ hslot n hn
    · exact ok.slot j n hn
  bound := fun j hj => by
    dsimp only [avtabSetChain] at hj ⊢
    rw [if_neg (by omega)]
    exact ok.bound j hj
  sorted := fun j => by
    dsimp only [avtabSetChain]
    split
    · exact hsorted
    · exact ok.sorted j

/-! ### Insertion -/

private theorem avtabInsertChain_eq {specified : BitVec 16} {l : List AvtabNode}
    (hl : ∀ n ∈ l, avtabHit key specified n = false)
    (newnode : AvtabNode) : avtabInsertChain key specified newnode l =
    some (insertUntil (avtabStop key) newnode l) := by
  induction l with
  | nil => rfl
  | cons cur next ih =>
    rw [avtabInsertChain, if_neg (by simp [hl cur])]
    split
    · rename_i hs
      simp [insertUntil, hs]
    · rename_i hs
      rw [ih fun n hn => hl n (List.mem_cons_of_mem _ hn)]
      simp [insertUntil, hs]

/-- A node with a new key can be inserted; searches find it for its types, class and specifier when they found nothing
before. -/
theorem avtabInsert_spec (ha : h.Allocated) (hnone : avtabSearch h key = none) (datum : AvtabDatum) :
    ∃ h', avtabInsert h key datum = some h' ∧ h'.Allocated ∧ h'.mask = h.mask ∧ ∀ key', avtabSearch h' key' =
      if avtabHit key' (key'.specified &&& ~~~avtabEnabled) ⟨key, datum, h.fresh⟩ = true then
        (avtabSearch h key').or (some ⟨key, datum, h.fresh⟩)
      else avtabSearch h key' := by
  have ok := ha.ok
  have hlt := avtabHash_lt ha.mask key
  rw [avtabSearch_eq ok, List.find?_eq_none] at hnone
  have hchain := avtabInsertChain_eq (fun n hn => Bool.eq_false_iff.2 (hnone n hn)) ⟨key, datum, h.fresh⟩
  have hok' : Avtab.Ok { avtabSetChain h (avtabHash key h.mask) (insertUntil (avtabStop key) ⟨key, datum, h.fresh⟩
      (h.htable (avtabHash key h.mask))) with nel := h.nel + 1, fresh := h.fresh + 1 } := by
    refine ok.setChain hlt (fun n hn => ?_) ?_
    · rcases List.mem_cons.1 ((SortedChain.insertUntil_perm ..).mem_iff.1 hn) with rfl | hn
      · rfl
      · exact ok.slot _ n hn
    · refine @SortedChain.insertUntil_pairwise _ (fun a b : AvtabNode => avtabKeyLe a.key b.key)
        (fun h1 h2 => avtabKeyLe_trans h1 h2) _ _ _ (ok.sorted _) (fun n _ hs => ?_) fun n _ hs => ?_
      · by_contra hle
        rw [avtabStop_iff.2 hle] at hs
        cases hs
      · exact avtabKeyLe_of_not (avtabStop_iff.1 hs)
  refine ⟨_, ?_, ⟨hok', ha.mask⟩, rfl, fun key' => ?_⟩
  · rw [avtabInsert, if_neg (by omega)]
    dsimp only
    rw [hchain, Option.map_some]
  · rw [avtabSearch_eq hok', avtabSearch_eq ok]
    dsimp only [avtabSetChain]
    by_cases hi : avtabHash key' h.mask = avtabHash key h.mask
    · rw [if_pos hi, hi]
      split
      · rename_i hhit
        have hkey := (avtabHit_iff.1 hhit).1
        have hstop : avtabStop key = avtabStop key' := funext fun n => (avtabStop_congr hkey n).symm
        rw [hstop]
        exact SortedChain.find?_insertUntil (ok.stopsAfterHits ..) (fun n _ hs => avtabHit_of_stop hs) hhit
      · rename_i hhit
        exact SortedChain.find?_insertUntil_of_not _ _ (Bool.eq_false_iff.2 hhit)
    · rw [if_neg hi]
      split
      · rename_i hhit
        exact absurd (avtabHash_congr (avtabHit_iff.1 hhit).1 _) hi
      · rfl

/-! ### Changes of a datum -/

/-- Changing the datum that a search finds changes what the search for that key finds, and nothing else that is
searched for with the same specifier. -/
theorem avtabModify_spec (ha : h.Allocated) (key : AvtabKey) (f : AvtabDatum → AvtabDatum) :
    (avtabModify h key f).Allocated ∧ (avtabModify h key f).mask = h.mask ∧
      ∀ key', key'.specified = key.specified → avtabSearch (avtabModify h key f) key' =
        if key' = key then (avtabSearch h key).map fun n => { n with datum := f n.datum }
          else avtabSearch h key' := by
  have ok := ha.ok
  have hlt := avtabHash_lt ha.mask key
  have hkeys := @SortedChain.map_modifyUntil AvtabNode AvtabKey (avtabHit key (key.specified &&& ~~~avtabEnabled))
    (avtabStop key) (fun n => { n with datum := f n.datum }) AvtabNode.key (fun _ => rfl)
    (h.htable (avtabHash key h.mask))
  have hok' : (avtabModify h key f).Ok := by
    refine ok.setChain hlt (fun n hn => ?_) ?_
    · have hmem := hkeys ▸ List.mem_map_of_mem (f := AvtabNode.key) hn
      obtain ⟨m, hm, hmn⟩ := List.mem_map.1 hmem
      rw [← hmn]
      exact ok.slot _ m hm
    · rw [← List.pairwise_map (f := AvtabNode.key), hkeys, List.pairwise_map]
      exact ok.sorted _
  refine ⟨⟨hok', ha.mask⟩, rfl, fun key' hspec => ?_⟩
  rw [avtabSearch_eq hok', avtabSearch_eq ok, avtabSearch_eq ok]
  dsimp only [avtabModify, avtabSetChain]
  by_cases hkey : key' = key
  · subst hkey
    rw [if_pos rfl, if_pos rfl]
    exact SortedChain.find?_modifyUntil (ok.stopsAfterHits ..) fun _ => rfl
  · rw [if_neg hkey]
    split
    · rename_i hi
      rw [hi]
      refine SortedChain.find?_modifyUntil_of_not fun n hn => ?_
      -- no node has both keys, which have the same specifier
      have hno : avtabHit key' (key'.specified &&& ~~~avtabEnabled) n = false := by
        rw [Bool.eq_false_iff]
        intro hn'
        obtain ⟨⟨h1, h2, h3⟩, _⟩ := avtabHit_iff.1 hn
        obtain ⟨⟨h1', h2', h3'⟩, _⟩ := avtabHit_iff.1 hn'
        obtain ⟨s, t, c, sp⟩ := key
        obtain ⟨s', t', c', sp'⟩ := key'
        simp_all
      exact ⟨hno, hno⟩
    · rfl

end Sepol
