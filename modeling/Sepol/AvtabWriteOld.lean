import Sepol.AvtabRecord

/-!
# Writing a table in the old format

The two passes of `avtab_write` over the expanded table: both write one record for every group of nodes, and the first
one leaves the number of the records in `nel`.
-/

namespace Sepol

open Grouping

variable {n m cur : AvtabNode} {g l next : List AvtabNode} {merged : Nat → Bool}

/-- The nodes that are not marked. -/
def unmarked (merged : Nat → Bool) (l : List AvtabNode) : List AvtabNode := l.filter fun n => !merged n.addr

/-- What the walk over a chain needs of it: old specifiers, one node for a key, and nodes in order with addresses of
their own. -/
structure OldChain (l : List AvtabNode) : Prop where
  old : ∀ n ∈ l, OldKey n.key
  slots : (l.map fun n => keySlot n.key).Nodup
  addrs : (l.map AvtabNode.addr).Nodup
  sorted : l.Pairwise fun a b => avtabKeyLe a.key b.key

theorem OldChain.tail (h : OldChain (cur :: next)) : OldChain next :=
  ⟨fun n hn => h.old n (List.mem_cons_of_mem _ hn), (List.nodup_cons.1 h.slots).2, (List.nodup_cons.1 h.addrs).2,
    (List.pairwise_cons.1 h.sorted).2⟩

private theorem OldChain.addr_inj (h : OldChain l) (hn : n ∈ l) (hm : m ∈ l) (heq : n.addr = m.addr) : n = m :=
  List.inj_on_of_nodup_map h.addrs hn hm heq

/-- Nodes of one group are marked together. -/
def MarkedByGroup (merged : Nat → Bool) (l : List AvtabNode) : Prop :=
  ∀ n ∈ l, ∀ m ∈ l, keyGroup n.key = keyGroup m.key → merged n.addr = merged m.addr

private theorem markAll_group (h : OldChain (cur :: next)) (hn : n ∈ cur :: next) :
    markAll merged (cur :: next.filter fun n => keyGroup n.key = keyGroup cur.key) n.addr =
      (merged n.addr || decide (keyGroup n.key = keyGroup cur.key)) := by
  unfold markAll
  congr 1
  rw [Bool.eq_iff_iff, List.any_eq_true, decide_eq_true_eq]
  constructor
  · rintro ⟨m, hm, haddr⟩
    have hmem : m ∈ cur :: next := (List.Sublist.cons_cons _ List.filter_sublist).subset hm
    obtain rfl := h.addr_inj hmem hn (of_decide_eq_true haddr)
    rcases List.mem_cons.1 hm with rfl | hm
    · rfl
    · exact of_decide_eq_true (List.mem_filter.1 hm).2
  · intro hkey
    refine ⟨n, ?_, decide_eq_true rfl⟩
    rcases List.mem_cons.1 hn with rfl | hn
    · exact List.mem_cons_self ..
    · exact List.mem_cons_of_mem _ (List.mem_filter.2 ⟨hn, decide_eq_true hkey⟩)

private theorem map_sub_sub (nel : Option (BitVec 32)) (a b c : Nat) (h : a + b = c) :
    ((nel.map fun nel => nel - BitVec.ofNat 32 a).map fun nel => nel - BitVec.ofNat 32 b) =
      nel.map fun nel => nel - BitVec.ofNat 32 c := by
  rw [Option.map_map]
  refine congrArg (fun f => nel.map f) (funext fun nel => ?_)
  rw [Function.comp_apply, sub_sub, ← BitVec.ofNat_add, h]

private theorem map_sub_zero (nel : Option (BitVec 32)) : (nel.map fun nel => nel - BitVec.ofNat 32 0) = nel := by
  cases nel with
  | none => rfl
  | some nel => simp

@[simp] theorem markAll_nil (merged : Nat → Bool) : markAll merged [] = merged := by
  funext b
  exact Bool.or_false _

private theorem markAll_append (merged : Nat → Bool) (l l' : List AvtabNode) :
    markAll (markAll merged l) l' = markAll merged (l ++ l') := by
  funext b
  unfold markAll
  rw [Bool.or_assoc, ← List.any_append]

/-- The walk over a chain writes a record for every group of nodes that are not marked, and marks all nodes. -/
private theorem avtabWriteChain_groups (h : OldChain l) (hmarks : MarkedByGroup merged l) :
    ∃ gs, Groups (fun n => keyGroup n.key) (unmarked merged l) gs ∧ ∀ commit nel,
      avtabWriteChain commit l ⟨merged, nel⟩ = some (if commit then gs.flatMap recordBytes else [],
        ⟨markAll merged l, nel.map fun nel => nel - BitVec.ofNat 32 ((unmarked merged l).length - gs.length)⟩) := by
  induction l generalizing merged with
  | nil =>
    refine ⟨[], Groups.nil _, fun commit nel => ?_⟩
    unfold avtabWriteChain unmarked
    simp only [List.filter_nil, List.length_nil, List.flatMap_nil, ite_self, markAll_nil, map_sub_zero]
  | cons cur next ih =>
    cases hcur : merged cur.addr with
    | true =>
      have hmarks' : MarkedByGroup merged next := fun n hn m hm =>
        hmarks n (List.mem_cons_of_mem _ hn) m (List.mem_cons_of_mem _ hm)
      obtain ⟨gs, hgs, hrun⟩ := ih h.tail hmarks'
      have hunmarked : unmarked merged (cur :: next) = unmarked merged next :=
        List.filter_cons_of_neg (by rw [hcur]; decide)
      have hmark : markAll merged (cur :: next) = markAll merged next := by
        funext b
        unfold markAll
        rw [List.any_cons]
        by_cases hb : cur.addr = b
        · rw [← hb, hcur]
          rfl
        · simp [hb]
      refine ⟨gs, hunmarked ▸ hgs, fun commit nel => ?_⟩
      have hitem : avtabWriteItemOld cur next true commit ⟨merged, nel⟩ = some ([], ⟨merged, nel⟩) := by
        unfold avtabWriteItemOld
        exact if_pos (by simpa using hcur)
      unfold avtabWriteChain
      rw [hitem, hunmarked, hmark]
      dsimp only
      rw [hrun]
      rfl
    | false =>
      -- the node is the first one of its group, which has not been written yet
      have hmerged' := fun {n} (hn : n ∈ cur :: next) => @markAll_group n cur next merged h hn
      have hmarks' : MarkedByGroup
          (markAll merged (cur :: next.filter fun n => keyGroup n.key = keyGroup cur.key)) next := by
        intro n hn m hm hkey
        have hn' := List.mem_cons_of_mem cur hn
        have hm' := List.mem_cons_of_mem cur hm
        rw [hmerged' hn', hmerged' hm', hmarks n hn' m hm' hkey, hkey]
      obtain ⟨gs, hgs, hrun⟩ := ih h.tail hmarks'
      have hrest : unmarked (markAll merged (cur :: next.filter fun n => keyGroup n.key = keyGroup cur.key)) next =
          (unmarked merged next).filter fun n => keyGroup n.key ≠ keyGroup cur.key := by
        unfold unmarked
        rw [List.filter_filter]
        refine List.filter_congr fun n hn => ?_
        rw [hmerged' (List.mem_cons_of_mem _ hn)]
        cases merged n.addr <;> simp
      have hgroup : (unmarked merged next).filter (fun n => keyGroup n.key = keyGroup cur.key) =
          next.filter fun n => keyGroup n.key = keyGroup cur.key := by
        unfold unmarked
        rw [List.filter_filter]
        refine List.filter_congr fun n hn => ?_
        by_cases hkey : keyGroup n.key = keyGroup cur.key
        · rw [hmarks n (List.mem_cons_of_mem _ hn) cur (List.mem_cons_self ..) hkey, hcur]
          simp [hkey]
        · simp [hkey]
      have hunmarked : unmarked merged (cur :: next) = cur :: unmarked merged next :=
        List.filter_cons_of_pos (by rw [hcur]; rfl)
      have hgroups : Groups (fun n => keyGroup n.key) (unmarked merged (cur :: next))
          ((cur :: next.filter fun n => keyGroup n.key = keyGroup cur.key) :: gs) := by
        rw [hunmarked, ← hgroup]
        exact Groups.cons (hrest ▸ hgs)
      refine ⟨_, hgroups, fun commit nel => ?_⟩
      have hmark : markAll (markAll merged (cur :: next.filter fun n => keyGroup n.key = keyGroup cur.key)) next =
          markAll merged (cur :: next) := by
        rw [markAll_append]
        refine markAll_congr _ fun n => ?_
        simp only [List.cons_append, List.mem_cons, List.mem_append, List.mem_filter]
        tauto
      -- the nodes of the group and the rest are what was not marked
      have hlength : (unmarked merged (cur :: next)).length =
          (cur :: next.filter fun n => keyGroup n.key = keyGroup cur.key).length +
            (unmarked (markAll merged (cur :: next.filter fun n => keyGroup n.key = keyGroup cur.key))
              next).length := by
        have hperm := hgroups.perm.length_eq
        rw [List.flatten_cons, List.length_append, hgs.perm.length_eq] at hperm
        exact hperm.symm
      have hle := hgs.length_le
      have hitem : avtabWriteItemOld cur next true commit ⟨merged, nel⟩ = _ :=
        avtabWriteItemOld_first h.old h.slots h.sorted hcur rfl commit
      unfold avtabWriteChain
      rw [hitem]
      dsimp only
      rw [hrun, Option.map_some, hmark, map_sub_sub nel _ _ ((unmarked merged (cur :: next)).length -
        ((cur :: next.filter fun n => keyGroup n.key = keyGroup cur.key) :: gs).length)]
      · cases commit with
        | true => rfl
        | false => rfl
      · rw [hlength, List.length_cons, List.length_cons]
        omega

/-! ### All chains -/

/-- The chains of some slots. -/
def slotNodes (a : Avtab) (is : List Nat) : List AvtabNode := is.flatMap a.htable

/-- The expanded table as the walk needs it: old specifiers and one node for a key. -/
structure OldExpanded (a : Avtab) : Prop where
  filled : a.Filled
  old : ∀ n ∈ avtabNodes a, OldKey n.key
  slots : ((avtabNodes a).map fun n => keySlot n.key).Nodup

theorem OldExpanded.chain {a : Avtab} (h : OldExpanded a) {i : Nat} (hi : i < a.nslot) : OldChain (a.htable i) := by
  have hsub : (a.htable i).Sublist (avtabNodes a) := by
    have hflat := (List.singleton_sublist.2 (List.mem_range.2 hi)).flatMap a.htable
    rwa [List.flatMap_singleton] at hflat
  exact ⟨fun n hn => h.old n (hsub.subset hn), h.slots.sublist (hsub.map _), h.filled.addr.sublist (hsub.map _),
    h.filled.alloc.ok.sorted i⟩

private theorem mem_slotNodes {a : Avtab} {is : List Nat} : n ∈ slotNodes a is ↔ ∃ i ∈ is, n ∈ a.htable i :=
  List.mem_flatMap

/-- The walk over slots whose nodes are not marked writes a record for every group of their nodes. -/
private theorem avtabWriteSlots_groups {a : Avtab} (h : OldExpanded a) {is : List Nat} (his : ∀ i ∈ is, i < a.nslot)
    (hnodup : is.Nodup) (hmerged : ∀ n ∈ slotNodes a is, merged n.addr = false) :
    ∃ gs, Groups (fun n => keyGroup n.key) (slotNodes a is) gs ∧ ∀ commit nel,
      avtabWriteSlots commit a is ⟨merged, nel⟩ = some (if commit then gs.flatMap recordBytes else [],
        ⟨markAll merged (slotNodes a is), nel.map fun nel =>
          nel - BitVec.ofNat 32 ((slotNodes a is).length - gs.length)⟩) := by
  have ok := h.filled.alloc.ok
  induction is generalizing merged with
  | nil =>
    refine ⟨[], Groups.nil _, fun commit nel => ?_⟩
    unfold avtabWriteSlots slotNodes
    simp only [List.flatMap_nil, List.length_nil, ite_self, markAll_nil, map_sub_zero]
  | cons i is ih =>
    obtain ⟨hi, hnodup⟩ := List.nodup_cons.1 hnodup
    have hcons : slotNodes a (i :: is) = a.htable i ++ slotNodes a is := List.flatMap_cons
    have hchain : ∀ n ∈ a.htable i, merged n.addr = false := fun n hn =>
      hmerged n (hcons ▸ List.mem_append_left _ hn)
    -- a node of another slot has another hash value
    have hslot : ∀ n ∈ a.htable i, ∀ m ∈ slotNodes a is, avtabHash n.key a.mask ≠ avtabHash m.key a.mask := by
      intro n hn m hm heq
      obtain ⟨j, hj, hm⟩ := mem_slotNodes.1 hm
      rw [ok.slot i n hn, ok.slot j m hm] at heq
      exact hi (heq ▸ hj)
    have hmem : ∀ j ∈ i :: is, ∀ n ∈ a.htable j, n ∈ avtabNodes a := fun j hj n hn =>
      List.mem_flatMap.2 ⟨j, List.mem_range.2 (his j hj), hn⟩
    have hmarks : MarkedByGroup merged (a.htable i) := fun n hn m hm _ => by rw [hchain n hn, hchain m hm]
    obtain ⟨gs, hgs, hrun⟩ := avtabWriteChain_groups (h.chain (his i (List.mem_cons_self ..))) hmarks
    have hunmarked : unmarked merged (a.htable i) = a.htable i := by
      unfold unmarked
      rw [List.filter_eq_self]
      intro n hn
      rw [hchain n hn]
      rfl
    have hrest : ∀ m ∈ slotNodes a is, markAll merged (a.htable i) m.addr = false := by
      intro m hm
      unfold markAll
      rw [hmerged m (hcons ▸ List.mem_append_right _ hm), Bool.false_or, List.any_eq_false]
      intro n hn haddr
      obtain ⟨j, hj, hmj⟩ := mem_slotNodes.1 hm
      have heq := h.filled.eq_of_addr (hmem i (List.mem_cons_self ..) n hn) (hmem j (List.mem_cons_of_mem _ hj) m hmj)
        (of_decide_eq_true haddr)
      exact hslot n hn m hm (by rw [heq])
    obtain ⟨gs', hgs', hrun'⟩ := ih (fun j hj => his j (List.mem_cons_of_mem _ hj)) hnodup hrest
    rw [hunmarked] at hgs hrun
    have hgroups : Groups (fun n => keyGroup n.key) (slotNodes a (i :: is)) (gs ++ gs') := by
      rw [hcons]
      exact hgs.append hgs' fun n hn m hm hkey => hslot n hn m hm (avtabHash_congr (keyGroup_eq_iff.1 hkey).1 _)
    refine ⟨gs ++ gs', hgroups, fun commit nel => ?_⟩
    have hle := hgs.length_le
    have hle' := hgs'.length_le
    unfold avtabWriteSlots
    rw [hrun]
    dsimp only
    rw [hrun', Option.map_some, hcons, markAll_append,
      map_sub_sub nel _ _ ((a.htable i ++ slotNodes a is).length - (gs ++ gs').length)]
    · cases commit with
      | true =>
        simp only [if_true, List.flatMap_append]
      | false => rfl
    · rw [List.length_append, List.length_append]
      omega

/-- The bytes of the whole table: the number of groups and their records. -/
theorem avtabWriteOld_groups {p : Policydb} {a expa : Avtab} (hexpa : expandAvtab p a = some expa)
    (h : OldExpanded expa) : ∃ gs, Groups (fun n => keyGroup n.key) (avtabNodes expa) gs ∧
      avtabWriteOld p a = some (cpuToLe32 (BitVec.ofNat 32 gs.length).toNat ++ gs.flatMap recordBytes) := by
  obtain ⟨gs, hgs, hrun⟩ := @avtabWriteSlots_groups (fun _ => false) expa h (List.range expa.nslot)
    (fun i hi => List.mem_range.1 hi) List.nodup_range fun _ _ => rfl
  have hnodes : slotNodes expa (List.range expa.nslot) = avtabNodes expa := rfl
  rw [hnodes] at hgs hrun
  refine ⟨gs, hgs, ?_⟩
  have hnel : expa.nel - BitVec.ofNat 32 ((avtabNodes expa).length - gs.length) =
      BitVec.ofNat 32 gs.length := by
    have hle := hgs.length_le
    rw [h.filled.nel, sub_eq_iff_eq_add, ← BitVec.ofNat_add]
    congr 1
    omega
  unfold avtabWriteOld
  simp only [hexpa, Option.bind_eq_bind, Option.bind_some, hrun, Option.map_some, Option.getD_some, hnel, if_true]
  rfl

end Sepol
