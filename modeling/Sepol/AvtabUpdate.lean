import Sepol.AvtabMultimap

/-!
# Writing to a node of a table

A pointer to a node is its address.  A write through the pointer changes the node with this address and no other one.
-/

namespace Sepol

variable {h : Avtab} {addr : Nat} {f : AvtabNode → AvtabNode}

/-- A write to the node with an address. -/
def avtabUpdateNode (h : Avtab) (addr : Nat) (f : AvtabNode → AvtabNode) : Avtab :=
  { h with htable := fun i => (h.htable i).map fun n => if n.addr = addr then f n else n }

/-- The flag `AVTAB_ENABLED` of a node is set or cleared. -/
def AvtabNode.setEnabled (n : AvtabNode) (enabled : Bool) : AvtabNode :=
  { n with key := { n.key with
      specified := if enabled then n.key.specified ||| avtabEnabled else n.key.specified &&& ~~~avtabEnabled } }

/-- A write of the flag and of the datum. -/
def AvtabNode.write (n : AvtabNode) (enabled : Bool) (f : AvtabDatum → AvtabDatum) : AvtabNode :=
  { n.setEnabled enabled with datum := f n.datum }

@[simp] theorem AvtabNode.setEnabled_addr (n : AvtabNode) (enabled : Bool) : (n.setEnabled enabled).addr = n.addr :=
  rfl

@[simp] theorem AvtabNode.setEnabled_datum (n : AvtabNode) (enabled : Bool) :
    (n.setEnabled enabled).datum = n.datum := rfl

theorem AvtabNode.setEnabled_sameTypes (n : AvtabNode) (enabled : Bool) :
    sameTypes (n.setEnabled enabled).key n.key := ⟨rfl, rfl, rfl⟩

theorem AvtabNode.hasSpecified_setEnabled (n : AvtabNode) (enabled : Bool) :
    hasSpecified (n.setEnabled enabled).key.specified avtabEnabled = enabled := by
  have h1 : ∀ s : BitVec 16, (s ||| avtabEnabled) &&& avtabEnabled ≠ 0 := by
    intro s hs
    have hbit := congrArg (fun w => w.getLsbD 15) hs
    simp at hbit
  have h2 : ∀ s : BitVec 16, s &&& ~~~avtabEnabled &&& avtabEnabled = 0 := by
    intro s
    rw [BitVec.and_assoc, show ~~~avtabEnabled &&& avtabEnabled = 0#16 from by decide, BitVec.and_zero]
    rfl
  cases enabled with
  | true =>
    change hasSpecified (n.key.specified ||| avtabEnabled) avtabEnabled = true
    rw [hasSpecified, decide_eq_true_eq]
    exact h1 _
  | false =>
    change hasSpecified (n.key.specified &&& ~~~avtabEnabled) avtabEnabled = false
    rw [hasSpecified, decide_eq_false_iff_not, not_not]
    exact h2 _

theorem AvtabNode.setEnabled_specified (n : AvtabNode) (enabled : Bool) :
    (n.setEnabled enabled).key.specified &&& ~~~avtabEnabled = n.key.specified &&& ~~~avtabEnabled := by
  cases enabled with
  | true =>
    change (n.key.specified ||| avtabEnabled) &&& ~~~avtabEnabled = _
    ext i hi
    simp only [BitVec.getElem_and, BitVec.getElem_or, BitVec.getElem_not]
    cases n.key.specified[i] <;> cases avtabEnabled[i] <;> rfl
  | false =>
    change n.key.specified &&& ~~~avtabEnabled &&& ~~~avtabEnabled = _
    rw [BitVec.and_assoc, BitVec.and_self]

private theorem avtabNodes_updateNode (h : Avtab) (addr : Nat) (f : AvtabNode → AvtabNode) :
    avtabNodes (avtabUpdateNode h addr f) = (avtabNodes h).map fun n => if n.addr = addr then f n else n := by
  rw [avtabNodes, avtabNodes, List.map_flatMap]
  rfl

/-- What is at an address after a write. -/
theorem avtabNodeAt_updateNode (hf : ∀ n, (f n).addr = n.addr) (b : Nat) :
    avtabNodeAt (avtabUpdateNode h addr f) b = (avtabNodeAt h b).map fun n => if b = addr then f n else n := by
  have haddr : ((fun n : AvtabNode => decide (n.addr = b)) ∘ fun n => if n.addr = addr then f n else n) =
      fun n => decide (n.addr = b) := by
    funext n
    rw [Function.comp_apply]
    split
    · rw [hf]
    · rfl
  rw [avtabNodeAt, avtabNodes_updateNode, List.find?_map, haddr]
  refine Option.map_congr fun n hn => ?_
  have hb : n.addr = b := by simpa using List.find?_some hn
  rw [hb]

/-! ### Writes that keep the key -/

/-- A write that keeps the address, the types, the class and the specifier of a node. -/
structure KeepsKey (f : AvtabNode → AvtabNode) : Prop where
  addr : ∀ n, (f n).addr = n.addr
  types : ∀ n, sameTypes (f n).key n.key
  specified : ∀ n, (f n).key.specified &&& ~~~avtabEnabled = n.key.specified &&& ~~~avtabEnabled

theorem KeepsKey.write (enabled : Bool) (f : AvtabDatum → AvtabDatum) : KeepsKey fun n => n.write enabled f :=
  ⟨fun _ => rfl, fun n => n.setEnabled_sameTypes enabled, fun n => n.setEnabled_specified enabled⟩

theorem KeepsKey.sameKey (hf : KeepsKey f) {key : AvtabKey} {n : AvtabNode} :
    sameKey key (f n).key ↔ sameKey key n.key := by
  obtain ⟨h1, h2, h3⟩ := hf.types n
  unfold Sepol.sameKey sameTypes
  rw [h1, h2, h3, hf.specified]

private theorem KeepsKey.ite (hf : KeepsKey f) (addr : Nat) : KeepsKey fun n => if n.addr = addr then f n else n := by
  refine ⟨fun n => ?_, fun n => ?_, fun n => ?_⟩
  · split
    · exact hf.addr n
    · rfl
  · split
    · exact hf.types n
    · exact ⟨rfl, rfl, rfl⟩
  · split
    · exact hf.specified n
    · rfl

private theorem avtabKeyLe_of_sameTypes {a a' b b' : AvtabKey} (ha : sameTypes a' a) (hb : sameTypes b' b)
    (h : avtabKeyLe a b) : avtabKeyLe a' b' := by
  unfold avtabKeyLe
  rw [ha.1, ha.2.1, ha.2.2, hb.1, hb.2.1, hb.2.2]
  exact h

/-- A write that keeps the key keeps the table in order. -/
theorem avtabUpdateNode_filled (hf : KeepsKey f) (hfill : h.Filled) (addr : Nat) :
    (avtabUpdateNode h addr f).Filled := by
  have hite := hf.ite addr
  have hslot : ∀ i, (avtabUpdateNode h addr f).htable i =
      (h.htable i).map fun n => if n.addr = addr then f n else n := fun i => rfl
  refine ⟨⟨⟨fun i n hn => ?_, fun i hi => ?_, fun i => ?_⟩, hfill.alloc.mask⟩, ?_, ?_, ?_, fun n hn => ?_,
    fun n hn => ?_⟩
  · rw [hslot] at hn
    obtain ⟨m, hm, rfl⟩ := List.mem_map.1 hn
    exact (avtabHash_congr (hite.types m) _).trans (hfill.alloc.ok.slot i m hm)
  · rw [hslot, hfill.alloc.ok.bound i hi, List.map_nil]
  · rw [hslot, List.pairwise_map]
    exact (hfill.alloc.ok.sorted i).imp fun hab => avtabKeyLe_of_sameTypes (hite.types _) (hite.types _) hab
  · rw [avtabNodes_updateNode, List.length_map]
    exact hfill.nel
  · rw [avtabNodes_updateNode, List.length_map]
    exact hfill.fresh
  · rw [avtabNodes_updateNode, List.map_map]
    have haddr : AvtabNode.addr ∘ (fun n => if n.addr = addr then f n else n) = AvtabNode.addr :=
      funext fun n => hite.addr n
    rw [haddr]
    exact hfill.addr
  · rw [avtabNodes_updateNode] at hn
    obtain ⟨m, hm, rfl⟩ := List.mem_map.1 hn
    rw [hite.addr m]
    exact hfill.addrLt m hm
  · rw [avtabNodes_updateNode] at hn
    obtain ⟨m, hm, rfl⟩ := List.mem_map.1 hn
    obtain ⟨i, hi, heq⟩ := hfill.single m hm
    exact ⟨i, hi, (hite.specified m).trans heq⟩

theorem Avtab.Filled.eq_of_addr (hf : h.Filled) {n m : AvtabNode} (hn : n ∈ avtabNodes h) (hm : m ∈ avtabNodes h)
    (heq : n.addr = m.addr) : n = m := List.inj_on_of_nodup_map hf.addr hn hm heq

/-- The node at the address of a node is the node itself. -/
theorem avtabNodeAt_eq_some_iff (hf : h.Filled) {n : AvtabNode} {b : Nat} :
    avtabNodeAt h b = some n ↔ n ∈ avtabNodes h ∧ n.addr = b := by
  unfold avtabNodeAt
  constructor
  · intro hn
    exact ⟨List.mem_of_find?_eq_some hn, by simpa using List.find?_some hn⟩
  · rintro ⟨hn, rfl⟩
    have hsome : ((avtabNodes h).find? fun m => m.addr = n.addr).isSome := List.find?_isSome.2 ⟨n, hn, by simp⟩
    obtain ⟨m, hm⟩ := Option.isSome_iff_exists.1 hsome
    have haddr : m.addr = n.addr := by simpa using List.find?_some hm
    rw [hm, hf.eq_of_addr (List.mem_of_find?_eq_some hm) hn haddr]

/-- The nodes after a write. -/
theorem mem_avtabNodes_updateNode (hfill : h.Filled) {n m : AvtabNode} (hn : n ∈ avtabNodes h) :
    m ∈ avtabNodes (avtabUpdateNode h n.addr f) ↔ m = f n ∨ m ∈ avtabNodes h ∧ m ≠ n := by
  rw [avtabNodes_updateNode, List.mem_map]
  constructor
  · rintro ⟨x, hx, rfl⟩
    by_cases heq : x.addr = n.addr
    · rw [if_pos heq, hfill.eq_of_addr hx hn heq]
      exact Or.inl rfl
    · rw [if_neg heq]
      exact Or.inr ⟨hx, fun h => heq (h ▸ rfl)⟩
  · rintro (rfl | ⟨hm, hne⟩)
    · exact ⟨n, hn, if_pos rfl⟩
    · exact ⟨m, hm, if_neg fun heq => hne (hfill.eq_of_addr hm hn heq)⟩

end Sepol
