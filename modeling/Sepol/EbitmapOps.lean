import Sepol.EbitmapIter

/-!
# Exclusive or, complement, difference and ranges of bitmaps

The remaining operations of `ebitmap.c`.  Their loops leave out nodes without bits (`consNonzero`) and set `highbit`
from the last node that was made.  For each of them the result is canonical and its members are those of the set
operation.
-/

namespace Sepol

/-- The nodes with a new one in front, which the loops allocate for a map other than zero only. -/
def consNonzero (startbit : Nat) (map : BitVec 64) (l : List EbitmapNode) : List EbitmapNode :=
  if map ≠ 0 then ⟨startbit, map⟩ :: l else l

private def xorStep (n1 : EbitmapNode) (k : List EbitmapNode → List EbitmapNode) :
    List EbitmapNode → List EbitmapNode
  | [] => consNonzero n1.startbit n1.map (k [])
  | n2 :: l2 =>
    if n1.startbit = n2.startbit then consNonzero n1.startbit (n1.map ^^^ n2.map) (k l2)
    else if n1.startbit < n2.startbit then consNonzero n1.startbit n1.map (k (n2 :: l2))
    else consNonzero n2.startbit n2.map (xorStep n1 k l2)

/-- The loop of `ebitmap_xor`. -/
def ebitmapXorNodes : List EbitmapNode → List EbitmapNode → List EbitmapNode
  | [] => fun l2 => l2.foldr (fun n2 => consNonzero n2.startbit n2.map) []
  | n1 :: l1 => xorStep n1 (ebitmapXorNodes l1)

def ebitmapXor (e1 e2 : Ebitmap) : Ebitmap :=
  let node := ebitmapXorNodes e1.node e2.node
  ⟨node, newHighbit node⟩

/-- The complement of the word at `curStartbit`, and the nodes behind it. -/
def notWord (curStartbit : Nat) : List EbitmapNode → BitVec 64 × List EbitmapNode
  | [] => (~~~0, [])
  | n :: next => if n.startbit = curStartbit then (~~~n.map, next) else (~~~0, n :: next)

/-- The loop of `ebitmap_not`.  The position wraps around at `2^32`; `none` stands for a loop that goes on after
`fuel` rounds. -/
def ebitmapNotNodes (maxbit : Nat) : Nat → Nat → List EbitmapNode → Option (List EbitmapNode)
  | 0, curStartbit, _ => if curStartbit < maxbit then none else some []
  | fuel + 1, curStartbit, n =>
    if curStartbit < maxbit then
      let word := notWord curStartbit n
      let map :=
        if maxbit - curStartbit < mapsize then word.1 &&& ((1#64 <<< (maxbit - curStartbit)) - 1) else word.1
      (ebitmapNotNodes maxbit fuel (uint32 (curStartbit + mapsize)) word.2).map (consNonzero curStartbit map)
    else some []

/-- `ebitmap_not`.  A position that never wraps around passes `maxbit` after `maxbit / 64 + 1` rounds at the latest,
one that does comes back to 0 instead. -/
def ebitmapNot (e1 : Ebitmap) (maxbit : Nat) : Option Ebitmap :=
  (ebitmapNotNodes maxbit (maxbit / mapsize + 1) 0 e1.node).map fun node => ⟨node, newHighbit node⟩

def ebitmapAndnot (e1 e2 : Ebitmap) (maxbit : Nat) : Option Ebitmap :=
  (ebitmapNot e2 maxbit).map fun e3 => ebitmapAnd e1 e3

/-- The return values of `ebitmap_init_range` for an error. -/
inductive InitRangeError
  | einval
  | eoverflow
deriving DecidableEq

/-- The map of the node at `startbit` in `ebitmap_init_range`. -/
def initRangeMap (minbit maxbit minstartbit maxstartbit startbit : Nat) : BitVec 64 :=
  if startbit ≠ minstartbit ∧ startbit ≠ maxstartbit then ~~~0
  else if startbit ≠ maxstartbit then (~~~0#64) <<< (minbit - startbit)
  else if startbit ≠ minstartbit then (~~~0#64) >>> (mapsize - (maxbit - startbit + 1))
  else
    let mask := (~~~0#64) >>> (mapsize - (maxbit - minbit + 1))
    mask <<< (minbit - startbit)

/-- The loop of `ebitmap_init_range`. -/
def ebitmapInitRangeNodes (minbit maxbit minstartbit maxstartbit : Nat) : Nat → Nat → List EbitmapNode
  | 0, _ => []
  | fuel + 1, startbit =>
    if startbit ≤ maxstartbit then
      ⟨startbit, initRangeMap minbit maxbit minstartbit maxstartbit startbit⟩ ::
        ebitmapInitRangeNodes minbit maxbit minstartbit maxstartbit fuel (uint32 (startbit + mapsize))
    else []

/-- `ebitmap_init_range`; the bitmap is left empty after an error. -/
def ebitmapInitRange (minbit maxbit : Nat) : Except InitRangeError Ebitmap :=
  let minstartbit := minbit - minbit % mapsize
  let maxstartbit := maxbit - maxbit % mapsize
  let minhighbit := uint32 (minstartbit + mapsize)
  let maxhighbit := uint32 (maxstartbit + mapsize)
  if minbit > maxbit then .error .einval
  else if minhighbit = 0 ∨ maxhighbit = 0 then .error .eoverflow
  else
    let fuel := (maxstartbit - minstartbit) / mapsize + 1
    .ok ⟨ebitmapInitRangeNodes minbit maxbit minstartbit maxstartbit fuel minstartbit, maxhighbit⟩

/-! ### Nodes with bits -/

private theorem mem_consNonzero {s : Nat} {m : BitVec 64} {l : List EbitmapNode} {n : EbitmapNode}
    (h : n ∈ consNonzero s m l) : n = ⟨s, m⟩ ∧ m ≠ 0 ∨ n ∈ l := by
  unfold consNonzero at h
  split at h
  · rename_i hm
    rcases List.mem_cons.1 h with rfl | h
    · exact Or.inl ⟨rfl, hm⟩
    · exact Or.inr h
  · exact Or.inr h

private theorem consNonzero_sorted {s : Nat} {l : List EbitmapNode} (hl : NodesSorted l)
    (hs : ∀ n ∈ l, s < n.startbit) (m : BitVec 64) : NodesSorted (consNonzero s m l) := by
  unfold consNonzero
  split
  · exact List.pairwise_cons.2 ⟨hs, hl⟩
  · exact hl

private theorem blockAt_consNonzero {s : Nat} {l : List EbitmapNode} (hs : ∀ n ∈ l, s < n.startbit) (m : BitVec 64)
    (t : Nat) :
    blockAt (consNonzero s m l) t = if s = t then m else blockAt l t := by
  have hz : blockAt l s = 0 := blockAt_eq_zero fun n hn => Nat.ne_of_gt (hs n hn)
  unfold consNonzero
  split
  · rw [blockAt_cons]
  · rename_i hm
    split
    · rename_i ht
      rw [← ht, hz]
      exact (not_not.1 hm).symm
    · rfl

private theorem Ebitmap.Canonical.of_nodes {l : List EbitmapNode} (hl : NodesSorted l) (hwf : ∀ n ∈ l, NodeWf n) :
    Ebitmap.Canonical ⟨l, newHighbit l⟩ := ⟨hl, hwf, rfl⟩

theorem Ebitmap.mem_add_iff {e : Ebitmap} {s k : Nat} (hs : 64 ∣ s) (hk : k < 64) :
    s + k ∈ e ↔ (blockAt e.node s).getLsbD k = true := by
  rw [Ebitmap.mem_iff, show (s + k) % 64 = k by omega, show s + k - k = s by omega]

/-! ### Exclusive or -/

@[simp] theorem ebitmapXorNodes_nil_left (l : List EbitmapNode) :
    ebitmapXorNodes [] l = l.foldr (fun n => consNonzero n.startbit n.map) [] := rfl

private theorem ebitmapXorNodes_cons_nil (n1 : EbitmapNode) (l1 : List EbitmapNode) :
    ebitmapXorNodes (n1 :: l1) [] = consNonzero n1.startbit n1.map (ebitmapXorNodes l1 []) := rfl

private theorem ebitmapXorNodes_cons_cons (n1 n2 : EbitmapNode) (l1 l2 : List EbitmapNode) :
    ebitmapXorNodes (n1 :: l1) (n2 :: l2) =
      if n1.startbit = n2.startbit then consNonzero n1.startbit (n1.map ^^^ n2.map) (ebitmapXorNodes l1 l2)
      else if n1.startbit < n2.startbit then consNonzero n1.startbit n1.map (ebitmapXorNodes l1 (n2 :: l2))
      else consNonzero n2.startbit n2.map (ebitmapXorNodes (n1 :: l1) l2) := rfl

private theorem mem_foldr_consNonzero {l : List EbitmapNode} {n : EbitmapNode}
    (h : n ∈ l.foldr (fun n => consNonzero n.startbit n.map) []) : n ∈ l ∧ n.map ≠ 0 := by
  induction l with
  | nil => simp at h
  | cons m l ih =>
    rw [List.foldr_cons] at h
    rcases mem_consNonzero h with ⟨rfl, hm⟩ | h
    · exact ⟨List.mem_cons_self .., hm⟩
    · exact ⟨List.mem_cons_of_mem _ (ih h).1, (ih h).2⟩

/-- The nodes of the result start where nodes of the operands do. -/
private theorem mem_ebitmapXorNodes {l1 l2 : List EbitmapNode} {n : EbitmapNode} (h : n ∈ ebitmapXorNodes l1 l2) :
    (∃ m, (m ∈ l1 ∨ m ∈ l2) ∧ n.startbit = m.startbit) ∧ n.map ≠ 0 := by
  induction l1 generalizing l2 with
  | nil =>
    have := mem_foldr_consNonzero h
    exact ⟨⟨n, Or.inr this.1, rfl⟩, this.2⟩
  | cons n1 l1 ih1 =>
    have up : ∀ {l2' l2}, l2' ⊆ l2 → n ∈ ebitmapXorNodes l1 l2' →
        (∃ m, (m ∈ n1 :: l1 ∨ m ∈ l2) ∧ n.startbit = m.startbit) ∧ n.map ≠ 0 := by
      intro l2' l2 hsub h'
      obtain ⟨⟨m, hm, heq⟩, hne⟩ := ih1 h'
      exact ⟨⟨m, hm.imp (List.mem_cons_of_mem _) (fun hm => hsub hm), heq⟩, hne⟩
    induction l2 with
    | nil =>
      rw [ebitmapXorNodes_cons_nil] at h
      rcases mem_consNonzero h with ⟨rfl, hne⟩ | h
      · exact ⟨⟨n1, Or.inl (List.mem_cons_self ..), rfl⟩, hne⟩
      · exact up (List.Subset.refl _) h
    | cons n2 l2 ih2 =>
      rw [ebitmapXorNodes_cons_cons] at h
      split at h
      · rcases mem_consNonzero h with ⟨rfl, hne⟩ | h
        · exact ⟨⟨n1, Or.inl (List.mem_cons_self ..), rfl⟩, hne⟩
        · exact up (List.subset_cons_self ..) h
      · split at h
        · rcases mem_consNonzero h with ⟨rfl, hne⟩ | h
          · exact ⟨⟨n1, Or.inl (List.mem_cons_self ..), rfl⟩, hne⟩
          · exact up (List.Subset.refl _) h
        · rcases mem_consNonzero h with ⟨rfl, hne⟩ | h
          · exact ⟨⟨n2, Or.inr (List.mem_cons_self ..), rfl⟩, hne⟩
          · obtain ⟨⟨m, hm, heq⟩, hne⟩ := ih2 h
            exact ⟨⟨m, hm.imp id (List.mem_cons_of_mem _), heq⟩, hne⟩

/-- In a sorted list behind `n`, and in what `ebitmap_xor` makes of such lists, all nodes start later than `n`. -/
private theorem lt_of_mem_xorNodes {s : Nat} (l1 l2 : List EbitmapNode) (h1 : ∀ n ∈ l1, s < n.startbit)
    (h2 : ∀ n ∈ l2, s < n.startbit) : ∀ n ∈ ebitmapXorNodes l1 l2, s < n.startbit := by
  intro n hn
  obtain ⟨⟨m, hm, heq⟩, _⟩ := mem_ebitmapXorNodes hn
  rw [heq]
  exact hm.elim (h1 m) (h2 m)

private theorem forall_lt_of_sorted {n : EbitmapNode} {l : List EbitmapNode} (hl : NodesSorted (n :: l)) :
    ∀ m ∈ l, n.startbit < m.startbit := (List.pairwise_cons.1 hl).1

private theorem forall_lt_cons {s : Nat} {n : EbitmapNode} {l : List EbitmapNode} (hl : NodesSorted (n :: l))
    (hs : s < n.startbit) : ∀ m ∈ n :: l, s < m.startbit := by
  intro m hm
  rcases List.mem_cons.1 hm with rfl | hm
  · exact hs
  · have := forall_lt_of_sorted hl m hm
    omega

/-- The loop of `ebitmap_xor` keeps the order of the nodes and combines the words position by position. -/
private theorem ebitmapXorNodes_spec {l1 l2 : List EbitmapNode} (h1 : NodesSorted l1) (h2 : NodesSorted l2) :
    NodesSorted (ebitmapXorNodes l1 l2) ∧ ∀ s, blockAt (ebitmapXorNodes l1 l2) s = blockAt l1 s ^^^ blockAt l2 s := by
  induction l1 generalizing l2 with
  | nil =>
    induction l2 with
    | nil => exact ⟨List.Pairwise.nil, fun s => by simp⟩
    | cons n2 l2 ih2 =>
      obtain ⟨hsorted, hblock⟩ := ih2 (List.pairwise_cons.1 h2).2
      have hlt := lt_of_mem_xorNodes [] l2 (by simp) (forall_lt_of_sorted h2)
      refine ⟨consNonzero_sorted hsorted hlt _, fun s => ?_⟩
      rw [ebitmapXorNodes_nil_left, List.foldr_cons, ← ebitmapXorNodes_nil_left, blockAt_consNonzero hlt, hblock,
        blockAt_cons]
      split <;> simp
  | cons n1 l1 ih1 =>
    have h1' := (List.pairwise_cons.1 h1).2
    induction l2 with
    | nil =>
      obtain ⟨hsorted, hblock⟩ := @ih1 [] h1' List.Pairwise.nil
      have hlt := lt_of_mem_xorNodes l1 [] (forall_lt_of_sorted h1) (by simp)
      refine ⟨consNonzero_sorted hsorted hlt _, fun s => ?_⟩
      rw [ebitmapXorNodes_cons_nil, blockAt_consNonzero hlt, hblock, blockAt_cons]
      split <;> simp
    | cons n2 l2 ih2 =>
      have h2' := (List.pairwise_cons.1 h2).2
      rw [ebitmapXorNodes_cons_cons]
      by_cases heq : n1.startbit = n2.startbit
      · obtain ⟨hsorted, hblock⟩ := ih1 h1' h2'
        have hlt := lt_of_mem_xorNodes l1 l2 (forall_lt_of_sorted h1) (heq ▸ forall_lt_of_sorted h2)
        simp only [if_pos heq]
        refine ⟨consNonzero_sorted hsorted hlt _, fun s => ?_⟩
        rw [blockAt_consNonzero hlt, hblock, blockAt_cons, blockAt_cons, ← heq]
        split <;> rfl
      · by_cases hlt12 : n1.startbit < n2.startbit
        · obtain ⟨hsorted, hblock⟩ := ih1 h1' h2
          have hlt2 := forall_lt_cons h2 hlt12
          have hlt := lt_of_mem_xorNodes _ _ (forall_lt_of_sorted h1) hlt2
          simp only [if_neg heq, if_pos hlt12]
          refine ⟨consNonzero_sorted hsorted hlt _, fun s => ?_⟩
          rw [blockAt_consNonzero hlt, hblock, blockAt_cons n1]
          split
          · rename_i hs
            rw [blockAt_eq_zero (l := n2 :: l2) fun m hm => hs ▸ Nat.ne_of_gt (hlt2 m hm)]
            simp
          · rfl
        · obtain ⟨hsorted, hblock⟩ := ih2 h2'
          have hlt1 := forall_lt_cons h1 (show n2.startbit < n1.startbit by omega)
          have hlt := lt_of_mem_xorNodes _ _ hlt1 (forall_lt_of_sorted h2)
          simp only [if_neg heq, if_neg hlt12]
          refine ⟨consNonzero_sorted hsorted hlt _, fun s => ?_⟩
          rw [blockAt_consNonzero hlt, hblock, blockAt_cons n2]
          split
          · rename_i hs
            rw [blockAt_eq_zero (l := n1 :: l1) fun m hm => hs ▸ Nat.ne_of_gt (hlt1 m hm)]
            simp
          · rfl

theorem Ebitmap.Canonical.xor {e1 e2 : Ebitmap} (h1 : e1.Canonical) (h2 : e2.Canonical) :
    (ebitmapXor e1 e2).Canonical := by
  refine .of_nodes (ebitmapXorNodes_spec h1.sorted h2.sorted).1 fun n hn => ?_
  obtain ⟨⟨m, hm, heq⟩, hne⟩ := mem_ebitmapXorNodes hn
  have hwf : NodeWf m := hm.elim (h1.node m) (h2.node m)
  exact ⟨heq ▸ hwf.1, hne, heq ▸ hwf.2.2⟩

theorem mem_ebitmapXor {e1 e2 : Ebitmap} (h1 : e1.Canonical) (h2 : e2.Canonical) (i : Nat) :
    i ∈ ebitmapXor e1 e2 ↔ ¬ (i ∈ e1 ↔ i ∈ e2) := by
  rw [Ebitmap.mem_iff, Ebitmap.mem_iff, Ebitmap.mem_iff, ebitmapXor,
    (ebitmapXorNodes_spec h1.sorted h2.sorted).2, BitVec.getLsbD_xor]
  cases (blockAt e1.node (i - i % 64)).getLsbD (i % 64) <;>
    cases (blockAt e2.node (i - i % 64)).getLsbD (i % 64) <;> simp

/-! ### Complement and difference -/

private theorem getLsbD_lowMask {j : Nat} (hj : j < 64) (k : Nat) :
    ((1#64 <<< j) - 1).getLsbD k = decide (k < j) := by
  have hpow : 2 ^ j < 2 ^ 64 := Nat.pow_lt_pow_right (by decide) hj
  have hpos : 0 < 2 ^ j := Nat.two_pow_pos j
  have hshift : (1#64 <<< j).toNat = 2 ^ j := by
    rw [BitVec.toNat_shiftLeft, BitVec.toNat_one (by decide), Nat.one_shiftLeft, Nat.mod_eq_of_lt hpow]
  have hmask : ((1#64 <<< j) - 1).toNat = 2 ^ j - 1 := by
    rw [BitVec.toNat_sub, hshift]
    show (2 ^ 64 - 1 + 2 ^ j) % 2 ^ 64 = 2 ^ j - 1
    omega
  rw [BitVec.getLsbD, hmask, Nat.testBit_two_pow_sub_one]

private theorem getLsbD_notMask (w : BitVec 64) {maxbit cur k : Nat} (hcur : cur < maxbit) (hk : k < 64) :
    (if maxbit - cur < mapsize then ~~~w &&& ((1#64 <<< (maxbit - cur)) - 1) else ~~~w).getLsbD k =
      (decide (cur + k < maxbit) && !w.getLsbD k) := by
  simp only [mapsize]
  split
  · rename_i h
    rw [BitVec.getLsbD_and, getLsbD_lowMask h k, BitVec.getLsbD_not, Bool.and_comm]
    simp only [hk, decide_true, Bool.true_and]
    congr 1
    exact decide_eq_decide.2 (by omega)
  · rw [BitVec.getLsbD_not, decide_eq_true (show cur + k < maxbit by omega)]
    simp [hk]

private theorem notWord_spec {cur : Nat} {l : List EbitmapNode} (hl : NodesSorted l) (hal : ∀ n ∈ l, 64 ∣ n.startbit)
    (hge : ∀ n ∈ l, cur ≤ n.startbit) (hcur : 64 ∣ cur) :
    (notWord cur l).1 = ~~~blockAt l cur ∧ NodesSorted (notWord cur l).2 ∧
      (∀ n ∈ (notWord cur l).2, 64 ∣ n.startbit ∧ cur + 64 ≤ n.startbit) ∧
      ∀ s, cur < s → blockAt (notWord cur l).2 s = blockAt l s := by
  cases l with
  | nil => exact ⟨rfl, hl, by simp [notWord], fun _ _ => rfl⟩
  | cons n next =>
    have hl' := List.pairwise_cons.1 hl
    rw [notWord]
    by_cases heq : n.startbit = cur
    · rw [if_pos heq]
      refine ⟨by rw [blockAt_cons, if_pos heq], hl'.2, fun m hm => ?_, fun s hs => ?_⟩
      · have h1 := hl'.1 m hm
        have h2 := hal m (List.mem_cons_of_mem _ hm)
        exact ⟨h2, by omega⟩
      · rw [blockAt_cons, if_neg (by omega)]
    · rw [if_neg heq]
      have hlt : ∀ m ∈ n :: next, cur < m.startbit := by
        refine forall_lt_cons hl ?_
        have := hge n (List.mem_cons_self ..)
        omega
      refine ⟨?_, hl, fun m hm => ?_, fun _ _ => rfl⟩
      · rw [blockAt_eq_zero fun m hm => Nat.ne_of_gt (hlt m hm)]
      · have h1 := hlt m hm
        have h2 := hal m hm
        exact ⟨h2, by omega⟩

/-- From an aligned position on, the loop of `ebitmap_not` makes nodes for the positions below `maxbit` that are not
set. -/
private theorem ebitmapNotNodes_spec {maxbit : Nat} (hmax : maxbit ≤ 2 ^ 32 - 64) (fuel cur : Nat)
    (l : List EbitmapNode)
    (hl : NodesSorted l) (hal : ∀ n ∈ l, 64 ∣ n.startbit) (hge : ∀ n ∈ l, cur ≤ n.startbit) (hcur : 64 ∣ cur)
    (hfuel : maxbit ≤ cur + 64 * fuel) :
    ∃ l', ebitmapNotNodes maxbit fuel cur l = some l' ∧ NodesSorted l' ∧
      (∀ n ∈ l', cur ≤ n.startbit ∧ NodeWf n) ∧
      ∀ s k, cur ≤ s → 64 ∣ s → k < 64 →
        (blockAt l' s).getLsbD k = (decide (s + k < maxbit) && !(blockAt l s).getLsbD k) := by
  have hend : maxbit ≤ cur → ∀ s k : Nat, cur ≤ s →
      (blockAt [] s).getLsbD k = (decide (s + k < maxbit) && !(blockAt l s).getLsbD k) := by
    intro hc s k hs
    simp [show ¬ s + k < maxbit by omega]
  induction fuel generalizing cur l with
  | zero =>
    refine ⟨[], ?_, List.Pairwise.nil, by simp, fun s k hs _ _ => hend (by omega) s k hs⟩
    rw [ebitmapNotNodes, if_neg (by omega)]
  | succ fuel ih =>
    rw [ebitmapNotNodes]
    by_cases hc : cur < maxbit
    · obtain ⟨hword, hsorted, hrest, hblock⟩ := notWord_spec hl hal hge hcur
      have hnext : uint32 (cur + mapsize) = cur + 64 := uint32_of_lt (by simp only [mapsize]; omega)
      obtain ⟨l', hl', hsorted', hwf', hbits'⟩ := ih (cur + 64) (notWord cur l).2 hsorted
        (fun n hn => (hrest n hn).1) (fun n hn => (hrest n hn).2) (by omega) (by omega)
        (fun hc s k hs => by simp [show ¬ s + k < maxbit by omega])
      have hlt : ∀ n ∈ l', cur < n.startbit := fun n hn => by
        have := (hwf' n hn).1
        omega
      rw [if_pos hc]
      dsimp only
      rw [hnext, hl', Option.map_some, hword]
      refine ⟨_, rfl, consNonzero_sorted hsorted' hlt _, fun n hn => ?_, fun s k hs hal hk => ?_⟩
      · rcases mem_consNonzero hn with ⟨rfl, hne⟩ | hn
        · exact ⟨Nat.le_refl _, hcur, hne, by dsimp only; omega⟩
        · exact ⟨Nat.le_of_lt (hlt n hn), (hwf' n hn).2⟩
      · rw [blockAt_consNonzero hlt]
        split
        · rename_i heq
          rw [← heq]
          exact getLsbD_notMask _ hc hk
        · rw [hbits' s k (by omega) hal hk, hblock s (by omega)]
    · rw [if_neg hc]
      exact ⟨[], rfl, List.Pairwise.nil, by simp, fun s k hs _ _ => hend (by omega) s k hs⟩

/-- For `maxbit` at most `2^32 - 64` the loop of `ebitmap_not` ends with the complement below `maxbit`. -/
theorem ebitmapNot_spec {e1 : Ebitmap} (h1 : e1.Canonical) {maxbit : Nat} (hmax : maxbit ≤ 2 ^ 32 - 64) :
    ∃ e, ebitmapNot e1 maxbit = some e ∧ e.Canonical ∧ ∀ i, i ∈ e ↔ i < maxbit ∧ i ∉ e1 := by
  obtain ⟨l, hl, hsorted, hwf, hbits⟩ :=
    ebitmapNotNodes_spec hmax (maxbit / mapsize + 1) 0 e1.node h1.sorted h1.aligned
    (fun _ _ => Nat.zero_le _) (by simp) (by simp only [mapsize]; omega)
  refine ⟨⟨l, newHighbit l⟩, ?_, .of_nodes hsorted fun n hn => (hwf n hn).2, fun i => ?_⟩
  · rw [ebitmapNot, hl, Option.map_some]
  · rw [Ebitmap.mem_iff, Ebitmap.mem_iff, hbits _ _ (Nat.zero_le _) (by omega) (Nat.mod_lt _ (by decide)),
      show i - i % 64 + i % 64 = i by omega]
    simp

theorem ebitmapAndnot_spec {e1 e2 : Ebitmap} (h1 : e1.Canonical) (h2 : e2.Canonical) {maxbit : Nat}
    (hmax : maxbit ≤ 2 ^ 32 - 64) :
    ∃ e, ebitmapAndnot e1 e2 maxbit = some e ∧ e.Canonical ∧ ∀ i, i ∈ e ↔ i ∈ e1 ∧ i < maxbit ∧ i ∉ e2 := by
  obtain ⟨e3, he3, hcanon, hmem⟩ := ebitmapNot_spec h2 hmax
  refine ⟨ebitmapAnd e1 e3, ?_, h1.and hcanon, fun i => ?_⟩
  · rw [ebitmapAndnot, he3, Option.map_some]
  · rw [mem_ebitmapAnd h1 hcanon, hmem]

/-! ### Ranges -/

private theorem getLsbD_initRangeMap {minbit maxbit s k : Nat} (hle : minbit ≤ maxbit) (hs : 64 ∣ s)
    (hmin : minbit - minbit % 64 ≤ s) (hmax : s ≤ maxbit - maxbit % 64) (hk : k < 64) :
    (initRangeMap minbit maxbit (minbit - minbit % 64) (maxbit - maxbit % 64) s).getLsbD k =
      decide (minbit ≤ s + k ∧ s + k ≤ maxbit) := by
  have hlow : ∀ j, (~~~0#64 <<< j).getLsbD k = decide (j ≤ k) := by
    intro j
    rw [BitVec.getLsbD_shiftLeft, BitVec.getLsbD_not]
    simp only [hk, decide_true, Bool.true_and, BitVec.getLsbD_zero, Bool.not_false, Bool.and_true]
    rw [show decide (k - j < 64) = true from decide_eq_true (by omega), Bool.and_true, ← decide_not]
    exact decide_eq_decide.2 (by omega)
  have hhigh : ∀ j m, m < 64 → (~~~0#64 >>> (64 - j)).getLsbD m = decide (64 - j + m < 64) := by
    intro j m hm
    rw [BitVec.getLsbD_ushiftRight, BitVec.getLsbD_not]
    simp
  unfold initRangeMap
  simp only [mapsize]
  split
  · have hall : (~~~0#64).getLsbD k = true := by
      rw [BitVec.getLsbD_not, BitVec.getLsbD_zero, decide_eq_true hk]
      rfl
    exact hall.trans (decide_eq_true (by omega)).symm
  · split
    · rw [hlow]
      exact decide_eq_decide.2 (by omega)
    · split
      · rw [hhigh _ _ hk]
        exact decide_eq_decide.2 (by omega)
      · rw [BitVec.getLsbD_shiftLeft, hhigh _ _ (by omega)]
        simp only [hk, decide_true, Bool.true_and, ← decide_not, ← Bool.decide_and]
        exact decide_eq_decide.2 (by omega)

/-- The loop of `ebitmap_init_range` makes a node for each word from `startbit` up to the last one. -/
private theorem ebitmapInitRangeNodes_spec (minbit : Nat) {maxbit : Nat} (hmax : maxbit - maxbit % 64 + 64 < 2 ^ 32)
    (fuel startbit : Nat) (hs : 64 ∣ startbit) (hfuel : startbit + 64 * fuel = maxbit - maxbit % 64 + 64) :
    let l := ebitmapInitRangeNodes minbit maxbit (minbit - minbit % 64) (maxbit - maxbit % 64) fuel startbit
    NodesSorted l ∧ (∀ n ∈ l, 64 ∣ n.startbit ∧ startbit ≤ n.startbit ∧ n.startbit ≤ maxbit - maxbit % 64 ∧
      n.map = initRangeMap minbit maxbit (minbit - minbit % 64) (maxbit - maxbit % 64) n.startbit) ∧
      ∀ s, startbit ≤ s → s ≤ maxbit - maxbit % 64 → 64 ∣ s → ∃ n ∈ l, n.startbit = s := by
  induction fuel generalizing startbit with
  | zero =>
    refine ⟨List.Pairwise.nil, by simp [ebitmapInitRangeNodes], fun s h1 h2 _ => ?_⟩
    omega
  | succ fuel ih =>
    have hnext : uint32 (startbit + mapsize) = startbit + 64 := uint32_of_lt (by simp only [mapsize]; omega)
    obtain ⟨hsorted, hnode, hfound⟩ := ih (startbit + 64) (by omega) (by omega)
    dsimp only
    rw [ebitmapInitRangeNodes, if_pos (by omega), hnext]
    refine ⟨List.pairwise_cons.2 ⟨fun n hn => ?_, hsorted⟩, fun n hn => ?_, fun s h1 h2 h3 => ?_⟩
    · have := (hnode n hn).2.1
      dsimp only
      omega
    · rcases List.mem_cons.1 hn with rfl | hn
      · exact ⟨hs, Nat.le_refl _, by dsimp only; omega, rfl⟩
      · obtain ⟨h1, h2, h3, h4⟩ := hnode n hn
        exact ⟨h1, by omega, h3, h4⟩
    · by_cases heq : startbit = s
      · exact ⟨_, List.mem_cons_self .., heq⟩
      · obtain ⟨n, hn, hns⟩ := hfound s (by omega) h2 h3
        exact ⟨n, List.mem_cons_of_mem _ hn, hns⟩

/-- `ebitmap_init_range` fails for an empty range and for one that reaches into the last word of the positions;
otherwise it gives the range. -/
theorem ebitmapInitRange_spec {minbit maxbit : Nat} (hle : minbit ≤ maxbit) (hmax : maxbit < 2 ^ 32 - 64) :
    ∃ e, ebitmapInitRange minbit maxbit = .ok e ∧ e.Canonical ∧ ∀ i, i ∈ e ↔ minbit ≤ i ∧ i ≤ maxbit := by
  have hmin' : uint32 (minbit - minbit % mapsize + mapsize) = minbit - minbit % 64 + 64 :=
    uint32_of_lt (by simp only [mapsize]; omega)
  have hmax' : uint32 (maxbit - maxbit % mapsize + mapsize) = maxbit - maxbit % 64 + 64 :=
    uint32_of_lt (by simp only [mapsize]; omega)
  have hspec := ebitmapInitRangeNodes_spec minbit (show maxbit - maxbit % 64 + 64 < 2 ^ 32 by omega)
    ((maxbit - maxbit % 64 - (minbit - minbit % 64)) / 64 + 1) (minbit - minbit % 64) (by omega) (by omega)
  rw [ebitmapInitRange]
  simp only [hmin', hmax']
  rw [if_neg (by omega), if_neg (by omega)]
  simp only [mapsize]
  generalize ebitmapInitRangeNodes minbit maxbit (minbit - minbit % 64) (maxbit - maxbit % 64)
    ((maxbit - maxbit % 64 - (minbit - minbit % 64)) / 64 + 1) (minbit - minbit % 64) = l at hspec
  obtain ⟨hsorted, hnode, hfound⟩ := hspec
  have hbits : ∀ n ∈ l, ∀ k < 64, n.map.getLsbD k =
      decide (minbit ≤ n.startbit + k ∧ n.startbit + k ≤ maxbit) := by
    intro n hn k hk
    obtain ⟨h1, h2, h3, h4⟩ := hnode n hn
    rw [h4, getLsbD_initRangeMap hle h1 h2 h3 hk]
  have hwf : ∀ n ∈ l, NodeWf n := by
    intro n hn
    obtain ⟨h1, h2, h3, _⟩ := hnode n hn
    refine ⟨h1, Words.ne_zero_iff.2 ?_, by omega⟩
    by_cases hk : minbit ≤ n.startbit
    · exact ⟨0, by decide, (hbits n hn 0 (by decide)).trans (decide_eq_true (by omega))⟩
    · exact ⟨minbit % 64, by omega, (hbits n hn _ (by omega)).trans (decide_eq_true (by omega))⟩
  obtain ⟨m, hm, hms⟩ := hfound (maxbit - maxbit % 64) (by omega) (by omega) (by omega)
  have hhigh : newHighbit l = maxbit - maxbit % 64 + 64 := by
    rw [newHighbit_eq hsorted (fun n hn => (hwf n hn).2.2) hm fun n hn => hms ▸ (hnode n hn).2.2.1, hms]
  have hcanon : Ebitmap.Canonical ⟨l, maxbit - maxbit % 64 + 64⟩ := ⟨hsorted, hwf, hhigh.symm⟩
  refine ⟨_, rfl, hcanon, fun i => ?_⟩
  rw [hcanon.mem_iff_node]
  constructor
  · rintro ⟨n, hn, k, hk, rfl, hbit⟩
    rw [hbits n hn k hk] at hbit
    exact of_decide_eq_true hbit
  · intro hi
    obtain ⟨n, hn, hns⟩ := hfound (i - i % 64) (by omega) (by omega) (by omega)
    refine ⟨n, hn, i % 64, by omega, by omega, ?_⟩
    rw [hbits n hn _ (by omega)]
    exact decide_eq_true (by omega)

/-! ### Clearing a bit -/

private theorem newHighbit_append (a : List EbitmapNode) (n : EbitmapNode) (l : List EbitmapNode) :
    newHighbit (a ++ n :: l) = newHighbit (n :: l) := by
  rw [newHighbit, newHighbit, List.getLast?_append_cons]

private theorem newHighbit_cons_cons (n m : EbitmapNode) (l : List EbitmapNode) :
    newHighbit (n :: m :: l) = newHighbit (m :: l) := newHighbit_append [n] m l

/-- Clearing a bit changes the word that holds it and drops the node when that was the last bit. -/
private theorem ebitmapClearNodes_spec {l : List EbitmapNode} (hl : NodesSorted l) (hal : ∀ n ∈ l, 64 ∣ n.startbit)
    (bit : Nat) (prev : Option EbitmapNode) :
    let l' := (ebitmapClearNodes bit prev l).1
    NodesSorted l' ∧ (∀ n ∈ l', ∃ m ∈ l, n.startbit = m.startbit ∧ (m.map ≠ 0 → n.map ≠ 0)) ∧
      (∀ s, blockAt l' s = if s = bit - bit % 64 then blockAt l s &&& ~~~(1#64 <<< (bit % 64)) else blockAt l s) ∧
      (ebitmapClearNodes bit prev l).2.getD (newHighbit (prev.toList ++ l)) = newHighbit (prev.toList ++ l') := by
  induction l generalizing prev with
  | nil => exact ⟨hl, by simp [ebitmapClearNodes], fun s => by simp [ebitmapClearNodes], rfl⟩
  | cons n l ih =>
    have hl' := List.pairwise_cons.1 hl
    have hn := hal n (List.mem_cons_self ..)
    dsimp only
    by_cases h1 : n.startbit ≤ bit
    · by_cases h2 : n.startbit + mapsize > bit
      · have hs := startbit_eq_of_aligned hn h1 h2
        rw [ebitmapClearNodes, if_pos h1, if_pos h2]
        have hbit : mapbit n bit = 1#64 <<< (bit % 64) := by
          rw [mapbit, show bit - n.startbit = bit % 64 by omega]
        rw [hbit, ← hs]
        have hblock : ∀ s, s ≠ n.startbit → blockAt (n :: l) s = blockAt l s := fun s hs => by
          rw [blockAt_cons, if_neg (Ne.symm hs)]
        by_cases hz : n.map &&& ~~~(1#64 <<< (bit % 64)) = 0
        · simp only [if_pos hz]
          refine ⟨hl'.2, fun m hm => ⟨m, List.mem_cons_of_mem _ hm, rfl, id⟩, fun s => ?_, ?_⟩
          · split
            · rename_i hs
              rw [hs, blockAt_of_mem hl (List.mem_cons_self ..), hz]
              exact blockAt_eq_zero fun m hm => Nat.ne_of_gt (hl'.1 m hm)
            · rename_i hs
              exact (hblock s hs).symm
          · cases l with
            | nil => simp
            | cons m l =>
              rw [newHighbit_append, newHighbit_append, newHighbit_cons_cons]
              rfl
        · simp only [if_neg hz]
          refine ⟨List.pairwise_cons.2 hl', fun m hm => ?_, fun s => ?_, ?_⟩
          · rcases List.mem_cons.1 hm with rfl | hm
            · exact ⟨n, List.mem_cons_self .., rfl, fun _ => hz⟩
            · exact ⟨m, List.mem_cons_of_mem _ hm, rfl, id⟩
          · split
            · rename_i hs
              simp [blockAt_cons, hs]
            · rename_i hs
              rw [hblock s hs, blockAt_cons, if_neg (Ne.symm hs)]
          · rw [Option.getD_none, newHighbit_append, newHighbit_append]
            cases l with
            | nil => rfl
            | cons m l => rw [newHighbit_cons_cons, newHighbit_cons_cons]
      · rw [ebitmapClearNodes, if_pos h1, if_neg h2]
        obtain ⟨hsorted, hmem, hblock, hhigh⟩ := ih hl'.2 (fun m hm => hal m (List.mem_cons_of_mem _ hm)) (some n)
        refine ⟨List.pairwise_cons.2 ⟨fun m hm => ?_, hsorted⟩, fun m hm => ?_, fun s => ?_, ?_⟩
        · obtain ⟨k, hk, heq, _⟩ := hmem m hm
          exact heq ▸ hl'.1 k hk
        · rcases List.mem_cons.1 hm with rfl | hm
          · exact ⟨m, List.mem_cons_self .., rfl, id⟩
          · obtain ⟨k, hk, heq, hne⟩ := hmem m hm
            exact ⟨k, List.mem_cons_of_mem _ hk, heq, hne⟩
        · rw [blockAt_cons, blockAt_cons, hblock]
          by_cases hs : n.startbit = s
          · rw [if_pos hs, if_pos hs, if_neg (by simp only [mapsize] at h2; omega)]
          · rw [if_neg hs, if_neg hs]
        · rw [newHighbit_append, newHighbit_append]
          exact hhigh
    · rw [ebitmapClearNodes, if_neg h1]
      refine ⟨hl, fun m hm => ⟨m, hm, rfl, id⟩, fun s => ?_, rfl⟩
      split
      · rename_i hs
        rw [blockAt_eq_zero fun m hm => ?_]
        · simp
        · rcases List.mem_cons.1 hm with rfl | hm
          · omega
          · have := hl'.1 m hm
            omega
      · rfl

/-- Clearing a bit keeps the canonical form and removes one position. -/
theorem ebitmapSetBit_false {e : Ebitmap} (h : e.Canonical) {bit : Nat} (hbit : bit < 2 ^ 32 - 64) :
    ∃ e', ebitmapSetBit e bit false = some e' ∧ e'.Canonical ∧ ∀ i, i ∈ e' ↔ i ∈ e ∧ i ≠ bit := by
  have hhigh : uint32 (bit - bit % mapsize + mapsize) = bit - bit % 64 + 64 :=
    uint32_of_lt (by simp only [mapsize]; omega)
  obtain ⟨hsorted, hmem, hblock, hnew⟩ := ebitmapClearNodes_spec h.sorted h.aligned bit none
  have hset : ebitmapSetBit e bit false =
      some ⟨(ebitmapClearNodes bit none e.node).1, (ebitmapClearNodes bit none e.node).2.getD e.highbit⟩ := by
    rw [ebitmapSetBit]
    simp [hhigh]
  refine ⟨_, hset, ⟨hsorted, fun n hn => ?_, ?_⟩, fun i => ?_⟩
  · obtain ⟨m, hm, heq, hne⟩ := hmem n hn
    have hwf := h.node m hm
    exact ⟨heq ▸ hwf.1, hne hwf.2.1, heq ▸ hwf.2.2⟩
  · rw [h.highbit]
    exact hnew
  · rw [Ebitmap.mem_iff, Ebitmap.mem_iff]
    dsimp only at hblock ⊢
    rw [hblock]
    have hi : i % 64 < 64 := Nat.mod_lt _ (by decide)
    by_cases hs : i - i % 64 = bit - bit % 64
    · rw [if_pos hs]
      simp only [BitVec.getLsbD_and, BitVec.getLsbD_not, BitVec.getLsbD_shiftLeft, BitVec.getLsbD_one,
        Bool.and_eq_true, hi, decide_true, Bool.true_and, Bool.not_eq_true']
      refine and_congr_right fun _ => ?_
      simp only [Bool.and_eq_false_iff, Bool.not_eq_false', decide_eq_true_eq, decide_eq_false_iff_not]
      omega
    · rw [if_neg hs]
      exact (and_iff_left fun heq => hs (by rw [heq])).symm

end Sepol
