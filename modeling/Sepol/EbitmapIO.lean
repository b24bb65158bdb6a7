import Sepol.Services
import Sepol.Lib.LittleEndian

/-!
# Bitmaps in a policy file

`ebitmap_write` and `ebitmap_read`.  The reader accepts only canonical bitmaps and undoes the writer; what it accepts
is what the writer makes of the bitmap, except that it does not look at the number of nodes when the high bit is zero.
-/

namespace Sepol

/-! ### Words in a file -/

def cpuToLe16 (n : Nat) : List Byte := LittleEndian.toBytes 2 n

def cpuToLe32 (n : Nat) : List Byte := LittleEndian.toBytes 4 n

def cpuToLe64 (n : Nat) : List Byte := LittleEndian.toBytes 8 n

def le64ToCpu (buf : List Byte) : Nat := LittleEndian.ofBytes buf

/-- Reading succeeds when there are enough bytes. -/
theorem nextEntry_eq_some {fp buf rest : List Byte} {bytes : Nat} :
    nextEntry fp bytes = some (buf, rest) ↔ fp = buf ++ rest ∧ buf.length = bytes := by
  unfold nextEntry
  constructor
  · intro h
    split at h
    · cases h
    · cases h
      exact ⟨(List.take_append_drop bytes fp).symm, List.length_take_of_le (by omega)⟩
  · rintro ⟨rfl, rfl⟩
    rw [if_neg (by simp), List.take_left, List.drop_left]

theorem nextEntry_append (buf rest : List Byte) : nextEntry (buf ++ rest) buf.length = some (buf, rest) :=
  nextEntry_eq_some.2 ⟨rfl, rfl⟩

theorem le32ToCpu_zero {word : List Byte} (hword : word.length = 4) (buf : List Byte) :
    le32ToCpu (word ++ buf) 0 = LittleEndian.ofBytes word := by
  rw [le32ToCpu, Nat.mul_zero, List.drop_zero, ← hword, List.take_left]
  rfl

theorem le32ToCpu_succ {word : List Byte} (hword : word.length = 4) (buf : List Byte) (i : Nat) :
    le32ToCpu (word ++ buf) (i + 1) = le32ToCpu buf i := by
  rw [le32ToCpu, le32ToCpu, Nat.mul_succ, Nat.add_comm, ← List.drop_drop, ← hword, List.drop_left]

@[simp] theorem length_cpuToLe32 (n : Nat) : (cpuToLe32 n).length = 4 := LittleEndian.length_toBytes ..

theorem ofBytes_cpuToLe32 {n : Nat} (h : n < 2 ^ 32) : LittleEndian.ofBytes (cpuToLe32 n) = n :=
  LittleEndian.ofBytes_toBytes h

private theorem cpuToLe32_ofBytes {word : List Byte} (hword : word.length = 4) :
    cpuToLe32 (LittleEndian.ofBytes word) = word := by
  rw [cpuToLe32, ← hword]
  exact LittleEndian.toBytes_ofBytes word

private theorem ofBytes_lt_word {word : List Byte} (hword : word.length = 4) :
    LittleEndian.ofBytes word < 2 ^ 32 := by
  have := LittleEndian.ofBytes_lt word
  rwa [hword] at this

/-! ### The writer -/

def ebitmapWriteNode (n : EbitmapNode) : List Byte := cpuToLe32 n.startbit ++ cpuToLe64 n.map.toNat

/-- The bytes that `ebitmap_write` puts into a file. -/
def ebitmapWrite (e : Ebitmap) : List Byte :=
  cpuToLe32 mapsize ++ cpuToLe32 e.highbit ++ cpuToLe32 (uint32 e.node.length) ++ e.node.flatMap ebitmapWriteNode

/-! ### The reader -/

/-- The loop of `ebitmap_read`; `l` is the node read last. -/
def ebitmapReadNodes (highbit : Nat) : Nat → Option EbitmapNode → List Byte → Option (List EbitmapNode × List Byte)
  | 0, _, fp => some ([], fp)
  | count + 1, l, fp => do
    let (buf, fp) ← nextEntry fp 4
    let startbit := le32ToCpu buf 0
    guard (startbit % mapsize = 0)
    guard (startbit ≤ highbit - mapsize)
    let (buf, fp) ← nextEntry fp 8
    let map := BitVec.ofNat 64 (le64ToCpu buf)
    guard (map ≠ 0)
    guard (∀ m ∈ l, m.startbit < startbit)
    let (node, fp) ← ebitmapReadNodes highbit count (some ⟨startbit, map⟩) fp
    return (⟨startbit, map⟩ :: node, fp)

/-- `ebitmap_read`: the bitmap and the rest of the file; `none` stands for an error, after which the bitmap is empty.
-/
def ebitmapRead (fp : List Byte) : Option (Ebitmap × List Byte) := do
  let (buf, fp) ← nextEntry fp (4 * 3)
  let size := le32ToCpu buf 0
  let highbit := le32ToCpu buf 1
  let count := le32ToCpu buf 2
  guard (size = mapsize)
  if highbit = 0 then return (⟨[], highbit⟩, fp)
  else
    guard (highbit % mapsize = 0)
    guard (highbit = 0 ∨ count ≠ 0)
    let (node, fp) ← ebitmapReadNodes highbit count none fp
    guard (∀ l ∈ node.getLast?, l.startbit + mapsize = highbit)
    return (⟨node, highbit⟩, fp)

/-- What the reader checks of a node behind the node `l`. -/
structure NodeReadable (highbit : Nat) (l : Option EbitmapNode) (n : EbitmapNode) : Prop where
  word : n.startbit < 2 ^ 32
  aligned : 64 ∣ n.startbit
  bound : n.startbit ≤ highbit - 64
  map : n.map ≠ 0
  order : ∀ m, l = some m → m.startbit < n.startbit

private theorem ofNat_ofBytes_cpuToLe64 (map : BitVec 64) :
    BitVec.ofNat 64 (le64ToCpu (cpuToLe64 map.toNat)) = map := by
  rw [le64ToCpu, cpuToLe64, LittleEndian.ofBytes_toBytes map.isLt, BitVec.ofNat_toNat, BitVec.setWidth_eq]

private theorem cpuToLe64_ofNat {buf : List Byte} (hbuf : buf.length = 8) :
    cpuToLe64 (BitVec.ofNat 64 (le64ToCpu buf)).toNat = buf := by
  have hlt := LittleEndian.ofBytes_lt buf
  rw [hbuf] at hlt
  rw [BitVec.toNat_ofNat, le64ToCpu, Nat.mod_eq_of_lt (b := 2 ^ 64) hlt, cpuToLe64, ← hbuf]
  exact LittleEndian.toBytes_ofBytes buf

/-- One round of the loop of `ebitmap_read` reads what one round of the loop of `ebitmap_write` writes. -/
private theorem ebitmapReadNodes_succ {highbit count : Nat} {l : Option EbitmapNode} {fp rest : List Byte}
    {node : List EbitmapNode} :
    ebitmapReadNodes highbit (count + 1) l fp = some (node, rest) ↔
      ∃ n node' fp', node = n :: node' ∧ fp = ebitmapWriteNode n ++ fp' ∧ NodeReadable highbit l n ∧
        ebitmapReadNodes highbit count (some n) fp' = some (node', rest) := by
  rw [ebitmapReadNodes]
  simp only [Option.bind_eq_bind, Option.bind_eq_some_iff, Prod.exists, Option.guard_eq_some', exists_const]
  constructor
  · rintro ⟨word, fp1, h1, hal, hbound, buf, fp2, h2, hmap, horder, node', fp', hrest, heq⟩
    obtain ⟨rfl, hword⟩ := nextEntry_eq_some.1 h1
    obtain ⟨rfl, hbuf⟩ := nextEntry_eq_some.1 h2
    have hstart : le32ToCpu word 0 = LittleEndian.ofBytes word := by
      simpa using le32ToCpu_zero hword []
    obtain ⟨rfl, rfl⟩ := Prod.mk.inj (Option.some.inj heq)
    refine ⟨_, node', fp2, rfl, ?_, ⟨?_, Nat.dvd_of_mod_eq_zero hal, hbound, hmap, horder⟩, hrest⟩
    · rw [ebitmapWriteNode, hstart, cpuToLe32_ofBytes hword, cpuToLe64_ofNat hbuf, List.append_assoc]
    · rw [hstart]
      exact ofBytes_lt_word hword
  · rintro ⟨n, node', fp', rfl, rfl, hn, hrest⟩
    have hstart : le32ToCpu (cpuToLe32 n.startbit) 0 = n.startbit := by
      rw [← List.append_nil (cpuToLe32 n.startbit), le32ToCpu_zero (length_cpuToLe32 _), ofBytes_cpuToLe32 hn.word]
    refine ⟨cpuToLe32 n.startbit, cpuToLe64 n.map.toNat ++ fp', ?_, ?_, ?_, cpuToLe64 n.map.toNat, fp', ?_, ?_, ?_,
      node', rest, ?_, ?_⟩
    · exact nextEntry_eq_some.2 ⟨by rw [ebitmapWriteNode, List.append_assoc], length_cpuToLe32 _⟩
    · rw [hstart]
      exact Nat.mod_eq_zero_of_dvd hn.aligned
    · rw [hstart]
      exact hn.bound
    · exact nextEntry_eq_some.2 ⟨rfl, LittleEndian.length_toBytes ..⟩
    · rw [ofNat_ofBytes_cpuToLe64]
      exact hn.map
    · rw [hstart]
      exact hn.order
    · rw [hstart, ofNat_ofBytes_cpuToLe64]
      exact hrest
    · rw [hstart, ofNat_ofBytes_cpuToLe64]
      rfl

/-- The bitmap and the rest of the file that `ebitmap_read` gives, in terms of what is in the file. -/
private theorem ebitmapRead_eq_some {fp rest : List Byte} {e : Ebitmap} :
    ebitmapRead fp = some (e, rest) ↔
      ∃ count fp', fp = cpuToLe32 mapsize ++ cpuToLe32 e.highbit ++ cpuToLe32 count ++ fp' ∧ count < 2 ^ 32 ∧
        e.highbit < 2 ^ 32 ∧
        if e.highbit = 0 then e.node = [] ∧ rest = fp'
        else 64 ∣ e.highbit ∧ count ≠ 0 ∧ ebitmapReadNodes e.highbit count none fp' = some (e.node, rest) ∧
          ∀ l ∈ e.node.getLast?, l.startbit + 64 = e.highbit := by
  rw [ebitmapRead]
  simp only [Option.bind_eq_bind, Option.bind_eq_some_iff, Prod.exists, Option.guard_eq_some', exists_const]
  constructor
  · rintro ⟨buf, fp', hentry, hsize, h⟩
    obtain ⟨rfl, hbuf⟩ := nextEntry_eq_some.1 hentry
    obtain ⟨w0, w1, w2, h0, h1, h2, rfl⟩ : ∃ w0 w1 w2 : List Byte, w0.length = 4 ∧ w1.length = 4 ∧ w2.length = 4 ∧
        buf = w0 ++ (w1 ++ (w2 ++ [])) := by
      refine ⟨buf.take 4, (buf.drop 4).take 4, (buf.drop 4).drop 4, ?_, ?_, ?_, ?_⟩
      · simp [hbuf]
      · simp [hbuf]
      · simp [hbuf]
      · rw [List.append_nil, List.take_append_drop, List.take_append_drop]
    simp only [le32ToCpu_zero h0, le32ToCpu_succ h0, le32ToCpu_zero h1, le32ToCpu_succ h1, le32ToCpu_zero h2]
      at h hsize
    have hhead : ∀ highbit, LittleEndian.ofBytes w1 = highbit → w0 ++ (w1 ++ (w2 ++ [])) ++ fp' =
        cpuToLe32 mapsize ++ cpuToLe32 highbit ++ cpuToLe32 (LittleEndian.ofBytes w2) ++ fp' := by
      rintro _ rfl
      rw [← hsize, cpuToLe32_ofBytes h0, cpuToLe32_ofBytes h1, cpuToLe32_ofBytes h2]
      simp
    refine ⟨LittleEndian.ofBytes w2, fp', ?_⟩
    split at h
    · rename_i hz
      obtain ⟨rfl, rfl⟩ := Prod.mk.inj (Option.some.inj h)
      refine ⟨hhead _ rfl, ofBytes_lt_word h2, ofBytes_lt_word h1, ?_⟩
      rw [if_pos hz]
      exact ⟨rfl, rfl⟩
    · rename_i hz
      simp only [Option.bind_eq_some_iff, Prod.exists, Option.guard_eq_some', exists_const] at h
      obtain ⟨hal, hcount, node, fp1, hread, hlast, heq⟩ := h
      obtain ⟨rfl, rfl⟩ := Prod.mk.inj (Option.some.inj heq)
      refine ⟨hhead _ rfl, ofBytes_lt_word h2, ofBytes_lt_word h1, ?_⟩
      rw [if_neg hz]
      exact ⟨Nat.dvd_of_mod_eq_zero hal, hcount.resolve_left hz, hread, hlast⟩
  · rintro ⟨count, fp', rfl, hcount, hhigh, h⟩
    have hsize : mapsize < 2 ^ 32 := by decide
    have hbuf : nextEntry (cpuToLe32 mapsize ++ cpuToLe32 e.highbit ++ cpuToLe32 count ++ fp') (4 * 3) =
        some (cpuToLe32 mapsize ++ (cpuToLe32 e.highbit ++ (cpuToLe32 count ++ [])), fp') :=
      nextEntry_eq_some.2 ⟨by simp, by simp⟩
    refine ⟨_, fp', hbuf, ?_⟩
    simp only [le32ToCpu_zero (length_cpuToLe32 _), le32ToCpu_succ (length_cpuToLe32 _), ofBytes_cpuToLe32 hsize,
      ofBytes_cpuToLe32 hhigh, ofBytes_cpuToLe32 hcount]
    refine ⟨trivial, ?_⟩
    split at h
    · rename_i hz
      rw [if_pos hz, h.2, ← h.1]
      rfl
    · rename_i hz
      obtain ⟨hal, hne, hread, hlast⟩ := h
      rw [if_neg hz]
      simp only [Option.bind_eq_some_iff, Prod.exists, Option.guard_eq_some', exists_const]
      exact ⟨Nat.mod_eq_zero_of_dvd hal, Or.inr hne, e.node, rest, hread, hlast, rfl⟩

/-! ### Round trips -/

private theorem ebitmapReadNodes_sound {highbit count : Nat} {l : Option EbitmapNode} {fp rest : List Byte}
    {node : List EbitmapNode} (h : ebitmapReadNodes highbit count l fp = some (node, rest)) :
    node.length = count ∧ fp = node.flatMap ebitmapWriteNode ++ rest ∧ NodesSorted node ∧
      ∀ n ∈ node, NodeReadable highbit l n := by
  induction count generalizing l fp node with
  | zero =>
    obtain ⟨rfl, rfl⟩ := Prod.mk.inj (Option.some.inj h)
    exact ⟨rfl, rfl, List.Pairwise.nil, by simp⟩
  | succ count ih =>
    obtain ⟨n, node', fp', rfl, rfl, hn, h⟩ := ebitmapReadNodes_succ.1 h
    obtain ⟨hlen, rfl, hsorted, hnode⟩ := ih h
    have horder : ∀ m ∈ node', n.startbit < m.startbit := fun m hm => (hnode m hm).order n rfl
    refine ⟨by rw [List.length_cons, hlen], by rw [List.flatMap_cons, List.append_assoc],
      List.pairwise_cons.2 ⟨horder, hsorted⟩, fun m hm => ?_⟩
    rcases List.mem_cons.1 hm with rfl | hm
    · exact hn
    · have hread := hnode m hm
      exact ⟨hread.word, hread.aligned, hread.bound, hread.map, fun k hk => lt_trans (hn.order k hk) (horder m hm)⟩

private theorem ebitmapReadNodes_complete {highbit : Nat} {l : Option EbitmapNode} {node : List EbitmapNode}
    (hsorted : NodesSorted node) (hnode : ∀ n ∈ node, NodeReadable highbit l n) (rest : List Byte) :
    ebitmapReadNodes highbit node.length l (node.flatMap ebitmapWriteNode ++ rest) = some (node, rest) := by
  induction node generalizing l with
  | nil => rfl
  | cons n node ih =>
    have hsorted' := List.pairwise_cons.1 hsorted
    refine ebitmapReadNodes_succ.2 ⟨n, node, node.flatMap ebitmapWriteNode ++ rest, rfl, ?_,
      hnode n (List.mem_cons_self ..), ih hsorted'.2 fun m hm => ?_⟩
    · rw [List.flatMap_cons, List.append_assoc]
    · have hread := hnode m (List.mem_cons_of_mem _ hm)
      refine ⟨hread.word, hread.aligned, hread.bound, hread.map, fun k hk => ?_⟩
      obtain rfl := Option.some.inj hk
      exact hsorted'.1 m hm

private theorem Ebitmap.Canonical.length_lt {e : Ebitmap} (h : e.Canonical) : e.node.length < 2 ^ 32 := by
  have hnodup : (e.node.map EbitmapNode.startbit).Nodup := by
    rw [List.Nodup, List.pairwise_map]
    exact h.sorted.imp Nat.ne_of_lt
  have hsub : e.node.map EbitmapNode.startbit ⊆ List.range (2 ^ 32 - 1) := by
    intro s hs
    obtain ⟨n, hn, rfl⟩ := List.mem_map.1 hs
    have := h.bound n hn
    exact List.mem_range.2 (by omega)
  have hle := (hnodup.subperm hsub).length_le
  rw [List.length_map, List.length_range] at hle
  omega

/-- `ebitmap_read` gives back the bitmap that `ebitmap_write` wrote and stops behind it. -/
theorem ebitmapRead_ebitmapWrite {e : Ebitmap} (h : e.Canonical) (rest : List Byte) :
    ebitmapRead (ebitmapWrite e ++ rest) = some (e, rest) := by
  have hlen := h.length_lt
  refine ebitmapRead_eq_some.2 ⟨e.node.length, e.node.flatMap ebitmapWriteNode ++ rest, ?_, hlen, h.highbit_lt, ?_⟩
  · rw [ebitmapWrite, uint32_of_lt hlen]
    simp only [List.append_assoc]
  · by_cases hz : e.highbit = 0
    · have hnil : e.node = [] := by
        refine List.eq_nil_iff_forall_not_mem.2 fun n hn => ?_
        have := h.node_end_le hn
        omega
      rw [if_pos hz, hnil]
      exact ⟨rfl, rfl⟩
    · have hne : e.node ≠ [] := fun hnil => hz (by rw [h.highbit, hnil]; rfl)
      obtain ⟨m, hm, hhigh, _⟩ := exists_newHighbit h.sorted h.bound hne
      rw [if_neg hz]
      refine ⟨?_, fun hlen => hne (List.eq_nil_of_length_eq_zero hlen), ?_, fun l hl => ?_⟩
      · have := h.aligned m hm
        rw [h.highbit, hhigh]
        omega
      · refine ebitmapReadNodes_complete h.sorted (fun n hn => ?_) rest
        have hend := h.node_end_le hn
        have hwf := h.node n hn
        exact ⟨by have := hwf.2.2; omega, hwf.1, by omega, hwf.2.1, fun m hm => by cases hm⟩
      · have hlt := h.bound l (List.mem_of_getLast? hl)
        rw [h.highbit, newHighbit, hl]
        exact (uint32_of_lt hlt).symm

/-- What `ebitmap_read` accepts is canonical; it is what `ebitmap_write` writes, or an empty bitmap with any number in
the place of the number of nodes. -/
theorem ebitmapRead_spec {fp rest : List Byte} {e : Ebitmap} (h : ebitmapRead fp = some (e, rest)) :
    e.Canonical ∧ (fp = ebitmapWrite e ++ rest ∨ e = ebitmapInit ∧
      ∃ count < 2 ^ 32, fp = cpuToLe32 mapsize ++ cpuToLe32 0 ++ cpuToLe32 count ++ rest) := by
  obtain ⟨count, fp', rfl, hcount, hhigh, h⟩ := ebitmapRead_eq_some.1 h
  split at h
  · rename_i hz
    obtain ⟨hnil, rfl⟩ := h
    have he : e = ebitmapInit := by
      cases e
      simp only at hz hnil
      rw [hz, hnil]
      rfl
    exact ⟨he ▸ .init, Or.inr ⟨he, count, hcount, by rw [hz]⟩⟩
  · obtain ⟨hal, hne, hread, hlast⟩ := h
    obtain ⟨hlen, rfl, hsorted, hnode⟩ := ebitmapReadNodes_sound hread
    have hwf : ∀ n ∈ e.node, NodeWf n := fun n hn => by
      have hn := hnode n hn
      have := hn.bound
      exact ⟨hn.aligned, hn.map, by omega⟩
    refine ⟨⟨hsorted, hwf, ?_⟩, Or.inl ?_⟩
    · cases hlast' : e.node.getLast? with
      | none =>
        rw [List.getLast?_eq_none_iff] at hlast'
        rw [hlast'] at hlen
        exact absurd hlen.symm hne
      | some l =>
        rw [newHighbit, hlast', ← hlast l hlast']
        exact (uint32_of_lt (hwf l (List.mem_of_getLast? hlast')).2.2).symm
    · rw [ebitmapWrite, hlen, uint32_of_lt hcount]
      simp only [List.append_assoc]

/-- Reading undoes writing, and writing undoes reading except for a number of nodes in front of no nodes. -/
theorem ebitmapRead_ebitmapWrite_inverse :
    (∀ (e : Ebitmap) (rest : List Byte), e.Canonical → ebitmapRead (ebitmapWrite e ++ rest) = some (e, rest)) ∧
    ∀ (fp rest : List Byte) (e : Ebitmap), ebitmapRead fp = some (e, rest) →
      e.Canonical ∧ (fp = ebitmapWrite e ++ rest ∨ e = ebitmapInit ∧
        ∃ count < 2 ^ 32, fp = cpuToLe32 mapsize ++ cpuToLe32 0 ++ cpuToLe32 count ++ rest) :=
  ⟨fun _ rest h => ebitmapRead_ebitmapWrite h rest, fun _ _ _ h => ebitmapRead_spec h⟩

/-- The bitmap with the positions 5 and 70, and what is written for it. -/
theorem ebitmapRead_ebitmapWrite_inverse_example :
    ebitmapRead (ebitmapWrite ⟨[⟨0, 32⟩, ⟨64, 64⟩], 128⟩ ++ [7]) = some (⟨[⟨0, 32⟩, ⟨64, 64⟩], 128⟩, [7]) ∧
      Ebitmap.Canonical ⟨[⟨0, 32⟩, ⟨64, 64⟩], 128⟩ := by
  have hcanon : Ebitmap.Canonical ⟨[⟨0, 32⟩, ⟨64, 64⟩], 128⟩ :=
    ⟨by simp [NodesSorted], by simp [NodeWf], by decide⟩
  have hread := ebitmapRead_ebitmapWrite_inverse.1 _ [7] hcanon
  exact ⟨hread, (ebitmapRead_ebitmapWrite_inverse.2 _ _ _ hread).1⟩

/-- Twelve bytes that announce one node and a high bit of zero are accepted, but written back with no node announced.
-/
theorem ebitmapRead_count_counterexample :
    ¬ ((∀ (e : Ebitmap) (rest : List Byte), e.Canonical → ebitmapRead (ebitmapWrite e ++ rest) = some (e, rest)) ∧
      ∀ (fp rest : List Byte) (e : Ebitmap), ebitmapRead fp = some (e, rest) →
        e.Canonical ∧ fp = ebitmapWrite e ++ rest) := by
  intro h
  have hread : ebitmapRead [64, 0, 0, 0, 0, 0, 0, 0, 1, 0, 0, 0] = some (ebitmapInit, []) := by decide
  have hfp := (h.2 _ _ _ hread).2
  revert hfp
  decide

end Sepol
