import Sepol.Filetrans
import Sepol.Genfs
import Sepol.Lib.RoundTrip

/-!
# Filename transitions in a policy file

`filename_trans_write` writes the list of each key as it is, or, for versions before 33, one record for each entry;
`filename_trans_read` takes lists that have nothing in common, and puts the records of the old format into a table one
after the other.  `hashtab_map` visits the keys in the order of their chains, any order here (`visited`).
-/

namespace Sepol

open RoundTrip (Reader readInto)

abbrev policydbVersionFilenameTrans : Nat := 25
abbrev policydbVersionCompFtrans : Nat := 33

/-! ### The writer -/

/-- The record for one source type in `filename_write_one_compat`. -/
def filenameWriteRule (ft : FilenameTransKey) (bit : Nat) (otype : BitVec 32) : List Byte :=
  cpuToLe32 (uint32 ft.name.length) ++ cstringBytes ft.name ++ (cpuToLe32 (uint32 (bit + 1)) ++
    (cpuToLe32 ft.ttype.toNat ++ (cpuToLe32 ft.tclass.toNat ++ cpuToLe32 otype.toNat)))

def filenameWriteOneCompat (ft : FilenameTransKey) (data : List FilenameTransDatum) : List Byte :=
  data.flatMap fun datum => (ebitmapPositiveBits datum.stypes).flatMap fun bit => filenameWriteRule ft bit datum.otype

/-- The last loop of `filename_write_one`. -/
def filenameWriteData (data : List FilenameTransDatum) : List Byte :=
  data.flatMap fun datum => ebitmapWrite datum.stypes ++ cpuToLe32 datum.otype.toNat

def filenameWriteOne (ft : FilenameTransKey) (data : List FilenameTransDatum) : List Byte :=
  cpuToLe32 (uint32 ft.name.length) ++ cstringBytes ft.name ++ (cpuToLe32 ft.ttype.toNat ++
    (cpuToLe32 ft.tclass.toNat ++ cpuToLe32 (uint32 data.length))) ++ filenameWriteData data

/-- `filename_trans_write` with the keys in the order in which `hashtab_map` visits them. -/
def filenameTransWrite (policyvers : Nat) (p : FilenameTransTable)
    (visited : List (FilenameTransKey × List FilenameTransDatum)) : List Byte :=
  if policyvers < policydbVersionFilenameTrans then []
  else if policyvers < policydbVersionCompFtrans then
    cpuToLe32 p.filenameTransCount.toNat ++ visited.flatMap fun e => filenameWriteOneCompat e.1 e.2
  else cpuToLe32 (uint32 p.filenameTrans.length) ++ visited.flatMap fun e => filenameWriteOne e.1 e.2

/-! ### The reader -/

/-- A word of a buffer. -/
def wordAt (buf : List Byte) (i : Nat) : BitVec 32 := BitVec.ofNat 32 (le32ToCpu buf i)

def filenameTransReadOneCompat (p : FilenameTransTable) : Reader Byte FilenameTransTable := fun fp => do
  let (buf, fp) ← nextEntry fp 4
  let (name, fp) ← strRead fp (le32ToCpu buf 0)
  let (buf, fp) ← nextEntry fp (4 * 4)
  guard (wordAt buf 0 ≠ 0)
  match policydbFiletransInsert p ⟨wordAt buf 0, ⟨wordAt buf 1, wordAt buf 2, name⟩, wordAt buf 3⟩ with
  | (.ok (), _, p) => some (p, fp)
  -- some old policies have duplicate rules
  | (.error .eexist, _, p) => some (p, fp)
  | _ => none

/-- A round of the loop of `filename_trans_read_one`: the data that were read, and `filename_trans_count`. -/
def filenameTransReadDatum (st : List FilenameTransDatum × BitVec 32) :
    Reader Byte (List FilenameTransDatum × BitVec 32) := fun fp => do
  let (stypes, fp) ← ebitmapRead fp
  let (buf, fp) ← nextEntry fp 4
  return ((st.1 ++ [⟨stypes, wordAt buf 0⟩], st.2 + BitVec.ofNat 32 (ebitmapCardinality stypes)), fp)

def filenameTransReadOne (p : FilenameTransTable) : Reader Byte FilenameTransTable := fun fp => do
  let (buf, fp) ← nextEntry fp 4
  let (name, fp) ← strRead fp (le32ToCpu buf 0)
  let (buf, fp) ← nextEntry fp (4 * 3)
  let ft : FilenameTransKey := ⟨wordAt buf 0, wordAt buf 1, name⟩
  let ndatum := le32ToCpu buf 2
  guard (ndatum ≠ 0)
  let ((first, count), fp) ← readInto filenameTransReadDatum ndatum ([], p.filenameTransCount) fp
  guard (¬ (ndatum > 1 ∧ ¬ filenameTransCheckDatum first))
  -- `hashtab_insert` refuses a key that is there, and more keys than its counter can count
  guard (AssocTable.get ft p.filenameTrans = none ∧ p.filenameTrans.length ≠ 2 ^ 32 - 1)
  return (⟨p.filenameTrans ++ [(ft, first)], count⟩, fp)

/-- `filename_trans_read`, which is called for versions with filename transitions only. -/
def filenameTransRead (policyvers : Nat) (p : FilenameTransTable) : Reader Byte FilenameTransTable := fun fp => do
  let (buf, fp) ← nextEntry fp 4
  let nel := le32ToCpu buf 0
  if policyvers < policydbVersionCompFtrans then readInto filenameTransReadOneCompat nel p fp
  else readInto filenameTransReadOne nel p fp

/-! ### The function of a table -/

/-- The output type of a source type, target type, class and name. -/
def filetransValue (p : FilenameTransTable) (stype : BitVec 32) (key : FilenameTransKey) : Option (BitVec 32) :=
  ((filetransSearch p key).find? fun d => ebitmapGetBit d.stypes (stype - 1).toNat).map FilenameTransDatum.otype

/-- Two tables with the same function and the same count. -/
structure FilenameTransTable.Agrees (p p' : FilenameTransTable) : Prop where
  value : ∀ stype key, filetransValue p stype key = filetransValue p' stype key
  count : p.filenameTransCount = p'.filenameTransCount

/-- A name that the reader takes: not empty, without zero bytes, and with a length that fits in a word. -/
structure CString.Readable (name : CString) : Prop where
  ne_nil : name ≠ []
  char : ∀ c ∈ name, c.toNat ≠ 0 ∧ c.toNat < 256
  length : name.length < 2 ^ 32

end Sepol

/-!
## Filename transitions are read as they were written

Both formats keep the function of a table whose lists have nothing in common, whose bitmaps of output types the check
of the reader can build, and whose names the reader takes.  The compact format gives the same lists back.  The old
format gives the entries one after the other to `policydb_filetrans_insert`, where each one is new.
-/

namespace Sepol

open RoundTrip (Reader readInto readInto_flatMap)

variable {p p' : FilenameTransTable} {call : FiletransCall} {key : FilenameTransKey} {data : List FilenameTransDatum}
  {name : CString}

/-! ### Words and names -/

theorem wordAt_zero (w : BitVec 32) (buf : List Byte) : wordAt (cpuToLe32 w.toNat ++ buf) 0 = w := by
  rw [wordAt, le32ToCpu_zero (length_cpuToLe32 _), ofBytes_cpuToLe32 w.isLt, BitVec.ofNat_toNat, BitVec.setWidth_eq]

private theorem wordAt_zero' (w : BitVec 32) : wordAt (cpuToLe32 w.toNat) 0 = w := by
  simpa using wordAt_zero w []

theorem wordAt_succ (n : Nat) (buf : List Byte) (i : Nat) : wordAt (cpuToLe32 n ++ buf) (i + 1) = wordAt buf i := by
  rw [wordAt, le32ToCpu_succ (length_cpuToLe32 _), wordAt]

theorem le32ToCpu_cpuToLe32 {n : Nat} (h : n < 2 ^ 32) : le32ToCpu (cpuToLe32 n) 0 = n := by
  rw [← List.append_nil (cpuToLe32 n), le32ToCpu_zero (length_cpuToLe32 _), ofBytes_cpuToLe32 h]

theorem nextEntry_word (n : Nat) (rest : List Byte) : nextEntry (cpuToLe32 n ++ rest) 4 = some (cpuToLe32 n, rest) :=
  nextEntry_eq_some.2 ⟨rfl, length_cpuToLe32 _⟩

/-- `str_read` gives a name back. -/
theorem strRead_cstringBytes (h : name.Readable) (rest : List Byte) :
    strRead (cstringBytes name ++ rest) name.length = some (name, rest) := by
  have hlen : (cstringBytes name).length = name.length := List.length_map ..
  have hbyte : ∀ c ∈ name, (BitVec.ofNat 8 c.toNat).toNat = c.toNat := fun c hc => by
    rw [BitVec.toNat_ofNat]
    exact Nat.mod_eq_of_lt (h.char c hc).2
  have htake : (cstringBytes name).takeWhile (fun b => decide (b ≠ 0)) = cstringBytes name := by
    refine List.takeWhile_eq_self_iff.2 fun b hb => decide_eq_true fun hz => ?_
    obtain ⟨c, hc, rfl⟩ := List.mem_map.1 hb
    have hval := hbyte c hc
    rw [hz] at hval
    exact (h.char c hc).1 hval.symm
  have hmap : (cstringBytes name).map (fun b => Char.ofNat b.toNat) = name := by
    rw [cstringBytes, List.map_map]
    refine (List.map_congr_left fun c hc => ?_).trans (List.map_id name)
    rw [Function.comp_apply, hbyte c hc, Char.ofNat_toNat, id]
  rw [strRead, if_neg fun hz => h.ne_nil (List.eq_nil_of_length_eq_zero hz), ← hlen, nextEntry_append,
    Option.map_some,
    htake, hmap]

/-! ### The function of a list -/

/-- A list that has nothing in common gives the output type of the entry. -/
private theorem filetransValue_eq_some_iff {stype o : BitVec 32} (hl : DataStored (filetransSearch p key)) :
    filetransValue p stype key = some o ↔ Holds (filetransSearch p key) (stype - 1).toNat o := by
  rw [filetransValue, Option.map_eq_some_iff]
  constructor
  · rintro ⟨d, hfind, rfl⟩
    have hd := List.mem_of_find?_eq_some hfind
    have hget := List.find?_some hfind
    exact ⟨d, hd, rfl, (ebitmapGetBit_iff (hl.canonical d hd) _).1 hget⟩
  · rintro ⟨d, hd, rfl, hin⟩
    have hget := (ebitmapGetBit_iff (hl.canonical d hd) _).2 hin
    cases hfind : (filetransSearch p key).find? fun d => ebitmapGetBit d.stypes (stype - 1).toNat with
    | none => exact absurd hget (List.find?_eq_none.1 hfind d hd)
    | some x =>
      have hx := List.mem_of_find?_eq_some hfind
      have hxget := List.find?_some hfind
      have hsame : x = d := by
        by_contra hne
        refine (hl.apart.forall hx hd hne).2 (stype - 1).toNat ⟨?_, hin⟩
        exact (ebitmapGetBit_iff (hl.canonical x hx) _).1 hxget
      exact ⟨x, rfl, by rw [hsame]⟩

private theorem filetransValue_congr (h : ∀ key, DataStored (filetransSearch p key))
    (h' : ∀ key, DataStored (filetransSearch p' key))
    (hholds : ∀ key i o, Holds (filetransSearch p key) i o ↔ Holds (filetransSearch p' key) i o) (stype : BitVec 32)
    (key : FilenameTransKey) : filetransValue p stype key = filetransValue p' stype key := by
  refine Option.ext fun o => ?_
  rw [filetransValue_eq_some_iff (h key), filetransValue_eq_some_iff (h' key), hholds]

/-! ### Tables -/

/-- A table that both formats keep. -/
structure FilenameTransTable.Stored (p : FilenameTransTable) : Prop where
  nodup : (p.filenameTrans.map Prod.fst).Nodup
  data : ∀ e ∈ p.filenameTrans, DataStored e.2 ∧ e.2 ≠ []
  otypes : ∀ e ∈ p.filenameTrans, ∀ a ∈ e.2, ∀ b ∈ e.2, a.otype ≠ b.otype → a.otype.toNat < 2 ^ 32 - 64
  names : ∀ e ∈ p.filenameTrans, e.1.name.Readable
  count : p.filenameTransCount.toNat = (p.filenameTrans.map fun e => dataCount e.2).sum

private theorem dataStored_search (h : ∀ e ∈ p.filenameTrans, DataStored e.2) (key : FilenameTransKey) :
    DataStored (filetransSearch p key) := by
  rw [filetransSearch]
  cases hget : AssocTable.get key p.filenameTrans with
  | none => exact ⟨by simp, by simp, List.Pairwise.nil⟩
  | some l => exact h _ (AssocTable.mem_of_get hget)

private theorem filetransSearch_put {l' : List FilenameTransDatum} {c : BitVec 32} {key' : FilenameTransKey} :
    filetransSearch ⟨AssocTable.put key l' p.filenameTrans, c⟩ key' =
      if key' = key then l' else filetransSearch p key' := by
  rw [filetransSearch, AssocTable.get_put]
  split
  · rfl
  · rfl

/-! ### The compact format -/

/-- The data of a list are read back. -/
private theorem readInto_filenameWriteData (hcanon : ∀ d ∈ data, d.stypes.Canonical) (count : BitVec 32)
    (rest : List Byte) : readInto filenameTransReadDatum data.length ([], count) (filenameWriteData data ++ rest) =
      some ((data, count + BitVec.ofNat 32 (dataCount data)), rest) := by
  have hstep : ∀ (done : List FilenameTransDatum) d after st rest, done ++ d :: after = data →
      st = (done, count + BitVec.ofNat 32 (dataCount done)) →
        ∃ st', filenameTransReadDatum st (ebitmapWrite d.stypes ++ cpuToLe32 d.otype.toNat ++ rest) =
          some (st', rest) ∧
          st' = (done ++ [d], count + BitVec.ofNat 32 (dataCount (done ++ [d]))) := by
    rintro done d after st rest hdone rfl
    have hd : d ∈ data := by
      rw [← hdone]
      simp
    refine ⟨_, ?_, rfl⟩
    rw [filenameTransReadDatum, List.append_assoc, ebitmapRead_ebitmapWrite (hcanon d hd)]
    simp only [Option.bind_eq_bind, Option.bind_some, nextEntry_word, wordAt_zero', dataCount, List.map_append,
      List.map_cons, List.map_nil, List.sum_append, List.sum_singleton, BitVec.ofNat_add, BitVec.add_assoc]
    rfl
  have hinit : (([] : List FilenameTransDatum), count) = ([], count + BitVec.ofNat 32 (dataCount [])) := by
    simp [dataCount]
  obtain ⟨st, hread, rfl⟩ := readInto_flatMap _ hstep (List.nil_append data) hinit rest
  exact hread

/-- The list of a key is read back when the reader accepts it and has not met the key. -/
private theorem filenameTransReadOne_filenameWriteOne (hname : key.name.Readable) (hdata : DataStored data)
    (hne : data ≠ []) (hlen : data.length < 2 ^ 32)
    (hotypes : ∀ a ∈ data, ∀ b ∈ data, a.otype ≠ b.otype → a.otype.toNat < 2 ^ 32 - 64)
    (hkey : AssocTable.get key p.filenameTrans = none) (hroom : p.filenameTrans.length ≠ 2 ^ 32 - 1)
    (rest : List Byte) :
    filenameTransReadOne p (filenameWriteOne key data ++ rest) =
      some (⟨p.filenameTrans ++ [(key, data)], p.filenameTransCount + BitVec.ofNat 32 (dataCount data)⟩, rest) := by
  have hndatum : data.length ≠ 0 := fun hz => hne (List.eq_nil_of_length_eq_zero hz)
  have hcheck : ¬ (data.length > 1 ∧ ¬ filenameTransCheckDatum data) := by
    rintro ⟨hlen, hcheck⟩
    refine hcheck (filenameTransCheckDatum_of_dataOk ⟨fun d hd => ?_, hdata.apart⟩)
    refine ⟨hdata.canonical d hd, hdata.nonempty d hd, ?_⟩
    -- there is another datum, and its output type is another one
    obtain ⟨before, after, hsplit⟩ := List.append_of_mem hd
    obtain ⟨x, hx⟩ : ∃ x, x ∈ before ++ after := by
      refine List.exists_mem_of_length_pos ?_
      rw [hsplit, List.length_append, List.length_cons] at hlen
      rw [List.length_append]
      omega
    have hperm : data.Perm (d :: (before ++ after)) := hsplit ▸ List.perm_middle
    have hapart := (List.pairwise_cons.1 (hperm.pairwise hdata.apart fun h => symm h)).1 x hx
    exact hotypes d hd x (hperm.mem_iff.2 (List.mem_cons_of_mem _ hx)) hapart.1
  have hbuf : ∀ rest, nextEntry (cpuToLe32 key.ttype.toNat ++ (cpuToLe32 key.tclass.toNat ++
      cpuToLe32 (uint32 data.length)) ++ rest) (4 * 3) = some (cpuToLe32 key.ttype.toNat ++
        (cpuToLe32 key.tclass.toNat ++ cpuToLe32 (uint32 data.length)), rest) := fun rest =>
    nextEntry_eq_some.2 ⟨rfl, by simp⟩
  have hcount : le32ToCpu (cpuToLe32 key.ttype.toNat ++ (cpuToLe32 key.tclass.toNat ++
      cpuToLe32 data.length)) 2 = data.length := by
    rw [le32ToCpu_succ (length_cpuToLe32 _), le32ToCpu_succ (length_cpuToLe32 _), le32ToCpu_cpuToLe32 hlen]
  rw [filenameTransReadOne, filenameWriteOne]
  simp only [List.append_assoc, nextEntry_word, Option.bind_eq_bind, Option.bind_some, uint32_of_lt hname.length,
    le32ToCpu_cpuToLe32 hname.length, strRead_cstringBytes hname]
  rw [← List.append_assoc (cpuToLe32 key.tclass.toNat), ← List.append_assoc (cpuToLe32 key.ttype.toNat), hbuf]
  simp only [Option.bind_some, uint32_of_lt hlen, hcount, readInto_filenameWriteData hdata.canonical, wordAt_zero,
    wordAt_succ]
  simp only [guard, ne_eq, hndatum, not_false_eq_true, if_true, hcheck, hkey, hroom, and_self, Option.pure_def,
    Option.bind_some]

private theorem length_le_dataCount (hl : DataStored data) : data.length ≤ dataCount data := by
  have hpos : ∀ n ∈ data.map fun d => ebitmapCardinality d.stypes, 1 ≤ n := by
    intro n hn
    obtain ⟨d, hd, rfl⟩ := List.mem_map.1 hn
    obtain ⟨i, hi⟩ := hl.nonempty d hd
    by_contra hz
    exact (ebitmapCardinality_eq_zero_iff (hl.canonical d hd)).1 (by omega) i hi
  have hsum := List.length_le_sum_of_one_le _ hpos
  rwa [List.length_map] at hsum

/-- The lists of a table are read back in the order in which they were visited. -/
private theorem filenameTransRead_compact (h : p.Stored) {policyvers : Nat}
    (hvers : policydbVersionCompFtrans ≤ policyvers)
    {visited : List (FilenameTransKey × List FilenameTransDatum)} (hvisited : visited.Perm p.filenameTrans)
    (rest : List Byte) :
    filenameTransRead policyvers filetransInit (filenameTransWrite policyvers p visited ++ rest) =
      some (⟨visited, p.filenameTransCount⟩, rest) := by
  have hnodup : (visited.map Prod.fst).Nodup := (hvisited.map Prod.fst).nodup_iff.2 h.nodup
  have hsum : (visited.map fun e => dataCount e.2).sum = p.filenameTransCount.toNat := by
    rw [h.count]
    exact (hvisited.map _).sum_eq
  have hlt := p.filenameTransCount.isLt
  have hmem : ∀ e ∈ visited, e ∈ p.filenameTrans := fun e he => hvisited.mem_iff.1 he
  have hlength : visited.length < 2 ^ 32 := by
    have := length_le_sum_dataCount fun e he => h.data e (hmem e he)
    omega
  have hstep : ∀ (done : List (FilenameTransKey × List FilenameTransDatum)) e after (st : FilenameTransTable) rest,
      done ++ e :: after = visited → st = ⟨done, BitVec.ofNat 32 (done.map fun e => dataCount e.2).sum⟩ →
        ∃ st', filenameTransReadOne st (filenameWriteOne e.1 e.2 ++ rest) = some (st', rest) ∧
          st' = ⟨done ++ [e], BitVec.ofNat 32 ((done ++ [e]).map fun e => dataCount e.2).sum⟩ := by
    rintro done e after st rest hdone rfl
    have he : e ∈ p.filenameTrans := hmem e (by rw [← hdone]; simp)
    have hdata := h.data e he
    have hlen : e.2.length < 2 ^ 32 := by
      have hle := length_le_dataCount hdata.1
      have hone := List.le_sum_of_mem (List.mem_map_of_mem (f := fun e => dataCount e.2) he)
      have hcount := h.count
      omega
    refine ⟨_, filenameTransReadOne_filenameWriteOne (h.names e he) hdata.1 hdata.2 hlen (h.otypes e he)
      ?_ ?_ rest, ?_⟩
    · rw [AssocTable.get_eq_none_iff]
      intro hin
      rw [← hdone, List.map_append, List.map_cons, List.nodup_append] at hnodup
      exact hnodup.2.2 e.1 hin e.1 (List.mem_cons_self ..) rfl
    · rw [← hdone, List.length_append, List.length_cons] at hlength
      show done.length ≠ 2 ^ 32 - 1
      omega
    · rw [List.map_append, List.sum_append, BitVec.ofNat_add, List.map_singleton, List.sum_singleton]
  have hold : ¬ policyvers < policydbVersionCompFtrans := by omega
  have hnone : ¬ policyvers < policydbVersionFilenameTrans := by
    unfold policydbVersionCompFtrans at hvers
    unfold policydbVersionFilenameTrans
    omega
  have hinit : filetransInit = ⟨[], BitVec.ofNat 32 (([] : List (FilenameTransKey × List FilenameTransDatum)).map
      fun e => dataCount e.2).sum⟩ := rfl
  obtain ⟨st, hread, rfl⟩ := readInto_flatMap _ hstep (List.nil_append visited) hinit rest
  rw [filenameTransWrite, if_neg hnone, if_neg hold, filenameTransRead, List.append_assoc, nextEntry_word]
  simp only [Option.bind_eq_bind, Option.bind_some, hold, if_false]
  rw [← hvisited.length_eq, uint32_of_lt hlength, le32ToCpu_cpuToLe32 hlength, hread, hsum, BitVec.ofNat_toNat,
    BitVec.setWidth_eq]

/-! ### The old format -/

/-- The calls that the reader makes for the records of a table. -/
def filenameTransRules (visited : List (FilenameTransKey × List FilenameTransDatum)) : List FiletransCall :=
  visited.flatMap fun e => e.2.flatMap fun d => (ebitmapPositiveBits d.stypes).map fun bit =>
    ⟨BitVec.ofNat 32 (bit + 1), e.1, d.otype⟩

def filenameWriteCall (call : FiletransCall) : List Byte := filenameWriteRule call.key call.bit call.otype

private theorem bit_lt_of_mem {e : Ebitmap} (h : e.Canonical) {bit : Nat} (hbit : bit ∈ e) : bit < 2 ^ 32 - 64 := by
  obtain ⟨n, hn, k, hk, rfl, -⟩ := (h.mem_iff_node bit).1 hbit
  obtain ⟨hal, -, hend⟩ := h.node n hn
  omega

private theorem toNat_ofNat_succ_sub_one {bit : Nat} (h : bit < 2 ^ 32 - 64) :
    (BitVec.ofNat 32 (bit + 1) - 1).toNat = bit := by
  rw [BitVec.ofNat_add]
  show (BitVec.ofNat 32 bit + 1#32 - 1#32).toNat = bit
  rw [BitVec.add_sub_cancel, BitVec.toNat_ofNat]
  exact Nat.mod_eq_of_lt (by omega)

private theorem FiletransCall.bit_succ (hstype : call.stype ≠ 0) : call.bit + 1 = call.stype.toNat := by
  have hpos : call.stype.toNat ≠ 0 := fun hz => hstype (BitVec.eq_of_toNat_eq hz)
  have hlt := call.stype.isLt
  have hone : (1 : BitVec 32).toNat = 1 := rfl
  rw [FiletransCall.bit, BitVec.toNat_sub, hone]
  omega

private theorem mem_filenameTransRules {visited : List (FilenameTransKey × List FilenameTransDatum)}
    (h : ∀ e ∈ visited, ∀ d ∈ e.2, d.stypes.Canonical) :
    call ∈ filenameTransRules visited ↔
      ∃ e ∈ visited, ∃ d ∈ e.2, ∃ bit ∈ d.stypes, ⟨BitVec.ofNat 32 (bit + 1), e.1, d.otype⟩ = call := by
  simp only [filenameTransRules, List.mem_flatMap, List.mem_map]
  refine exists_congr fun e => and_congr_right fun he => exists_congr fun d => and_congr_right fun hd => ?_
  exact exists_congr fun bit => and_congr_left' (mem_ebitmapPositiveBits (h e he d hd))

/-- Each record is for a source type and a key of its own. -/
private theorem pairwise_filenameTransRules {visited : List (FilenameTransKey × List FilenameTransDatum)}
    (hnodup : (visited.map Prod.fst).Nodup) (h : ∀ e ∈ visited, DataStored e.2) :
    (filenameTransRules visited).Pairwise fun c c' => ¬ (c.key = c'.key ∧ c.bit = c'.bit) := by
  have hbits : ∀ e ∈ visited, ∀ d ∈ e.2, ∀ c ∈ (ebitmapPositiveBits d.stypes).map fun bit =>
      (⟨BitVec.ofNat 32 (bit + 1), e.1, d.otype⟩ : FiletransCall), c.key = e.1 ∧ c.bit ∈ d.stypes := by
    intro e he d hd c hc
    obtain ⟨bit, hbit, rfl⟩ := List.mem_map.1 hc
    have hcanon := (h e he).canonical d hd
    have hmem := (mem_ebitmapPositiveBits hcanon).1 hbit
    refine ⟨rfl, ?_⟩
    rwa [FiletransCall.bit, toNat_ofNat_succ_sub_one (bit_lt_of_mem hcanon hmem)]
  rw [filenameTransRules, List.pairwise_flatMap]
  constructor
  · intro e he
    rw [List.pairwise_flatMap]
    constructor
    · intro d hd
      have hcanon := (h e he).canonical d hd
      rw [List.pairwise_map]
      refine (ebitmapPositiveBits_nodup hcanon).imp_of_mem fun {a b} ha hb hab => fun hsame => hab ?_
      have ha' := bit_lt_of_mem hcanon ((mem_ebitmapPositiveBits hcanon).1 ha)
      have hb' := bit_lt_of_mem hcanon ((mem_ebitmapPositiveBits hcanon).1 hb)
      have := hsame.2
      rwa [FiletransCall.bit, FiletransCall.bit, toNat_ofNat_succ_sub_one ha', toNat_ofNat_succ_sub_one hb'] at this
    · refine (h e he).apart.imp_of_mem fun {d d'} hd hd' hapart c hc c' hc' hsame => ?_
      refine hapart.2 c.bit ⟨(hbits e he d hd c hc).2, ?_⟩
      rw [hsame.2]
      exact (hbits e he d' hd' c' hc').2
  · rw [List.Nodup, List.pairwise_map] at hnodup
    refine hnodup.imp_of_mem fun {e e'} he he' hne c hc c' hc' hsame => hne ?_
    obtain ⟨d, hd, hc⟩ := List.mem_flatMap.1 hc
    obtain ⟨d', hd', hc'⟩ := List.mem_flatMap.1 hc'
    rw [← (hbits e he d hd c hc).1, ← (hbits e' he' d' hd' c' hc').1, hsame.1]

/-- The entries of a list are the records of its key. -/
private theorem holds_iff_mem_filenameTransRules (h : p.Stored)
    {visited : List (FilenameTransKey × List FilenameTransDatum)} (hvisited : visited.Perm p.filenameTrans) {i : Nat}
    {o : BitVec 32} :
    Holds (filetransSearch p key) i o ↔
      ∃ c ∈ filenameTransRules visited, c.key = key ∧ c.bit = i ∧ c.otype = o := by
  have hcanon : ∀ e ∈ visited, ∀ d ∈ e.2, d.stypes.Canonical := fun e he =>
    (h.data e (hvisited.mem_iff.1 he)).1.canonical
  constructor
  · rintro ⟨d, hd, rfl, hi⟩
    rw [filetransSearch] at hd
    cases hget : AssocTable.get key p.filenameTrans with
    | none =>
      rw [hget] at hd
      cases hd
    | some l =>
      rw [hget] at hd
      have he := hvisited.mem_iff.2 (AssocTable.mem_of_get hget)
      refine ⟨_, (mem_filenameTransRules hcanon).2 ⟨_, he, d, hd, i, hi, rfl⟩, rfl, ?_, rfl⟩
      exact toNat_ofNat_succ_sub_one (bit_lt_of_mem (hcanon _ he d hd) hi)
  · rintro ⟨c, hc, rfl, rfl, rfl⟩
    obtain ⟨e, he, d, hd, bit, hbit, rfl⟩ := (mem_filenameTransRules hcanon).1 hc
    have hget := (AssocTable.get_eq_some_iff h.nodup).2 (hvisited.mem_iff.1 he)
    refine ⟨d, ?_, rfl, ?_⟩
    · rw [filetransSearch, hget]
      exact hd
    · rwa [FiletransCall.bit, toNat_ofNat_succ_sub_one (bit_lt_of_mem (hcanon e he d hd) hbit)]

private theorem length_filenameTransRules {visited : List (FilenameTransKey × List FilenameTransDatum)}
    (h : ∀ e ∈ visited, ∀ d ∈ e.2, d.stypes.Canonical) :
    (filenameTransRules visited).length = (visited.map fun e => dataCount e.2).sum := by
  rw [filenameTransRules, List.length_flatMap]
  refine congrArg List.sum (List.map_congr_left fun e he => ?_)
  rw [List.length_flatMap, dataCount]
  refine congrArg List.sum (List.map_congr_left fun d hd => ?_)
  rw [List.length_map, ebitmapCardinality_eq (h e he d hd)]

private theorem flatMap_filenameWriteOneCompat {visited : List (FilenameTransKey × List FilenameTransDatum)}
    (h : ∀ e ∈ visited, ∀ d ∈ e.2, d.stypes.Canonical) :
    (visited.flatMap fun e => filenameWriteOneCompat e.1 e.2) =
      (filenameTransRules visited).flatMap filenameWriteCall := by
  rw [filenameTransRules, List.flatMap_assoc]
  refine List.flatMap_congr fun e he => ?_
  rw [filenameWriteOneCompat, List.flatMap_assoc]
  refine List.flatMap_congr fun d hd => ?_
  rw [List.flatMap_map]
  refine List.flatMap_congr fun bit hbit => ?_
  have hcanon := h e he d hd
  have hlt := bit_lt_of_mem hcanon ((mem_ebitmapPositiveBits hcanon).1 hbit)
  rw [filenameWriteCall, FiletransCall.bit, toNat_ofNat_succ_sub_one hlt]

private theorem filenameTransReadOneCompat_filenameWriteCall (hname : call.key.name.Readable)
    (hstype : call.stype ≠ 0) (hinsert : policydbFiletransInsert p call = (.ok (), none, p')) (rest : List Byte) :
    filenameTransReadOneCompat p (filenameWriteCall call ++ rest) = some (p', rest) := by
  have hlt := call.stype.isLt
  have hbuf : ∀ rest, nextEntry (cpuToLe32 call.stype.toNat ++ (cpuToLe32 call.key.ttype.toNat ++
      (cpuToLe32 call.key.tclass.toNat ++ cpuToLe32 call.otype.toNat)) ++ rest) (4 * 4) =
      some (cpuToLe32 call.stype.toNat ++ (cpuToLe32 call.key.ttype.toNat ++
        (cpuToLe32 call.key.tclass.toNat ++ cpuToLe32 call.otype.toNat)), rest) := fun rest =>
    nextEntry_eq_some.2 ⟨rfl, by simp⟩
  rw [filenameTransReadOneCompat, filenameWriteCall, filenameWriteRule, call.bit_succ hstype,
    uint32_of_lt (by omega : call.stype.toNat < 2 ^ 32), uint32_of_lt hname.length]
  simp only [List.append_assoc (cpuToLe32 call.key.name.length), List.append_assoc (cstringBytes _), nextEntry_word,
    Option.bind_eq_bind, Option.bind_some, le32ToCpu_cpuToLe32 hname.length, strRead_cstringBytes hname, hbuf,
    wordAt_zero, wordAt_succ, wordAt_zero', hinsert]
  simp only [guard, ne_eq, hstype, not_false_eq_true, if_true, Option.pure_def, Option.bind_some]

/-- What the records read so far have made: a table of their entries. -/
structure RulesRead (done : List FiletransCall) (p : FilenameTransTable) : Prop where
  data : ∀ e ∈ p.filenameTrans, DataStored e.2
  length : p.filenameTrans.length ≤ done.length
  holds : ∀ key i o, Holds (filetransSearch p key) i o ↔ ∃ c ∈ done, c.key = key ∧ c.bit = i ∧ c.otype = o
  count : p.filenameTransCount.toNat = done.length

theorem RulesRead.init : RulesRead [] filetransInit where
  data e he := absurd he List.not_mem_nil
  length := Nat.le_refl _
  holds key i o := by simp [Holds, filetransSearch, filetransInit, AssocTable.get]
  count := rfl

/-- A record with an entry of its own. -/
theorem RulesRead.insert {done : List FiletransCall} (h : RulesRead done p) (hbit : call.bit < 2 ^ 32 - 64)
    (hnew : ∀ c ∈ done, ¬ (c.key = call.key ∧ c.bit = call.bit)) (hlength : done.length < 2 ^ 32 - 1) :
    ∃ p', policydbFiletransInsert p call = (.ok (), none, p') ∧ RulesRead (done ++ [call]) p' := by
  have hl := dataStored_search h.data call.key
  have habsent : ∀ d ∈ filetransSearch p call.key, holdsStype call d = false := by
    intro d hd
    refine Bool.eq_false_iff.2 fun hhold => ?_
    have hmem := (ebitmapGetBit_iff (hl.canonical d hd) _).1 hhold
    obtain ⟨c, hc, hkey, hcbit, -⟩ := (h.holds call.key call.bit d.otype).1 ⟨d, hd, rfl, hmem⟩
    exact hnew c hc ⟨hkey, hcbit⟩
  have hlen := h.length
  obtain ⟨l', hrun, hinsert⟩ := policydbFiletransInsert_inserted hl habsent hbit (by omega)
  refine ⟨_, hrun, fun e he => ?_, ?_, fun key i o => ?_, ?_⟩
  · rcases AssocTable.mem_put he with rfl | he
    · exact hinsert.stored
    · exact h.data e he
  · rw [List.length_append, List.length_singleton]
    exact (AssocTable.length_put_le _ _ _).trans (Nat.succ_le_succ hlen)
  · rw [filetransSearch_put]
    split
    · rename_i hkey
      subst hkey
      rw [hinsert.holds, h.holds]
      simp only [List.mem_append, List.mem_singleton, or_and_right, exists_or, exists_eq_left, true_and]
      exact or_congr_right (and_congr eq_comm eq_comm)
    · rename_i hkey
      rw [h.holds]
      simp only [List.mem_append, List.mem_singleton, or_and_right, exists_or, exists_eq_left, Ne.symm hkey,
        false_and, or_false]
  · have hcount := h.count
    rw [toNat_filenameTransCount_succ (by omega), hcount, List.length_append, List.length_singleton]

/-- The old format gives a table with the same function. -/
private theorem filenameTransRead_compat (h : p.Stored) {policyvers : Nat}
    (hmin : policydbVersionFilenameTrans ≤ policyvers)
    (hvers : policyvers < policydbVersionCompFtrans) {visited : List (FilenameTransKey × List FilenameTransDatum)}
    (hvisited : visited.Perm p.filenameTrans) (rest : List Byte) :
    ∃ p', filenameTransRead policyvers filetransInit (filenameTransWrite policyvers p visited ++ rest) =
        some (p', rest) ∧ p'.Agrees p := by
  have hmem : ∀ e ∈ visited, e ∈ p.filenameTrans := fun e he => hvisited.mem_iff.1 he
  have hdata : ∀ e ∈ visited, DataStored e.2 := fun e he => (h.data e (hmem e he)).1
  have hcanon : ∀ e ∈ visited, ∀ d ∈ e.2, d.stypes.Canonical := fun e he => (hdata e he).canonical
  have hlength : (filenameTransRules visited).length = p.filenameTransCount.toNat := by
    rw [length_filenameTransRules hcanon, h.count]
    exact (hvisited.map _).sum_eq
  have hlt := p.filenameTransCount.isLt
  have hapart := pairwise_filenameTransRules ((hvisited.map Prod.fst).nodup_iff.2 h.nodup) hdata
  have hstep : ∀ (done : List FiletransCall) c after (st : FilenameTransTable) rest,
      done ++ c :: after = filenameTransRules visited → RulesRead done st →
        ∃ st', filenameTransReadOneCompat st (filenameWriteCall c ++ rest) = some (st', rest) ∧
          RulesRead (done ++ [c]) st' := by
    intro done c after st rest hdone hst
    obtain ⟨e, he, d, hd, bit, hbit, hc⟩ := (mem_filenameTransRules hcanon).1
      (show c ∈ filenameTransRules visited by rw [← hdone]; simp)
    have hlt' := bit_lt_of_mem (hcanon e he d hd) hbit
    have hcbit : c.bit < 2 ^ 32 - 64 := by
      rw [← hc, FiletransCall.bit, toNat_ofNat_succ_sub_one hlt']
      exact hlt'
    have hstype : c.stype ≠ 0 := by
      rintro hz
      rw [FiletransCall.bit, hz] at hcbit
      exact absurd hcbit (by decide)
    have hname : c.key.name.Readable := by
      rw [← hc]
      exact h.names e (hmem e he)
    have hbefore : ∀ c' ∈ done, ¬ (c'.key = c.key ∧ c'.bit = c.bit) := fun c' hc' => by
      rw [← hdone, List.pairwise_append] at hapart
      exact hapart.2.2 c' hc' c (List.mem_cons_self ..)
    have hshort : done.length < 2 ^ 32 - 1 := by
      rw [← hdone, List.length_append, List.length_cons] at hlength
      omega
    obtain ⟨st', hinsert, hst'⟩ := hst.insert hcbit hbefore hshort
    exact ⟨st', filenameTransReadOneCompat_filenameWriteCall hname hstype hinsert rest, hst'⟩
  obtain ⟨p', hread, hp'⟩ := readInto_flatMap RulesRead hstep (List.nil_append _) .init rest
  refine ⟨p', ?_, ?_, ?_⟩
  · rw [filenameTransWrite, if_neg (by omega), if_pos hvers, filenameTransRead, List.append_assoc, nextEntry_word]
    simp only [Option.bind_eq_bind, Option.bind_some, hvers, if_true]
    rw [le32ToCpu_cpuToLe32 hlt, ← hlength, flatMap_filenameWriteOneCompat hcanon, hread]
  · refine filetransValue_congr (dataStored_search hp'.data) (dataStored_search fun e he => (h.data e he).1) ?_
    intro key i o
    rw [hp'.holds, holds_iff_mem_filenameTransRules h hvisited]
  · exact BitVec.eq_of_toNat_eq (hp'.count.trans hlength)

/-! ### Runs -/

/-- A call whose entry survives both formats: it is not shadowed, and a new entry has a source type that fits in a
bitmap, can be counted, and stands in a list of one output type or of output types that fit in a bitmap. -/
def FiletransStorable (p : FilenameTransTable) (call : FiletransCall) : Prop :=
  Unshadowed p call ∧ ((∃ d ∈ filetransSearch p call.key, holdsStype call d = true) ∨
    call.bit < 2 ^ 32 - 64 ∧ p.filenameTransCount.toNat < 2 ^ 32 - 1 ∧
      ∀ d ∈ filetransSearch p call.key, d.otype ≠ call.otype →
        d.otype.toNat < 2 ^ 32 - 64 ∧ call.otype.toNat < 2 ^ 32 - 64)

/-- Every call is storable in the table it meets. -/
def FiletransStorableRun : FilenameTransTable → List FiletransCall → Prop
  | _, [] => True
  | p, call :: calls => FiletransStorable p call ∧ FiletransStorableRun (filetransStep p call) calls

private theorem filetransInit_stored : filetransInit.Stored :=
  ⟨List.nodup_nil, by simp [filetransInit], by simp [filetransInit], by simp [filetransInit], rfl⟩

private theorem filetransStep_stored (h : p.Stored) (hname : call.key.name.Readable)
    (hstorable : FiletransStorable p call) : (filetransStep p call).Stored := by
  have hl := dataStored_search (fun e he => (h.data e he).1) call.key
  by_cases hpresent : ∃ d ∈ filetransSearch p call.key, holdsStype call d = true
  · obtain ⟨d, hd, hhold⟩ := hpresent
    rw [filetransStep, policydbFiletransInsert_present hl hstorable.1 hd hhold]
    exact h
  · obtain ⟨hbit, hcount, hotypes⟩ := hstorable.2.resolve_left hpresent
    push Not at hpresent
    have hlen := length_le_sum_dataCount h.data
    rw [← h.count] at hlen
    obtain ⟨l', hrun, hinsert⟩ := policydbFiletransInsert_inserted hl
      (fun d hd => Bool.eq_false_iff.2 (hpresent d hd))
      hbit (by omega)
    -- the output types of the list before the call
    have hold : ∀ a ∈ filetransSearch p call.key, ∀ b ∈ filetransSearch p call.key, a.otype ≠ b.otype →
        a.otype.toNat < 2 ^ 32 - 64 := by
      rw [filetransSearch]
      cases hget : AssocTable.get call.key p.filenameTrans with
      | none => exact fun a ha => absurd ha List.not_mem_nil
      | some l => exact h.otypes _ (AssocTable.mem_of_get hget)
    rw [filetransStep, hrun]
    refine ⟨AssocTable.nodup_put h.nodup, fun e he => ?_, fun e he => ?_, fun e he => ?_, ?_⟩
    · rcases AssocTable.mem_put he with rfl | he
      · exact ⟨hinsert.stored, hinsert.ne_nil⟩
      · exact h.data e he
    · rcases AssocTable.mem_put he with rfl | he
      · intro a ha b hb hne
        rcases hinsert.otype_of_mem ha with ⟨x, hx, hxa⟩ | ha
        · rcases hinsert.otype_of_mem hb with ⟨y, hy, hyb⟩ | hb
          · rw [← hxa]
            exact hold x hx y hy (by rwa [hxa, hyb])
          · rw [← hxa]
            exact (hotypes x hx (by rwa [hxa, ← hb])).1
        · rcases hinsert.otype_of_mem hb with ⟨y, hy, hyb⟩ | hb
          · rw [ha]
            exact (hotypes y hy (by rw [hyb, ← ha]; exact hne.symm)).2
          · exact absurd (ha.trans hb.symm) hne
      · exact h.otypes e he
    · rcases AssocTable.mem_put he with rfl | he
      · exact hname
      · exact h.names e he
    · rw [sum_dataCount_put hinsert, toNat_filenameTransCount_succ hcount, h.count]

private theorem filetransRun_stored (calls : List FiletransCall) (h : p.Stored)
    (hnames : ∀ call ∈ calls, call.key.name.Readable) (hrun : FiletransStorableRun p calls) :
    (calls.foldl filetransStep p).Stored := by
  induction calls generalizing p with
  | nil => exact h
  | cons call calls ih =>
    have hstep := filetransStep_stored h (hnames call (List.mem_cons_self ..)) hrun.1
    exact ih hstep (fun c hc => hnames c (List.mem_cons_of_mem _ hc)) hrun.2

/-- The table that storable calls have made is read as it was written, in both formats. -/
theorem filenameTransRead_filenameTransWrite (calls : List FiletransCall)
    (hnames : ∀ call ∈ calls, call.key.name.Readable) (hrun : FiletransStorableRun filetransInit calls)
    {policyvers : Nat} (hvers : policydbVersionFilenameTrans ≤ policyvers)
    {visited : List (FilenameTransKey × List FilenameTransDatum)}
    (hvisited : visited.Perm (filetransRun calls).filenameTrans) (rest : List Byte) :
    ∃ p', filenameTransRead policyvers filetransInit
      (filenameTransWrite policyvers (filetransRun calls) visited ++ rest) =
        some (p', rest) ∧ p'.Agrees (filetransRun calls) := by
  have h : (filetransRun calls).Stored := filetransRun_stored calls filetransInit_stored hnames hrun
  by_cases hcompact : policyvers < policydbVersionCompFtrans
  · exact filenameTransRead_compat h hvers hcompact hvisited rest
  · refine ⟨_, filenameTransRead_compact h (Nat.le_of_not_lt hcompact) hvisited rest, fun stype key => ?_, rfl⟩
    have hsearch : filetransSearch ⟨visited, (filetransRun calls).filenameTransCount⟩ key =
        filetransSearch (filetransRun calls) key := by
      rw [filetransSearch, filetransSearch, AssocTable.get_perm hvisited h.nodup]
    rw [filetransValue, filetransValue, hsearch]

private theorem unshadowed_of_new (h : ∀ d ∈ filetransSearch p call.key, holdsStype call d = false) :
    Unshadowed p call := by
  intro before d after hsearch hhold
  have := h d (by rw [hsearch]; simp)
  rw [hhold] at this
  cases this

private theorem readable_letter : CString.Readable ['a'] := ⟨by decide, by simp, by norm_num⟩

/-- Two source types with output types of their own, in the compact format. -/
theorem filenameTransRead_filenameTransWrite_example :
    ∃ p', filenameTransRead 33 filetransInit (filenameTransWrite 33
        (filetransRun [⟨1, ⟨3, 7, ['a']⟩, 10⟩, ⟨2, ⟨3, 7, ['a']⟩, 11⟩])
        (filetransRun [⟨1, ⟨3, 7, ['a']⟩, 10⟩, ⟨2, ⟨3, 7, ['a']⟩, 11⟩]).filenameTrans ++ [7]) = some (p', [7]) ∧
      p'.Agrees (filetransRun [⟨1, ⟨3, 7, ['a']⟩, 10⟩, ⟨2, ⟨3, 7, ['a']⟩, 11⟩]) := by
  refine filenameTransRead_filenameTransWrite [⟨1, ⟨3, 7, ['a']⟩, 10⟩, ⟨2, ⟨3, 7, ['a']⟩, 11⟩] (fun call hcall => ?_)
    ⟨⟨unshadowed_of_new (by decide), Or.inr (by decide)⟩,
      ⟨unshadowed_of_new (by decide), Or.inr (by decide)⟩, trivial⟩
    (by decide) (List.Perm.refl _) [7]
  simp only [List.mem_cons, List.not_mem_nil, or_false] at hcall
  rcases hcall with rfl | rfl
  · exact readable_letter
  · exact readable_letter

/-- The rules `1 → 10` and `2 → 11` and then `2 → 10`, which puts source type 2 into both bitmaps: the reader of the
compact format refuses the list. -/
theorem filenameTransRead_counterexample :
    ¬ ∀ calls : List FiletransCall, (∀ call ∈ calls, call.key.name.Readable) → ∀ policyvers,
      policydbVersionFilenameTrans ≤ policyvers → ∀ visited, visited.Perm (filetransRun calls).filenameTrans → ∀ rest,
        ∃ p', filenameTransRead policyvers filetransInit
            (filenameTransWrite policyvers (filetransRun calls) visited ++ rest) = some (p', rest) ∧
          p'.Agrees (filetransRun calls) := by
  intro h
  obtain ⟨p', hread, -⟩ := h [⟨1, ⟨3, 7, ['a']⟩, 10⟩, ⟨2, ⟨3, 7, ['a']⟩, 11⟩, ⟨2, ⟨3, 7, ['a']⟩, 10⟩]
    (fun call hcall => by
      simp only [List.mem_cons, List.not_mem_nil, or_false] at hcall
      rcases hcall with rfl | rfl | rfl <;> exact readable_letter)
    33 (by decide) _ (List.Perm.refl _) []
  have hnone : filenameTransRead 33 filetransInit (filenameTransWrite 33
      (filetransRun [⟨1, ⟨3, 7, ['a']⟩, 10⟩, ⟨2, ⟨3, 7, ['a']⟩, 11⟩, ⟨2, ⟨3, 7, ['a']⟩, 10⟩])
      (filetransRun [⟨1, ⟨3, 7, ['a']⟩, 10⟩, ⟨2, ⟨3, 7, ['a']⟩, 11⟩, ⟨2, ⟨3, 7, ['a']⟩, 10⟩]).filenameTrans ++ []) =
      none := by decide +kernel
  rw [hnone] at hread
  cases hread

end Sepol
