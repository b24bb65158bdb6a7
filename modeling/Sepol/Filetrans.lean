import Sepol.Mls
import Sepol.Lib.AssocTable

/-!
# Filename transitions

`policydb_filetrans_insert` keeps one list of output types for each target type, class and name; every output type
comes with the bitmap of its source types.  The hash table of the lists is a list of pairs here.  One walk along a
list looks for the source type and for the datum of the output type, and ends at the first of the two.
-/

namespace Sepol

structure FilenameTransKey where
  ttype : BitVec 32
  tclass : BitVec 32
  name : CString
deriving DecidableEq

structure FilenameTransDatum where
  stypes : Ebitmap
  otype : BitVec 32
deriving DecidableEq

/-- The fields `filename_trans` and `filename_trans_count` of a policy. -/
structure FilenameTransTable where
  filenameTrans : List (FilenameTransKey × List FilenameTransDatum)
  filenameTransCount : BitVec 32
deriving DecidableEq

/-- The arguments of a call of `policydb_filetrans_insert`. -/
structure FiletransCall where
  stype : BitVec 32
  key : FilenameTransKey
  otype : BitVec 32

/-- The position of a source type in a bitmap. -/
def FiletransCall.bit (call : FiletransCall) : Nat := (call.stype - 1).toNat

/-- `hashtab_search`, with the empty list for `NULL`. -/
def filetransSearch (p : FilenameTransTable) (key : FilenameTransKey) : List FilenameTransDatum :=
  (AssocTable.get key p.filenameTrans).getD []

/-- The loop of `policydb_filetrans_insert`: the output type of the source type when it is found, otherwise the data
before and from the one where the loop stops. -/
def filetransSeek (bit : Nat) (otype : BitVec 32) :
    List FilenameTransDatum → Except (BitVec 32) (List FilenameTransDatum × List FilenameTransDatum)
  | [] => .ok ([], [])
  | datum :: next =>
    if ebitmapGetBit datum.stypes bit then .error datum.otype
    else if datum.otype = otype then .ok ([], datum :: next)
    else (filetransSeek bit otype next).map fun r => (datum :: r.1, r.2)

/-- The datum that the source type is added to, and the data behind it. -/
def filetransDatum (otype : BitVec 32) : List FilenameTransDatum → FilenameTransDatum × List FilenameTransDatum
  | [] => (⟨ebitmapInit, otype⟩, [])
  | datum :: next => (datum, next)

/-- `policydb_filetrans_insert`: the return code, the value of `*present_otype` when it is set, and the policy.  The
hash table takes no more keys than its counter can count. -/
def policydbFiletransInsert (p : FilenameTransTable) (call : FiletransCall) :
    Except Errno Unit × Option (BitVec 32) × FilenameTransTable :=
  match filetransSeek call.bit call.otype (filetransSearch p call.key) with
  | .error presentOtype => (.error .eexist, some presentOtype, p)
  | .ok (before, rest) =>
    if filetransSearch p call.key = [] ∧ p.filenameTrans.length = 2 ^ 32 - 1 then (.error .enomem, none, p)
    else
      let datum := (filetransDatum call.otype rest).1
      let next := (filetransDatum call.otype rest).2
      let stypes := ebitmapSetBit datum.stypes call.bit true
      let data := before ++ { datum with stypes := stypes.getD datum.stypes } :: next
      (if stypes.isSome then .ok () else .error .einval, none,
        ⟨AssocTable.put call.key data p.filenameTrans, p.filenameTransCount + 1⟩)

/-- The loop of `filename_trans_check_datum`. -/
def filenameTransCheckData (stypes otypes : Ebitmap) : List FilenameTransDatum → Bool
  | [] => true
  | datum :: next =>
    if ebitmapGetBit otypes datum.otype.toNat then false
    else
      match ebitmapSetBit otypes datum.otype.toNat true with
      | none => false
      | some otypes =>
        if ebitmapMatchAny stypes datum.stypes then false
        else filenameTransCheckData (ebitmapUnion stypes datum.stypes) otypes next

def filenameTransCheckDatum (datum : List FilenameTransDatum) : Bool :=
  filenameTransCheckData ebitmapInit ebitmapInit datum

end Sepol

/-!
## The filename-transition table as a partial function

A table is a partial function from source type, target type, class and name to output types when the bitmaps of a list
are disjoint (`PartialFunction`).  A call of `policydb_filetrans_insert` breaks that when the datum of its output type
comes before the one that holds its source type (`Unshadowed` fails): the walk along the list ends too early to see
the entry.  Runs without such calls keep it.
-/

namespace Sepol

variable {p : FilenameTransTable} {call : FiletransCall} {bit : Nat} {otype : BitVec 32}
  {l before rest next : List FilenameTransDatum} {datum : FilenameTransDatum}

/-- Lists with distinct output types and disjoint, nonempty sets of source types, counted right, which the reader of a
policy takes. -/
structure FilenameTransTable.PartialFunction (p : FilenameTransTable) : Prop where
  otypes : ∀ e ∈ p.filenameTrans, e.2.Pairwise fun a b => a.otype ≠ b.otype
  disjoint : ∀ e ∈ p.filenameTrans, e.2.Pairwise fun a b =>
    ∀ i, ¬ (ebitmapGetBit a.stypes i = true ∧ ebitmapGetBit b.stypes i = true)
  nonempty : ∀ e ∈ p.filenameTrans, ∀ d ∈ e.2, ∃ i, ebitmapGetBit d.stypes i = true
  count : p.filenameTransCount.toNat =
    (p.filenameTrans.map fun e => (e.2.map fun d => ebitmapCardinality d.stypes).sum).sum
  check : ∀ e ∈ p.filenameTrans, filenameTransCheckDatum e.2 = true

/-- An entry for the source type of a call. -/
def holdsStype (call : FiletransCall) (d : FilenameTransDatum) : Bool := ebitmapGetBit d.stypes call.bit

/-- The call is refused, with the output type that is there and an unchanged table, exactly when there is an entry. -/
def AnswersRight (p : FilenameTransTable) (call : FiletransCall) : Prop :=
  (∀ d ∈ filetransSearch p call.key, holdsStype call d = true →
    policydbFiletransInsert p call = (.error .eexist, some d.otype, p)) ∧
  ((policydbFiletransInsert p call).1 = .error .eexist → ∃ d ∈ filetransSearch p call.key, holdsStype call d = true)

/-- No datum with the output type of the call comes before one that holds its source type. -/
def Unshadowed (p : FilenameTransTable) (call : FiletransCall) : Prop :=
  ∀ before d after, filetransSearch p call.key = before ++ d :: after → holdsStype call d = true →
    ∀ b ∈ before, b.otype ≠ call.otype

/-- A call that the table can take: it is not shadowed, and a new entry has types that fit in a bitmap and can be
counted. -/
def FiletransGood (p : FilenameTransTable) (call : FiletransCall) : Prop :=
  Unshadowed p call ∧ ((∃ d ∈ filetransSearch p call.key, holdsStype call d = true) ∨
    call.bit < 2 ^ 32 - 64 ∧ call.otype.toNat < 2 ^ 32 - 64 ∧ p.filenameTransCount.toNat < 2 ^ 32 - 1)

/-! ### The walk along a list -/

private theorem filetransSeek_ok (h : filetransSeek bit otype l = .ok (before, rest)) :
    l = before ++ rest ∧ (∀ d ∈ before, ebitmapGetBit d.stypes bit = false ∧ d.otype ≠ otype) ∧
      ∀ d next, rest = d :: next → ebitmapGetBit d.stypes bit = false ∧ d.otype = otype := by
  induction l generalizing before with
  | nil =>
    cases h
    exact ⟨rfl, by simp, by simp⟩
  | cons d l ih =>
    unfold filetransSeek at h
    split at h
    · cases h
    · rename_i hbit
      have hbit := Bool.eq_false_iff.2 hbit
      split at h
      · rename_i hotype
        cases h
        refine ⟨rfl, by simp, fun d' next heq => ?_⟩
        obtain ⟨rfl, rfl⟩ := List.cons.inj heq
        exact ⟨hbit, hotype⟩
      · rename_i hotype
        cases hseek : filetransSeek bit otype l with
        | error o =>
          rw [hseek] at h
          cases h
        | ok r =>
          rw [hseek] at h
          cases h
          obtain ⟨rfl, hbefore, hrest⟩ := ih hseek
          refine ⟨rfl, fun x hx => ?_, hrest⟩
          rcases List.mem_cons.1 hx with rfl | hx
          · exact ⟨hbit, hotype⟩
          · exact hbefore x hx

private theorem filetransSeek_error {o : BitVec 32} (h : filetransSeek bit otype l = .error o) :
    ∃ before d after, l = before ++ d :: after ∧ ebitmapGetBit d.stypes bit = true ∧ d.otype = o ∧
      ∀ b ∈ before, b.otype ≠ otype := by
  induction l with
  | nil => cases h
  | cons d l ih =>
    unfold filetransSeek at h
    split at h
    · rename_i hbit
      cases h
      exact ⟨[], d, l, rfl, hbit, rfl, by simp⟩
    · split at h
      · cases h
      · rename_i hotype
        cases hseek : filetransSeek bit otype l with
        | ok r =>
          rw [hseek] at h
          cases h
        | error o' =>
          rw [hseek] at h
          cases h
          obtain ⟨before, d', after, rfl, hd', hotype', hbefore⟩ := ih hseek
          refine ⟨d :: before, d', after, rfl, hd', hotype', fun b hb => ?_⟩
          rcases List.mem_cons.1 hb with rfl | hb
          · exact hotype
          · exact hbefore b hb

/-! ### One list -/

/-- Two data of one list. -/
def DataApart (a b : FilenameTransDatum) : Prop := a.otype ≠ b.otype ∧ ∀ i, ¬ (i ∈ a.stypes ∧ i ∈ b.stypes)

instance : Std.Symm DataApart := ⟨fun _ _ h => ⟨Ne.symm h.1, fun i hi => h.2 i ⟨hi.2, hi.1⟩⟩⟩

/-- A datum with types that fit in a bitmap. -/
structure DatumOk (d : FilenameTransDatum) : Prop where
  canonical : d.stypes.Canonical
  nonempty : ∃ i, i ∈ d.stypes
  otype : d.otype.toNat < 2 ^ 32 - 64

structure DataOk (l : List FilenameTransDatum) : Prop where
  datum : ∀ d ∈ l, DatumOk d
  apart : l.Pairwise DataApart

/-- The number of entries of a list. -/
def dataCount (l : List FilenameTransDatum) : Nat := (l.map fun d => ebitmapCardinality d.stypes).sum

private theorem ebitmapCardinality_of_insert {e e' : Ebitmap} (h : e.Canonical) (h' : e'.Canonical)
    (hmem : ∀ i, i ∈ e' ↔ i ∈ e ∨ i = bit) (hbit : bit ∉ e) : ebitmapCardinality e' = ebitmapCardinality e + 1 := by
  have hnodup : (bit :: ebitmapPositiveBits e).Nodup :=
    List.nodup_cons.2 ⟨fun hb => hbit ((mem_ebitmapPositiveBits h).1 hb), ebitmapPositiveBits_nodup h⟩
  have hperm : (ebitmapPositiveBits e').Perm (bit :: ebitmapPositiveBits e) := by
    rw [List.perm_ext_iff_of_nodup (ebitmapPositiveBits_nodup h') hnodup]
    intro i
    rw [mem_ebitmapPositiveBits h', hmem, List.mem_cons, mem_ebitmapPositiveBits h]
    exact or_comm
  rw [ebitmapCardinality_eq h', ebitmapCardinality_eq h, hperm.length_eq, List.length_cons]

/-- Data with nothing in common. -/
structure DataStored (l : List FilenameTransDatum) : Prop where
  canonical : ∀ d ∈ l, d.stypes.Canonical
  nonempty : ∀ d ∈ l, ∃ i, i ∈ d.stypes
  apart : l.Pairwise DataApart

theorem DataOk.stored (hl : DataOk l) : DataStored l :=
  ⟨fun d hd => (hl.datum d hd).canonical, fun d hd => (hl.datum d hd).nonempty, hl.apart⟩

/-- The entry of a source type, at position `i`, with an output type. -/
def Holds (l : List FilenameTransDatum) (i : Nat) (o : BitVec 32) : Prop := ∃ d ∈ l, d.otype = o ∧ i ∈ d.stypes

/-- A list with one more entry. -/
structure DataInserted (bit : Nat) (otype : BitVec 32) (l l' : List FilenameTransDatum) : Prop where
  stored : DataStored l'
  holds : ∀ i o, Holds l' i o ↔ Holds l i o ∨ i = bit ∧ o = otype
  count : dataCount l' = dataCount l + 1
  ne_nil : l' ≠ []

theorem DataInserted.otype_of_mem {l' : List FilenameTransDatum} (h : DataInserted bit otype l l') (hd : datum ∈ l') :
    (∃ d ∈ l, d.otype = datum.otype) ∨ datum.otype = otype := by
  obtain ⟨i, hi⟩ := h.stored.nonempty datum hd
  rcases (h.holds i datum.otype).1 ⟨datum, hd, rfl, hi⟩ with ⟨d, hd, heq, -⟩ | ⟨-, heq⟩
  · exact Or.inl ⟨d, hd, heq⟩
  · exact Or.inr heq

/-- A new source type in a datum that has nothing in common with the others. -/
private theorem dataInserted_of_insert (datum : FilenameTransDatum) {e' : Ebitmap}
    (hother : ∀ d ∈ before ++ next, d.stypes.Canonical ∧
      (∃ i, i ∈ d.stypes) ∧ bit ∉ d.stypes) (hapart : (before ++ datum :: next).Pairwise DataApart)
    (hcanon : datum.stypes.Canonical) (hnot : bit ∉ datum.stypes) (hcanon' : e'.Canonical)
    (hmem : ∀ i, i ∈ e' ↔ i ∈ datum.stypes ∨ i = bit) :
    DataInserted bit datum.otype (before ++ datum :: next) (before ++ { datum with stypes := e' } :: next) := by
  have hdisj : ∀ d ∈ before ++ next, (∀ i, ¬ (i ∈ d.stypes ∧ i ∈ datum.stypes)) →
      ∀ i, ¬ (i ∈ d.stypes ∧ i ∈ e') := by
    intro d hd h i hi
    rcases (hmem i).1 hi.2 with hi' | rfl
    · exact h i ⟨hi.1, hi'⟩
    · exact (hother d hd).2.2 hi.1
  have hsplit : ∀ {x d : FilenameTransDatum}, x ∈ before ++ d :: next ↔ x = d ∨ x ∈ before ++ next := by
    intro x d
    simp only [List.mem_append, List.mem_cons]
    tauto
  refine ⟨⟨fun d hd => ?_, fun d hd => ?_, ?_⟩, fun i o => ?_, ?_, by simp⟩
  · rcases hsplit.1 hd with rfl | hd
    · exact hcanon'
    · exact (hother d hd).1
  · rcases hsplit.1 hd with rfl | hd
    · exact ⟨bit, (hmem bit).2 (Or.inr rfl)⟩
    · exact (hother d hd).2.1
  · rw [List.pairwise_append, List.pairwise_cons] at hapart ⊢
    obtain ⟨h1, ⟨h2, h3⟩, h4⟩ := hapart
    refine ⟨h1, ⟨fun d hd => ?_, h3⟩, fun d hd x hx => ?_⟩
    · have h := h2 d hd
      refine ⟨h.1, fun i hi => ?_⟩
      exact hdisj d (List.mem_append_right _ hd) (fun j hj => h.2 j ⟨hj.2, hj.1⟩) i ⟨hi.2, hi.1⟩
    · rcases List.mem_cons.1 hx with rfl | hx
      · have h := h4 d hd datum (List.mem_cons_self ..)
        exact ⟨h.1, hdisj d (List.mem_append_left _ hd) h.2⟩
      · exact h4 d hd x (List.mem_cons_of_mem _ hx)
  · simp only [Holds, hsplit, exists_eq_or_imp, hmem]
    constructor
    · rintro (⟨rfl, hi | rfl⟩ | h)
      · exact Or.inl (Or.inl ⟨rfl, hi⟩)
      · exact Or.inr ⟨rfl, rfl⟩
      · exact Or.inl (Or.inr h)
    · rintro ((⟨rfl, hi⟩ | h) | ⟨rfl, rfl⟩)
      · exact Or.inl ⟨rfl, Or.inl hi⟩
      · exact Or.inr h
      · exact Or.inl ⟨rfl, Or.inr rfl⟩
  · simp only [dataCount, List.map_append, List.map_cons, List.sum_append, List.sum_cons]
    rw [ebitmapCardinality_of_insert hcanon hcanon' hmem hnot]
    omega

private theorem DataInserted.of_init {l' : List FilenameTransDatum}
    (h : DataInserted bit otype (before ++ [⟨ebitmapInit, otype⟩]) l') : DataInserted bit otype before l' := by
  refine ⟨h.stored, fun i o => ?_, ?_, h.ne_nil⟩
  · rw [h.holds]
    simp [Holds]
  · rw [h.count]
    simp [dataCount, ebitmapCardinality, ebitmapInit]

/-- The walk that does not find the source type ends where a new entry belongs. -/
private theorem filetransSeek_inserted (hl : DataStored l) (hnew : ∀ d ∈ l, ebitmapGetBit d.stypes bit = false)
    (hbit : bit < 2 ^ 32 - 64) (h : filetransSeek bit otype l = .ok (before, rest)) :
    ∃ stypes, ebitmapSetBit (filetransDatum otype rest).1.stypes bit true = some stypes ∧
      DataInserted bit otype l (before ++ { (filetransDatum otype rest).1 with stypes } ::
        (filetransDatum otype rest).2) := by
  obtain ⟨rfl, hbefore, hrest⟩ := filetransSeek_ok h
  have hnot : ∀ d ∈ before ++ rest, bit ∉ d.stypes := fun d hd hin => by
    have := hnew d hd
    rw [(ebitmapGetBit_iff (hl.canonical d hd) _).2 hin] at this
    cases this
  cases rest with
  | nil =>
    have hset := ebitmapSetBit_true hbit ebitmapInit
    rw [List.append_nil] at hl hnot ⊢
    refine ⟨_, hset, .of_init ?_⟩
    have hcanon' := Ebitmap.Canonical.init.setBit hbit hset
    refine dataInserted_of_insert ⟨ebitmapInit, otype⟩ (fun d hd => ?_) ?_ .init (not_mem_ebitmapInit bit) hcanon'
      (mem_of_ebitmapSetBit .init hbit hset)
    · rw [List.append_nil] at hd
      exact ⟨hl.canonical d hd, hl.nonempty d hd, hnot d hd⟩
    · rw [List.pairwise_append]
      refine ⟨hl.apart, List.pairwise_singleton .., fun d hd x hx => ?_⟩
      obtain rfl := List.mem_singleton.1 hx
      exact ⟨(hbefore d hd).2, by simp⟩
  | cons d next =>
    obtain rfl := (hrest d next rfl).2
    have hd : d ∈ before ++ d :: next := by simp
    have hcanon := hl.canonical d hd
    have hset := ebitmapSetBit_true hbit d.stypes
    refine ⟨_, hset, dataInserted_of_insert d (fun x hx => ?_) hl.apart hcanon (hnot d hd) (hcanon.setBit hbit hset)
      (mem_of_ebitmapSetBit hcanon hbit hset)⟩
    have hx' : x ∈ before ++ d :: next := by
      rcases List.mem_append.1 hx with hx | hx <;> simp [hx]
    exact ⟨hl.canonical x hx', hl.nonempty x hx', hnot x hx'⟩

/-- The check of the reader accepts lists of this form. -/
theorem filenameTransCheckDatum_of_dataOk (hl : DataOk l) : filenameTransCheckDatum l = true := by
  have key : ∀ (l : List FilenameTransDatum) (stypes otypes : Ebitmap), DataOk l → stypes.Canonical →
      otypes.Canonical → (∀ d ∈ l, d.otype.toNat ∉ otypes) → (∀ d ∈ l, ∀ i, ¬ (i ∈ stypes ∧ i ∈ d.stypes)) →
      filenameTransCheckData stypes otypes l = true := by
    intro l
    induction l with
    | nil => exact fun _ _ _ _ _ _ _ => rfl
    | cons d l ih =>
      intro stypes otypes hl hs ho hotypes hstypes
      have hd := hl.datum d (List.mem_cons_self ..)
      have hapart := List.pairwise_cons.1 hl.apart
      have hget : ebitmapGetBit otypes d.otype.toNat = false :=
        Bool.eq_false_iff.2 fun h => hotypes d (List.mem_cons_self ..) ((ebitmapGetBit_iff ho _).1 h)
      have hset := ebitmapSetBit_true hd.otype otypes
      have hmatch : ebitmapMatchAny stypes d.stypes = false := by
        refine Bool.eq_false_iff.2 fun h => ?_
        obtain ⟨i, hi⟩ := (ebitmapMatchAny_iff hs hd.canonical).1 h
        exact hstypes d (List.mem_cons_self ..) i hi
      rw [filenameTransCheckData, if_neg (by simp [hget]), hset]
      dsimp only
      rw [if_neg (by simp [hmatch])]
      refine ih _ _ ⟨fun x hx => hl.datum x (List.mem_cons_of_mem _ hx), hapart.2⟩ (hs.union hd.canonical)
        (ho.setBit hd.otype hset) (fun x hx hin => ?_) fun x hx i hi => ?_
      · rcases (mem_of_ebitmapSetBit ho hd.otype hset _).1 hin with hin | heq
        · exact hotypes x (List.mem_cons_of_mem _ hx) hin
        · exact (hapart.1 x hx).1 (BitVec.eq_of_toNat_eq heq.symm)
      · rcases (mem_ebitmapUnion hs hd.canonical i).1 hi.1 with hin | hin
        · exact hstypes x (List.mem_cons_of_mem _ hx) i ⟨hin, hi.2⟩
        · exact (hapart.1 x hx).2 i ⟨hin, hi.2⟩
  exact key l _ _ hl .init .init (by simp) (by simp)

/-! ### The table -/

/-- The state of a table that only good calls have made. -/
structure FilenameTransTable.Ok (p : FilenameTransTable) : Prop where
  data : ∀ e ∈ p.filenameTrans, DataOk e.2 ∧ e.2 ≠ []
  count : p.filenameTransCount.toNat = (p.filenameTrans.map fun e => dataCount e.2).sum

def filetransInit : FilenameTransTable := ⟨[], 0⟩

private theorem filetransInit_ok : filetransInit.Ok := ⟨by simp [filetransInit], rfl⟩

theorem FilenameTransTable.Ok.search (h : p.Ok) (key : FilenameTransKey) : DataOk (filetransSearch p key) := by
  rw [filetransSearch]
  cases hget : AssocTable.get key p.filenameTrans with
  | none => exact ⟨by simp, List.Pairwise.nil⟩
  | some l => exact (h.data _ (AssocTable.mem_of_get hget)).1

private theorem FilenameTransTable.Ok.partialFunction (h : p.Ok) : p.PartialFunction where
  otypes e he := (h.data e he).1.apart.imp fun hab => hab.1
  disjoint e he := (h.data e he).1.apart.imp_of_mem fun {a b} ha hb hab i => by
    have hdata := (h.data e he).1.datum
    rw [ebitmapGetBit_iff (hdata a ha).canonical, ebitmapGetBit_iff (hdata b hb).canonical]
    exact hab.2 i
  nonempty e he d hd := by
    have hdata := (h.data e he).1.datum d hd
    obtain ⟨i, hi⟩ := hdata.nonempty
    exact ⟨i, (ebitmapGetBit_iff hdata.canonical i).2 hi⟩
  count := h.count
  check e he := filenameTransCheckDatum_of_dataOk (h.data e he).1

private theorem dataCount_pos (hl : DataStored l) (hne : l ≠ []) : 0 < dataCount l := by
  cases l with
  | nil => exact absurd rfl hne
  | cons d l =>
    have hd : d ∈ d :: l := List.mem_cons_self ..
    have hcard : ebitmapCardinality d.stypes ≠ 0 := by
      intro hz
      obtain ⟨i, hi⟩ := hl.nonempty d hd
      exact (ebitmapCardinality_eq_zero_iff (hl.canonical d hd)).1 hz i hi
    rw [dataCount, List.map_cons, List.sum_cons]
    omega

/-- There are no more keys than entries. -/
theorem length_le_sum_dataCount {t : List (FilenameTransKey × List FilenameTransDatum)}
    (h : ∀ e ∈ t, DataStored e.2 ∧ e.2 ≠ []) : t.length ≤ (t.map fun e => dataCount e.2).sum := by
  have hpos : ∀ e ∈ t, 0 < dataCount e.2 := fun e he => dataCount_pos (h e he).1 (h e he).2
  induction t with
  | nil => exact Nat.le_refl _
  | cons e t ih =>
    have he := hpos e (List.mem_cons_self ..)
    have ht := ih (fun x hx => h x (List.mem_cons_of_mem _ hx)) fun x hx => hpos x (List.mem_cons_of_mem _ hx)
    rw [List.length_cons, List.map_cons, List.sum_cons]
    omega

/-- A call with a new entry puts it in the table. -/
theorem policydbFiletransInsert_inserted (hl : DataStored (filetransSearch p call.key))
    (hnew : ∀ d ∈ filetransSearch p call.key, holdsStype call d = false) (hbit : call.bit < 2 ^ 32 - 64)
    (hroom : p.filenameTrans.length < 2 ^ 32 - 1) :
    ∃ l', policydbFiletransInsert p call =
        (.ok (), none, ⟨AssocTable.put call.key l' p.filenameTrans, p.filenameTransCount + 1⟩) ∧
      DataInserted call.bit call.otype (filetransSearch p call.key) l' := by
  obtain ⟨before, rest, hseek⟩ : ∃ before rest,
      filetransSeek call.bit call.otype (filetransSearch p call.key) = .ok (before, rest) := by
    cases hseek : filetransSeek call.bit call.otype (filetransSearch p call.key) with
    | ok r => exact ⟨r.1, r.2, rfl⟩
    | error o =>
      obtain ⟨before, d, after, heq, hd, -, -⟩ := filetransSeek_error hseek
      have := hnew d (by rw [heq]; simp)
      rw [holdsStype, hd] at this
      cases this
  obtain ⟨stypes, hset, hinsert⟩ := filetransSeek_inserted hl hnew hbit hseek
  refine ⟨_, ?_, hinsert⟩
  rw [policydbFiletransInsert, hseek]
  dsimp only
  rw [if_neg (by omega), hset, Option.getD_some]
  rfl

/-- The number of entries after an insertion. -/
theorem sum_dataCount_put {l' : List FilenameTransDatum}
    (h : DataInserted call.bit call.otype (filetransSearch p call.key) l') :
    ((AssocTable.put call.key l' p.filenameTrans).map fun e => dataCount e.2).sum =
      (p.filenameTrans.map fun e => dataCount e.2).sum + 1 := by
  have hsum := AssocTable.sum_put dataCount call.key l' p.filenameTrans
  have hold : ((AssocTable.get call.key p.filenameTrans).map dataCount).getD 0 =
      dataCount (filetransSearch p call.key) := by
    rw [filetransSearch]
    cases AssocTable.get call.key p.filenameTrans <;> rfl
  rw [hold, h.count] at hsum
  omega

theorem toNat_filenameTransCount_succ (hcount : p.filenameTransCount.toNat < 2 ^ 32 - 1) :
    (p.filenameTransCount + 1).toNat = p.filenameTransCount.toNat + 1 := by
  rw [BitVec.toNat_add]
  exact Nat.mod_eq_of_lt (by show p.filenameTransCount.toNat + 1 < 2 ^ 32; omega)

private theorem policydbFiletransInsert_new (h : p.Ok)
    (hnew : ∀ d ∈ filetransSearch p call.key, holdsStype call d = false) (hbit : call.bit < 2 ^ 32 - 64)
    (hotype : call.otype.toNat < 2 ^ 32 - 64) (hcount : p.filenameTransCount.toNat < 2 ^ 32 - 1) :
    ∃ p', policydbFiletransInsert p call = (.ok (), none, p') ∧ p'.Ok := by
  have hl := h.search call.key
  have hlen := length_le_sum_dataCount fun e he => ⟨(h.data e he).1.stored, (h.data e he).2⟩
  rw [← h.count] at hlen
  obtain ⟨l', hrun, hinsert⟩ := policydbFiletransInsert_inserted hl.stored hnew hbit (by omega)
  refine ⟨_, hrun, fun e he => ?_, ?_⟩
  · rcases AssocTable.mem_put he with rfl | he
    · refine ⟨⟨fun d hd => ⟨hinsert.stored.canonical d hd, hinsert.stored.nonempty d hd, ?_⟩, hinsert.stored.apart⟩,
        hinsert.ne_nil⟩
      rcases hinsert.otype_of_mem hd with ⟨x, hx, heq⟩ | heq
      · rw [← heq]
        exact (hl.datum x hx).otype
      · rwa [heq]
    · exact h.data e he
  · rw [sum_dataCount_put hinsert, toNat_filenameTransCount_succ hcount, h.count]

/-- A call whose entry is there already and not shadowed is refused. -/
theorem policydbFiletransInsert_present (hl : DataStored (filetransSearch p call.key)) (hu : Unshadowed p call)
    (hd : datum ∈ filetransSearch p call.key) (hhold : holdsStype call datum = true) :
    policydbFiletransInsert p call = (.error .eexist, some datum.otype, p) := by
  cases hseek : filetransSeek call.bit call.otype (filetransSearch p call.key) with
  | ok r =>
    exfalso
    obtain ⟨heq, hbefore, hrest⟩ := filetransSeek_ok hseek
    rw [heq] at hd
    rcases List.mem_append.1 hd with hd | hd
    · rw [holdsStype, (hbefore datum hd).1] at hhold
      cases hhold
    · obtain ⟨a, b, hab⟩ := List.append_of_mem hd
      cases a with
      | nil =>
        have := (hrest datum b hab).1
        rw [holdsStype, this] at hhold
        cases hhold
      | cons x a =>
        have hx := hrest x (a ++ datum :: b) hab
        refine hu (r.1 ++ x :: a) datum b ?_ hhold x (by simp) hx.2
        rw [heq, hab]
        simp
  | error o =>
    obtain ⟨before, d, after, heq, hbit, rfl, -⟩ := filetransSeek_error hseek
    have hsame : d = datum := by
      by_contra hne
      have hd' : d ∈ filetransSearch p call.key := by
        rw [heq]
        simp
      refine (hl.apart.forall hd' hd hne).2 call.bit ⟨?_, ?_⟩
      · exact (ebitmapGetBit_iff (hl.canonical d hd') _).1 hbit
      · exact (ebitmapGetBit_iff (hl.canonical datum hd) _).1 hhold
    rw [policydbFiletransInsert, hseek, hsame]

/-- A call answers right exactly when it is not shadowed. -/
private theorem answersRight_iff (h : p.Ok) : AnswersRight p call ↔ Unshadowed p call := by
  constructor
  · rintro ⟨hpresent, -⟩ before d after heq hhold b hb hotype
    have hl := h.search call.key
    have hd : d ∈ filetransSearch p call.key := by
      rw [heq]
      simp
    have hres := hpresent d hd hhold
    cases hseek : filetransSeek call.bit call.otype (filetransSearch p call.key) with
    | ok r =>
      rw [policydbFiletransInsert, hseek] at hres
      dsimp only at hres
      split at hres
      · cases (congrArg Prod.fst hres)
      · cases (congrArg (fun r => r.2.1) hres)
    | error o =>
      -- the walk passes the datum of the output type only when the source type is found before it
      obtain ⟨before', d', after', heq', hbit, -, hbefore'⟩ := filetransSeek_error hseek
      have hd' : d' ∈ filetransSearch p call.key := by
        rw [heq']
        simp
      have hsame : d' = d := by
        by_contra hne
        refine (hl.apart.forall hd' hd hne).2 call.bit ⟨?_, ?_⟩
        · exact (ebitmapGetBit_iff (hl.datum d' hd').canonical _).1 hbit
        · exact (ebitmapGetBit_iff (hl.datum d hd).canonical _).1 hhold
      have hnodup : (before' ++ d' :: after').Nodup :=
        heq' ▸ hl.apart.imp fun hab heq => hab.1 (congrArg FilenameTransDatum.otype heq)
      rw [List.nodup_append, List.nodup_cons] at hnodup
      rw [heq, ← hsame] at heq'
      have hbefore := (List.append_cons_inj_of_notMem (fun hin => hnodup.2.2 d' hin d' (List.mem_cons_self ..) rfl)
        hnodup.2.1.1).1 heq'.symm
      exact hbefore' b (hbefore.1 ▸ hb) hotype
  · intro hu
    refine ⟨fun d hd hhold => policydbFiletransInsert_present (h.search call.key).stored hu hd hhold,
      fun heexist => ?_⟩
    cases hseek : filetransSeek call.bit call.otype (filetransSearch p call.key) with
    | ok r =>
      rw [policydbFiletransInsert, hseek] at heexist
      dsimp only at heexist
      split at heexist
      · cases heexist
      · dsimp only at heexist
        split at heexist <;> cases heexist
    | error o =>
      obtain ⟨before, d, after, heq, hbit, -, -⟩ := filetransSeek_error hseek
      exact ⟨d, by rw [heq]; simp, hbit⟩

/-! ### Runs -/

/-- The table after a call. -/
def filetransStep (p : FilenameTransTable) (call : FiletransCall) : FilenameTransTable :=
  (policydbFiletransInsert p call).2.2

def filetransRun (calls : List FiletransCall) : FilenameTransTable := calls.foldl filetransStep filetransInit

/-- Every call is good for the table it meets. -/
def FiletransGoodRun : FilenameTransTable → List FiletransCall → Prop
  | _, [] => True
  | p, call :: calls => FiletransGood p call ∧ FiletransGoodRun (filetransStep p call) calls

private theorem filetransStep_ok (h : p.Ok) (hgood : FiletransGood p call) : (filetransStep p call).Ok := by
  by_cases hpresent : ∃ d ∈ filetransSearch p call.key, holdsStype call d = true
  · obtain ⟨d, hd, hhold⟩ := hpresent
    rw [filetransStep, policydbFiletransInsert_present (h.search call.key).stored hgood.1 hd hhold]
    exact h
  · obtain ⟨hbit, hotype, hcount⟩ := hgood.2.resolve_left hpresent
    push Not at hpresent
    obtain ⟨p', hp', hok⟩ := policydbFiletransInsert_new h (fun d hd => Bool.eq_false_iff.2 (hpresent d hd)) hbit
      hotype hcount
    rw [filetransStep, hp']
    exact hok

private theorem filetransRun_ok (calls : List FiletransCall) (h : p.Ok) (hrun : FiletransGoodRun p calls) :
    (calls.foldl filetransStep p).Ok := by
  induction calls generalizing p with
  | nil => exact h
  | cons call calls ih => exact ih (filetransStep_ok h hrun.1) hrun.2

/-- Good calls keep the table a partial function, and then a call is answered right exactly when it is not shadowed.
-/
theorem filetransRun_partialFunction (calls : List FiletransCall) (hrun : FiletransGoodRun filetransInit calls) :
    (filetransRun calls).PartialFunction ∧
      ∀ call, AnswersRight (filetransRun calls) call ↔ Unshadowed (filetransRun calls) call := by
  have h := filetransRun_ok calls filetransInit_ok hrun
  exact ⟨h.partialFunction, fun call => answersRight_iff h⟩

theorem filetransRun_partialFunction_example :
    (filetransRun [⟨1, ⟨3, 7, ['a']⟩, 10⟩, ⟨2, ⟨3, 7, ['a']⟩, 11⟩]).PartialFunction := by
  have hrun : FiletransGoodRun filetransInit [⟨1, ⟨3, 7, ['a']⟩, 10⟩, ⟨2, ⟨3, 7, ['a']⟩, 11⟩] := by
    refine ⟨⟨fun before d after heq => ?_, Or.inr (by decide)⟩, ⟨fun before d after heq hhold => ?_,
      Or.inr (by decide)⟩, trivial⟩
    · have hnil : filetransSearch filetransInit ⟨3, 7, ['a']⟩ = [] := rfl
      rw [hnil] at heq
      simp at heq
    · have hone : filetransSearch (filetransStep filetransInit ⟨1, ⟨3, 7, ['a']⟩, 10⟩) ⟨3, 7, ['a']⟩ =
          [⟨⟨[⟨0, 1⟩], 64⟩, 10⟩] := by decide
      have hd : d ∈ [⟨⟨[⟨0, 1⟩], 64⟩, 10⟩] := by
        rw [← hone, heq]
        simp
      rw [List.mem_singleton.1 hd] at hhold
      exact absurd hhold (by decide)
  exact (filetransRun_partialFunction _ hrun).1

/-- The rules `1 → 10` and `2 → 11` and then `2 → 10`: the walk for the third one ends at the datum of type 10, and
source type 2 is in both bitmaps. -/
theorem filetransRun_counterexample :
    ¬ ∀ calls, (filetransRun calls).PartialFunction ∧ ∀ call, AnswersRight (filetransRun calls) call := by
  intro h
  have hrun : (filetransRun [⟨1, ⟨3, 7, ['a']⟩, 10⟩, ⟨2, ⟨3, 7, ['a']⟩, 11⟩, ⟨2, ⟨3, 7, ['a']⟩, 10⟩]).filenameTrans =
      [(⟨3, 7, ['a']⟩, [⟨⟨[⟨0, 3⟩], 64⟩, 10⟩, ⟨⟨[⟨0, 2⟩], 64⟩, 11⟩])] := by decide
  have hdisj := (h [⟨1, ⟨3, 7, ['a']⟩, 10⟩, ⟨2, ⟨3, 7, ['a']⟩, 11⟩, ⟨2, ⟨3, 7, ['a']⟩, 10⟩]).1.disjoint
  rw [hrun] at hdisj
  have hpair := hdisj _ (List.mem_singleton.2 rfl)
  exact (List.pairwise_cons.1 hpair).1 _ (List.mem_singleton.2 rfl) 1 (by decide)

end Sepol
