import Sepol.Genfs
import Sepol.SidReuse

/-!
# The longest matching path

The reader refuses two contexts for the same path and class and keeps the longer paths in front, so the first context
that fits a path is the longest one, and the only one of its length.  Requests for SIDs fill in the SIDs of the
contexts and change nothing else of the list.
-/

namespace Sepol

variable {p : Policydb} {fp rest : List Byte} {path : CString} {sclass : Nat} {mem : Bool}

/-! ### The list of contexts -/

/-- The longer paths come first, and no two contexts are for the same path and class. -/
def HeadSorted (head : List GenfsContext) : Prop :=
  head.Pairwise fun a b => b.name.length ≤ a.name.length ∧ genfsContextDup a b = false

private theorem genfsContextDup_comm (a b : GenfsContext) : genfsContextDup a b = genfsContextDup b a := by
  rw [Bool.eq_iff_iff]
  simp only [genfsContextDup, Bool.and_eq_true, Bool.or_eq_true, decide_eq_true_eq]
  constructor
  · rintro ⟨hname, (h | h) | h⟩
    · exact ⟨hname.symm, Or.inl (Or.inr h)⟩
    · exact ⟨hname.symm, Or.inl (Or.inl h)⟩
    · exact ⟨hname.symm, Or.inr h.symm⟩
  · rintro ⟨hname, (h | h) | h⟩
    · exact ⟨hname.symm, Or.inl (Or.inr h)⟩
    · exact ⟨hname.symm, Or.inl (Or.inl h)⟩
    · exact ⟨hname.symm, Or.inr h.symm⟩

private theorem genfsContextDup_of_lt {a b : GenfsContext} (h : b.name.length < a.name.length) :
    genfsContextDup a b = false := by
  have hne : a.name ≠ b.name := by
    intro heq
    rw [heq] at h
    omega
  simp [genfsContextDup, hne]

/-- The place of a new context keeps the order. -/
private theorem genfsContextInsert_sorted {newc : GenfsContext} {head head' : List GenfsContext}
    (hhead : HeadSorted head)
    (h : genfsContextInsert newc head = some head') : HeadSorted head' ∧ head'.Perm (newc :: head) := by
  induction head generalizing head' with
  | nil =>
    obtain rfl := Option.some.inj h
    exact ⟨List.pairwise_singleton .., List.Perm.refl _⟩
  | cons c rest ih =>
    unfold HeadSorted at hhead
    rw [List.pairwise_cons] at hhead
    rw [genfsContextInsert] at h
    split at h
    · cases h
    · rename_i hdup
      have hdup : genfsContextDup newc c = false := by simpa using hdup
      split at h
      · rename_i hlen
        obtain rfl := Option.some.inj h
        refine ⟨List.pairwise_cons.2 ⟨?_, List.pairwise_cons.2 hhead⟩, List.Perm.refl _⟩
        intro b hb
        -- what follows `c` is as short as `c` at most
        have hle : b.name.length ≤ c.name.length := by
          rcases List.mem_cons.1 hb with rfl | hb
          · exact le_refl _
          · exact (hhead.1 b hb).1
        exact ⟨by omega, genfsContextDup_of_lt (by omega)⟩
      · rename_i hlen
        obtain ⟨rest', hrest, rfl⟩ := Option.map_eq_some_iff.1 h
        obtain ⟨hsorted, hperm⟩ := ih hhead.2 hrest
        refine ⟨List.pairwise_cons.2 ⟨?_, hsorted⟩, (hperm.cons c).trans (List.Perm.swap newc c rest)⟩
        intro b hb
        rcases List.mem_cons.1 (hperm.subset hb) with rfl | hb
        · exact ⟨by omega, by rw [genfsContextDup_comm]; exact hdup⟩
        · exact hhead.1 b hb

private theorem genfsContextDup_of_fits {a b : GenfsContext} (ha : genfsContextFits path sclass a = true)
    (hb : genfsContextFits path sclass b = true) (hlen : a.name.length = b.name.length) :
    genfsContextDup a b = true := by
  simp only [genfsContextFits, Bool.and_eq_true, Bool.or_eq_true, decide_eq_true_eq, List.isPrefixOf_iff_prefix]
    at ha hb
  have hname : a.name = b.name := (List.prefix_of_prefix_length_le ha.2 hb.2 hlen.le).eq_of_length hlen
  simp only [genfsContextDup, Bool.and_eq_true, Bool.or_eq_true, decide_eq_true_eq]
  refine ⟨hname, ?_⟩
  rcases ha.1 with ha | ha
  · exact Or.inl (Or.inr ha)
  · rcases hb.1 with hb | hb
    · exact Or.inl (Or.inl hb)
    · exact Or.inr (ha.symm.trans hb)

private theorem HeadSorted.first_longest {pre post : List GenfsContext} {c e : GenfsContext}
    (h : HeadSorted (pre ++ c :: post)) (hpre : ∀ b ∈ pre, genfsContextFits path sclass b = false)
    (hc : genfsContextFits path sclass c = true) (he : e ∈ pre ++ c :: post)
    (hfits : genfsContextFits path sclass e = true) : e = c ∨ e.name.length < c.name.length := by
  rcases List.mem_append.1 he with he | he
  · rw [hpre e he] at hfits
    cases hfits
  · rcases List.mem_cons.1 he with rfl | he
    · exact Or.inl rfl
    · obtain ⟨hle, hdup⟩ := (List.pairwise_cons.1 (List.pairwise_append.1 h).2.1).1 e he
      refine Or.inr (lt_of_le_of_ne hle fun hlen => ?_)
      rw [genfsContextDup_of_fits hc hfits hlen.symm] at hdup
      cases hdup

/-! ### The list of file systems -/

/-- The file systems are in the order of their names, and the contexts of each in theirs. -/
structure GenfsSorted (genfs : List Genfs) : Prop where
  fstypes : SortedChain.Sorted Genfs.fstype genfs
  heads : ∀ g ∈ genfs, HeadSorted g.head

private theorem genfsInsert_sorted {newgenfs : Genfs} {genfs genfs' : List Genfs}
    (hgenfs : SortedChain.Sorted Genfs.fstype genfs) (h : genfsInsert newgenfs genfs = some genfs') :
    SortedChain.Sorted Genfs.fstype genfs' ∧ genfs'.Perm (newgenfs :: genfs) := by
  induction genfs generalizing genfs' with
  | nil =>
    obtain rfl := Option.some.inj h
    exact ⟨List.pairwise_singleton .., List.Perm.refl _⟩
  | cons g rest ih =>
    have hsorted := hgenfs
    unfold SortedChain.Sorted at hgenfs
    rw [List.pairwise_cons] at hgenfs
    rw [genfsInsert] at h
    split at h
    · cases h
    · rename_i hne
      split at h
      · rename_i hlt
        obtain rfl := Option.some.inj h
        refine ⟨List.pairwise_cons.2 ⟨?_, hsorted⟩, List.Perm.refl _⟩
        intro b hb
        rcases List.mem_cons.1 hb with rfl | hb
        · exact hlt
        · exact hlt.trans (hgenfs.1 b hb)
      · rename_i hge
        obtain ⟨rest', hrest, rfl⟩ := Option.map_eq_some_iff.1 h
        obtain ⟨hsorted', hperm⟩ := ih hgenfs.2 hrest
        refine ⟨List.pairwise_cons.2 ⟨?_, hsorted'⟩, (hperm.cons g).trans (List.Perm.swap newgenfs g rest)⟩
        intro b hb
        rcases List.mem_cons.1 (hperm.subset hb) with rfl | hb
        · exact lt_of_le_of_ne (not_lt.1 hge) (Ne.symm hne)
        · exact hgenfs.1 b hb

/-! ### The entries of an image -/

/-- The contexts of a file system in the order of the image. -/
def genfsImageContexts (p : Policydb) : Nat → List Byte → Option (List GenfsContext × List Byte)
  | 0, fp => some ([], fp)
  | nel2 + 1, fp => do
    let (c, fp) ← genfsContextRead p fp
    let (rest, fp) ← genfsImageContexts p nel2 fp
    return (c :: rest, fp)

def genfsImageFrom (p : Policydb) : Nat → List Byte → Option (List Genfs × List Byte)
  | 0, fp => some ([], fp)
  | nel + 1, fp => do
    let (buf, fp) ← nextEntry fp 4
    let (fstype, fp) ← strRead fp (le32ToCpu buf 0)
    let (buf, fp) ← nextEntry fp 4
    let (head, fp) ← genfsImageContexts p (le32ToCpu buf 0) fp
    let (rest, fp) ← genfsImageFrom p nel fp
    return (⟨fstype, head⟩ :: rest, fp)

/-- The file systems and contexts of an image as they are written there. -/
def genfsImage (p : Policydb) (fp : List Byte) : Option (List Genfs × List Byte) := do
  let (buf, fp) ← nextEntry fp 4
  genfsImageFrom p (le32ToCpu buf 0) fp

/-- The context `e` belongs to the file system `fstype`. -/
def GenfsHolds (genfs : List Genfs) (fstype : CString) (e : GenfsContext) : Prop :=
  ∃ g ∈ genfs, g.fstype = fstype ∧ e ∈ g.head

private theorem genfsContextsRead_image {nel2 : Nat} {head head' : List GenfsContext} (hhead : HeadSorted head)
    (h : genfsContextsRead p nel2 head fp = some (head', rest)) :
    HeadSorted head' ∧ ∃ image, genfsImageContexts p nel2 fp = some (image, rest) ∧
      ∀ e, e ∈ head' ↔ e ∈ head ∨ e ∈ image := by
  induction nel2 generalizing head fp with
  | zero =>
    cases h
    exact ⟨hhead, [], rfl, fun e => by simp⟩
  | succ nel2 ih =>
    rw [genfsContextsRead] at h
    obtain ⟨⟨newc, fp'⟩, hnew, h⟩ := Option.bind_eq_some_iff.1 h
    obtain ⟨next, hinsert, h⟩ := Option.bind_eq_some_iff.1 h
    obtain ⟨hnext, hperm⟩ := genfsContextInsert_sorted hhead hinsert
    obtain ⟨hsorted, image, himage, hmem⟩ := ih hnext h
    refine ⟨hsorted, newc :: image, ?_, fun e => ?_⟩
    · rw [genfsImageContexts, hnew]
      simp only [Option.bind_eq_bind, Option.bind_some, himage]
      rfl
    · rw [hmem, hperm.mem_iff, List.mem_cons, List.mem_cons]
      tauto

/-- A policy has the file systems and contexts of its image, in the order for the lookup. -/
private theorem genfsReadFrom_image {nel : Nat} {genfs genfs' : List Genfs} (hgenfs : GenfsSorted genfs)
    (h : genfsReadFrom p nel genfs fp = some (genfs', rest)) :
    GenfsSorted genfs' ∧ ∃ image, genfsImageFrom p nel fp = some (image, rest) ∧
      ∀ fstype e, GenfsHolds genfs' fstype e ↔ GenfsHolds genfs fstype e ∨ GenfsHolds image fstype e := by
  induction nel generalizing genfs fp with
  | zero =>
    cases h
    exact ⟨hgenfs, [], rfl, fun fstype e => by simp [GenfsHolds]⟩
  | succ nel ih =>
    rw [genfsReadFrom] at h
    obtain ⟨⟨len, fp1⟩, hlen, h⟩ := Option.bind_eq_some_iff.1 h
    obtain ⟨⟨fstype, fp2⟩, hfstype, h⟩ := Option.bind_eq_some_iff.1 h
    obtain ⟨⟨nel2, fp3⟩, hnel2, h⟩ := Option.bind_eq_some_iff.1 h
    obtain ⟨⟨head, fp4⟩, hhead, h⟩ := Option.bind_eq_some_iff.1 h
    obtain ⟨next, hinsert, h⟩ := Option.bind_eq_some_iff.1 h
    obtain ⟨hheadSorted, contexts, hcontexts, hmem⟩ := genfsContextsRead_image List.Pairwise.nil hhead
    obtain ⟨hfstypes, hperm⟩ := genfsInsert_sorted hgenfs.fstypes hinsert
    have hnext : GenfsSorted next := by
      refine ⟨hfstypes, fun g hg => ?_⟩
      rcases List.mem_cons.1 (hperm.subset hg) with rfl | hg
      · exact hheadSorted
      · exact hgenfs.heads g hg
    obtain ⟨hsorted, image, himage, hholds⟩ := ih hnext h
    refine ⟨hsorted, ⟨fstype, contexts⟩ :: image, ?_, fun fs e => ?_⟩
    · rw [genfsImageFrom]
      simp only [hlen, hfstype, hnel2, hcontexts, himage, Option.bind_eq_bind, Option.bind_some]
      rfl
    · have hnew : GenfsHolds next fs e ↔ GenfsHolds genfs fs e ∨ fstype = fs ∧ e ∈ contexts := by
        unfold GenfsHolds
        simp only [hperm.mem_iff, List.mem_cons, exists_eq_or_imp, hmem, List.not_mem_nil, false_or]
        exact or_comm
      have hold : GenfsHolds (⟨fstype, contexts⟩ :: image) fs e ↔
          (fstype = fs ∧ e ∈ contexts) ∨ GenfsHolds image fs e := by
        unfold GenfsHolds
        simp only [List.mem_cons, exists_eq_or_imp]
      rw [hholds, hnew, hold, or_assoc]

private theorem genfsRead_image {genfs : List Genfs} (h : genfsRead p fp = some (genfs, rest)) :
    GenfsSorted genfs ∧ ∃ image, genfsImage p fp = some (image, rest) ∧
      ∀ fstype e, GenfsHolds genfs fstype e ↔ GenfsHolds image fstype e := by
  obtain ⟨⟨nel, fp'⟩, hnel, h⟩ := Option.bind_eq_some_iff.1 h
  have hnil : GenfsSorted [] := ⟨List.Pairwise.nil, fun g hg => absurd hg List.not_mem_nil⟩
  obtain ⟨hsorted, image, himage, hholds⟩ := genfsReadFrom_image hnil h
  refine ⟨hsorted, image, ?_, fun fstype e => ?_⟩
  · rw [genfsImage, hnel]
    exact himage
  · rw [hholds]
    simp [GenfsHolds]

/-! ### The walks of the lookup -/

variable {s : Sidtab}

private theorem genfsHeadSid_cases (s : Sidtab) (path : CString) (sclass : Nat) (mem : Bool)
    (head : List GenfsContext) :
    ((∀ c ∈ head, genfsContextFits path sclass c = false) ∧
      genfsHeadSid s path sclass mem head = (.error .enoent, head, s)) ∨
    ∃ pre c post, head = pre ++ c :: post ∧ (∀ b ∈ pre, genfsContextFits path sclass b = false) ∧
      genfsContextFits path sclass c = true ∧ genfsHeadSid s path sclass mem head =
        ((genfsContextSid s c mem).1, pre ++ (genfsContextSid s c mem).2.1 :: post,
          (genfsContextSid s c mem).2.2) := by
  induction head with
  | nil => exact Or.inl ⟨fun c hc => absurd hc List.not_mem_nil, rfl⟩
  | cons c rest ih =>
    rw [genfsHeadSid]
    by_cases hfits : genfsContextFits path sclass c = true
    · rw [if_pos hfits]
      exact Or.inr ⟨[], c, rest, rfl, fun b hb => absurd hb List.not_mem_nil, hfits, rfl⟩
    · rw [if_neg hfits]
      have hno : genfsContextFits path sclass c = false := by simpa using hfits
      rcases ih with ⟨hnone, heq⟩ | ⟨pre, d, post, rfl, hpre, hd, heq⟩
      · refine Or.inl ⟨fun b hb => ?_, by rw [heq]⟩
        rcases List.mem_cons.1 hb with rfl | hb
        · exact hno
        · exact hnone b hb
      · refine Or.inr ⟨c :: pre, d, post, rfl, fun b hb => ?_, hd, by rw [heq]; rfl⟩
        rcases List.mem_cons.1 hb with rfl | hb
        · exact hno
        · exact hpre b hb

private theorem genfsListSid_cases (s : Sidtab) (fstype path : CString) (sclass : Nat) (mem : Bool)
    {genfs : List Genfs} (hgenfs : SortedChain.Sorted Genfs.fstype genfs) :
    ((∀ g ∈ genfs, g.fstype ≠ fstype) ∧ genfsListSid s fstype path sclass mem genfs = (.error .enoent, genfs, s)) ∨
    ∃ pre g post, genfs = pre ++ g :: post ∧ g.fstype = fstype ∧ genfsListSid s fstype path sclass mem genfs =
      ((genfsHeadSid s path sclass mem g.head).1,
        pre ++ { g with head := (genfsHeadSid s path sclass mem g.head).2.1 } :: post,
        (genfsHeadSid s path sclass mem g.head).2.2) := by
  induction genfs with
  | nil => exact Or.inl ⟨fun g hg => absurd hg List.not_mem_nil, rfl⟩
  | cons g rest ih =>
    unfold SortedChain.Sorted at hgenfs
    rw [List.pairwise_cons] at hgenfs
    rw [genfsListSid]
    by_cases hlt : fstype < g.fstype
    · rw [if_pos hlt]
      refine Or.inl ⟨fun b hb => ?_, rfl⟩
      rcases List.mem_cons.1 hb with rfl | hb
      · exact hlt.ne'
      · exact (hlt.trans (hgenfs.1 b hb)).ne'
    · rw [if_neg hlt]
      by_cases heq : fstype = g.fstype
      · rw [if_pos heq]
        exact Or.inr ⟨[], g, rest, rfl, heq.symm, rfl⟩
      · rw [if_neg heq]
        rcases ih hgenfs.2 with ⟨hnone, hrun⟩ | ⟨pre, f, post, rfl, hf, hrun⟩
        · refine Or.inl ⟨fun b hb => ?_, by rw [hrun]⟩
          rcases List.mem_cons.1 hb with rfl | hb
          · exact Ne.symm heq
          · exact hnone b hb
        · exact Or.inr ⟨g :: pre, f, post, rfl, hf, by rw [hrun]; rfl⟩

/-! ### Requests -/

/-- A context without its SID, as it was read. -/
def GenfsContext.clear (c : GenfsContext) : GenfsContext := { c with sid := 0 }

def Genfs.clear (g : Genfs) : Genfs := { g with head := g.head.map GenfsContext.clear }

/-- The list is the one that was read, except for the SIDs, and these stand for the contexts. -/
structure GenfsState.Reads (genfs : List Genfs) (st : GenfsState) : Prop where
  same : st.genfs.map Genfs.clear = genfs
  cached : ∀ g ∈ st.genfs, ∀ c ∈ g.head, c.sid ≠ 0 → ⟨c.sid, c.context⟩ ∈ sidtabNodes st.sidtab
  ok : st.sidtab.Ok

/-- The result for the context `c`: a SID of the table that stands for it, or the error of the SID table. -/
def AnswersFor (s : Sidtab) (c : GenfsContext) (mem : Bool) (r : Except GenfsErrno SecurityId) (s' : Sidtab) : Prop :=
  (∃ sid, r = .ok sid ∧ ⟨sid, c.context⟩ ∈ sidtabNodes s') ∨
    ∃ e, r = .error (.sidtab e) ∧ (sidtabContextToSid s c.context mem).1 = .error e

/-- What the request for the SID of a context does. -/
private theorem genfsContextSid_spec (hs : s.Ok) {c : GenfsContext}
    (hcached : c.sid ≠ 0 → ⟨c.sid, c.context⟩ ∈ sidtabNodes s) (mem : Bool) :
    (genfsContextSid s c mem).2.2.Ok ∧ (∀ n ∈ sidtabNodes s, n ∈ sidtabNodes (genfsContextSid s c mem).2.2) ∧
      (genfsContextSid s c mem).2.1.clear = c.clear ∧
      ((genfsContextSid s c mem).2.1.sid ≠ 0 → ⟨(genfsContextSid s c mem).2.1.sid,
        (genfsContextSid s c mem).2.1.context⟩ ∈ sidtabNodes (genfsContextSid s c mem).2.2) ∧
      AnswersFor s c mem (genfsContextSid s c mem).1 (genfsContextSid s c mem).2.2 := by
  have hok := sidtabContextToSid_ok hs c.context mem
  have hkeeps : ∀ n ∈ sidtabNodes s, n ∈ sidtabNodes (sidtabContextToSid s c.context mem).2 :=
    fun _ hn => mem_sidtabCall hs (.contextToSid c.context mem) hn
  have hnode : ∀ sid, (sidtabContextToSid s c.context mem).1 = .ok sid →
      ⟨sid, c.context⟩ ∈ sidtabNodes (sidtabContextToSid s c.context mem).2 :=
    fun _ hr => exists_node_of_sidtabCall hs (.contextToSid c.context mem) hr
  unfold genfsContextSid
  by_cases hsid : c.sid ≠ 0
  · rw [if_pos hsid]
    exact ⟨hs, fun n hn => hn, rfl, hcached, Or.inl ⟨c.sid, rfl, hcached hsid⟩⟩
  · rw [if_neg hsid]
    obtain ⟨r, s', hrun⟩ : ∃ r s', sidtabContextToSid s c.context mem = (r, s') := ⟨_, _, rfl⟩
    rw [hrun] at hok hkeeps hnode ⊢
    cases r with
    | error e => exact ⟨hok, hkeeps, rfl, fun h => absurd h hsid, Or.inr ⟨e, rfl, by rw [hrun]⟩⟩
    | ok sid => exact ⟨hok, hkeeps, rfl, fun _ => hnode sid rfl, Or.inl ⟨sid, rfl, hnode sid rfl⟩⟩

private theorem headSorted_clear {head : List GenfsContext} :
    HeadSorted (head.map GenfsContext.clear) ↔ HeadSorted head := List.pairwise_map

private theorem genfsSorted_clear {genfs : List Genfs} (h : GenfsSorted (genfs.map Genfs.clear)) :
    GenfsSorted genfs := by
  refine ⟨?_, fun g hg => ?_⟩
  · have hfstypes := h.fstypes
    unfold SortedChain.Sorted at hfstypes
    rw [List.pairwise_map] at hfstypes
    exact hfstypes
  · have hclear := h.heads g.clear (List.mem_map_of_mem hg)
    exact headSorted_clear.1 hclear

private theorem genfsHolds_clear {genfs : List Genfs} {fstype : CString} {e : GenfsContext} :
    GenfsHolds (genfs.map Genfs.clear) fstype e ↔ ∃ c, c.clear = e ∧ GenfsHolds genfs fstype c := by
  constructor
  · rintro ⟨g', hg', hfstype, he⟩
    obtain ⟨g, hg, rfl⟩ := List.mem_map.1 hg'
    obtain ⟨c, hc, rfl⟩ := List.mem_map.1 he
    exact ⟨c, rfl, g, hg, hfstype, hc⟩
  · rintro ⟨c, rfl, g, hg, hfstype, hc⟩
    exact ⟨g.clear, List.mem_map_of_mem hg, hfstype, List.mem_map_of_mem hc⟩

variable {genfs : List Genfs} {st : GenfsState}

/-- A context of the file system fits, and is longer than all others that fit. -/
structure LongestFit (genfs : List Genfs) (fstype path : CString) (sclass : Nat) (e : GenfsContext) : Prop where
  holds : GenfsHolds genfs fstype e
  fits : genfsContextFits path sclass e = true
  longest : ∀ e', GenfsHolds genfs fstype e' → genfsContextFits path sclass e' = true →
    e' = e ∨ e'.name.length < e.name.length

/-- One request: the state still reads the list, and the answer is for the longest context that fits, if one does. -/
private theorem sepolGenfsSid_spec (hgenfs : GenfsSorted genfs) (h : st.Reads genfs) (fstype path : CString)
    (sclass : Nat) (mem : Bool) :
    (sepolGenfsSid st fstype path sclass mem).2.Reads genfs ∧
      (((sepolGenfsSid st fstype path sclass mem).1 = .error .enoent ∧
          ∀ e, GenfsHolds genfs fstype e → genfsContextFits path sclass e = false) ∨
        ∃ e, LongestFit genfs fstype path sclass e ∧ AnswersFor st.sidtab e mem
          (sepolGenfsSid st fstype path sclass mem).1 (sepolGenfsSid st fstype path sclass mem).2.sidtab) := by
  obtain ⟨genfs', s⟩ := st
  obtain ⟨hsame, hcached, hs⟩ := h
  dsimp only at hsame hcached hs
  subst hsame
  have hsorted := genfsSorted_clear hgenfs
  unfold sepolGenfsSid
  dsimp only
  rcases genfsListSid_cases s fstype path sclass mem hsorted.fstypes with ⟨hnone, hrun⟩ |
    ⟨pre, g, post, hsplit, hg, hrun⟩
  · rw [hrun]
    refine ⟨⟨rfl, hcached, hs⟩, Or.inl ⟨rfl, fun e he => ?_⟩⟩
    obtain ⟨c, -, g, hmem, hfstype, -⟩ := genfsHolds_clear.1 he
    exact absurd hfstype (hnone g hmem)
  · have hgmem : g ∈ genfs' := by rw [hsplit]; simp
    -- the names of file systems are distinct, so the contexts are those of `g`
    have honly : ∀ c, GenfsHolds genfs' fstype c ↔ c ∈ g.head := by
      intro c
      constructor
      · rintro ⟨f, hf, hfstype, hc⟩
        have heq : f = g := hsorted.fstypes.eq_of_key_eq hf hgmem (hfstype.trans hg.symm)
        rwa [heq] at hc
      · intro hc
        exact ⟨g, hgmem, hg, hc⟩
    rw [hrun]
    rcases genfsHeadSid_cases s path sclass mem g.head with ⟨hnone, hhead⟩ |
      ⟨hpre, c, hpost, hhsplit, hbefore, hfits, hhead⟩
    · rw [hhead]
      refine ⟨⟨?_, ?_, hs⟩, Or.inl ⟨rfl, fun e he => ?_⟩⟩
      · exact congrArg _ hsplit.symm
      · rw [← hsplit]
        exact hcached
      · obtain ⟨c, rfl, hc⟩ := genfsHolds_clear.1 he
        exact hnone c ((honly c).1 hc)
    · have hcmem : c ∈ g.head := by rw [hhsplit]; simp
      obtain ⟨hok, hkeeps, hclear, hcached', hanswer⟩ := genfsContextSid_spec hs (hcached g hgmem c hcmem) mem
      rw [hhead]
      refine ⟨⟨?_, ?_, hok⟩, Or.inr ⟨c.clear, ⟨?_, hfits, ?_⟩, hanswer⟩⟩
      · rw [hsplit]
        simp only [List.map_append, List.map_cons, Genfs.clear, hhsplit, hclear]
      · intro f hf d hd hsid
        rcases List.mem_append.1 hf with hf | hf
        · exact hkeeps _ (hcached f (by rw [hsplit]; exact List.mem_append_left _ hf) d hd hsid)
        · rcases List.mem_cons.1 hf with rfl | hf
          · rcases List.mem_append.1 hd with hd | hd
            · exact hkeeps _ (hcached g hgmem d (by rw [hhsplit]; exact List.mem_append_left _ hd) hsid)
            · rcases List.mem_cons.1 hd with rfl | hd
              · exact hcached' hsid
              · refine hkeeps _ (hcached g hgmem d ?_ hsid)
                rw [hhsplit]
                exact List.mem_append_right _ (List.mem_cons_of_mem _ hd)
          · refine hkeeps _ (hcached f ?_ d hd hsid)
            rw [hsplit]
            exact List.mem_append_right _ (List.mem_cons_of_mem _ hf)
      · exact genfsHolds_clear.2 ⟨c, rfl, (honly c).2 hcmem⟩
      · intro e' he' hfits'
        obtain ⟨d, rfl, hd⟩ := genfsHolds_clear.1 he'
        have hd' := (honly d).1 hd
        have hheads := hsorted.heads g hgmem
        rw [hhsplit] at hheads hd'
        rcases hheads.first_longest hbefore hfits hd' hfits' with rfl | hlt
        · exact Or.inl rfl
        · exact Or.inr hlt

/-! ### Runs -/

/-- A request for the SID of a path, or another call on the SID table. -/
inductive GenfsStep : GenfsState → GenfsState → Prop where
  | genfsSid (st : GenfsState) (fstype path : CString) (sclass : Nat) (mem : Bool) :
      GenfsStep st (sepolGenfsSid st fstype path sclass mem).2
  | sidtab (st : GenfsState) (call : SidtabCall) (h : call.Admissible st.sidtab) :
      GenfsStep st { st with sidtab := (sidtabCall st.sidtab call).2 }

theorem GenfsStep.reads (hgenfs : GenfsSorted genfs) {st' : GenfsState} (hstep : GenfsStep st st')
    (h : st.Reads genfs) : st'.Reads genfs := by
  cases hstep with
  | genfsSid fstype path sclass mem => exact (sepolGenfsSid_spec hgenfs h fstype path sclass mem).1
  | sidtab call hadm =>
    exact ⟨h.same, fun g hg c hc hsid => mem_sidtabCall h.ok call (h.cached g hg c hc hsid),
      sidtabCall_ok h.ok call hadm⟩

private theorem genfsSteps_reads (hgenfs : GenfsSorted genfs) {st' : GenfsState}
    (hrun : Relation.ReflTransGen GenfsStep st st') (h : st.Reads genfs) : st'.Reads genfs := by
  induction hrun with
  | refl => exact h
  | tail _ hstep ih => exact hstep.reads hgenfs ih

/-- The contexts of an image have no SIDs. -/
private theorem genfsImageContexts_sid {nel2 : Nat} {image : List GenfsContext}
    (h : genfsImageContexts p nel2 fp = some (image, rest)) : ∀ e ∈ image, e.sid = 0 := by
  induction nel2 generalizing fp image with
  | zero =>
    cases h
    exact fun e he => absurd he List.not_mem_nil
  | succ nel2 ih =>
    rw [genfsImageContexts] at h
    obtain ⟨⟨c, fp'⟩, hc, h⟩ := Option.bind_eq_some_iff.1 h
    obtain ⟨⟨image', rest'⟩, himage, h⟩ := Option.bind_eq_some_iff.1 h
    cases h
    intro e he
    rcases List.mem_cons.1 he with rfl | he
    · unfold genfsContextRead at hc
      obtain ⟨_, _, hc⟩ := Option.bind_eq_some_iff.1 hc
      obtain ⟨_, _, hc⟩ := Option.bind_eq_some_iff.1 hc
      obtain ⟨_, _, hc⟩ := Option.bind_eq_some_iff.1 hc
      obtain ⟨_, _, hc⟩ := Option.bind_eq_some_iff.1 hc
      cases hc
      rfl
    · exact ih himage e he

private theorem genfsImageFrom_sid {nel : Nat} {image : List Genfs}
    (h : genfsImageFrom p nel fp = some (image, rest)) : ∀ g ∈ image, ∀ e ∈ g.head, e.sid = 0 := by
  induction nel generalizing fp image with
  | zero =>
    cases h
    exact fun g hg => absurd hg List.not_mem_nil
  | succ nel ih =>
    rw [genfsImageFrom] at h
    obtain ⟨_, _, h⟩ := Option.bind_eq_some_iff.1 h
    obtain ⟨_, _, h⟩ := Option.bind_eq_some_iff.1 h
    obtain ⟨_, _, h⟩ := Option.bind_eq_some_iff.1 h
    obtain ⟨⟨head, fp'⟩, hhead, h⟩ := Option.bind_eq_some_iff.1 h
    obtain ⟨⟨image', rest'⟩, himage, h⟩ := Option.bind_eq_some_iff.1 h
    cases h
    intro g hg
    rcases List.mem_cons.1 hg with rfl | hg
    · exact genfsImageContexts_sid hhead
    · exact ih himage g hg

/-- The list as it is read has the SIDs still to be asked for. -/
private theorem genfsRead_reads (hread : genfsRead p fp = some (genfs, rest)) {s : Sidtab} (hs : s.Ok) :
    GenfsState.Reads genfs ⟨genfs, s⟩ := by
  obtain ⟨-, image, himage, hholds⟩ := genfsRead_image hread
  obtain ⟨_, _, himage⟩ := Option.bind_eq_some_iff.1 himage
  have hzero : ∀ g ∈ genfs, ∀ c ∈ g.head, c.sid = 0 := by
    intro g hg c hc
    obtain ⟨f, hf, -, hcf⟩ := (hholds g.fstype c).1 ⟨g, hg, rfl, hc⟩
    exact genfsImageFrom_sid himage f hf c hcf
  refine ⟨?_, fun g hg c hc hsid => absurd (hzero g hg c hc) hsid, hs⟩
  have hclear : ∀ g ∈ genfs, g.clear = g := by
    intro g hg
    have hcontexts : ∀ c ∈ g.head, c.clear = c := by
      intro c hc
      have hsid := hzero g hg c hc
      obtain ⟨name, sclass, context, sid⟩ := c
      dsimp only at hsid
      subst hsid
      rfl
    have hhead : g.head.map GenfsContext.clear = g.head :=
      (List.map_congr_left hcontexts).trans (List.map_id' g.head)
    unfold Genfs.clear
    rw [hhead]
  exact (List.map_congr_left hclear).trans (List.map_id' genfs)

/-- Whatever was asked before, a path gets the SID of the longest context of the image that fits it, or the error of
the SID table for that context, and `ENOENT` when no context fits. -/
theorem sepolGenfsSid_longest (hread : genfsRead p fp = some (genfs, rest)) (hs : s.Ok)
    (hrun : Relation.ReflTransGen GenfsStep ⟨genfs, s⟩ st) (fstype path : CString) (sclass : Nat) (mem : Bool) :
    ∃ image, genfsImage p fp = some (image, rest) ∧
      (((sepolGenfsSid st fstype path sclass mem).1 = .error .enoent ∧
          ∀ e, GenfsHolds image fstype e → genfsContextFits path sclass e = false) ∨
        ∃ e, LongestFit image fstype path sclass e ∧ AnswersFor st.sidtab e mem
          (sepolGenfsSid st fstype path sclass mem).1 (sepolGenfsSid st fstype path sclass mem).2.sidtab) := by
  obtain ⟨hsorted, image, himage, hholds⟩ := genfsRead_image hread
  refine ⟨image, himage, ?_⟩
  have hreads := genfsSteps_reads hsorted hrun (genfsRead_reads hread hs)
  rcases (sepolGenfsSid_spec hsorted hreads fstype path sclass mem).2 with ⟨hr, hnone⟩ | ⟨e, he, hanswer⟩
  · exact Or.inl ⟨hr, fun e he => hnone e ((hholds fstype e).2 he)⟩
  · refine Or.inr ⟨e, ⟨(hholds fstype e).1 he.holds, he.fits, fun e' he' => ?_⟩, hanswer⟩
    exact he.longest e' ((hholds fstype e').2 he')

/-- The file system `f` with the paths `/` and `/a`, in this order. -/
def genfsExampleImage : List Byte :=
  cpuToLe32 1 ++ cpuToLe32 1 ++ cstringBytes ['f'] ++ cpuToLe32 2 ++
    (cpuToLe32 1 ++ cstringBytes ['/'] ++ cpuToLe32 0 ++ cpuToLe32 1 ++ cpuToLe32 1 ++ cpuToLe32 1) ++
    (cpuToLe32 2 ++ cstringBytes ['/', 'a'] ++ cpuToLe32 0 ++ cpuToLe32 1 ++ cpuToLe32 1 ++ cpuToLe32 2)

def genfsExample : List Genfs :=
  [⟨['f'], [⟨['/', 'a'], 0, contextOfType 2, 0⟩, ⟨['/'], 0, contextOfType 1, 0⟩]⟩]

/-- A first request, for `/ab`, after the image was read. -/
theorem sepolGenfsSid_longest_two :
    ∃ image, genfsImage (policyWithTypes [['a'], ['b']]) genfsExampleImage = some (image, []) ∧
      (((sepolGenfsSid ⟨genfsExample, sidtabInit⟩ ['f'] ['/', 'a', 'b'] 7 true).1 = .error .enoent ∧
          ∀ e, GenfsHolds image ['f'] e → genfsContextFits ['/', 'a', 'b'] 7 e = false) ∨
        ∃ e, LongestFit image ['f'] ['/', 'a', 'b'] 7 e ∧ AnswersFor sidtabInit e true
          (sepolGenfsSid ⟨genfsExample, sidtabInit⟩ ['f'] ['/', 'a', 'b'] 7 true).1
          (sepolGenfsSid ⟨genfsExample, sidtabInit⟩ ['f'] ['/', 'a', 'b'] 7 true).2.sidtab) :=
  sepolGenfsSid_longest (by decide +kernel) sidtabInit_ok .refl ['f'] ['/', 'a', 'b'] 7 true

end Sepol
