import Sepol.EbitmapIO
import Sepol.Lib.RoundTrip

/-!
# Parts of a module file

What the writers and readers of the blocks of a base or a module are made of, at the newest module version, where the
code passes each of its tests of the version: words, names, bitmaps, counted lists, tables, and the sets of types and
of roles.  A buffer of several words is written and read word by word.
-/

namespace Sepol.ModuleFile

open RoundTrip

abbrev Word : Type := BitVec 32

/-- The text of a C string. -/
@[ext]
structure Name where
  bytes : List Byte
  zero_notMem : 0 ∉ bytes
deriving DecidableEq

/-- A bitmap as the functions of `ebitmap.c` leave it. -/
abbrev Bitmap : Type := {e : Ebitmap // e.Canonical}

def bitmapInit : Bitmap := ⟨ebitmapInit, .init⟩

/-! ### Words and bitmaps -/

def wordWrite (n : Word) : Put Byte := some (cpuToLe32 n.toNat)

def wordRead : Reader Byte Word := fun fp => (nextEntry fp 4).map fun r => (BitVec.ofNat 32 (le32ToCpu r.1 0), r.2)

/-- A `uint8_t` of its own. -/
def byteWrite (b : Byte) : Put Byte := some [b]

def byteRead : Reader Byte Byte
  | [] => none
  | b :: fp => some (b, fp)

def bitmapWrite (e : Bitmap) : Put Byte := some (ebitmapWrite e.1)

def bitmapRead : Reader Byte Bitmap := fun fp =>
  match h : ebitmapRead fp with
  | none => none
  | some (e, rest) => some (⟨e, (ebitmapRead_spec h).1⟩, rest)

theorem word_survivesIff (n : Word) : SurvivesIff True (wordWrite n) wordRead fun x => x = n := by
  refine .of_reads rfl fun rest => ?_
  have hentry : nextEntry (cpuToLe32 n.toNat ++ rest) 4 = some (cpuToLe32 n.toNat, rest) :=
    nextEntry_eq_some.2 ⟨rfl, length_cpuToLe32 _⟩
  have hword : le32ToCpu (cpuToLe32 n.toNat) 0 = n.toNat := by
    rw [← List.append_nil (cpuToLe32 n.toNat), le32ToCpu_zero (length_cpuToLe32 _), ofBytes_cpuToLe32 n.isLt]
  rw [wordRead, hentry, Option.map_some, hword, BitVec.ofNat_toNat, BitVec.setWidth_eq]

theorem byte_survivesIff (b : Byte) : SurvivesIff True (byteWrite b) byteRead fun x => x = b :=
  .of_reads rfl fun _ => rfl

theorem bitmap_survivesIff (e : Bitmap) : SurvivesIff True (bitmapWrite e) bitmapRead fun x => x = e := by
  refine .of_reads rfl fun rest => ?_
  have hread := ebitmapRead_ebitmapWrite e.2 rest
  rw [bitmapRead]
  split
  · rename_i hnone
    rw [hread] at hnone
    cases hnone
  · rename_i e' rest' hsome
    rw [hread] at hsome
    obtain ⟨rfl, rfl⟩ := Prod.mk.inj (Option.some.inj hsome)
    rfl

/-! ### Names -/

/-- The text up to the first zero byte. -/
def Name.ofBytes (buf : List Byte) : Name :=
  ⟨buf.takeWhile fun b => decide (b ≠ 0), fun h => by simpa using List.mem_takeWhile_imp h⟩

/-- The number of elements of a list or the length of a name, in a `uint32_t`. -/
def count (n : Nat) : Word := BitVec.ofNat 32 n

/-- The number that `is_saturated` looks for. -/
abbrev saturated : Word := BitVec.allOnes 32

/-- `put_entry` of a name, with its length or with its length in a `uint32_t`. -/
def nameWrite (name : Name) (len : Nat) : Put Byte := some (name.bytes.take len)

/-- `str_read`. -/
def nameRead (len : Word) : Reader Byte Name := fun fp =>
  if len = 0 then none else (nextEntry fp len.toNat).map fun r => (Name.ofBytes r.1, r.2)

/-- The reader refuses names without text, and a length is a `uint32_t`. -/
def Name.Storable (name : Name) : Prop := name.bytes ≠ [] ∧ name.bytes.length < 2 ^ 32

private theorem Name.ofBytes_take (name : Name) (n : Nat) :
    (Name.ofBytes (name.bytes.take n)).bytes = name.bytes.take n := by
  refine List.takeWhile_eq_self_iff.2 fun b hb => decide_eq_true fun hz => ?_
  exact name.zero_notMem (hz ▸ List.mem_of_mem_take hb)

@[simp] theorem toNat_count (n : Nat) : (count n).toNat = n % 2 ^ 32 := BitVec.toNat_ofNat ..

theorem toNat_count_le (n : Nat) : (count n).toNat ≤ n := by
  rw [toNat_count]
  exact Nat.mod_le ..

theorem toNat_count_eq_iff {n : Nat} : (count n).toNat = n ↔ n < 2 ^ 32 := by
  rw [toNat_count]
  constructor
  · intro h
    rw [← h]
    exact Nat.mod_lt _ (by decide)
  · exact Nat.mod_eq_of_lt

theorem name_survivesIff (name : Name) {len : Nat} (hlen : (count name.bytes.length).toNat ≤ len) :
    SurvivesIff name.Storable (nameWrite name len) (nameRead (count name.bytes.length)) fun x => x = name := by
  have hle := toNat_count_le name.bytes.length
  have hread : ∀ rest, count name.bytes.length ≠ 0 →
      nameRead (count name.bytes.length) (name.bytes.take len ++ rest) =
        some (Name.ofBytes (name.bytes.take (count name.bytes.length).toNat),
          (name.bytes.take len ++ rest).drop (count name.bytes.length).toNat) := by
    intro rest hne
    have htake : (name.bytes.take len ++ rest).take (count name.bytes.length).toNat =
        name.bytes.take (count name.bytes.length).toNat := by
      rw [List.take_append_of_le_length (by rw [List.length_take]; omega), List.take_take, min_eq_left hlen]
    rw [nameRead, if_neg hne, nextEntry, if_neg (by rw [List.length_append, List.length_take]; omega), htake]
    rfl
  constructor
  · rintro ⟨hne, hlt⟩
    have hfull := toNat_count_eq_iff.2 hlt
    have hzero : count name.bytes.length ≠ 0 := by
      intro hzero
      rw [hzero] at hfull
      exact hne (List.eq_nil_of_length_eq_zero hfull.symm)
    refine ⟨name.bytes.take len, rfl, fun rest => ⟨_, rfl, ?_⟩⟩
    rw [hread rest hzero, hfull, List.take_of_length_le (by omega : name.bytes.length ≤ len), List.drop_left,
      List.take_length]
    have hname : Name.ofBytes name.bytes = name := by
      have := Name.ofBytes_take name name.bytes.length
      rw [List.take_length] at this
      exact Name.ext_iff.2 this
    rw [hname]
  · intro hc out hout rest x rest' hrun hx
    obtain rfl := Option.some.inj hout
    by_cases hzero : count name.bytes.length = 0
    · rw [nameRead, if_pos hzero] at hrun
      cases hrun
    · rw [hread rest hzero] at hrun
      obtain ⟨rfl, _⟩ := Prod.mk.inj (Option.some.inj hrun)
      have hbytes := congrArg (fun x : Name => x.bytes.length) hx
      simp only [Name.ofBytes_take, List.length_take] at hbytes
      have hfull : (count name.bytes.length).toNat = name.bytes.length := by omega
      refine hc ⟨fun hnil => hzero ?_, toNat_count_eq_iff.1 hfull⟩
      rw [hnil]
      rfl

/-! ### Counted lists -/

/-- The writers of lists: the number of elements and the elements. -/
def listWrite {α : Type} (w : α → Put Byte) (as : List α) : Put Byte :=
  putAll [wordWrite (count as.length), putAll (as.map w)]

/-- The readers of lists. -/
def listRead {α : Type} (r : Reader Byte α) : Reader Byte (List α) := do
  let len ← wordRead
  readMany r len.toNat

theorem list_survivesIff {α β : Type} {c : α → Prop} {w : α → Put Byte} {r : Reader Byte β} {same : α → β → Prop}
    {as : List α} (h : ∀ a ∈ as, SurvivesIff (c a) (w a) r (same a)) :
    SurvivesIff (as.length < 2 ^ 32 ∧ ∀ a ∈ as, c a) (listWrite w as) (listRead r) (List.Forall₂ same as) := by
  refine .exact (word_survivesIff _) ?_
  rw [putAll_singleton]
  exact (SurvivesIff.counted h).congr (and_congr_left' toNat_count_eq_iff)

theorem counted_survivesIff_eq {α : Type} {c : α → Prop} {w : α → Put Byte} {r : Reader Byte α} {as : List α}
    (h : ∀ a, SurvivesIff (c a) (w a) r fun x => x = a) :
    SurvivesIff (as.length < 2 ^ 32 ∧ ∀ a ∈ as, c a) (putAll (as.map w)) (readMany r (count as.length).toNat)
      fun xs => xs = as :=
  ((SurvivesIff.counted fun a _ => h a).congr (and_congr_left' toNat_count_eq_iff)).imp fun _ => forall₂_eq_iff

theorem list_survivesIff_eq {α : Type} {c : α → Prop} {w : α → Put Byte} {r : Reader Byte α} {as : List α}
    (h : ∀ a, SurvivesIff (c a) (w a) r fun x => x = a) :
    SurvivesIff (as.length < 2 ^ 32 ∧ ∀ a ∈ as, c a) (listWrite w as) (listRead r) fun xs => xs = as :=
  (list_survivesIff fun a _ => h a).imp fun _ => forall₂_eq_iff

theorem list_survivesIff_exact {α : Type} {w : α → Put Byte} {r : Reader Byte α} {as : List α}
    (h : ∀ a, SurvivesIff True (w a) r fun x => x = a) :
    SurvivesIff (as.length < 2 ^ 32) (listWrite w as) (listRead r) fun xs => xs = as :=
  (list_survivesIff_eq h).congr (and_iff_left fun _ _ => trivial)

/-! ### Tables -/

/-- A symbol table: its entries in the order in which `hashtab_map` visits them. -/
@[ext]
structure Table (α : Type) where
  entries : List (Name × α)
  nodup : (entries.map Prod.fst).Nodup

/-- `symtab_t`. -/
@[ext]
structure Symtab (α : Type) where
  table : Table α
  nprim : Word

/-- What two tables have in common when their data agree in the sense of `same`. -/
def Table.Same {α : Type} (same : α → α → Prop) (t t' : Table α) : Prop :=
  List.Forall₂ (fun e e' => e'.1 = e.1 ∧ same e.2 e'.2) t.entries t'.entries

/-- The entries of a file are put into a table one after the other; `hashtab_insert` refuses a name that is there. -/
def tableOf {α : Type} (entries : List (Name × α)) : Reader Byte (Table α) :=
  if h : (entries.map Prod.fst).Nodup then pure ⟨entries, h⟩ else failure

/-- Reading the entries of a table, each of which may be left out. -/
def tableRead {α : Type} (r : Reader Byte (Option (Name × α))) (nel : Nat) : Reader Byte (Table α) := do
  let entries ← readMany r nel
  tableOf entries.reduceOption

private theorem Table.Same.map_fst {α : Type} {same : α → α → Prop} {t : Table α} {entries : List (Name × α)}
    (h : List.Forall₂ (fun e e' => e'.1 = e.1 ∧ same e.2 e'.2) t.entries entries) :
    entries.map Prod.fst = t.entries.map Prod.fst := by
  generalize t.entries = as at h
  induction h with
  | nil => rfl
  | cons hab _ ih => rw [List.map_cons, List.map_cons, ih, hab.1]

/-- The entries that were read are the given ones when none was left out. -/
private theorem forall₂_reduceOption {α β : Type} {same : α → β → Prop} {as : List α} {os : List (Option β)}
    (hlen : os.length = as.length) :
    List.Forall₂ same as os.reduceOption ↔ List.Forall₂ (fun a o => ∃ b, o = some b ∧ same a b) as os := by
  induction as generalizing os with
  | nil =>
    obtain rfl := List.eq_nil_of_length_eq_zero hlen
    simp only [List.reduceOption_nil, List.forall₂_nil_right_iff]
  | cons a as ih =>
    cases os with
    | nil => simp only [List.length_nil, List.length_cons, Nat.right_eq_add, Nat.add_eq_zero_iff, one_ne_zero,
        and_false] at hlen
    | cons o os =>
      have hlen' : os.length = as.length := by simpa only [List.length_cons, Nat.add_right_cancel_iff] using hlen
      cases o with
      | none =>
        have hle := List.reduceOption_length_le os
        rw [List.reduceOption_cons_of_none, List.forall₂_cons]
        constructor
        · intro h
          have heq := h.length_eq
          rw [List.length_cons] at heq
          omega
        · rintro ⟨⟨b, hb, _⟩, _⟩
          cases hb
      | some b =>
        rw [List.reduceOption_cons_of_some, List.forall₂_cons, List.forall₂_cons, ih hlen']
        simp only [Option.some_inj, exists_eq_left']

private theorem table_survivesIff {α : Type} {c : Name × α → Prop} {w : Name × α → Put Byte}
    {r : Reader Byte (Option (Name × α))} {same : α → α → Prop} {t : Table α}
    (h : ∀ e ∈ t.entries, SurvivesIff (c e) (w e) r fun o => ∃ e', o = some e' ∧ e'.1 = e.1 ∧ same e.2 e'.2) :
    SurvivesIff (t.entries.length < 2 ^ 32 ∧ ∀ e ∈ t.entries, c e) (putAll (t.entries.map w))
      (tableRead r (count t.entries.length).toNat) (t.Same same) := by
  have hle := toNat_count_le t.entries.length
  rw [← toNat_count_eq_iff]
  generalize (count t.entries.length).toNat = nel at hle ⊢
  by_cases hnel : nel = t.entries.length
  · rw [← putAll_singleton (putAll (t.entries.map w))]
    refine (SurvivesIff.cons_of_ends (SurvivesIff.counted h) (fun os hos => ?_) ends_readMany_length
      fun os hlen => ?_).congr (and_true _).to_iff
    · have hall := (forall₂_reduceOption hos.length_eq.symm).2 hos
      have hnodup : (os.reduceOption.map Prod.fst).Nodup := Table.Same.map_fst hall ▸ t.nodup
      rw [tableOf, dif_pos hnodup]
      exact .done hall
    · rw [tableOf]
      split
      · exact .pure (forall₂_reduceOption (hlen.trans hnel)).1
      · exact .failed
  · refine ⟨fun hc => absurd hc.1 hnel, fun _ out _ rest t' rest' hrun hsame => ?_⟩
    -- too few entries were read
    obtain ⟨os, mid, hread, htable⟩ := bind_eq_some.1 hrun
    have hlen := ends_readMany_length _ _ _ hread
    have hshort := List.reduceOption_length_le os
    rw [tableOf] at htable
    split at htable
    · obtain ⟨rfl, _⟩ := pure_eq_some.1 htable
      have heq := hsame.length_eq
      simp only at heq
      omega
    · cases htable

/-- The tables of a declaration: the number of values, which may not be the greatest one, and the entries. -/
def symtabWrite {α : Type} (w : Name × α → Put Byte) (symtab : Symtab α) : Put Byte :=
  putAll [wordWrite symtab.nprim, wordWrite (count symtab.table.entries.length), putAll (symtab.table.entries.map w)]

def symtabRead {α : Type} (r : Reader Byte (Option (Name × α))) : Reader Byte (Symtab α) := do
  let nprim ← wordRead
  let nel ← wordRead
  guard (nprim ≠ saturated)
  let table ← tableRead r nel.toNat
  return ⟨table, nprim⟩

def Symtab.Same {α : Type} (same : α → α → Prop) (symtab symtab' : Symtab α) : Prop :=
  symtab'.nprim = symtab.nprim ∧ symtab.table.Same same symtab'.table

/-- What it takes for a table to survive when its entries have `c`. -/
structure Symtab.Storable {α : Type} (c : Name × α → Prop) (symtab : Symtab α) : Prop where
  nprim : symtab.nprim ≠ saturated
  length : symtab.table.entries.length < 2 ^ 32
  entry : ∀ e ∈ symtab.table.entries, c e

theorem symtab_survivesIff {α : Type} {c : Name × α → Prop} {w : Name × α → Put Byte}
    {r : Reader Byte (Option (Name × α))} {same : α → α → Prop} (symtab : Symtab α)
    (h : ∀ e, SurvivesIff (c e) (w e) r fun o => ∃ e', o = some e' ∧ e'.1 = e.1 ∧ same e.2 e'.2) :
    SurvivesIff (symtab.Storable c) (symtabWrite w symtab) (symtabRead r) (symtab.Same same) := by
  refine .congr (.exact (word_survivesIff _) <| .exact (word_survivesIff _) <| .guarded fun _ =>
    .cons (table_survivesIff fun e _ => h e) (fun _ htable => .done ⟨rfl, htable⟩) fun _ => .pure And.right) ?_
  constructor
  · rintro ⟨hnprim, ⟨hlen, hentry⟩, _⟩
    exact ⟨hnprim, hlen, hentry⟩
  · rintro ⟨hnprim, hlen, hentry⟩
    exact ⟨hnprim, ⟨hlen, hentry⟩, trivial⟩

private theorem Table.same_eq_iff {α : Type} {t t' : Table α} : t.Same (fun d d' => d' = d) t' ↔ t' = t := by
  have hsame : ∀ e e' : Name × α, e'.1 = e.1 ∧ e'.2 = e.2 ↔ e' = e := fun e e' => Prod.ext_iff.symm
  rw [Table.ext_iff, Table.Same]
  simp only [hsame]
  exact forall₂_eq_iff

private theorem Symtab.same_eq_iff {α : Type} {symtab symtab' : Symtab α} :
    symtab.Same (fun d d' => d' = d) symtab' ↔ symtab' = symtab := by
  rw [Symtab.Same, Table.same_eq_iff, Symtab.ext_iff, and_comm]

section

variable {α : Type} {c : Name × α → Prop} {w : Name × α → Put Byte} {r : Reader Byte (Option (Name × α))}

private theorem entry_survivesIff (h : ∀ e, SurvivesIff (c e) (w e) r fun o => o = some e) (e : Name × α) :
    SurvivesIff (c e) (w e) r fun o => ∃ e', o = some e' ∧ e'.1 = e.1 ∧ e'.2 = e.2 := by
  refine (h e).imp fun o => ?_
  constructor
  · rintro rfl
    exact ⟨e, rfl, rfl, rfl⟩
  · rintro ⟨e', rfl, hname, hdatum⟩
    rw [Prod.ext hname hdatum]

theorem table_survivesIff_eq {t : Table α} (h : ∀ e, SurvivesIff (c e) (w e) r fun o => o = some e) :
    SurvivesIff (t.entries.length < 2 ^ 32 ∧ ∀ e ∈ t.entries, c e) (putAll (t.entries.map w))
      (tableRead r (count t.entries.length).toNat) fun t' => t' = t := by
  have hsame : SurvivesIff _ _ _ (t.Same fun d d' => d' = d) := table_survivesIff fun e _ => entry_survivesIff h e
  exact hsame.imp fun _ => Table.same_eq_iff

theorem symtab_survivesIff_eq (symtab : Symtab α) (h : ∀ e, SurvivesIff (c e) (w e) r fun o => o = some e) :
    SurvivesIff (symtab.Storable c) (symtabWrite w symtab) (symtabRead r) fun x => x = symtab := by
  have hsame : SurvivesIff _ _ _ (symtab.Same fun d d' => d' = d) := symtab_survivesIff symtab (entry_survivesIff h)
  exact hsame.imp fun _ => Symtab.same_eq_iff

end

/-! ### Sets of types and of roles -/

/-- `type_set_t`. -/
structure TypeSet where
  types : Bitmap
  negset : Bitmap
  flags : Word

/-- `role_set_t`. -/
structure RoleSet where
  roles : Bitmap
  flags : Word

def typeSetInit : TypeSet := ⟨bitmapInit, bitmapInit, 0⟩

def typeSetWrite (x : TypeSet) : Put Byte := putAll [bitmapWrite x.types, bitmapWrite x.negset, wordWrite x.flags]

def typeSetRead : Reader Byte TypeSet := do
  let types ← bitmapRead
  let negset ← bitmapRead
  let flags ← wordRead
  return ⟨types, negset, flags⟩

def roleSetWrite (x : RoleSet) : Put Byte := putAll [bitmapWrite x.roles, wordWrite x.flags]

def roleSetRead : Reader Byte RoleSet := do
  let roles ← bitmapRead
  let flags ← wordRead
  return ⟨roles, flags⟩

theorem typeSet_survivesIff (x : TypeSet) : SurvivesIff True (typeSetWrite x) typeSetRead fun y => y = x :=
  .exact (bitmap_survivesIff _) <| .exact (bitmap_survivesIff _) <| .exact (word_survivesIff _) <| .done rfl

theorem roleSet_survivesIff (x : RoleSet) : SurvivesIff True (roleSetWrite x) roleSetRead fun y => y = x :=
  .exact (bitmap_survivesIff _) <| .exact (word_survivesIff _) <| .done rfl

end Sepol.ModuleFile
