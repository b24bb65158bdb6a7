import Sepol.AvtabNewTable
import Sepol.FiletransRoundtrip
import Sepol.Lib.Blocks
import Sepol.Lib.EarlyExit

/-!
# Module packages

A package is a table of offsets and the sections behind it: a policy, and texts with a magic number in front.
`sepol_module_package_write` computes the offsets from the lengths in words of 32 bits; `sepol_module_package_read`
and `sepol_module_package_info` go through the sections independently of each other.  The readers and the writer of
what follows the names of a policy are parameters.
-/

namespace Sepol

open Blocks (bounds)

abbrev sepolModulePackageMagic : Nat := 0xf97cff8f
abbrev sepolPackageSectionFc : Nat := 0xf97cff90
abbrev sepolPackageSectionSeuser : Nat := 0x97cff91
abbrev sepolPackageSectionUserExtra : Nat := 0x97cff92
abbrev sepolPackageSectionNetfilter : Nat := 0x97cff93
abbrev maxSections : Nat := 100
abbrev bufsiz : Nat := 8192

/-! ### Packages -/

/-- The sections with a text. -/
inductive PackageSection where
  | fileContexts
  | seusers
  | userExtra
  | netfilterContexts
deriving DecidableEq

/-- The order in which the sections are written. -/
def PackageSection.all : List PackageSection := [.fileContexts, .seusers, .userExtra, .netfilterContexts]

def PackageSection.magic : PackageSection → Nat
  | .fileContexts => sepolPackageSectionFc
  | .seusers => sepolPackageSectionSeuser
  | .userExtra => sepolPackageSectionUserExtra
  | .netfilterContexts => sepolPackageSectionNetfilter

/-- The sections that there are flags for. -/
inductive SectionKind where
  | mod
  | text (s : PackageSection)
deriving DecidableEq

/-- The cases for the magic number of a section. -/
def sectionKind (magic : Nat) : Option SectionKind :=
  if magic = sepolPackageSectionFc then some (.text .fileContexts)
  else if magic = sepolPackageSectionSeuser then some (.text .seusers)
  else if magic = sepolPackageSectionUserExtra then some (.text .userExtra)
  else if magic = sepolPackageSectionNetfilter then some (.text .netfilterContexts)
  else if magic = policydbModMagic then some .mod
  else none

/-- A text and its length; a buffer of that length may be set in its first bytes only. -/
structure SectionText where
  data : List Byte
  len : Nat
deriving DecidableEq

/-- A policy: its type, the name and version of a module, and all that the files of policies have besides. -/
structure PackagePolicy (τ : Type) where
  policyType : Nat
  name : Option CString
  version : Option CString
  tables : τ

/-- `sepol_module_package_t`; a policy that was not read yet is `none`. -/
structure ModulePackage (τ : Type) where
  version : BitVec 32
  policy : Option (PackagePolicy τ)
  sections : PackageSection → Option SectionText

variable {τ : Type}

/-! ### Reading -/

/-- `policy_file_seek` on a file in memory. -/
def policyFileSeek (image : List Byte) (offset : Nat) : Option (List Byte) :=
  if offset > image.length then none else some (image.drop offset)

/-- `policydb_read`: the header, the names of a module, and the rest, which the parameter reads from the whole file.
-/
def policydbReadModule (readTables : PolicydbHeader → List Byte → Option τ) (fp : List Byte) :
    Option (PackagePolicy τ) := do
  let (header, rest) ← policydbReadHeader fp
  if header.policyType = policyMod then do
    let (buf, rest) ← nextEntry rest 4
    let (name, rest) ← strRead rest (le32ToCpu buf 0)
    let (buf, rest) ← nextEntry rest 4
    let (version, _) ← strRead rest (le32ToCpu buf 0)
    let tables ← readTables header fp
    return ⟨header.policyType, some name, some version, tables⟩
  else do
    let tables ← readTables header fp
    return ⟨header.policyType, none, none, tables⟩

/-- `read_helper`: the file is read in pieces. -/
def readHelper (fp : List Byte) (bytes : Nat) : Option (List Byte) :=
  if bytes = 0 then some []
  else do
    let (front, fp) ← nextEntry fp (min bytes bufsiz)
    let back ← readHelper fp (bytes - min bytes bufsiz)
    return front ++ back
termination_by bytes

/-- `module_package_read_offsets`: the version, and the offsets with the length of the file behind them. -/
def modulePackageReadOffsets (image : List Byte) : Option (BitVec 32 × List Nat) := do
  let (buf, fp) ← nextEntry image (4 * 3)
  guard (le32ToCpu buf 0 = sepolModulePackageMagic)
  let nsec := le32ToCpu buf 2
  guard (nsec ≤ maxSections)
  let (off, _) ← nextEntry fp (4 * nsec)
  let offsets := (List.range nsec).map (le32ToCpu off) ++ [image.length]
  guard (offsets.IsChain (· ≤ ·))
  return (wordAt buf 1, offsets)

/-- The package so far, and the flags of the sections that were seen. -/
structure PackageReadState (τ : Type) where
  policy : Option (PackagePolicy τ)
  sections : PackageSection → Option SectionText
  seen : List SectionKind

/-- The loop of `sepol_module_package_read`. -/
def readPackageSection (readTables : PolicydbHeader → List Byte → Option τ) (image : List Byte)
    (st : PackageReadState τ) (sec : Nat × Nat) : Option (PackageReadState τ) := do
  let fp ← policyFileSeek image sec.1
  let len := sec.2 - sec.1
  guard (4 ≤ len)
  let (buf, fp) ← nextEntry fp 4
  match sectionKind (le32ToCpu buf 0) with
  | some (.text s) => do
    guard (.text s ∉ st.seen)
    -- the number of bytes is an argument of type `uint32_t`
    let data ← readHelper fp ((len - 4) % 2 ^ 32)
    return { st with
      sections := Function.update st.sections s (some ⟨data, len - 4⟩)
      seen := .text s :: st.seen }
  | some .mod => do
    guard (.mod ∉ st.seen)
    let fp ← policyFileSeek image sec.1
    let policy ← policydbReadModule readTables fp
    return { st with policy := some policy, seen := .mod :: st.seen }
  | none => return st

/-- `sepol_module_package_read` into a new package. -/
def sepolModulePackageRead (readTables : PolicydbHeader → List Byte → Option τ) (image : List Byte) :
    Option (ModulePackage τ) := do
  let (version, offsets) ← modulePackageReadOffsets image
  let st ← (bounds offsets).foldlM (readPackageSection readTables image) ⟨none, fun _ => none, []⟩
  guard (.mod ∈ st.seen)
  return ⟨version, st.policy, st.sections⟩

/-! ### Information -/

/-- What `sepol_module_package_info` reports. -/
structure PackageInfo where
  type : Nat
  name : Option CString
  version : Option CString
deriving DecidableEq

structure PackageInfoState where
  info : Option PackageInfo
  seen : List SectionKind

/-- The case of a policy in `sepol_module_package_info`; `buf` has the first two words of the section. -/
def readPackageInfo (buf fp : List Byte) : Option PackageInfo := do
  let len := le32ToCpu buf 1
  guard (len = policydbModString.length)
  let (_, fp) ← nextEntry fp len
  let (buf, fp) ← nextEntry fp (4 * 5)
  let type := le32ToCpu buf 0
  if type = policyBase then return ⟨type, none, none⟩
  else do
    guard (type = policyMod)
    let (buf, fp) ← nextEntry fp 4
    let (name, fp) ← strRead fp (le32ToCpu buf 0)
    let (buf, fp) ← nextEntry fp 4
    let (version, _) ← strRead fp (le32ToCpu buf 0)
    return ⟨type, some name, some version⟩

/-- The loop of `sepol_module_package_info`. -/
def infoPackageSection (image : List Byte) (st : PackageInfoState) (sec : Nat × Nat) : Option PackageInfoState := do
  let fp ← policyFileSeek image sec.1
  -- the length is a `uint32_t`
  let len := (sec.2 - sec.1) % 2 ^ 32
  guard (4 ≤ len)
  let (buf, fp) ← nextEntry fp (4 * 2)
  match sectionKind (le32ToCpu buf 0) with
  | some (.text s) => do
    guard (.text s ∉ st.seen)
    return { st with seen := .text s :: st.seen }
  | some .mod => do
    guard (.mod ∉ st.seen)
    let info ← readPackageInfo buf fp
    return ⟨some info, .mod :: st.seen⟩
  | none => return st

/-- `sepol_module_package_info`. -/
def sepolModulePackageInfo (image : List Byte) : Option PackageInfo := do
  let (_, offsets) ← modulePackageReadOffsets image
  let st ← (bounds offsets).foldlM (infoPackageSection image) ⟨none, []⟩
  guard (.mod ∈ st.seen)
  st.info

/-! ### Writing -/

/-- The package is refused, or memory outside a text is read. -/
inductive PackageError where
  | failed
  | undefined
deriving DecidableEq

/-- `write_helper`, which counts the bytes that were written with an `int`. -/
def writeHelper (data : List Byte) (idx : BitVec 32) (len : Nat) : Except PackageError (List Byte) :=
  if len = 0 then .ok []
  else if idx.msb then .error .undefined
  else do
    let len2 := min len bufsiz
    let rest ← writeHelper data (idx + BitVec.ofNat 32 len2) (len - len2)
    return (data.drop idx.toNat).take len2 ++ rest
termination_by len

/-- The offsets of the texts, from the offset and the length of the section in front of them. -/
def packageOffsets (offset len : BitVec 32) : List SectionText → List (BitVec 32)
  | [] => []
  | text :: texts => (offset + len) :: packageOffsets (offset + len) (BitVec.ofNat 32 (text.len + 4)) texts

/-- The texts of a package in the order in which they are written. -/
def presentSections (sections : PackageSection → Option SectionText) : List (PackageSection × SectionText) :=
  PackageSection.all.filterMap fun s => (sections s).map fun text => (s, text)

def writeSections : List (PackageSection × SectionText) → Except PackageError (List Byte)
  | [] => .ok []
  | (s, text) :: present => do
    let front ← writeHelper text.data 0 text.len
    let back ← writeSections present
    return cpuToLe32 s.magic ++ front ++ back

/-- `sepol_module_package_write`. -/
def sepolModulePackageWrite (policydbWrite : PackagePolicy τ → Option (List Byte)) (p : ModulePackage τ) :
    Except PackageError (List Byte) :=
  match p.policy with
  | none => .error .failed
  | some policy =>
    match policydbWrite policy with
    | none => .error .failed
    | some image =>
      if image.length = 0 then .error .failed
      else if ((p.sections .seusers).isSome ∨ (p.sections .userExtra).isSome) ∧ policy.policyType ≠ policyBase then
        .error .failed
      else do
        let present := presentSections p.sections
        let nsec := 1 + present.length
        let offset := BitVec.ofNat 32 ((nsec + 3) * 4)
        let offsets := offset :: packageOffsets offset (BitVec.ofNat 32 image.length) (present.map Prod.snd)
        let sections ← writeSections present
        return cpuToLe32 sepolModulePackageMagic ++ (cpuToLe32 p.version.toNat ++ (cpuToLe32 nsec ++
          (offsets.flatMap fun o => cpuToLe32 o.toNat) ++ (image ++ sections)))

variable {readTables : PolicydbHeader → List Byte → Option τ} {image fp buf rest : List Byte}
  {header : PolicydbHeader}

/-! ### Words of a file -/

theorem le32ToCpu_take {n i : Nat} (h : 4 * (i + 1) ≤ n) (l : List Byte) :
    le32ToCpu (l.take n) i = le32ToCpu l i := by
  rw [le32ToCpu, le32ToCpu, List.drop_take, List.take_take, min_eq_left (by omega)]

theorem nextEntry_eq_some_take {bytes : Nat} :
    nextEntry fp bytes = some (buf, rest) ↔ bytes ≤ fp.length ∧ fp.take bytes = buf ∧ fp.drop bytes = rest := by
  unfold nextEntry
  split
  · rename_i hlt
    exact iff_of_false (by simp) fun h => absurd h.1 (by omega)
  · rename_i hle
    simp only [Option.some.injEq, Prod.mk.injEq, not_lt.1 hle, true_and]

theorem nextEntry_of_le {bytes : Nat} (h : bytes ≤ fp.length) :
    nextEntry fp bytes = some (fp.take bytes, fp.drop bytes) :=
  nextEntry_eq_some_take.2 ⟨h, rfl, rfl⟩

theorem policyFileSeek_eq_some {offset : Nat} :
    policyFileSeek image offset = some fp ↔ offset ≤ image.length ∧ image.drop offset = fp := by
  unfold policyFileSeek
  split
  · rename_i hlt
    exact iff_of_false (by simp) fun h => absurd h.1 (by omega)
  · rename_i hle
    simp only [Option.some.injEq, not_lt.1 hle, true_and]

theorem check_eq_some {α β : Type} {c : Prop} [Decidable c] {f : α → Option β} {o : Option β} {y : β} :
    (if c then Option.bind none f else o) = some y ↔ ¬ c ∧ o = some y := by
  split
  · rename_i hc
    exact iff_of_false (fun h => by cases h) fun h => h.1 hc
  · rename_i hc
    simp only [hc, not_false_eq_true, true_and]

/-! ### The header of a policy -/

/-- The header is that of a policy of the kernel, or that of a base or a module, behind an identifier. -/
theorem policydbReadHeader_spec (h : policydbReadHeader fp = some (header, rest)) :
    8 ≤ fp.length ∧ (header.policyType = policyKern ∧ le32ToCpu fp 0 = policydbMagic ∨
      le32ToCpu fp 0 = policydbModMagic ∧ 8 + le32ToCpu fp 1 + 20 ≤ fp.length ∧
        le32ToCpu (fp.drop (8 + le32ToCpu fp 1)) 0 = header.policyType ∧
        (header.policyType = policyMod ∨ header.policyType = policyBase) ∧
        fp.drop (8 + le32ToCpu fp 1 + 20) = rest) := by
  have hmagic := le32ToCpu_take (n := 8) (i := 0) (by decide) fp
  have hlen := le32ToCpu_take (n := 8) (i := 1) (by decide) fp
  unfold policydbReadHeader at h
  simp only [Option.bind_eq_bind, check_eq_some, Option.bind_eq_some_iff, Prod.exists, nextEntry_eq_some_take,
    Nat.reduceMul] at h
  obtain ⟨buf, fp', ⟨hwords, rfl, rfl⟩, h⟩ := h
  rw [hmagic, hlen] at h
  refine ⟨hwords, ?_⟩
  by_cases hkern : le32ToCpu fp 0 = policydbMagic
  · simp only [hkern, if_true, check_eq_some, Option.bind_eq_some_iff, Prod.exists] at h
    obtain ⟨-, -, str, fp', -, -, buf, fp'', -, -, hheader⟩ := h
    obtain ⟨rfl, rfl⟩ := Prod.mk.inj (Option.some.inj hheader)
    exact Or.inl ⟨rfl, hkern⟩
  · simp only [hkern, if_false, check_eq_some, Option.bind_eq_some_iff, Prod.exists, nextEntry_eq_some_take] at h
    obtain ⟨hmod, -, -, -, ⟨hstr, rfl, rfl⟩, -, -, -, ⟨hwords', rfl, rfl⟩, htype, -, hheader⟩ := h
    obtain ⟨rfl, rfl⟩ := Prod.mk.inj (Option.some.inj hheader)
    rw [List.length_drop, List.length_drop] at hwords'
    have hword := le32ToCpu_take (n := 20) (i := 0) (by decide) (fp.drop (8 + le32ToCpu fp 1))
    rw [List.drop_drop] at htype ⊢
    refine Or.inr ⟨by simpa [hkern] using hmod, by omega, hword.symm, ?_, ?_⟩
    · by_contra hne
      exact htype (not_or.1 hne)
    · rw [List.drop_drop]

/-! ### The reader of sections -/

theorem sectionKind_eq_mod_iff {magic : Nat} : sectionKind magic = some .mod ↔ magic = policydbModMagic := by
  unfold sectionKind
  constructor
  · intro h
    by_contra hmod
    rw [if_neg hmod] at h
    split_ifs at h <;> cases h
  · rintro rfl
    decide

/-- What the reader asks of a section, and what it makes of it. -/
theorem readPackageSection_eq_some {st st' : PackageReadState τ} {sec : Nat × Nat} :
    readPackageSection readTables image st sec = some st' ↔
      sec.1 + 4 ≤ image.length ∧ 4 ≤ sec.2 - sec.1 ∧
      match sectionKind (le32ToCpu (image.drop sec.1) 0) with
      | some (.text s) => .text s ∉ st.seen ∧ ∃ data,
          readHelper (image.drop (sec.1 + 4)) ((sec.2 - sec.1 - 4) % 2 ^ 32) = some data ∧
          st' = { st with
            sections := Function.update st.sections s (some ⟨data, sec.2 - sec.1 - 4⟩)
            seen := .text s :: st.seen }
      | some .mod => .mod ∉ st.seen ∧ ∃ policy, policydbReadModule readTables (image.drop sec.1) = some policy ∧
          st' = { st with policy := some policy, seen := .mod :: st.seen }
      | none => st' = st := by
  have hword := le32ToCpu_take (n := 4) (i := 0) (by decide) (image.drop sec.1)
  unfold readPackageSection
  simp only [Option.bind_eq_bind, Option.bind_eq_some_iff, Prod.exists, Option.guard_eq_some', policyFileSeek_eq_some,
    nextEntry_eq_some_take]
  constructor
  · rintro ⟨fp, ⟨hseek, rfl⟩, -, hlen, buf, fp', ⟨hread, rfl, rfl⟩, h⟩
    rw [List.length_drop] at hread
    refine ⟨by omega, hlen, ?_⟩
    rw [hword, List.drop_drop] at h
    revert h
    cases sectionKind (le32ToCpu (image.drop sec.1) 0) with
    | none => exact fun h => (Option.some.inj h).symm
    | some kind =>
      cases kind with
      | text s =>
        simp only [Option.bind_eq_some_iff, Option.guard_eq_some']
        rintro ⟨-, hseen, data, hdata, h⟩
        exact ⟨hseen, data, hdata, (Option.some.inj h).symm⟩
      | mod =>
        simp only [Option.bind_eq_some_iff, Option.guard_eq_some', policyFileSeek_eq_some]
        rintro ⟨-, hseen, fp, ⟨-, rfl⟩, policy, hpolicy, h⟩
        exact ⟨hseen, policy, hpolicy, (Option.some.inj h).symm⟩
  · rintro ⟨hread, hlen, h⟩
    refine ⟨_, ⟨by omega, rfl⟩, (), hlen, _, _, ⟨by rw [List.length_drop]; omega, rfl, rfl⟩, ?_⟩
    rw [hword, List.drop_drop]
    revert h
    cases sectionKind (le32ToCpu (image.drop sec.1) 0) with
    | none =>
      rintro rfl
      rfl
    | some kind =>
      cases kind with
      | text s =>
        simp only [Option.bind_eq_some_iff, Option.guard_eq_some']
        rintro ⟨hseen, data, hdata, rfl⟩
        exact ⟨(), hseen, data, hdata, rfl⟩
      | mod =>
        simp only [Option.bind_eq_some_iff, Option.guard_eq_some', policyFileSeek_eq_some]
        rintro ⟨hseen, policy, hpolicy, rfl⟩
        exact ⟨(), hseen, _, ⟨by omega, rfl⟩, policy, hpolicy, rfl⟩

end Sepol
