import Sepol.EbitmapIO
import Sepol.SidtabStable

/-!
# Labels of files by path

`genfs_read`, which puts the file systems of an image in the order of their names and the paths of each in the order
of decreasing length, and `sepol_genfs_sid`, which takes the first path of the list that is a prefix of the given one.
-/

namespace Sepol

/-! ### Reading strings and contexts -/

/-- `str_read`: the text up to its first zero byte, and the rest of the file. -/
def strRead (fp : List Byte) (len : Nat) : Option (CString × List Byte) :=
  if len = 0 then none
  else (nextEntry fp len).map fun r => ((r.1.takeWhile fun b => decide (b ≠ 0)).map fun b => Char.ofNat b.toNat, r.2)

abbrev policydbVersionMls : Nat := 19
abbrev modPolicydbVersionMls : Nat := 5

/-- `mls_read_range_helper`. -/
def mlsReadRangeHelper (fp : List Byte) : Option (MlsRange × List Byte) := do
  let (buf, fp) ← nextEntry fp 4
  let items := le32ToCpu buf 0
  guard (items ≤ 2)
  let (levels, fp) ← nextEntry fp (4 * items)
  -- without items the first word of the buffer is still their number, zero
  let low := if items = 0 then items else le32ToCpu levels 0
  let high := if items > 1 then le32ToCpu levels 1 else low
  let (lowCat, fp) ← ebitmapRead fp
  if items > 1 then
    let (highCat, fp) ← ebitmapRead fp
    return (⟨⟨low, lowCat⟩, ⟨high, highCat⟩⟩, fp)
  else return (⟨⟨low, lowCat⟩, ⟨high, ebitmapCpy lowCat⟩⟩, fp)

/-- `context_read_and_validate` on a context of zeros. -/
def contextReadAndValidate (p : Policydb) (fp : List Byte) : Option (Context × List Byte) := do
  let (buf, fp) ← nextEntry fp (4 * 3)
  let (range, fp) ←
    if (p.policyType = policyKern ∧ p.policyvers ≥ policydbVersionMls) ∨
        (p.policyType = policyBase ∧ p.policyvers ≥ modPolicydbVersionMls) then mlsReadRangeHelper fp
    else some (mlsRangeInit, fp)
  let c : Context := ⟨le32ToCpu buf 0, le32ToCpu buf 1, le32ToCpu buf 2, range⟩
  guard (contextIsValid p c)
  return (c, fp)

/-! ### Reading the paths -/

/-- `ocontext_t` for a path; `sid` is `sid[0]`, zero until it is asked for. -/
structure GenfsContext where
  name : CString
  sclass : Nat
  context : Context
  sid : SecurityId
deriving DecidableEq

structure Genfs where
  fstype : CString
  head : List GenfsContext
deriving DecidableEq

/-- The part of the inner loop of `genfs_read` that reads `newc`. -/
def genfsContextRead (p : Policydb) (fp : List Byte) : Option (GenfsContext × List Byte) := do
  let (buf, fp) ← nextEntry fp 4
  let (name, fp) ← strRead fp (le32ToCpu buf 0)
  let (buf, fp) ← nextEntry fp 4
  let (context, fp) ← contextReadAndValidate p fp
  return (⟨name, le32ToCpu buf 0, context, 0⟩, fp)

def genfsContextDup (newc c : GenfsContext) : Bool :=
  newc.name = c.name && (c.sclass = 0 || newc.sclass = 0 || newc.sclass = c.sclass)

/-- The loop that looks for the place of `newc`. -/
def genfsContextInsert (newc : GenfsContext) : List GenfsContext → Option (List GenfsContext)
  | [] => some [newc]
  | c :: rest =>
    if genfsContextDup newc c then none
    else if newc.name.length > c.name.length then some (newc :: c :: rest)
    else (genfsContextInsert newc rest).map fun rest => c :: rest

/-- The loop over the contexts of a file system. -/
def genfsContextsRead (p : Policydb) : Nat → List GenfsContext → List Byte → Option (List GenfsContext × List Byte)
  | 0, head, fp => some (head, fp)
  | nel2 + 1, head, fp => do
    let (newc, fp) ← genfsContextRead p fp
    let head ← genfsContextInsert newc head
    genfsContextsRead p nel2 head fp

/-- The loop that looks for the place of `newgenfs`. -/
def genfsInsert (newgenfs : Genfs) : List Genfs → Option (List Genfs)
  | [] => some [newgenfs]
  | genfs :: rest =>
    if newgenfs.fstype = genfs.fstype then none
    else if newgenfs.fstype < genfs.fstype then some (newgenfs :: genfs :: rest)
    else (genfsInsert newgenfs rest).map fun rest => genfs :: rest

/-- The loop over the file systems.  The code puts a file system into the list before it reads its contexts; both
orders refuse the same images. -/
def genfsReadFrom (p : Policydb) : Nat → List Genfs → List Byte → Option (List Genfs × List Byte)
  | 0, genfs, fp => some (genfs, fp)
  | nel + 1, genfs, fp => do
    let (buf, fp) ← nextEntry fp 4
    let (fstype, fp) ← strRead fp (le32ToCpu buf 0)
    let (buf, fp) ← nextEntry fp 4
    let (head, fp) ← genfsContextsRead p (le32ToCpu buf 0) [] fp
    let genfs ← genfsInsert ⟨fstype, head⟩ genfs
    genfsReadFrom p nel genfs fp

/-- `genfs_read` for a policy without file systems. -/
def genfsRead (p : Policydb) (fp : List Byte) : Option (List Genfs × List Byte) := do
  let (buf, fp) ← nextEntry fp 4
  genfsReadFrom p (le32ToCpu buf 0) [] fp

/-! ### The lookup -/

/-- `ENOENT`, with which the SID is that of unlabeled files, or an error of the SID table. -/
inductive GenfsErrno where
  | enoent
  | sidtab (e : Errno)
deriving DecidableEq

/-- The test of the loop of `sepol_genfs_sid` over the contexts. -/
def genfsContextFits (path : CString) (sclass : Nat) (c : GenfsContext) : Bool :=
  (c.sclass = 0 || sclass = c.sclass) && c.name.isPrefixOf path

/-- The result for a context, the context with its SID, and the SID table. -/
def genfsContextSid (s : Sidtab) (c : GenfsContext) (mem : Bool) :
    Except GenfsErrno SecurityId × GenfsContext × Sidtab :=
  if c.sid ≠ 0 then (.ok c.sid, c, s)
  else
    match sidtabContextToSid s c.context mem with
    | (.error e, s) => (.error (.sidtab e), c, s)
    | (.ok sid, s) => (.ok sid, { c with sid }, s)

/-- The loop over the contexts of a file system and what follows it. -/
def genfsHeadSid (s : Sidtab) (path : CString) (sclass : Nat) (mem : Bool) :
    List GenfsContext → Except GenfsErrno SecurityId × List GenfsContext × Sidtab
  | [] => (.error .enoent, [], s)
  | c :: rest =>
    if genfsContextFits path sclass c then
      let r := genfsContextSid s c mem
      (r.1, r.2.1 :: rest, r.2.2)
    else
      let r := genfsHeadSid s path sclass mem rest
      (r.1, c :: r.2.1, r.2.2)

/-- The parts of the active policy and of the SID table that `sepol_genfs_sid` uses. -/
structure GenfsState where
  genfs : List Genfs
  sidtab : Sidtab

/-- The loop over the file systems and what follows it. -/
def genfsListSid (s : Sidtab) (fstype path : CString) (sclass : Nat) (mem : Bool) :
    List Genfs → Except GenfsErrno SecurityId × List Genfs × Sidtab
  | [] => (.error .enoent, [], s)
  | genfs :: rest =>
    if fstype < genfs.fstype then (.error .enoent, genfs :: rest, s)
    else if fstype = genfs.fstype then
      let r := genfsHeadSid s path sclass mem genfs.head
      (r.1, { genfs with head := r.2.1 } :: rest, r.2.2)
    else
      let r := genfsListSid s fstype path sclass mem rest
      (r.1, genfs :: r.2.1, r.2.2)

/-- `sepol_genfs_sid`; `mem` says whether the SID table gets memory. -/
def sepolGenfsSid (st : GenfsState) (fstype path : CString) (sclass : Nat) (mem : Bool) :
    Except GenfsErrno SecurityId × GenfsState :=
  let r := genfsListSid st.sidtab fstype path sclass mem st.genfs
  (r.1, ⟨r.2.1, r.2.2⟩)

end Sepol
