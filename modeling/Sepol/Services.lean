import Sepol.Mls

/-!
# Loading a policy

`sepol_load_policy` and what it calls: the header of `policydb_read`, the checks that classes and permissions keep
their values, the validity of a context (`context_is_valid`), its conversion from one policy to another, and the
exchange of the SID tables.  The reader of the symbol tables and rules behind the header of an image is a parameter.
-/

namespace Sepol

abbrev Byte : Type := BitVec 8

/-! ### Reading -/

/-- `next_entry` on a policy in memory: the bytes read and the rest of the file. -/
def nextEntry (fp : List Byte) (bytes : Nat) : Option (List Byte × List Byte) :=
  if bytes > fp.length then none else some (fp.take bytes, fp.drop bytes)

/-- `le32_to_cpu` of the word at index `i` of a buffer. -/
def le32ToCpu (buf : List Byte) (i : Nat) : Nat :=
  ((buf.drop (4 * i)).take 4).foldr (fun b n => b.toNat + 256 * n) 0

abbrev policydbMagic : Nat := 0xf97cff8c
abbrev policydbModMagic : Nat := 0xf97cff8d
abbrev policydbStringMaxLength : Nat := 32
abbrev policyBase : Nat := 1
abbrev policyMod : Nat := 2

def cstringBytes (s : CString) : List Byte := s.map fun c => BitVec.ofNat 8 c.toNat

def policydbTargetStrings : List CString :=
  [['S', 'E', ' ', 'L', 'i', 'n', 'u', 'x'], ['X', 'e', 'n', 'F', 'l', 'a', 's', 'k']]

def policydbModString : CString := ['S', 'E', ' ', 'L', 'i', 'n', 'u', 'x', ' ', 'M', 'o', 'd', 'u', 'l', 'e']

/-- What the header of an image says before the table sizes. -/
structure PolicydbHeader where
  policyType : Nat
  policyvers : Nat
  mls : Bool

/-- The part of `policydb_read` up to the configuration word. -/
def policydbReadHeader (fp : List Byte) : Option (PolicydbHeader × List Byte) := do
  let (buf, fp) ← nextEntry fp (4 * 2)
  let magic := le32ToCpu buf 0
  if magic ≠ policydbMagic ∧ magic ≠ policydbModMagic then none
  let len := le32ToCpu buf 1
  if len = 0 ∨ len > policydbStringMaxLength then none
  let (policydbStr, fp) ← nextEntry fp len
  -- the text is compared up to its first zero byte
  let policydbStr := policydbStr.takeWhile fun b => decide (b ≠ 0)
  if magic = policydbMagic then
    if policydbStr ∉ policydbTargetStrings.map cstringBytes then none
    let (buf, fp) ← nextEntry fp (4 * 4)
    let policyvers := le32ToCpu buf 0
    if policyvers < 15 ∨ policyvers > 34 then none
    return (⟨policyKern, policyvers, (le32ToCpu buf 1).testBit 0⟩, fp)
  else
    if policydbStr ≠ cstringBytes policydbModString then none
    let (buf, fp) ← nextEntry fp (4 * 5)
    let policyType := le32ToCpu buf 0
    if policyType ≠ policyMod ∧ policyType ≠ policyBase then none
    let policyvers := le32ToCpu buf 1
    if policyvers < 4 ∨ policyvers > 22 then none
    return (⟨policyType, policyvers, (le32ToCpu buf 2).testBit 0⟩, fp)

/-- `policydb_read`; `readBody` reads what follows the configuration word. -/
def policydbRead (readBody : PolicydbHeader → List Byte → Option Policydb) (fp : List Byte) : Option Policydb := do
  let (header, fp) ← policydbReadHeader fp
  readBody header fp

/-! ### Checking the classes -/

/-- `validate_perm`, without the return code. -/
def validatePerm (h : List (CString × PermDatum)) (key : CString) (perdatum : PermDatum) : Bool :=
  match hashtabSearch h key with
  | none => false
  | some perdatum2 => perdatum.value = perdatum2.value

/-- `hashtab_map` with `validate_perm` over one table of permissions. -/
def validatePerms (perms perms2 : Symtab PermDatum) : Bool :=
  perms.table.all fun e => validatePerm perms2.table e.1 e.2

def validateClass (newp : Policydb) (key : CString) (cladatum : ClassDatum) : Bool :=
  match hashtabSearch newp.pClasses.table key with
  | none => false
  | some cladatum2 =>
    if cladatum.value ≠ cladatum2.value then false
    else
      let common := match cladatum.comdatum, cladatum2.comdatum with
        | some comdatum, some comdatum2 => validatePerms comdatum.permissions comdatum2.permissions
        | none, none => true
        | _, _ => false
      common && validatePerms cladatum.permissions cladatum2.permissions

/-- `hashtab_map` with `validate_class` over the classes of the active policy. -/
def validateClasses (policydb newp : Policydb) : Bool :=
  policydb.pClasses.table.all fun e => validateClass newp e.1 e.2

/-! ### Converting contexts -/

def contextIsValid (p : Policydb) (c : Context) : Bool :=
  if c.role = 0 || c.role > p.pRoles.nprim then false
  else if c.user = 0 || c.user > p.pUsers.nprim then false
  else if c.type = 0 || c.type > p.pTypes.nprim then false
  else
    let authorized :=
      if c.role ≠ objectRVal then
        match p.roleValToStruct (c.role - 1) with
        | none => false
        | some role =>
          if !ebitmapGetBit role.cache (c.type - 1) then false
          else match p.userValToStruct (c.user - 1) with
            | none => false
            | some usrdatum => ebitmapGetBit usrdatum.cache (c.role - 1)
      else true
    authorized && mlsContextIsvalid p c

/-- The variable `selinux_enforcing`, which nothing assigns. -/
def selinuxEnforcing : Bool := true

def convertContext (oldp newp : Policydb) (c : Context) : Except Errno Context :=
  match hashtabSearchName newp.pUsers.table (oldp.pUserValToName (c.user - 1)) with
  | none => .error .einval
  | some usrdatum =>
    match hashtabSearchName newp.pRoles.table (oldp.pRoleValToName (c.role - 1)) with
    | none => .error .einval
    | some role =>
      match hashtabSearchName newp.pTypes.table (oldp.pTypeValToName (c.type - 1)) with
      | none => .error .einval
      | some typdatum =>
        match mlsConvertContext oldp newp
          { c with user := usrdatum.value, role := role.value, type := typdatum.value } with
        | none => .error .einval
        | some c => if !contextIsValid newp c && selinuxEnforcing then .error .einval else .ok c

/-! ### The security server -/

/-- The static database `mypolicydb`: all zero until a policy is put there, and full of freed pointers after it was
destroyed. -/
inductive Mypolicydb where
  | unset
  | filled (p : Policydb)
  | destroyed

def Mypolicydb.policydb : Mypolicydb → Option Policydb
  | .filled p => some p
  | _ => none

/-- `policydb_destroy(&mypolicydb)`: it frees nothing in a database that is all zero, and frees everything twice in
one that was destroyed, which is `none`. -/
def Mypolicydb.destroy : Mypolicydb → Option Mypolicydb
  | .unset => some .unset
  | .filled _ => some .destroyed
  | .destroyed => none

/-- The global variables of `services.c`.  The pointer `policydb` points to `mypolicydb` unless `sepol_set_policydb`
gave it another database. -/
structure SecurityServer where
  mypolicydb : Mypolicydb
  setPolicydb : Option Policydb
  sidtab : Sidtab

/-- The database that `policydb` points to. -/
def SecurityServer.policydb (srv : SecurityServer) : Option Policydb := srv.setPolicydb.or srv.mypolicydb.policydb

/-- `*policydb = newp`. -/
def SecurityServer.installPolicydb (srv : SecurityServer) (newp : Policydb) : SecurityServer :=
  match srv.setPolicydb with
  | some _ => { srv with setPolicydb := some newp }
  | none => { srv with mypolicydb := .filled newp }

/-- `clone_sid`; `mem` says for which SIDs the allocations succeed. -/
def cloneSid (mem : SecurityId → Bool) (sid : SecurityId) (context : Context) (s : Sidtab) :
    Except Errno Unit × Sidtab :=
  sidtabInsert s sid context (mem sid)

/-- `sepol_load_policy` after `policydb_read` has made `newp`, with the active policy `policydb`.  A new SID table
that got no buckets makes every insertion fail, like `mem = fun _ => false`. -/
def loadPolicydb (srv : SecurityServer) (policydb newp : Policydb) (mem : SecurityId → Bool) :
    Except Errno Unit × SecurityServer :=
  if !validateClasses policydb newp then (.error .einval, srv)
  else
    let srv := { srv with sidtab := sidtabShutdown srv.sidtab }
    match sidtabMap srv.sidtab (cloneSid mem) sidtabInit with
    | (.error _, _) => (.error .enomem, srv)
    | (.ok (), newsidtab) =>
      let newsidtab := sidtabMapRemoveOnError newsidtab fun _ c => convertContext policydb newp c
      (.ok (), { srv.installPolicydb newp with sidtab := sidtabSet newsidtab })

/-- `sepol_load_policy`; `none` where the code has no defined behaviour: it destroys `mypolicydb` a second time, or
reads the classes of an active policy that is not there. -/
def sepolLoadPolicy (readBody : PolicydbHeader → List Byte → Option Policydb) (srv : SecurityServer)
    (data : List Byte) (mem : SecurityId → Bool) : Option (Except Errno Unit × SecurityServer) :=
  match policydbRead readBody data with
  | none => srv.mypolicydb.destroy.map fun mypolicydb => (.error .einval, { srv with mypolicydb })
  | some newp => srv.policydb.map fun policydb => loadPolicydb srv policydb newp mem

end Sepol

/-!
## A failed policy load

A load that fails before it changes anything has to leave the active policy and the SID table as they were.  It does,
except for two exits: when the image cannot be read, `mypolicydb` is destroyed, which is the active policy unless
`sepol_set_policydb` chose another one, and which a second such load destroys again; and when the clone of the SID
table gets no memory, the table stays shut.
-/

namespace Sepol

variable {readBody : PolicydbHeader → List Byte → Option Policydb} {srv : SecurityServer} {data : List Byte}
  {mem : SecurityId → Bool} {policydb : Policydb}

/-- The active policy is the same database, and the SID table has the same entries and still takes new contexts if
it did before. -/
structure SecurityServer.Unchanged (srv srv' : SecurityServer) : Prop where
  policydb : srv'.policydb = srv.policydb
  sidtab : srv'.sidtab = srv.sidtab

/-- The image can be read, or `mypolicydb` is not active and was not destroyed before; and a readable image that keeps
the classes, whose load fails only when the SID table cannot be cloned, finds the table shut already. -/
def LoadKeepsState (readBody : PolicydbHeader → List Byte → Option Policydb) (srv : SecurityServer)
    (policydb : Policydb) (data : List Byte) : Prop :=
  match policydbRead readBody data with
  | none => srv.setPolicydb.isSome = true ∧ srv.mypolicydb.destroy.isSome = true
  | some newp => validateClasses policydb newp = true → srv.sidtab.shutdown = true

/-- Destroying `mypolicydb` is harmless exactly when another database is active and it was not destroyed before. -/
private theorem destroy_unchanged_iff (h : srv.policydb = some policydb) :
    (∃ mypolicydb, srv.mypolicydb.destroy = some mypolicydb ∧ srv.Unchanged { srv with mypolicydb }) ↔
      srv.setPolicydb.isSome = true ∧ srv.mypolicydb.destroy.isSome = true := by
  -- the active database is the given one, if there is one, and else `mypolicydb`
  obtain ⟨mine, given, sidtab⟩ := srv
  cases given with
  | some p =>
    constructor
    · rintro ⟨m, hm, _⟩
      exact ⟨rfl, Option.isSome_iff_exists.2 ⟨m, hm⟩⟩
    · rintro ⟨_, hd⟩
      obtain ⟨m, hm⟩ := Option.isSome_iff_exists.1 hd
      exact ⟨m, hm, rfl, rfl⟩
  | none =>
    refine iff_of_false (fun ⟨m, hm, hu⟩ => ?_) (fun hs => by cases hs.1)
    have hactive : m.policydb = mine.policydb := hu.policydb
    cases mine with
    | filled p =>
      obtain rfl := Option.some.inj hm
      cases hactive
    | unset => cases h
    | destroyed => cases hm

private theorem shutdown_unchanged_iff :
    srv.Unchanged { srv with sidtab := sidtabShutdown srv.sidtab } ↔ srv.sidtab.shutdown = true := by
  constructor
  · intro hu
    have := congrArg Sidtab.shutdown hu.sidtab
    exact this.symm
  · intro hs
    refine ⟨rfl, ?_⟩
    change { srv.sidtab with shutdown := true } = srv.sidtab
    rw [← hs]

/-- What a load of a readable image can do. -/
theorem loadPolicydb_cases (srv : SecurityServer) (policydb newp : Policydb) (mem : SecurityId → Bool) :
    (validateClasses policydb newp = false ∧ loadPolicydb srv policydb newp mem = (.error .einval, srv)) ∨
    (validateClasses policydb newp = true ∧
      loadPolicydb srv policydb newp mem = (.error .enomem, { srv with sidtab := sidtabShutdown srv.sidtab })) ∨
    ∃ newsidtab, sidtabMap srv.sidtab (cloneSid mem) sidtabInit = (.ok (), newsidtab) ∧
      loadPolicydb srv policydb newp mem = (.ok (), { srv.installPolicydb newp with
        sidtab := sidtabSet (sidtabMapRemoveOnError newsidtab fun _ c => convertContext policydb newp c) }) := by
  have hmap : sidtabMap (sidtabShutdown srv.sidtab) (cloneSid mem) sidtabInit =
      sidtabMap srv.sidtab (cloneSid mem) sidtabInit := rfl
  unfold loadPolicydb
  cases hv : validateClasses policydb newp with
  | false => exact Or.inl ⟨by simp, rfl⟩
  | true =>
    simp only [hmap]
    rcases sidtabMap srv.sidtab (cloneSid mem) sidtabInit with ⟨_ | _, newsidtab⟩
    · exact Or.inr (Or.inl ⟨by simp, rfl⟩)
    · obtain ⟨mine, given, sidtab⟩ := srv
      exact Or.inr (Or.inr ⟨newsidtab, rfl, by cases given <;> rfl⟩)

/-- A load that does not succeed ends and leaves the state of the security server as it was exactly under
`LoadKeepsState`. -/
theorem sepolLoadPolicy_unchanged_iff (hp : srv.policydb = some policydb)
    (hfail : ∀ srv', sepolLoadPolicy readBody srv data mem ≠ some (.ok (), srv')) :
    (∃ e srv', sepolLoadPolicy readBody srv data mem = some (.error e, srv') ∧ srv.Unchanged srv') ↔
      LoadKeepsState readBody srv policydb data := by
  unfold sepolLoadPolicy LoadKeepsState at *
  cases hr : policydbRead readBody data with
  | none =>
    rw [← destroy_unchanged_iff hp]
    constructor
    · rintro ⟨e, srv', hload, hu⟩
      obtain ⟨mypolicydb, hm, hload⟩ := Option.map_eq_some_iff.1 hload
      obtain rfl := (Prod.mk.inj hload).2
      exact ⟨mypolicydb, hm, hu⟩
    · rintro ⟨mypolicydb, hm, hu⟩
      exact ⟨.einval, _, by simp [hm], hu⟩
  | some newp =>
    simp only [hr, hp, Option.map_some, ne_eq, Option.some.injEq] at hfail ⊢
    rcases loadPolicydb_cases srv policydb newp mem with ⟨hv, hl⟩ | ⟨hv, hl⟩ | ⟨newsidtab, _, hl⟩
    · rw [hl, hv]
      exact iff_of_true ⟨_, _, rfl, rfl, rfl⟩ (by simp)
    · rw [hl, hv, ← shutdown_unchanged_iff]
      simp
    · exact absurd hl (hfail _)

/-- The empty image, with the database that `policydb_init` makes as the one that `sepol_set_policydb` chose. -/
theorem sepolLoadPolicy_unchanged_iff_empty :
    (∃ e srv', sepolLoadPolicy (fun _ _ => none) ⟨.unset, some policydbInit, sidtabInit⟩ [] (fun _ => true) =
        some (.error e, srv') ∧ SecurityServer.Unchanged ⟨.unset, some policydbInit, sidtabInit⟩ srv') ↔
      LoadKeepsState (fun _ _ => none) ⟨.unset, some policydbInit, sidtabInit⟩ policydbInit [] :=
  sepolLoadPolicy_unchanged_iff rfl fun _ h => by cases h

/-- An image too short for the two words of the header makes the load destroy the active policy, whatever the rest of
the reader does. -/
theorem sepolLoadPolicy_empty_image :
    ¬ ∀ (readBody : PolicydbHeader → List Byte → Option Policydb) (srv srv' : SecurityServer) (policydb : Policydb)
        (data : List Byte) (mem : SecurityId → Bool) (e : Errno),
      srv.policydb = some policydb → sepolLoadPolicy readBody srv data mem = some (.error e, srv') →
        srv.Unchanged srv' := by
  intro h
  have hu := h (fun _ _ => none) ⟨.filled policydbInit, none, sidtabInit⟩ ⟨.destroyed, none, sidtabInit⟩ policydbInit
    [] (fun _ => true) .einval rfl rfl
  have := hu.policydb
  cases this

end Sepol
