import Sepol.Scope

/-!
# Optional blocks

The declarations of a linked base with the symbols that they require and declare, and `enable_avrules`, which decides
which branch of each block is enabled.  A declaration is known by its id, a block by its place in the list.
-/

namespace Sepol

/-- `scope_index_t`; `class_perms_len` is the length of the list. -/
structure ScopeIndex where
  scope : SymNum → Ebitmap
  classPermsMap : List Ebitmap

structure AvruleDecl where
  declId : Nat
  required : ScopeIndex
  declared : ScopeIndex

structure AvruleBlock where
  branchList : List AvruleDecl
  optional : Bool

structure LinkBase where
  symValToName : SymNum → Nat → Option CString
  classValToStruct : Nat → Option ClassDatum
  scope : SymNum → List (CString × ScopeDatum)
  declValToStruct : Nat → Option AvruleDecl
  global : List AvruleBlock

/-- `missing_requirement_t`; `perm_value` is only written for a permission. -/
structure MissingRequirement where
  symbolType : SymNum
  symbolValue : Nat
  permValue : Option Nat

/-- `SYM_COMMONS` to `SYM_CATS`, in the order of their numbers. -/
def symNums : List SymNum := [.commons, .classes, .roles, .types, .users, .bools, .levels, .cats]

/-! ### Requirements of a declaration -/

/-- `is_id_enabled`, with the field `enabled` of each declaration. -/
def isIdEnabled (p : LinkBase) (enabled : Nat → Bool) (id : CString) (symbolTable : SymNum) : Bool :=
  let declEnabled := fun declId => (p.declValToStruct (declId - 1)).any fun decl => enabled decl.declId
  match hashtabSearch (p.scope symbolTable) id with
  | none => false
  | some scope =>
    if scope.scope ≠ .decl then false
    else if symbolTable = .roles ∨ symbolTable = .users then scope.declIds.any declEnabled
    else scope.declIds.getLast?.any declEnabled

/-- `hashtab_map` with `find_perm`. -/
def findPerm (table : List (CString × PermDatum)) (value : Nat) : Option CString :=
  (table.find? fun e => e.2.value = value).map Prod.fst

/-- The name of the permission with a value, in the class or in its common. -/
def requiredPermId (cladatum : ClassDatum) (permValue : Nat) : Option CString :=
  match findPerm cladatum.permissions.table permValue with
  | some key => some key
  | none => cladatum.comdatum.bind fun comdatum => findPerm comdatum.permissions.table permValue

/-- What `enable_avrules` writes: `enabled` of each declaration, the place of the enabled branch of each block, and
its variable `req`, which is not initialized. -/
structure EnableState where
  enabled : Nat → Bool
  blockEnabled : Nat → Option Nat
  req : Option MissingRequirement

/-- How `enable_avrules` ends: with 0, `SEPOL_ERR`, `SEPOL_EREQ`, or with an assertion that fails or a read of what is
not there. -/
inductive EnableResult where
  | success (st : EnableState)
  | err
  | ereq (st : EnableState)
  | aborted

end Sepol
