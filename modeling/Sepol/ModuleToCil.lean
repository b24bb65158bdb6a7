import Sepol.TypeSetExpand

/-!
# Roles and types of a module in CIL

`module_to_cil.c` writes the blocks of a base or a module one after the other, with a stack of the declarations whose
optionals are open.  The statements about the roles and types of a declaration are those of `role_to_cil` and
`type_to_cil`; the other statements of a block are left out, but for the attributes that they number.
-/

namespace Sepol

/-- `avrule_decl_t` with what the statements about roles and types come from. -/
structure ModuleDecl extends AvruleDecl where
  enabled : Bool
  roles : List (CString × KernelRole)
  types : List (CString × KernelType)

structure ModuleBlock where
  optional : Bool
  branchList : List ModuleDecl

/-- A base or a module.  A table has each key once. -/
structure ModulePolicydb where
  name : CString
  roles : List (CString × KernelRole)
  rolesNodup : (roles.map Prod.fst).Nodup
  types : List (CString × KernelType)
  roleValToName : Nat → Option CString
  typeValToName : Nat → Option CString
  typeTable : TypeTable
  rolesScope : List (CString × ScopeDatum)
  typesScope : List (CString × ScopeDatum)
  global : List ModuleBlock

/-- The conversion fails, or a `NULL` pointer is read. -/
inductive ConvertError where
  | failed
  | undefined
deriving DecidableEq

/-- What stands in the `typeattributeset` statement of an attribute: `all`, a list of names, `not` with or without
an operand, and `and`. -/
inductive CilNameExpr where
  | all
  | names (l : List CString)
  | not (e : CilNameExpr)
  | notNothing
  | and (e₁ e₂ : CilNameExpr)
deriving DecidableEq

/-- The statements about roles and types. -/
inductive ModuleStatement where
  | role (key : CString)
  | roleattribute (key : CString)
  | roleattributeset (attr : CString) (names : List CString)
  | roletype (role type : CString)
  | rolebounds (first second : CString)
  | type (key : CString)
  | typepermissive (key : CString)
  | typebounds (first second : CString)
  | typeattribute (key : CString)
  | expandtypeattribute (key : CString) (value : Bool)
  | typeattributeset (attr : CString) (es : List CilNameExpr)
deriving DecidableEq

/-- `DEFAULT_OBJECT`. -/
def defaultObject : CString := ['o', 'b', 'j', 'e', 'c', 't', '_', 'r']

/-- `GEN_REQUIRE_ATTR`. -/
def genRequireAttr : CString :=
  ['c', 'i', 'l', '_', 'g', 'e', 'n', '_', 'r', 'e', 'q', 'u', 'i', 'r', 'e']

/-- `TYPEATTR_INFIX`. -/
def typeattrInfix : CString := ['_', 't', 'y', 'p', 'e', 'a', 't', 't', 'r', '_']

@[match_pattern] abbrev roleRole : Nat := 0
@[match_pattern] abbrev roleAttrib : Nat := 1

abbrev typeFlagsExpandAttrFalse : Nat := 4

/-- The name of a value, which is printed. -/
def nameOrNull (valToName : Nat → Option CString) (i : Nat) : Except ConvertError CString :=
  (valToName i).elim (.error .undefined) .ok

def namesOfBits (valToName : Nat → Option CString) : List Nat → Except ConvertError (List CString)
  | [] => .ok []
  | i :: bits => do
    let name ← nameOrNull valToName i
    let names ← namesOfBits valToName bits
    return name :: names

/-- `ebitmap_to_cil`, and the other loops that print the names of a set. -/
def ebitmapToCil (map : Ebitmap) (valToName : Nat → Option CString) : Except ConvertError (List CString) :=
  namesOfBits valToName (ebitmapPositiveBits map)

/-- The number of pointers whose size an unsigned int holds. -/
abbrev maxNames : Nat := (2 ^ 32 - 1) / 8

/-- `ebitmap_to_names`. -/
def ebitmapToNames (map : Ebitmap) (valToName : Nat → Option CString) : Except ConvertError (List CString) :=
  if maxNames < (ebitmapPositiveBits map).length then .error .failed else ebitmapToCil map valToName

/-! ### Scopes -/

/-- `is_id_in_scope_with_start`, for the declarations of the stack from `start` down. -/
def isIdInScopeWithStart (scopeTable : List (CString × ScopeDatum)) (decls : List ModuleDecl) (id : CString) : Bool :=
  match hashtabSearch scopeTable id with
  | none => false
  | some scope => decls.any fun decl => scope.declIds.contains decl.declId

/-- The top of the stack is the head of the list. -/
def isIdInScope (scopeTable : List (CString × ScopeDatum)) (declStack : List ModuleDecl) (id : CString) : Bool :=
  isIdInScopeWithStart scopeTable declStack id

def isIdInAncestorScope (scopeTable : List (CString × ScopeDatum)) (declStack : List ModuleDecl) (id : CString) :
    Bool :=
  isIdInScopeWithStart scopeTable declStack.tail id

/-! ### Attributes that are made for type sets -/

/-- The attributes made for the sets of one statement, the last first, and the counter of all attributes. -/
structure AttrState where
  attrList : List (CString × LinkTypeSet)
  numAttrs : Nat

/-- The text of a number that is printed as an int. -/
def signedDigits (n : Nat) : CString :=
  if n ≤ intMax then Nat.toDigits 10 n else '-' :: Nat.toDigits 10 (2 ^ 32 - n)

/-- The name of the attribute with a number. -/
def newAttrName (p : ModulePolicydb) (numAttrs : Nat) : CString := p.name ++ typeattrInfix ++ signedDigits numAttrs

/-- `get_new_attr_name` for types, once `num_attrs` is counted up.  There is room for the digits of an unsigned
number, though a signed one is printed, and the size is an int. -/
def getNewAttrName (p : ModulePolicydb) (numAttrs : Nat) : Except ConvertError CString :=
  let len := (p.name ++ typeattrInfix ++ Nat.toDigits 10 numAttrs).length + 1
  if len ≤ intMax ∧ (newAttrName p numAttrs).length < len then .ok (newAttrName p numAttrs) else .error .failed

/-- `num_attrs++`. -/
def nextNumAttrs (numAttrs : Nat) : Nat := (numAttrs + 1) % 2 ^ 32

/-- `search_attr_list` for types. -/
def searchAttrList (attrList : List (CString × LinkTypeSet)) (set : LinkTypeSet) : Option CString :=
  (attrList.find? fun e =>
    decide (set.flags = e.2.flags) && ebitmapCmp set.negset e.2.negset && ebitmapCmp set.types e.2.types).map Prod.fst

/-- `set_to_names` for types. -/
def setToNames (p : ModulePolicydb) (set : LinkTypeSet) (attrs : AttrState) :
    Except ConvertError (List CString × AttrState) :=
  match searchAttrList attrs.attrList set with
  | some attrName => .ok ([attrName], attrs)
  | none => do
    let numAttrs := nextNumAttrs attrs.numAttrs
    let attrName ← getNewAttrName p numAttrs
    return ([attrName], ⟨(attrName, set) :: attrs.attrList, numAttrs⟩)

/-- A set that is no more than a list. -/
def LinkTypeSet.isPlain (set : LinkTypeSet) : Bool := ebitmapIsEmpty set.negset && decide (set.flags = 0)

/-- `process_typeset`. -/
def processTypeset (p : ModulePolicydb) (ts : LinkTypeSet) (attrs : AttrState) :
    Except ConvertError (List CString × AttrState) :=
  if ts.isPlain then do
    return (← ebitmapToNames ts.types p.typeValToName, attrs)
  else setToNames p ts attrs

/-- What `cil_print_attr_strs` prints for the set of an attribute of types, one expression after the other. -/
def attrStrs (set : LinkTypeSet) (pos neg : List CString) : List CilNameExpr :=
  let has := fun (e : Ebitmap) => !ebitmapIsEmpty e
  let inner :=
    if has set.types && has set.negset then some (.and (.names pos) (.not (.names neg)))
    else if has set.types then some (.names pos)
    else if has set.negset then some (.not (.names neg))
    else none
  let star := if set.flags &&& typeStar ≠ 0 then [CilNameExpr.all] else []
  if set.flags &&& typeComp ≠ 0 then star ++ [inner.elim .notNothing .not] else star ++ inner.toList

/-- `cil_print_attr_list` for types. -/
def printAttrList (p : ModulePolicydb) : List (CString × LinkTypeSet) → Except ConvertError (List ModuleStatement)
  | [] => .ok []
  | (attrName, set) :: attrList => do
    let pos ← ebitmapToCil set.types p.typeValToName
    let neg ← ebitmapToCil set.negset p.typeValToName
    let rest ← printAttrList p attrList
    return .typeattribute attrName :: .typeattributeset attrName (attrStrs set pos neg) :: rest

/-! ### Roles -/

/-- The `roletype` statements with the names of the type set of a role that are in scope. -/
def roletypesInScope (p : ModulePolicydb) (declStack : List ModuleDecl) (key : CString) (types : List CString) :
    List ModuleStatement :=
  (types.filter (isIdInScope p.typesScope declStack)).map (.roletype key)

def roleBoundsToCil (p : ModulePolicydb) (key : CString) (role : KernelRole) :
    Except ConvertError (List ModuleStatement) :=
  if role.bounds > 0 then do
    return [.rolebounds key (← nameOrNull p.roleValToName (role.bounds - 1))]
  else .ok []

def roleRolesToCil (p : ModulePolicydb) (key : CString) (role : KernelRole) :
    Except ConvertError (List ModuleStatement) :=
  if ebitmapIsEmpty role.roles then .ok []
  else do
    return [.roleattributeset key (← ebitmapToCil role.roles p.roleValToName)]

/-- `role_to_cil`, with the number of attributes made before it. -/
def roleToCil (p : ModulePolicydb) (declStack : List ModuleDecl) (key : CString) (role : KernelRole)
    (scope : SymbolScope) (numAttrs : Nat) : Except ConvertError (List ModuleStatement × Nat) :=
  let require := if scope = .req then [ModuleStatement.roleattributeset genRequireAttr [key]] else []
  match role.flavor with
  | roleRole => do
    let declare := if scope = .decl then [ModuleStatement.role key] else []
    let (types, attrs) ← processTypeset p role.types ⟨[], numAttrs⟩
    let bounds ← roleBoundsToCil p key role
    let attributes ← printAttrList p attrs.attrList
    return (require ++ declare ++ roletypesInScope p declStack key types ++ bounds ++ attributes, attrs.numAttrs)
  | roleAttrib => do
    let declare := if scope = .decl then [ModuleStatement.roleattribute key] else []
    let roles ← roleRolesToCil p key role
    let (types, attrs) ← processTypeset p role.types ⟨[], numAttrs⟩
    let attributes ← printAttrList p attrs.attrList
    return (require ++ declare ++ roles ++ roletypesInScope p declStack key types ++ attributes, attrs.numAttrs)
  | _ => .error .failed

/-! ### Types -/

/-- The roles of the list that are in scope of an ancestor, each with the names of its type set. -/
def ancestorRoles (p : ModulePolicydb) (declStack : List ModuleDecl) : List (CString × KernelRole) → AttrState →
    Except ConvertError (List (CString × KernelRole × List CString) × AttrState)
  | [], attrs => .ok ([], attrs)
  | (roleName, role) :: roleList, attrs =>
    if isIdInAncestorScope p.rolesScope declStack roleName then do
      let (names, attrs) ← processTypeset p role.types attrs
      let (rest, attrs) ← ancestorRoles p declStack roleList attrs
      return ((roleName, role, names) :: rest, attrs)
    else ancestorRoles p declStack roleList attrs

/-- The list of all roles, which `role_list_create` builds from the front. -/
def ModulePolicydb.roleList (p : ModulePolicydb) : List (CString × KernelRole) := p.roles.reverse

/-- `roletype_role_in_ancestor_to_cil`. -/
def roletypeRoleInAncestorToCil (p : ModulePolicydb) (declStack : List ModuleDecl) (typeName : CString)
    (numAttrs : Nat) : Except ConvertError (List ModuleStatement × Nat) := do
  let (roles, attrs) ← ancestorRoles p declStack p.roleList ⟨[], numAttrs⟩
  let roletypes := roles.flatMap fun e => (e.2.2.filter fun name => name = typeName).map fun _ =>
    .roletype e.1 typeName
  let attributes ← printAttrList p attrs.attrList
  return (roletypes ++ attributes, attrs.numAttrs)

/-- What `type_to_cil` writes for a type of the flavor `TYPE_TYPE`. -/
def typeTypeToCil (p : ModulePolicydb) (key : CString) (type : KernelType) (scope : SymbolScope) :
    Except ConvertError (List ModuleStatement) := do
  let declare := if scope = .decl then [ModuleStatement.type key, .roletype defaultObject key] else []
  let permissive := if type.flags &&& typeFlagsPermissive ≠ 0 then [ModuleStatement.typepermissive key] else []
  if type.bounds > 0 then
    return declare ++ permissive ++ [.typebounds (← nameOrNull p.typeValToName (type.bounds - 1)) key]
  else return declare ++ permissive

/-- What `type_to_cil` writes for an attribute. -/
def typeAttribToCil (p : ModulePolicydb) (key : CString) (type : KernelType) (scope : SymbolScope) :
    Except ConvertError (List ModuleStatement) := do
  let declare := if scope = .decl then [ModuleStatement.typeattribute key] else []
  let expand :=
    if type.flags &&& typeFlagsExpandAttrTrue ≠ 0 then [ModuleStatement.expandtypeattribute key true]
    else if type.flags &&& typeFlagsExpandAttrFalse ≠ 0 then [ModuleStatement.expandtypeattribute key false]
    else []
  if ebitmapIsEmpty type.types then return declare ++ expand
  else return declare ++ expand ++ [.typeattributeset key [.names (← ebitmapToCil type.types p.typeValToName)]]

/-- The `switch` of `type_to_cil`. -/
def typeFlavorToCil (p : ModulePolicydb) (key : CString) (type : KernelType) (scope : SymbolScope) :
    Except ConvertError (List ModuleStatement) :=
  match type.flavor with
  | .type => typeTypeToCil p key type scope
  | .attrib => typeAttribToCil p key type scope
  | .alias => .ok []

/-- `type_to_cil`. -/
def typeToCil (p : ModulePolicydb) (declStack : List ModuleDecl) (key : CString) (type : KernelType)
    (scope : SymbolScope) (numAttrs : Nat) : Except ConvertError (List ModuleStatement × Nat) := do
  let require := if scope = .req then [ModuleStatement.typeattributeset genRequireAttr [.names [key]]] else []
  let (roletypes, numAttrs) ← roletypeRoleInAncestorToCil p declStack key numAttrs
  let own ← typeFlavorToCil p key type scope
  return (require ++ roletypes ++ own, numAttrs)

/-! ### Blocks -/

/-- A role or a type that statements are written for. -/
inductive ModuleSymbol where
  | role (key : CString) (role : KernelRole)
  | type (key : CString) (type : KernelType)

/-- The statements of one symbol, with the stack and the number of attributes they are written for. -/
structure SymbolGroup where
  declStack : List ModuleDecl
  symbol : ModuleSymbol
  scope : SymbolScope
  numAttrs : Nat
  statements : List ModuleStatement

/-- `func_to_cil`. -/
def funcToCil (p : ModulePolicydb) (declStack : List ModuleDecl) (symbol : ModuleSymbol) (scope : SymbolScope)
    (numAttrs : Nat) : Except ConvertError (List ModuleStatement × Nat) :=
  match symbol with
  | .role key role => roleToCil p declStack key role scope numAttrs
  | .type key type => typeToCil p declStack key type scope numAttrs

def symbolToCil (p : ModulePolicydb) (declStack : List ModuleDecl) (symbol : ModuleSymbol) (scope : SymbolScope)
    (numAttrs : Nat) : Except ConvertError (SymbolGroup × Nat) := do
  let (statements, next) ← funcToCil p declStack symbol scope numAttrs
  return (⟨declStack, symbol, scope, numAttrs, statements⟩, next)

end Sepol
