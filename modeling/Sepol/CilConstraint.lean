import Sepol.CilClassperms
import Sepol.ConstraintDenote

/-!
# The parse tree of CIL

The nodes that the parser makes of a CIL text, and the check of the nodes of a statement against its syntax
(`cil_verify.c`).  The parser keeps one copy of each string, so that comparing the addresses of strings, as the code
does to recognise a keyword, compares the strings.
-/

namespace Sepol

/-- A node of the parse tree: a string, or what stands between two parentheses. -/
inductive CilParse where
  | string (data : CString)
  | list (cl : List CilParse)

def CilParse.isString : CilParse → Bool
  | .string _ => true
  | .list _ => false

def CilParse.isList : CilParse → Bool
  | .list (_ :: _) => true
  | _ => false

def CilParse.isEmptyList : CilParse → Bool
  | .list [] => true
  | _ => false

/-- `enum cil_syntax`: what may stand at a place of a statement. -/
abbrev CilSyntax : Type := BitVec 8

abbrev cilSynString : CilSyntax := 1
abbrev cilSynList : CilSyntax := 2
abbrev cilSynEmptyList : CilSyntax := 4
abbrev cilSynNLists : CilSyntax := 8
abbrev cilSynNStrings : CilSyntax := 16
abbrev cilSynEnd : CilSyntax := 32

def CilSyntax.has (s flag : CilSyntax) : Bool := s &&& flag ≠ 0

/-- The loop over the remaining nodes at a place for any number of them. -/
def cilVerifyRest (s : CilSyntax) (current : List CilParse) : Bool :=
  current.all fun c => s.has cilSynNLists && c.isList || s.has cilSynNStrings && c.isString

/-- `__cil_verify_syntax`. -/
def cilVerifySyntax : List CilSyntax → List CilParse → Bool
  | s :: _, [] => s.has cilSynEnd
  | [], _ => false
  | s :: next, c :: rest =>
    if s.has cilSynString && c.isString || s.has cilSynList && c.isList || s.has cilSynEmptyList && c.isEmptyList then
      cilVerifySyntax next rest
    else if s.has cilSynNLists || s.has cilSynNStrings then
      cilVerifyRest s (c :: rest) && next.head?.any fun s => s.has cilSynEnd
    else false

end Sepol

/-!
## Constraints of a CIL policy

The way of a constraint from the parse tree (`cil_build_ast.c`, `cil_verify.c`) through the resolution of its names
(`cil_resolve_ast.c`) to the postfix list in the class of a policy (`cil_binary.c`).
-/

namespace Sepol

/-! ### Building the expression -/

inductive CilConsOp where
  | and
  | or
  | not
  | eq
  | neq
  | dom
  | domby
  | incomp
deriving DecidableEq

inductive CilConsOperand where
  | t1 | t2 | t3
  | r1 | r2 | r3
  | u1 | u2 | u3
  | l1 | l2 | h1 | h2
deriving DecidableEq

/-- What a name in a comparison is the name of. -/
inductive CilConsKind where
  | user
  | role
  | type
  | level
deriving DecidableEq

/-- The flavors of statements. -/
inductive CilConsFlavor where
  | constrain
  | mlsconstrain
  | validatetrans
  | mlsvalidatetrans
deriving DecidableEq

def CilConsFlavor.isValidatetrans : CilConsFlavor → Bool
  | .constrain | .mlsconstrain => false
  | .validatetrans | .mlsvalidatetrans => true

/-- The right side of a comparison. -/
inductive CilConsRight (δ : Type) where
  | operand (o : CilConsOperand)
  | name (d : δ)
  | names (ds : List δ)

/-- A list of an expression of a constraint (`cil_list`). -/
inductive CilConsExpr (δ : Type) where
  | leaf (kind : CilConsKind) (op : CilConsOp) (l : CilConsOperand) (r : CilConsRight δ)
  | not (e : CilConsExpr δ)
  | binary (op : CilConsOp) (l r : CilConsExpr δ)

/-- `__cil_get_constraint_operator_flavor`. -/
def cilConstraintOperatorFlavor (op : CString) : Option CilConsOp :=
  if op = "and".toList then some .and
  else if op = "or".toList then some .or
  else if op = "not".toList then some .not
  else if op = "eq".toList then some .eq
  else if op = "neq".toList then some .neq
  else if op = "dom".toList then some .dom
  else if op = "domby".toList then some .domby
  else if op = "incomp".toList then some .incomp
  else none

/-- `__cil_get_constraint_operand_flavor` of a string; `none` is a name. -/
def cilConstraintOperandFlavor (operand : CString) : Option CilConsOperand :=
  if operand = "t1".toList then some .t1
  else if operand = "t2".toList then some .t2
  else if operand = "t3".toList then some .t3
  else if operand = "r1".toList then some .r1
  else if operand = "r2".toList then some .r2
  else if operand = "r3".toList then some .r3
  else if operand = "u1".toList then some .u1
  else if operand = "u2".toList then some .u2
  else if operand = "u3".toList then some .u3
  else if operand = "l1".toList then some .l1
  else if operand = "l2".toList then some .l2
  else if operand = "h1".toList then some .h1
  else if operand = "h2".toList then some .h2
  else none

def CilConsOperand.kind : CilConsOperand → CilConsKind
  | .u1 | .u2 | .u3 => .user
  | .r1 | .r2 | .r3 => .role
  | .t1 | .t2 | .t3 => .type
  | .l1 | .l2 | .h1 | .h2 => .level

/-- `cil_verify_constraint_leaf_expr_syntax`; on the right `none` is a string or a list. -/
def cilVerifyConstraintLeafExprSyntax (l : CilConsOperand) (r : Option CilConsOperand) (op : CilConsOp)
    (exprFlavor : CilConsFlavor) : Bool :=
  match r with
  | none =>
    if l = .l1 ∨ l = .l2 ∨ l = .h1 ∨ l = .h2 then false
    else if l = .u3 ∨ l = .r3 ∨ l = .t3 then exprFlavor = .validatetrans ∨ exprFlavor = .mlsvalidatetrans
    else true
  | some .u1 | some .r1 | some .t1 => false
  | some .u3 | some .r3 | some .t3 => false
  | some .u2 => if op ≠ .eq ∧ op ≠ .neq then false else l = .u1
  | some .r2 => l = .r1
  | some .t2 => if op ≠ .eq ∧ op ≠ .neq then false else l = .t1
  | some .l2 => l = .l1 ∨ l = .h1
  | some .h2 => l = .l1 ∨ l = .l2 ∨ l = .h1
  | some .h1 => l = .l1
  | some .l1 => true

/-- `cil_verify_constraint_expr_syntax`. -/
def cilVerifyConstraintExprSyntax (current : List CilParse) (op : CilConsOp) : Bool :=
  match op with
  | .not => cilVerifySyntax [cilSynString, cilSynList, cilSynEnd] current
  | .and | .or => cilVerifySyntax [cilSynString, cilSynList, cilSynList, cilSynEnd] current
  | .eq | .neq => cilVerifySyntax [cilSynString, cilSynString, cilSynString ||| cilSynList, cilSynEnd] current
  | .dom | .domby | .incomp => cilVerifySyntax [cilSynString, cilSynString, cilSynString, cilSynEnd] current

def CilParse.data : CilParse → Option CString
  | .string data => some data
  | .list _ => none

/-- `cil_fill_list`. -/
def cilFillList (current : List CilParse) : Option (List CString) :=
  if cilVerifySyntax [cilSynNStrings, cilSynEnd] current then current.mapM CilParse.data else none

/-- `__cil_fill_constraint_leaf_expr`; the nodes are the operands. -/
def cilFillConstraintLeafExpr (exprFlavor : CilConsFlavor) (op : CilConsOp) (left right : CilParse) :
    Option (CilConsExpr CString) :=
  match left.data.bind cilConstraintOperandFlavor with
  | none => none
  | some l =>
    let r := right.data.bind cilConstraintOperandFlavor
    if !cilVerifyConstraintLeafExprSyntax l r op exprFlavor then none
    else
      match r, right with
      | some o, _ => some (.leaf l.kind op l (.operand o))
      | none, .string name => some (.leaf l.kind op l (.name name))
      | none, .list cl => (cilFillList cl).map fun names => .leaf l.kind op l (.names names)

/-- `__cil_fill_constraint_expr`, on the list whose first node is the operator. -/
def cilFillConstraintExpr (flavor : CilConsFlavor) : CilParse → Option (CilConsExpr CString)
  | .list [.string op, x] =>
    match cilConstraintOperatorFlavor op with
    | some .not =>
      if cilVerifyConstraintExprSyntax [.string op, x] .not then (cilFillConstraintExpr flavor x).map .not else none
    | _ => none
  | .list [.string op, x, y] =>
    match cilConstraintOperatorFlavor op with
    | none => none
    | some op' =>
      if !cilVerifyConstraintExprSyntax [.string op, x, y] op' then none
      else if op' = .and ∨ op' = .or then do
        let l ← cilFillConstraintExpr flavor x
        let r ← cilFillConstraintExpr flavor y
        return .binary op' l r
      else cilFillConstraintLeafExpr flavor op' x y
  | _ => none

/-! ### Resolving the names -/

/-- The user, role or type of a value, or an attribute of them; only the `keep` of a type attribute is read. -/
inductive CilConsDatum where
  | value (value : Fin (2 ^ 31))
  | attr (fqn : CString) (keep : Bool) (members : Ebitmap) (canonical : members.Canonical)

/-- `cil_resolve_expr` on the operands of a comparison. -/
def cilResolveRight (resolveName : CString → Option CilConsDatum) :
    CilConsRight CString → Option (CilConsRight CilConsDatum)
  | .operand o => some (.operand o)
  | .name d => (resolveName d).map .name
  | .names ds => (ds.mapM resolveName).map .names

/-- `cil_resolve_expr`, where `cil_resolve_name` finds names by the kind of the list they are in. -/
def cilResolveExpr (resolveName : CilConsKind → CString → Option CilConsDatum) :
    CilConsExpr CString → Option (CilConsExpr CilConsDatum)
  | .leaf kind op l r => (cilResolveRight (resolveName kind) r).map (.leaf kind op l)
  | .not e => (cilResolveExpr resolveName e).map .not
  | .binary op l r => do
    let l ← cilResolveExpr resolveName l
    let r ← cilResolveExpr resolveName r
    return .binary op l r

/-! ### Writing the postfix list -/

/-- The parts of a `cil_db` that constraints use: the names of the datums in `val_to_user`, `val_to_role` and
`val_to_type`, and of classes. -/
structure CilConsDb where
  valToUser : Nat → CString
  valToRole : Nat → CString
  valToType : Nat → CString
  classFqn : CilClass → CString

def CilConsDb.valToFqn (db : CilConsDb) : CilConsKind → Nat → CString
  | .user => db.valToUser
  | .role => db.valToRole
  | .type => db.valToType
  | .level => fun _ => []

/-- `DATUM(item)->fqn`, of an item in a list of the kind. -/
def CilConsDb.fqn (db : CilConsDb) (kind : CilConsKind) : CilConsDatum → CString
  | .value value => db.valToFqn kind value
  | .attr fqn _ _ _ => fqn

/-- The value of the symbol that `__cil_get_sepol_user_datum`, `__cil_get_sepol_role_datum` or
`__cil_get_sepol_type_datum` finds. -/
def cilGetSepolValue (p : Policydb) (kind : CilConsKind) (fqn : CString) : Option Nat :=
  match kind with
  | .user => (hashtabSearch p.pUsers.table fqn).map UserDatum.value
  | .role => (hashtabSearch p.pRoles.table fqn).map RoleDatum.value
  | .type => (hashtabSearch p.pTypes.table fqn).map TypeDatum.value
  | .level => none

/-- `__cil_expand_user`, `__cil_expand_role` and `__cil_expand_type`. -/
def cilExpandDatum : CilConsDatum → Option Ebitmap
  | .attr _ _ members _ => some (ebitmapCpy members)
  | .value value => ebitmapSetBit ebitmapInit value true

/-- The part of `__cil_constrain_expr_datum_to_sepol_expr` about `type_names`, which only types have. -/
def cilConstrainTypeName (p : Policydb) (db : CilConsDb) (d : CilConsDatum) (exprFlavor : CilConsKind)
    (types : Ebitmap) : Option Ebitmap :=
  if exprFlavor = .type ∧ p.policyvers ≥ policydbVersionConstraintNames then
    match cilGetSepolValue p .type (db.fqn .type d), d with
    | some value, _ => ebitmapSetBit types (value - 1) true
    | none, .attr _ keep _ _ => if !keep then some types else none
    | none, .value _ => none
  else some types

/-- The loop of `__cil_constrain_expr_datum_to_sepol_expr` over the values of a datum. -/
def cilConstrainNames (p : Policydb) (db : CilConsDb) (kind : CilConsKind) : List Nat → Ebitmap → Option Ebitmap
  | [], names => some names
  | i :: rest, names => do
    let value ← cilGetSepolValue p kind (db.valToFqn kind i)
    let names ← ebitmapSetBit names (value - 1) true
    cilConstrainNames p db kind rest names

/-- `__cil_constrain_expr_datum_to_sepol_expr`. -/
def cilConstrainExprDatumToSepolExpr (p : Policydb) (db : CilConsDb) (d : CilConsDatum) (exprFlavor : CilConsKind)
    (expr : ConstraintExpr) : Option ConstraintExpr :=
  if exprFlavor = .level then none
  else do
    let types ← cilConstrainTypeName p db d exprFlavor expr.typeNames.types
    let bitmap ← cilExpandDatum d
    let names ← cilConstrainNames p db exprFlavor (ebitmapPositiveBits bitmap) expr.names
    return { expr with names := names, typeNames := { expr.typeNames with types := types } }

/-- The attribute that `__cil_constrain_expr_leaf_to_sepol_expr` gives a comparison. -/
def cilConstrainLeafAttr {δ : Type} : CilConsOperand → CilConsRight δ → Option (BitVec 32)
  | .u1, _ => some cexprUser
  | .u2, _ => some (cexprUser ||| cexprTarget)
  | .u3, _ => some (cexprUser ||| cexprXtarget)
  | .r1, _ => some cexprRole
  | .r2, _ => some (cexprRole ||| cexprTarget)
  | .r3, _ => some (cexprRole ||| cexprXtarget)
  | .t1, _ => some cexprType
  | .t2, _ => some (cexprType ||| cexprTarget)
  | .t3, _ => some (cexprType ||| cexprXtarget)
  | .l1, .operand .l2 => some cexprL1L2
  | .l1, .operand .h1 => some cexprL1H1
  | .l1, _ => some cexprL1H2
  | .l2, _ => some cexprL2H2
  | .h1, .operand .l2 => some cexprH1L2
  | .h1, _ => some cexprH1H2
  | .h2, _ => none

/-- The operator of a comparison; `none` is no operator of a comparison. -/
def CilConsOp.cexprOp : CilConsOp → Option Nat
  | .eq => some cexprOpEq
  | .neq => some cexprOpNeq
  | .dom => some cexprOpDom
  | .domby => some cexprOpDomby
  | .incomp => some cexprOpIncomp
  | _ => none

/-- `constraint_expr_init`. -/
def constraintExprInit : ConstraintExpr := ⟨0, 0, 0, ebitmapInit, ⟨ebitmapInit, ebitmapInit, 0⟩⟩

/-- `__cil_constrain_expr_leaf_to_sepol_expr`, with the operator that the caller has set. -/
def cilConstrainExprLeafToSepolExpr (p : Policydb) (db : CilConsDb) (kind : CilConsKind) (op : Nat)
    (l : CilConsOperand) (r : CilConsRight CilConsDatum) : Option ConstraintExpr := do
  let attr ← cilConstrainLeafAttr l r
  let expr := { constraintExprInit with op := op, attr := attr }
  match r with
  | .operand _ => some { expr with exprType := cexprAttr }
  | .name d => cilConstrainExprDatumToSepolExpr p db d kind { expr with exprType := cexprNames }
  | .names ds =>
    ds.foldlM (fun expr d => cilConstrainExprDatumToSepolExpr p db d kind expr) { expr with exprType := cexprNames }

/-- `__cil_constrain_expr_to_sepol_expr_helper`. -/
def cilConstrainExprToSepolExpr (p : Policydb) (db : CilConsDb) :
    CilConsExpr CilConsDatum → Option (List ConstraintExpr)
  | .leaf kind op l r => do
    let op ← op.cexprOp
    let expr ← cilConstrainExprLeafToSepolExpr p db kind op l r
    return [expr]
  | .not e => do
    let h1 ← cilConstrainExprToSepolExpr p db e
    return h1 ++ [{ constraintExprInit with exprType := cexprNot }]
  | .binary op l r =>
    match op with
    | .and => do
      let h1 ← cilConstrainExprToSepolExpr p db l
      let h2 ← cilConstrainExprToSepolExpr p db r
      return h1 ++ h2 ++ [{ constraintExprInit with exprType := cexprAnd }]
    | .or => do
      let h1 ← cilConstrainExprToSepolExpr p db l
      let h2 ← cilConstrainExprToSepolExpr p db r
      return h1 ++ h2 ++ [{ constraintExprInit with exprType := cexprOr }]
    | _ => none

/-- `__cil_validate_constrain_expr`. -/
def cilValidateConstrainExprFrom : Int → List ConstraintExpr → Bool
  | depth, [] => depth = 0
  | depth, e :: next =>
    match e.exprType with
    | cexprNot => if depth < 0 then false else cilValidateConstrainExprFrom depth next
    | cexprAnd | cexprOr => if depth < 1 then false else cilValidateConstrainExprFrom (depth - 1) next
    | cexprAttr | cexprNames =>
      if depth = cexprMaxdepth - 1 then false else cilValidateConstrainExprFrom (depth + 1) next
    | _ => false

def cilValidateConstrainExpr (expr : List ConstraintExpr) : Bool := cilValidateConstrainExprFrom (-1) expr

/-- The checks of `read_cons_helper` on the entries of one node. -/
def readConsExprFrom (allowxtarget : Bool) : Int → List ConstraintExpr → Bool
  | depth, [] => depth = 0
  | depth, e :: next =>
    match e.exprType with
    | cexprNot => if depth < 0 then false else readConsExprFrom allowxtarget depth next
    | cexprAnd | cexprOr => if depth < 1 then false else readConsExprFrom allowxtarget (depth - 1) next
    | cexprAttr => if depth = cexprMaxdepth - 1 then false else readConsExprFrom allowxtarget (depth + 1) next
    | cexprNames =>
      if !allowxtarget ∧ e.attr &&& cexprXtarget ≠ 0 then false
      else if depth = cexprMaxdepth - 1 then false
      else readConsExprFrom allowxtarget (depth + 1) next
    | _ => false

/-- `read_cons_helper`, on nodes whose bytes are read. -/
def readConsHelper (allowxtarget : Bool) (nodes : List ConstraintNode) : Bool :=
  nodes.all fun c => readConsExprFrom allowxtarget (-1) c.expr

/-! ### Constraints of classes -/

/-- `__perm_str_to_datum`; a class without a common has its permissions in its own table. -/
def permStrToDatum (permStr : CString) (cls : ClassDatum) (datum : BitVec 32) : Option (BitVec 32) := do
  let perm ← (hashtabSearch cls.permissions.table permStr).or
    (cls.comdatum.bind fun common => hashtabSearch common.permissions.table permStr)
  return datum ||| 1#32 <<< (perm.value - 1)

/-- `__cil_perms_to_datum`. -/
def cilPermsToDatum (perms : List CilPerm) (cls : ClassDatum) : Option (BitVec 32) :=
  perms.foldlM (fun datum perm => permStrToDatum perm.fqn cls datum) 0

/-- A node that is put in front of the constraints, or the validatetrans rules, of a class. -/
structure CilClassConstraint where
  cls : ClassDatum
  node : ConstraintNode

/-- `cil_constrain_to_policydb_helper`: no rule is inserted when there are no permissions. -/
def cilConstrainToPolicydbHelper (p : Policydb) (db : CilConsDb) (cls : CilClass) (perms : List CilPerm)
    (expr : CilConsExpr CilConsDatum) : Option (List CilClassConstraint) := do
  let sepolClass ← hashtabSearch p.pClasses.table (db.classFqn cls)
  let permissions ← cilPermsToDatum perms sepolClass
  if permissions = 0 then return []
  else
    let sepolExpr ← cilConstrainExprToSepolExpr p db expr
    if cilValidateConstrainExpr sepolExpr then return [⟨sepolClass, ⟨permissions, sepolExpr⟩⟩] else none

mutual

/-- `cil_constrain_expand`: the nodes in the order of their insertion. -/
def cilConstrainExpand (p : Policydb) (db : CilConsDb) (expr : CilConsExpr CilConsDatum) :
    List CilClassperms → Option (List CilClassConstraint)
  | [] => some []
  | curr :: rest => do
    let nodes ← cilConstrainExpandItem p db expr curr
    let next ← cilConstrainExpand p db expr rest
    return nodes ++ next

def cilConstrainExpandItem (p : Policydb) (db : CilConsDb) (expr : CilConsExpr CilConsDatum) :
    CilClassperms → Option (List CilClassConstraint)
  | .classperms _ cls _ perms => cilConstrainToPolicydbHelper p db cls perms expr
  | .mapClassperms _ _ _ perms => cilConstrainExpandMap p db expr perms
  | .classpermsSet _ set => cilConstrainExpand p db expr set

def cilConstrainExpandMap (p : Policydb) (db : CilConsDb) (expr : CilConsExpr CilConsDatum) :
    List CilMapPerm → Option (List CilClassConstraint)
  | [] => some []
  | .mk _ classperms :: rest => do
    let nodes ← cilConstrainExpand p db expr classperms
    let next ← cilConstrainExpandMap p db expr rest
    return nodes ++ next

end

mutual

/-- `__add_classes_from_classperms_list`. -/
def addClassesFromClassperms : List CilClassperms → List CilClass
  | [] => []
  | curr :: rest => addClassesFromItem curr ++ addClassesFromClassperms rest

def addClassesFromItem : CilClassperms → List CilClass
  | .classperms _ cls _ _ => [cls]
  | .mapClassperms _ _ _ perms => addClassesFromMapPerms perms
  | .classpermsSet _ set => addClassesFromClassperms set

def addClassesFromMapPerms : List CilMapPerm → List CilClass
  | [] => []
  | .mk _ classperms :: rest => addClassesFromClassperms classperms ++ addClassesFromMapPerms rest

end

/-- A class, or a class map with its permissions. -/
inductive CilClassOrMap where
  | cls (cls : CilClass)
  | map (perms : List CilMapPerm)

/-- `cil_expand_class`. -/
def cilExpandClass : CilClassOrMap → List CilClass
  | .cls cls => [cls]
  | .map perms => addClassesFromMapPerms perms

/-- The loop of `cil_validatetrans_to_policydb` over the classes. -/
def cilValidatetransToPolicydb (p : Policydb) (db : CilConsDb) (expr : CilConsExpr CilConsDatum) :
    List CilClass → Option (List CilClassConstraint)
  | [] => some []
  | c :: rest => do
    let sepolClass ← hashtabSearch p.pClasses.table (db.classFqn c)
    let sepolExpr ← cilConstrainExprToSepolExpr p db expr
    let next ← cilValidatetransToPolicydb p db expr rest
    return ⟨sepolClass, ⟨0, sepolExpr⟩⟩ :: next

/-! ### Statements -/

/-- A constrain or validatetrans statement, or the MLS form of one, with its resolved expression. -/
inductive CilConstraint where
  | constrain (mls : Bool) (classperms : List CilClassperms) (datumExpr : CilConsExpr CilConsDatum)
  | validatetrans (mls : Bool) (cls : CilClassOrMap) (datumExpr : CilConsExpr CilConsDatum)

def CilConstraint.flavor : CilConstraint → CilConsFlavor
  | .constrain mls _ _ => if mls then .mlsconstrain else .constrain
  | .validatetrans mls _ _ => if mls then .mlsvalidatetrans else .validatetrans

def CilConstraint.datumExpr : CilConstraint → CilConsExpr CilConsDatum
  | .constrain _ _ datumExpr => datumExpr
  | .validatetrans _ _ datumExpr => datumExpr

/-- The part of `__cil_node_to_policydb` about constraints: the nodes that a statement adds. -/
def CilConstraint.toPolicydb (p : Policydb) (db : CilConsDb) : CilConstraint → Option (List CilClassConstraint)
  | .constrain mls classperms datumExpr =>
    if mls && !p.mls then some [] else cilConstrainExpand p db datumExpr classperms
  | .validatetrans mls cls datumExpr =>
    if mls && !p.mls then some [] else cilValidatetransToPolicydb p db datumExpr (cilExpandClass cls)

/-- The front end builds the expression from a part of the parse tree, and resolves the names in it. -/
def CilConstraint.Accepted (resolveName : CilConsKind → CString → Option CilConsDatum) (stmt : CilConstraint) :
    Prop :=
  ∃ current strExpr, cilFillConstraintExpr stmt.flavor current = some strExpr ∧
    cilResolveExpr resolveName strExpr = some stmt.datumExpr

end Sepol
