import Sepol.Policydb

/-!
# Neverallow checks

The functions of `assertion.c`.  `check_assertion` decides whether a neverallow rule is violated, and
`report_assertion_failures` counts the violations; `check_assertions` runs the second pass only for the rules for
which the first one finds one, and returns what the second one counts.  The texts of the reports and the returns for a
lack of memory are left out.
-/

namespace Sepol

abbrev avruleNeverallow : BitVec 32 := 0x0080
abbrev avruleXpermsNeverallow : BitVec 32 := 0x0800
abbrev avruleXpermsIoctlfunction : BitVec 8 := 0x01
abbrev avruleXpermsIoctldriver : BitVec 8 := 0x02
abbrev avruleXpermsNlmsg : BitVec 8 := 0x03

abbrev ruleSelf : BitVec 32 := 1
abbrev ruleNotself : BitVec 32 := 2

structure TypeSet where
  types : Ebitmap

structure ClassPermNode where
  tclass : Nat
  data : BitVec 32

structure AvExtendedPerms where
  specified : BitVec 8
  driver : BitVec 8
  perms : Fin extendedPermsLen → BitVec 32

structure Avrule where
  specified : BitVec 32
  flags : BitVec 32
  stypes : TypeSet
  ttypes : TypeSet
  perms : List ClassPermNode
  xperms : AvExtendedPerms

def Avrule.isSelf (narule : Avrule) : Bool := narule.flags &&& ruleSelf ≠ 0

def Avrule.isNotself (narule : Avrule) : Bool := narule.flags &&& ruleNotself ≠ 0

structure AvtabMatchArgs where
  p : Policydb
  narule : Avrule
  errors : Nat
  conditional : Bool

/-- Assignment to an `unsigned long`. -/
def uint64 (n : Nat) : Nat := n % 2 ^ 64

theorem uint64_of_lt {n : Nat} (h : n < 2 ^ 64) : uint64 n = n := Nat.mod_eq_of_lt h

/-- Conversion to an `int`. -/
def int32 (n : Nat) : Int := (BitVec.ofNat 32 n).toInt

/-! ### Matching -/

def matchAnyClassPermissions (cp : List ClassPermNode) (cls : Nat) (data : BitVec 32) : Bool :=
  cp.any fun cp => cp.tclass = cls && cp.data &&& data ≠ 0

def extendedPermissionsAnd (perms1 perms2 : Fin extendedPermsLen → BitVec 32) : Bool :=
  (List.finRange extendedPermsLen).any fun i => perms1 i &&& perms2 i ≠ 0

def checkExtendedPermissions (neverallow : AvExtendedPerms) (allow : AvtabExtendedPerms) : Bool :=
  if neverallow.specified = avruleXpermsIoctlfunction && allow.specified = avtabXpermsIoctlfunction then
    neverallow.driver = allow.driver && extendedPermissionsAnd neverallow.perms allow.perms
  else if neverallow.specified = avruleXpermsIoctlfunction && allow.specified = avtabXpermsIoctldriver then
    xpermTest neverallow.driver allow.perms
  else if neverallow.specified = avruleXpermsIoctldriver && allow.specified = avtabXpermsIoctlfunction then
    xpermTest allow.driver neverallow.perms
  else if neverallow.specified = avruleXpermsIoctldriver && allow.specified = avtabXpermsIoctldriver then
    extendedPermissionsAnd neverallow.perms allow.perms
  else if neverallow.specified = avruleXpermsNlmsg && allow.specified = avtabXpermsNlmsg then
    neverallow.driver = allow.driver && extendedPermissionsAnd neverallow.perms allow.perms
  else false

def matchNodeKey (node : AvtabNode) (key : AvtabKey) : Bool :=
  node.key.sourceType = key.sourceType && node.key.targetType = key.targetType &&
    node.key.targetClass = key.targetClass

/-- `src_matches` of the functions that enumerate pairs of types. -/
def srcMatches (p : Policydb) (narule : Avrule) (k : AvtabKey) : Ebitmap :=
  ebitmapAnd narule.stypes.types (p.attrTypeMap (k.sourceType.toNat - 1))

/-- `tgt_matches` of the functions that enumerate pairs of types. -/
def tgtMatches (p : Policydb) (narule : Avrule) (k : AvtabKey) : Ebitmap :=
  let target := p.attrTypeMap (k.targetType.toNat - 1)
  if narule.isNotself then
    if ebitmapIsEmpty narule.ttypes.types then ebitmapCpy target else ebitmapAnd narule.ttypes.types target
  else
    let tgt := ebitmapAnd narule.ttypes.types target
    if narule.isSelf then
      let selfMatches := ebitmapAnd (srcMatches p narule k) target
      if !ebitmapIsEmpty selfMatches then ebitmapUnion tgt selfMatches else tgt
    else tgt

/-- The pairs that the enumerations skip. -/
def skipsPair (narule : Avrule) (i j : Nat) : Bool :=
  narule.isSelf && i ≠ j || narule.isNotself && i = j

/-- The kinds of extended permissions that the loops look at. -/
def xpermsKnown (xperms : AvtabExtendedPerms) : Bool :=
  xperms.specified = avtabXpermsIoctlfunction || xperms.specified = avtabXpermsIoctldriver ||
    xperms.specified = avtabXpermsNlmsg

/-- `tmp_key` for a pair of attributes. -/
def xpermsKey (k : AvtabKey) (i j : Nat) : AvtabKey :=
  { k with
    sourceType := BitVec.ofNat 16 (i + 1)
    targetType := BitVec.ofNat 16 (j + 1)
    specified := avtabXpermsAllowed }

/-! ### The reporting pass -/

structure ReportXpermState where
  foundXperm : Bool
  foundCondConflict : Bool
  errors : Nat

/-- The loop of `report_assertion_extended_permissions` over the unconditional rules. -/
def reportXpermNodes (narule : Avrule) (st : ReportXpermState) (nodes : List AvtabNode) : ReportXpermState :=
  nodes.foldl (fun st node =>
    let xperms := node.datum.xperms
    if !xpermsKnown xperms then st
    else if checkExtendedPermissions narule.xperms xperms then
      { st with foundXperm := true, errors := st.errors + 1 }
    else { st with foundXperm := true }) st

/-- The loop over the true or the false list of a conditional, on `found_base`, `found_xperm` and `errors`. -/
def reportXpermCondList (narule : Avrule) (tmpKey : AvtabKey) (errors : Nat) (nodes : List (Option AvtabNode)) :
    Bool × Bool × Nat :=
  nodes.foldl (fun st node =>
    match node with
    | none => st
    | some node =>
      let xperms := node.datum.xperms
      if !matchNodeKey node tmpKey then st
      else if matchAnyClassPermissions narule.perms node.key.targetClass.toNat node.datum.data then
        (true, st.2.1, st.2.2)
      else if !hasSpecified node.key.specified avtabXpermsAllowed then st
      else if !xpermsKnown xperms then st
      else if checkExtendedPermissions narule.xperms xperms then (st.1, true, st.2.2 + 1)
      else (st.1, true, st.2.2)) (false, false, errors)

def reportXpermCondNode (p : Policydb) (narule : Avrule) (conditional : Bool) (tmpKey : AvtabKey)
    (st : ReportXpermState) (cl : CondNode) : ReportXpermState :=
  let (foundTrueBase, foundTrueXperm, errors) :=
    reportXpermCondList narule tmpKey st.errors (cl.trueList.map (condNodeAt p))
  let (foundFalseBase, foundFalseXperm, errors) :=
    reportXpermCondList narule tmpKey errors (cl.falseList.map (condNodeAt p))
  if foundTrueXperm && foundFalseXperm then { st with foundXperm := true, errors := errors }
  else if conditional && (foundTrueBase && !foundTrueXperm || foundFalseBase && !foundFalseXperm) then
    { st with foundCondConflict := true, errors := errors }
  else { st with errors := errors }

def reportAssertionExtendedPermissions (p : Policydb) (narule : Avrule) (stype ttype : Nat) (k : AvtabKey)
    (conditional : Bool) : Nat :=
  let st := (ebitmapPositiveBits (p.typeAttrMap stype)).foldl (fun st i =>
    (ebitmapPositiveBits (p.typeAttrMap ttype)).foldl (fun st j =>
      let tmpKey := xpermsKey k i j
      p.condList.foldl (reportXpermCondNode p narule conditional tmpKey)
        (reportXpermNodes narule st (avtabSearchNodes p.teAvtab tmpKey))) st) ⟨false, false, 0⟩
  if !st.foundXperm && !conditional || st.foundCondConflict then st.errors + 1 else st.errors

/-- The body of the loops over a pair of types. -/
def reportPair (k : AvtabKey) (i : Nat) (a : AvtabMatchArgs) (j : Nat) : AvtabMatchArgs :=
  if skipsPair a.narule i j then a
  else if a.narule.specified = avruleXpermsNeverallow then
    { a with errors :=
        uint64 (a.errors + reportAssertionExtendedPermissions a.p a.narule i j k a.conditional) }
  else { a with errors := uint64 (a.errors + 1) }

def reportAssertionAvtabMatches (k : AvtabKey) (d : AvtabDatum) (a : AvtabMatchArgs) : Int × AvtabMatchArgs :=
  if !hasSpecified k.specified avtabAllowed then (0, a)
  else if !matchAnyClassPermissions a.narule.perms k.targetClass.toNat d.data then (0, a)
  else
    let src := srcMatches a.p a.narule k
    let tgt := tgtMatches a.p a.narule k
    if ebitmapIsEmpty src then (0, a)
    else if ebitmapIsEmpty tgt then (0, a)
    else
      (0, a.narule.perms.foldl (fun a cp =>
        if cp.tclass ≠ k.targetClass.toNat || cp.data &&& d.data = 0 then a
        else (ebitmapPositiveBits src).foldl (fun a i => (ebitmapPositiveBits tgt).foldl (reportPair k i) a) a) a)

/-- The errors that `report_assertion_failures` counts. -/
def reportErrors (p : Policydb) (narule : Avrule) : Nat :=
  let a := (avtabMap p.teAvtab reportAssertionAvtabMatches ⟨p, narule, 0, false⟩).2
  (avtabMap p.teCondAvtab reportAssertionAvtabMatches { a with conditional := true }).2.errors

def reportAssertionFailures (p : Policydb) (narule : Avrule) : Int :=
  let (rc, a) := avtabMap p.teAvtab reportAssertionAvtabMatches ⟨p, narule, 0, false⟩
  if rc < 0 then rc
  else
    let (rc, a) := avtabMap p.teCondAvtab reportAssertionAvtabMatches { a with conditional := true }
    if rc < 0 then rc else int32 a.errors

/-! ### The fast pass -/

structure XpermState where
  foundXperm : Bool
  foundCondConflict : Bool

/-- The loop of `check_assertion_extended_permissions_avtab` over the unconditional rules, on `found_xperm`.  In this
loop and the next ones, `none` stands for the early return. -/
def checkXpermNodes (narule : Avrule) (foundXperm : Bool) (nodes : List AvtabNode) : Option Bool :=
  nodes.foldlM (fun found node =>
    let xperms := node.datum.xperms
    if !xpermsKnown xperms then some found
    else if checkExtendedPermissions narule.xperms xperms then none
    else some true) foundXperm

/-- The body of the loop over the true or the false list of a conditional, on `found_base` and `found_xperm`. -/
def checkXpermCondStep (narule : Avrule) (tmpKey : AvtabKey) (st : Bool × Bool) (node : Option AvtabNode) :
    Option (Bool × Bool) :=
  match node with
  | none => some st
  | some node =>
    let xperms := node.datum.xperms
    if !matchNodeKey node tmpKey then some st
    else if hasSpecified node.key.specified avtabAllowed &&
        matchAnyClassPermissions narule.perms node.key.targetClass.toNat node.datum.data then some (true, st.2)
    else if !hasSpecified node.key.specified avtabXpermsAllowed then some st
    else if !xpermsKnown xperms then some st
    else if checkExtendedPermissions narule.xperms xperms then none
    else some (st.1, true)

def checkXpermCondList (narule : Avrule) (tmpKey : AvtabKey) (nodes : List (Option AvtabNode)) :
    Option (Bool × Bool) :=
  nodes.foldlM (checkXpermCondStep narule tmpKey) (false, false)

def checkXpermCondNode (p : Policydb) (narule : Avrule) (conditional : Bool) (tmpKey : AvtabKey) (st : XpermState)
    (cl : CondNode) : Option XpermState := do
  let (foundTrueBase, foundTrueXperm) ← checkXpermCondList narule tmpKey (cl.trueList.map (condNodeAt p))
  let (foundFalseBase, foundFalseXperm) ← checkXpermCondList narule tmpKey (cl.falseList.map (condNodeAt p))
  if foundTrueXperm && foundFalseXperm then some { st with foundXperm := true }
  else if conditional && (foundTrueBase && !foundTrueXperm || foundFalseBase && !foundFalseXperm) then
    some { st with foundCondConflict := true }
  else some st

/-- The body of the loops over a pair of attributes. -/
def checkXpermPair (p : Policydb) (narule : Avrule) (conditional : Bool) (k : AvtabKey) (i : Nat) (st : XpermState)
    (j : Nat) : Option XpermState := do
  let tmpKey := xpermsKey k i j
  let found ← checkXpermNodes narule st.foundXperm (avtabSearchNodes p.teAvtab tmpKey)
  p.condList.foldlM (checkXpermCondNode p narule conditional tmpKey) { st with foundXperm := found }

def checkAssertionExtendedPermissionsAvtab (narule : Avrule) (stype ttype : Nat) (k : AvtabKey) (p : Policydb)
    (conditional : Bool) : Bool :=
  match (ebitmapPositiveBits (p.typeAttrMap stype)).foldlM (fun st i =>
      (ebitmapPositiveBits (p.typeAttrMap ttype)).foldlM (checkXpermPair p narule conditional k i) st)
      ⟨false, false⟩ with
  | none => true
  | some st => !conditional && !st.foundXperm || st.foundCondConflict

def checkAssertionExtendedPermissions (narule : Avrule) (k : AvtabKey) (p : Policydb) (conditional : Bool) : Int :=
  let src := srcMatches p narule k
  let tgt := tgtMatches p narule k
  if ebitmapIsEmpty src then 0
  else if ebitmapIsEmpty tgt then 0
  else if (ebitmapPositiveBits src).any fun i => (ebitmapPositiveBits tgt).any fun j =>
      !skipsPair narule i j && checkAssertionExtendedPermissionsAvtab narule i j k p conditional then 1
  else 0

def checkAssertionNotselfMatch (k : AvtabKey) (narule : Avrule) (p : Policydb) : Int :=
  let target := p.attrTypeMap (k.targetType.toNat - 1)
  let src := ebitmapAnd narule.stypes.types (p.attrTypeMap (k.sourceType.toNat - 1))
  let tgt :=
    if ebitmapIsEmpty narule.ttypes.types then ebitmapCpy target else ebitmapAnd narule.ttypes.types target
  let numSrc := ebitmapCardinality src
  let numTgt := ebitmapCardinality tgt
  if numSrc = 0 || numTgt = 0 then 0
  else if numSrc = 1 && numTgt = 1 && ebitmapCardinality (ebitmapAnd src tgt) = 1 then 0
  else 1

def checkAssertionSelfMatch (k : AvtabKey) (narule : Avrule) (p : Policydb) : Int :=
  let src := ebitmapAnd narule.stypes.types (p.attrTypeMap (k.sourceType.toNat - 1))
  if !ebitmapMatchAny src (p.attrTypeMap (k.targetType.toNat - 1)) then 0 else 1

/-- The tests of `check_assertion_avtab_match` on the target of the key. -/
def targetMatches (k : AvtabKey) (narule : Avrule) (p : Policydb) : Bool :=
  if narule.isNotself then checkAssertionNotselfMatch k narule p ≠ 0
  else if !ebitmapMatchAny narule.ttypes.types (p.attrTypeMap (k.targetType.toNat - 1)) then
    if narule.flags = ruleSelf then checkAssertionSelfMatch k narule p ≠ 0 else false
  else true

def checkAssertionAvtabMatch (k : AvtabKey) (d : AvtabDatum) (a : AvtabMatchArgs) : Int × AvtabMatchArgs :=
  if !hasSpecified k.specified avtabAllowed then (0, a)
  else if !matchAnyClassPermissions a.narule.perms k.targetClass.toNat d.data then (0, a)
  else if !ebitmapMatchAny a.narule.stypes.types (a.p.attrTypeMap (k.sourceType.toNat - 1)) then (0, a)
  else if !targetMatches k a.narule a.p then (0, a)
  else if a.narule.specified = avruleXpermsNeverallow then
    if checkAssertionExtendedPermissions a.narule k a.p a.conditional = 0 then (0, a) else (1, a)
  else (1, a)

def checkAssertion (p : Policydb) (narule : Avrule) : Int :=
  let (rc, a) := avtabMap p.teAvtab checkAssertionAvtabMatch ⟨p, narule, 0, false⟩
  if rc = 0 then (avtabMap p.teCondAvtab checkAssertionAvtabMatch { a with conditional := true }).1 else rc

/-- The loop of `check_assertions` over the rules and the code behind it. -/
def checkAssertionsFrom (p : Policydb) : List Avrule → Nat → Int
  | [], errors => if errors ≠ 0 then -1 else 0
  | a :: rest, errors =>
    if a.specified &&& (avruleNeverallow ||| avruleXpermsNeverallow) = 0 then checkAssertionsFrom p rest errors
    else
      let rc := checkAssertion p a
      if rc < 0 then -1
      else if rc ≠ 0 then
        let rc := reportAssertionFailures p a
        if rc < 0 then -1 else checkAssertionsFrom p rest (uint64 (errors + rc.toNat))
      else checkAssertionsFrom p rest errors

def checkAssertions (p : Policydb) (narules : List Avrule) : Int := checkAssertionsFrom p narules 0

end Sepol
