import Sepol.CondRead
import Sepol.ModuleFile

/-!
# Rules in a module file

The writers and readers of the access vector rules, conditionals, role, name and range transitions of a declaration,
and for each of them what it takes to survive.  The line numbers of a rule, the module that a declaration comes from,
and what `cond_normalize_expr` stores in a conditional are not written and left out.
-/

namespace Sepol.ModuleFile

open RoundTrip

/-- `POLICY_BASE` and `POLICY_MOD`. -/
inductive PolicyType where
  | base
  | mod
deriving DecidableEq

inductive TargetPlatform where
  | selinux
  | xen
deriving DecidableEq

/-- The policy whose blocks are written and read: what the writers and readers look up in it. -/
structure ModulePolicydb where
  policyType : PolicyType
  targetPlatform : TargetPlatform
  /-- the names in `p_commons` -/
  pCommons : List Name
  /-- `p_bools.nprim` -/
  pBoolsNprim : Word

/-! ### Access vector rules -/

structure ClassPermNode where
  tclass : Word
  data : Word

/-- `av_extended_perms_t` has the fields of `avtab_extended_perms_t`. -/
abbrev AvExtendedPerms : Type := AvtabExtendedPerms

structure Avrule where
  specified : Word
  flags : Word
  stypes : TypeSet
  ttypes : TypeSet
  perms : List ClassPermNode
  xperms : Option AvExtendedPerms

/-- `AVRULE_XPERMS`, which has a bit for neverallow rules. -/
abbrev avruleXperms : Word := 0x0f00

def Avrule.hasXperms (specified : Word) : Bool := specified &&& avruleXperms ≠ 0

def classPermWrite (cur : ClassPermNode) : Put Byte := putAll [wordWrite cur.tclass, wordWrite cur.data]

def classPermRead : Reader Byte ClassPermNode := do
  let tclass ← wordRead
  let data ← wordRead
  return ⟨tclass, data⟩

/-- The part of `avrule_write` for extended permissions; the last case reads a `NULL` pointer. -/
def xpermsWrite (p : ModulePolicydb) (specified : Word) (xperms : Option AvExtendedPerms) : Put Byte :=
  if Avrule.hasXperms specified then
    match xperms with
    | some x => putAll [putCheck (p.targetPlatform = .selinux), byteWrite x.specified, byteWrite x.driver,
        putAll (List.ofFn fun i => wordWrite (x.perms i))]
    | none => none
  else putAll []

/-- The part of `avrule_read` for extended permissions. -/
def xpermsRead (p : ModulePolicydb) (specified : Word) : Reader Byte (Option AvExtendedPerms) :=
  if Avrule.hasXperms specified then do
    guard (p.targetPlatform = .selinux)
    let specified ← byteRead
    let driver ← byteRead
    let perms ← readFin wordRead extendedPermsLen
    return some ⟨specified, driver, perms⟩
  else pure none

def avruleWrite (p : ModulePolicydb) (avrule : Avrule) : Put Byte :=
  putAll [wordWrite avrule.specified, wordWrite avrule.flags, typeSetWrite avrule.stypes, typeSetWrite avrule.ttypes,
    listWrite classPermWrite avrule.perms, xpermsWrite p avrule.specified avrule.xperms]

def avruleRead (p : ModulePolicydb) : Reader Byte Avrule := do
  let specified ← wordRead
  let flags ← wordRead
  let stypes ← typeSetRead
  let ttypes ← typeSetRead
  let perms ← listRead classPermRead
  let xperms ← xpermsRead p specified
  return ⟨specified, flags, stypes, ttypes, perms, xperms⟩

def avruleWriteList (p : ModulePolicydb) : List Avrule → Put Byte := listWrite (avruleWrite p)

def avruleReadList (p : ModulePolicydb) : Reader Byte (List Avrule) := listRead (avruleRead p)

/-- Extended permissions stand in the rules of their kinds and in no others, and only for SELinux. -/
structure Avrule.Storable (p : ModulePolicydb) (avrule : Avrule) : Prop where
  perms : avrule.perms.length < 2 ^ 32
  isSome : avrule.xperms.isSome = Avrule.hasXperms avrule.specified
  platform : avrule.xperms.isSome → p.targetPlatform = .selinux

private theorem classPerm_survivesIff (cur : ClassPermNode) :
    SurvivesIff True (classPermWrite cur) classPermRead fun x => x = cur :=
  .exact (word_survivesIff _) <| .exact (word_survivesIff _) <| .done rfl

private theorem xperms_survivesIff (p : ModulePolicydb) (specified : Word) (xperms : Option AvExtendedPerms) :
    SurvivesIff (xperms.isSome = Avrule.hasXperms specified ∧ (xperms.isSome → p.targetPlatform = .selinux))
      (xpermsWrite p specified xperms) (xpermsRead p specified) fun x => x = xperms := by
  unfold xpermsWrite xpermsRead
  cases hspec : Avrule.hasXperms specified with
  | false =>
    cases xperms with
    | none => exact .congr (.done rfl) (by simp)
    | some x =>
      refine .done_iff ?_
      simp
  | true =>
    cases xperms with
    | none => exact ⟨fun h => by simp at h, fun _ out hout => by simp at hout⟩
    | some x =>
      refine .congr (.checked fun hp => .guarded fun _ => .exact (byte_survivesIff _) <|
        .exact (byte_survivesIff _) <|
        .exact (.fin fun i => word_survivesIff (x.perms i)) <| .done rfl) ?_
      simp

private theorem avrule_survivesIff (p : ModulePolicydb) (avrule : Avrule) :
    SurvivesIff (avrule.Storable p) (avruleWrite p avrule) (avruleRead p) fun x => x = avrule := by
  refine .congr (.exact (word_survivesIff _) <| .exact (word_survivesIff _) <| .exact (typeSet_survivesIff _) <|
    .exact (typeSet_survivesIff _) <|
    .cons_eq (list_survivesIff_exact classPerm_survivesIff) (fun _ => .bind fun _ => .pure (congrArg Avrule.perms)) <|
    .cons_eq (xperms_survivesIff ..) (fun _ => .pure (congrArg Avrule.xperms)) <| .done rfl) ?_
  constructor
  · rintro ⟨hperms, ⟨hsome, hplatform⟩, _⟩
    exact ⟨hperms, hsome, hplatform⟩
  · rintro ⟨hperms, hsome, hplatform⟩
    exact ⟨hperms, ⟨hsome, hplatform⟩, trivial⟩

theorem avruleList_survivesIff (p : ModulePolicydb) (avrules : List Avrule) :
    SurvivesIff (avrules.length < 2 ^ 32 ∧ ∀ avrule ∈ avrules, avrule.Storable p) (avruleWriteList p avrules)
      (avruleReadList p) fun xs => xs = avrules :=
  list_survivesIff_eq (avrule_survivesIff p)

/-! ### Conditionals -/

structure CondExpr where
  exprType : Word
  boolean : Word

/-- A `cond_node_t` of a module: `cur_state` is an `int`. -/
structure CondNode where
  curState : Word
  expr : List CondExpr
  avtrueList : List Avrule
  avfalseList : List Avrule
  flags : Word

def condExprWrite (cur : CondExpr) : Put Byte := putAll [wordWrite cur.exprType, wordWrite cur.boolean]

/-- `expr_isvalid`. -/
def exprIsvalid (p : ModulePolicydb) (expr : CondExpr) : Bool :=
  !(expr.exprType.toNat = 0 || expr.exprType.toNat > condLast) && !(expr.boolean > p.pBoolsNprim)

def condExprRead (p : ModulePolicydb) : Reader Byte CondExpr := do
  let exprType ← wordRead
  let boolean ← wordRead
  guard (exprIsvalid p ⟨exprType, boolean⟩)
  return ⟨exprType, boolean⟩

def condWriteNode (p : ModulePolicydb) (node : CondNode) : Put Byte :=
  putAll [wordWrite node.curState, listWrite condExprWrite node.expr, avruleWriteList p node.avtrueList,
    avruleWriteList p node.avfalseList, wordWrite node.flags]

def condReadNode (p : ModulePolicydb) : Reader Byte CondNode := do
  let curState ← wordRead
  let expr ← listRead (condExprRead p)
  let avtrueList ← avruleReadList p
  let avfalseList ← avruleReadList p
  let flags ← wordRead
  return ⟨curState, expr, avtrueList, avfalseList, flags⟩

def condWriteList (p : ModulePolicydb) : List CondNode → Put Byte := listWrite (condWriteNode p)

def condReadList (p : ModulePolicydb) : Reader Byte (List CondNode) := listRead (condReadNode p)

structure CondNode.Storable (p : ModulePolicydb) (node : CondNode) : Prop where
  length : node.expr.length < 2 ^ 32
  expr : ∀ expr ∈ node.expr, exprIsvalid p expr
  avtrueLength : node.avtrueList.length < 2 ^ 32
  avtrue : ∀ avrule ∈ node.avtrueList, avrule.Storable p
  avfalseLength : node.avfalseList.length < 2 ^ 32
  avfalse : ∀ avrule ∈ node.avfalseList, avrule.Storable p

private theorem condExpr_survivesIff (p : ModulePolicydb) (expr : CondExpr) :
    SurvivesIff (exprIsvalid p expr) (condExprWrite expr) (condExprRead p) fun x => x = expr :=
  .congr (.exact (word_survivesIff _) <| .exact (word_survivesIff _) <| .guarded fun _ => .done rfl)
    (and_iff_left trivial)

theorem condNode_survivesIff (p : ModulePolicydb) (node : CondNode) :
    SurvivesIff (node.Storable p) (condWriteNode p node) (condReadNode p) fun x => x = node := by
  refine .congr (.exact (word_survivesIff _) <|
    .cons_eq (list_survivesIff_eq (condExpr_survivesIff p))
      (fun _ => .bind fun _ => .bind fun _ => .bind fun _ => .pure (congrArg CondNode.expr)) <|
    .cons_eq (avruleList_survivesIff ..)
    (fun _ => .bind fun _ => .bind fun _ => .pure (congrArg CondNode.avtrueList)) <|
    .cons_eq (avruleList_survivesIff ..) (fun _ => .bind fun _ => .pure (congrArg CondNode.avfalseList)) <|
    .exact (word_survivesIff _) <| .done rfl) ?_
  constructor
  · rintro ⟨⟨hlen, hexpr⟩, ⟨htlen, htrue⟩, ⟨hflen, hfalse⟩, _⟩
    exact ⟨hlen, hexpr, htlen, htrue, hflen, hfalse⟩
  · rintro ⟨hlen, hexpr, htlen, htrue, hflen, hfalse⟩
    exact ⟨⟨hlen, hexpr⟩, ⟨htlen, htrue⟩, ⟨hflen, hfalse⟩, trivial⟩

/-! ### Roles -/

structure RoleTransRule where
  roles : RoleSet
  types : TypeSet
  classes : Bitmap
  newRole : Word

structure RoleAllowRule where
  roles : RoleSet
  newRoles : RoleSet

def roleTransWrite (tr : RoleTransRule) : Put Byte :=
  putAll [roleSetWrite tr.roles, typeSetWrite tr.types, bitmapWrite tr.classes, wordWrite tr.newRole]

def roleTransRead : Reader Byte RoleTransRule := do
  let roles ← roleSetRead
  let types ← typeSetRead
  let classes ← bitmapRead
  let newRole ← wordRead
  return ⟨roles, types, classes, newRole⟩

def roleTransRuleWrite : List RoleTransRule → Put Byte := listWrite roleTransWrite

def roleTransRuleRead : Reader Byte (List RoleTransRule) := listRead roleTransRead

def roleAllowWrite (ra : RoleAllowRule) : Put Byte := putAll [roleSetWrite ra.roles, roleSetWrite ra.newRoles]

def roleAllowRead : Reader Byte RoleAllowRule := do
  let roles ← roleSetRead
  let newRoles ← roleSetRead
  return ⟨roles, newRoles⟩

def roleAllowRuleWrite : List RoleAllowRule → Put Byte := listWrite roleAllowWrite

def roleAllowRuleRead : Reader Byte (List RoleAllowRule) := listRead roleAllowRead

theorem roleTrans_survivesIff (tr : RoleTransRule) :
    SurvivesIff True (roleTransWrite tr) roleTransRead fun x => x = tr :=
  .exact (roleSet_survivesIff _) <| .exact (typeSet_survivesIff _) <| .exact (bitmap_survivesIff _) <|
    .exact (word_survivesIff _) <| .done rfl

theorem roleAllow_survivesIff (ra : RoleAllowRule) :
    SurvivesIff True (roleAllowWrite ra) roleAllowRead fun x => x = ra :=
  .exact (roleSet_survivesIff _) <| .exact (roleSet_survivesIff _) <| .done rfl

/-! ### Transitions by name -/

structure FilenameTransRule where
  flags : Word
  stypes : TypeSet
  ttypes : TypeSet
  tclass : Word
  name : Name
  otype : Word

/-- The body of the loop of `filename_trans_rule_write`, where the length of the name is a `uint32_t`. -/
def filenameTransWrite (ftr : FilenameTransRule) : Put Byte :=
  putAll [wordWrite (count ftr.name.bytes.length), nameWrite ftr.name (count ftr.name.bytes.length).toNat,
    typeSetWrite ftr.stypes, typeSetWrite ftr.ttypes, wordWrite ftr.tclass, wordWrite ftr.otype, wordWrite ftr.flags]

def filenameTransRead : Reader Byte FilenameTransRule := do
  let len ← wordRead
  let name ← nameRead len
  let stypes ← typeSetRead
  let ttypes ← typeSetRead
  let tclass ← wordRead
  let otype ← wordRead
  let flags ← wordRead
  return ⟨flags, stypes, ttypes, tclass, name, otype⟩

def filenameTransRuleWrite : List FilenameTransRule → Put Byte := listWrite filenameTransWrite

def filenameTransRuleRead : Reader Byte (List FilenameTransRule) := listRead filenameTransRead

theorem filenameTrans_survivesIff (ftr : FilenameTransRule) :
    SurvivesIff ftr.name.Storable (filenameTransWrite ftr) filenameTransRead fun x => x = ftr :=
  .congr (.exact (word_survivesIff _) <|
    .cons_eq (name_survivesIff _ le_rfl)
      (fun _ => .bind fun _ => .bind fun _ => .bind fun _ => .bind fun _ => .bind fun _ =>
        .pure (congrArg FilenameTransRule.name)) <|
    .exact (typeSet_survivesIff _) <| .exact (typeSet_survivesIff _) <| .exact (word_survivesIff _) <|
    .exact (word_survivesIff _) <| .exact (word_survivesIff _) <| .done rfl) (and_iff_left trivial)

/-! ### Transitions of ranges -/

structure MlsSemanticCat where
  low : Word
  high : Word

structure MlsSemanticLevel where
  sens : Word
  cat : List MlsSemanticCat

structure MlsSemanticRange where
  level0 : MlsSemanticLevel
  level1 : MlsSemanticLevel

structure RangeTransRule where
  stypes : TypeSet
  ttypes : TypeSet
  tclasses : Bitmap
  trange : MlsSemanticRange

def mlsWriteSemanticCat (cat : MlsSemanticCat) : Put Byte := putAll [wordWrite cat.low, wordWrite cat.high]

def mlsReadSemanticCat : Reader Byte MlsSemanticCat := do
  let low ← wordRead
  let high ← wordRead
  return ⟨low, high⟩

def mlsWriteSemanticLevelHelper (l : MlsSemanticLevel) : Put Byte :=
  putAll [wordWrite l.sens, wordWrite (count l.cat.length), putAll (l.cat.map mlsWriteSemanticCat)]

/-- `mls_read_semantic_level_helper`, which puts each category in front of those read before. -/
def mlsReadSemanticLevelHelper : Reader Byte MlsSemanticLevel := do
  let sens ← wordRead
  let ncat ← wordRead
  let cat ← readMany mlsReadSemanticCat ncat.toNat
  return ⟨sens, cat.reverse⟩

def mlsWriteSemanticRangeHelper (r : MlsSemanticRange) : Put Byte :=
  putAll [mlsWriteSemanticLevelHelper r.level0, mlsWriteSemanticLevelHelper r.level1]

def mlsReadSemanticRangeHelper : Reader Byte MlsSemanticRange := do
  let level0 ← mlsReadSemanticLevelHelper
  let level1 ← mlsReadSemanticLevelHelper
  return ⟨level0, level1⟩

def rangeTransWrite (rt : RangeTransRule) : Put Byte :=
  putAll [typeSetWrite rt.stypes, typeSetWrite rt.ttypes, bitmapWrite rt.tclasses,
    mlsWriteSemanticRangeHelper rt.trange]

def rangeTransRead : Reader Byte RangeTransRule := do
  let stypes ← typeSetRead
  let ttypes ← typeSetRead
  let tclasses ← bitmapRead
  let trange ← mlsReadSemanticRangeHelper
  return ⟨stypes, ttypes, tclasses, trange⟩

def rangeTransRuleWrite : List RangeTransRule → Put Byte := listWrite rangeTransWrite

def rangeTransRuleRead : Reader Byte (List RangeTransRule) := listRead rangeTransRead

/-- Equal levels, with the categories in any order. -/
def MlsSemanticLevel.Same (l l' : MlsSemanticLevel) : Prop := l'.sens = l.sens ∧ l'.cat.Perm l.cat

def MlsSemanticRange.Same (r r' : MlsSemanticRange) : Prop := r.level0.Same r'.level0 ∧ r.level1.Same r'.level1

def RangeTransRule.Same (rt rt' : RangeTransRule) : Prop :=
  rt' = { rt with trange := rt'.trange } ∧ rt.trange.Same rt'.trange

def MlsSemanticLevel.Storable (l : MlsSemanticLevel) : Prop := l.cat.length < 2 ^ 32

def MlsSemanticRange.Storable (r : MlsSemanticRange) : Prop := r.level0.Storable ∧ r.level1.Storable

private theorem semanticCat_survivesIff (cat : MlsSemanticCat) :
    SurvivesIff True (mlsWriteSemanticCat cat) mlsReadSemanticCat fun x => x = cat :=
  .exact (word_survivesIff _) <| .exact (word_survivesIff _) <| .done rfl

private theorem semanticCats_survivesIff (cat : List MlsSemanticCat) :
    SurvivesIff (cat.length < 2 ^ 32) (putAll (cat.map mlsWriteSemanticCat))
      (readMany mlsReadSemanticCat (count cat.length).toNat) fun xs => xs.Perm cat := by
  rw [← toNat_count_eq_iff]
  constructor
  · intro hlen
    obtain ⟨out, hout, hread⟩ := (SurvivesIff.many fun a (_ : a ∈ cat) => semanticCat_survivesIff a).restores
      fun _ _ => trivial
    refine ⟨out, hout, fun rest => ?_⟩
    obtain ⟨xs, hxs, hrun⟩ := hread rest
    rw [hlen]
    exact ⟨xs, .of_eq (forall₂_eq_iff.1 hxs), hrun⟩
  · intro hlen out _ rest xs rest' hrun hperm
    rw [← ends_readMany_length _ _ _ hrun] at hlen
    exact hlen hperm.length_eq

theorem semanticLevel_survivesIff (l : MlsSemanticLevel) :
    SurvivesIff l.Storable (mlsWriteSemanticLevelHelper l) mlsReadSemanticLevelHelper l.Same := by
  refine .congr (.exact (word_survivesIff _) <| .exact (word_survivesIff _) <|
    .cons (semanticCats_survivesIff l.cat) (fun cat hcat => .done ⟨rfl, (List.reverse_perm cat).trans hcat⟩)
      fun cat => .pure fun h => (List.reverse_perm cat).symm.trans h.2) (and_iff_left trivial)

theorem semanticRange_survivesIff (r : MlsSemanticRange) :
    SurvivesIff r.Storable (mlsWriteSemanticRangeHelper r) mlsReadSemanticRangeHelper r.Same :=
  .congr (.cons (semanticLevel_survivesIff r.level0)
    (fun _ h0 => .cons (semanticLevel_survivesIff r.level1) (fun _ h1 => .done ⟨h0, h1⟩) fun _ => .pure And.right)
    fun _ => .bind fun _ => .pure And.left) (and_congr_right' (and_iff_left trivial))

theorem rangeTrans_survivesIff (rt : RangeTransRule) :
    SurvivesIff rt.trange.Storable (rangeTransWrite rt) rangeTransRead rt.Same :=
  .congr (.exact (typeSet_survivesIff _) <| .exact (typeSet_survivesIff _) <| .exact (bitmap_survivesIff _) <|
    .cons (semanticRange_survivesIff rt.trange) (fun _ h => .done ⟨rfl, h⟩) fun _ => .pure And.right)
    (and_iff_left trivial)

end Sepol.ModuleFile
