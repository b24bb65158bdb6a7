import Sepol.TypeAttrMap
import Sepol.ModuleFileRules

/-!
# Symbols in a module file

The writers `write_f` and the readers `read_f` of the eight kinds of symbols of a declaration, each with what an entry
of a table has to satisfy to survive.  The sets that are computed when a policy is expanded are left out.
-/

namespace Sepol.ModuleFile

open RoundTrip

/-! ### Permissions and commons -/

structure PermDatum where
  value : Word

structure CommonDatum where
  value : Word
  permissions : Symtab PermDatum

def permWrite (e : Name × PermDatum) : Put Byte :=
  putAll [wordWrite (count e.1.bytes.length), wordWrite e.2.value, nameWrite e.1 e.1.bytes.length]

def permRead (nprim : Word) : Reader Byte (Option (Name × PermDatum)) := do
  let len ← wordRead
  let value ← wordRead
  let key ← nameRead len
  guard (valueIsvalid value.toNat nprim.toNat)
  return some (key, ⟨value⟩)

def commonWrite (e : Name × CommonDatum) : Put Byte :=
  putAll [wordWrite (count e.1.bytes.length), wordWrite e.2.value, wordWrite e.2.permissions.nprim,
    wordWrite (count e.2.permissions.table.entries.length), nameWrite e.1 e.1.bytes.length,
    putAll (e.2.permissions.table.entries.map permWrite)]

def commonRead : Reader Byte (Option (Name × CommonDatum)) := do
  let len ← wordRead
  let value ← wordRead
  let nprim ← wordRead
  let nel ← wordRead
  let key ← nameRead len
  guard (nprim.toNat ≤ permSymtabSize)
  let permissions ← tableRead (permRead nprim) nel.toNat
  return some (key, ⟨value, ⟨permissions, nprim⟩⟩)

/-- The names of permissions have text and their values are those of the table. -/
structure PermsStorable (permissions : Symtab PermDatum) : Prop where
  nprim : permissions.nprim.toNat ≤ permSymtabSize
  length : permissions.table.entries.length < 2 ^ 32
  perm : ∀ e ∈ permissions.table.entries, e.1.Storable ∧ valueIsvalid e.2.value.toNat permissions.nprim.toNat

private theorem name_of_entry {α : Type} {name : Name} {d : α} {e : Name × α} (h : some (name, d) = some e) :
    name = e.1 :=
  congrArg Prod.fst (Option.some.inj h)

private theorem datum_of_entry {α : Type} {name : Name} {d : α} {e : Name × α} (h : some (name, d) = some e) :
    d = e.2 :=
  congrArg Prod.snd (Option.some.inj h)

private theorem perm_survivesIff (nprim : Word) (e : Name × PermDatum) :
    SurvivesIff (e.1.Storable ∧ valueIsvalid e.2.value.toNat nprim.toNat) (permWrite e) (permRead nprim)
      fun o => o = some e :=
  .congr (.exact (word_survivesIff _) <| .exact (word_survivesIff _) <|
    .cons_eq (name_survivesIff _ (toNat_count_le _)) (fun _ => .bind fun _ => .pure name_of_entry) <|
    .guarded fun _ => .done rfl) (and_congr_right' (and_iff_left trivial))

private theorem perms_survivesIff (permissions : Symtab PermDatum) :
    SurvivesIff (permissions.table.entries.length < 2 ^ 32 ∧ ∀ e ∈ permissions.table.entries,
        e.1.Storable ∧ valueIsvalid e.2.value.toNat permissions.nprim.toNat)
      (putAll (permissions.table.entries.map permWrite))
      (tableRead (permRead permissions.nprim) (count permissions.table.entries.length).toNat)
      fun t => t = permissions.table :=
  table_survivesIff_eq (perm_survivesIff permissions.nprim)

theorem common_survivesIff (e : Name × CommonDatum) :
    SurvivesIff (e.1.Storable ∧ PermsStorable e.2.permissions) (commonWrite e) commonRead fun o => o = some e := by
  refine .congr (.exact (word_survivesIff _) <| .exact (word_survivesIff _) <| .exact (word_survivesIff _) <|
    .exact (word_survivesIff _) <|
    .cons_eq (name_survivesIff _ (toNat_count_le _)) (fun _ => .bind fun _ => .bind fun _ => .pure name_of_entry) <|
    .guarded fun _ =>
    .cons_eq (perms_survivesIff e.2.permissions)
      (fun _ => .pure fun h => congrArg (fun d => d.permissions.table) (datum_of_entry h)) <| .done rfl) ?_
  constructor
  · rintro ⟨hname, hnprim, ⟨hlen, hperm⟩, _⟩
    exact ⟨hname, hnprim, hlen, hperm⟩
  · rintro ⟨hname, hnprim, hlen, hperm⟩
    exact ⟨hname, hnprim, ⟨hlen, hperm⟩, trivial⟩

/-! ### Constraints -/

structure ConstraintExpr where
  exprType : Word
  attr : Word
  op : Word
  names : Bitmap
  typeNames : TypeSet

structure ConstraintNode where
  permissions : Word
  expr : List ConstraintExpr

/-- The names of an expression, which only `CEXPR_NAMES` has in a file. -/
def consNamesWrite (allowxtarget : Bool) (e : ConstraintExpr) : Put Byte :=
  if e.exprType.toNat = cexprNames then
    putAll [putCheck (allowxtarget ∨ e.attr &&& cexprXtarget = 0), bitmapWrite e.names, typeSetWrite e.typeNames]
  else putAll []

def consNamesRead (allowxtarget : Bool) (exprType attr : Word) : Reader Byte (Bitmap × TypeSet) :=
  if exprType.toNat = cexprNames then do
    guard (allowxtarget ∨ attr &&& cexprXtarget = 0)
    let names ← bitmapRead
    let typeNames ← typeSetRead
    return (names, typeNames)
  else pure (bitmapInit, typeSetInit)

def consExprWrite (allowxtarget : Bool) (e : ConstraintExpr) : Put Byte :=
  putAll [wordWrite e.exprType, wordWrite e.attr, wordWrite e.op, consNamesWrite allowxtarget e]

def consExprRead (allowxtarget : Bool) : Reader Byte ConstraintExpr := do
  let exprType ← wordRead
  let attr ← wordRead
  let op ← wordRead
  let names ← consNamesRead allowxtarget exprType attr
  return ⟨exprType, attr, op, names.1, names.2⟩

/-- The variable `depth` of `read_cons_helper` after an expression, where the code does not return -1. -/
def consDepthStep (depth : Int) (e : ConstraintExpr) : Option Int :=
  match e.exprType.toNat with
  | cexprNot => if depth < 0 then none else some depth
  | cexprAnd | cexprOr => if depth < 1 then none else some (depth - 1)
  | cexprAttr | cexprNames => if depth = cexprMaxdepth - 1 then none else some (depth + 1)
  | _ => none

def consDepth (expr : List ConstraintExpr) : Option Int := expr.foldlM consDepthStep (-1)

def constraintWrite (allowxtarget : Bool) (c : ConstraintNode) : Put Byte :=
  putAll [wordWrite c.permissions, listWrite (consExprWrite allowxtarget) c.expr]

/-- The body of the loop of `read_cons_helper`, which looks at the depth while it reads. -/
def constraintRead (allowxtarget : Bool) : Reader Byte ConstraintNode := do
  let permissions ← wordRead
  let expr ← listRead (consExprRead allowxtarget)
  guard (consDepth expr = some 0)
  return ⟨permissions, expr⟩

structure ConstraintExpr.Storable (allowxtarget : Bool) (e : ConstraintExpr) : Prop where
  xtarget : e.exprType.toNat = cexprNames → allowxtarget ∨ e.attr &&& cexprXtarget = 0
  names : e.exprType.toNat ≠ cexprNames → e.names = bitmapInit ∧ e.typeNames = typeSetInit

structure ConstraintNode.Storable (allowxtarget : Bool) (c : ConstraintNode) : Prop where
  length : c.expr.length < 2 ^ 32
  expr : ∀ e ∈ c.expr, e.Storable allowxtarget
  depth : consDepth c.expr = some 0

private theorem consNames_survivesIff (allowxtarget : Bool) (e : ConstraintExpr) :
    SurvivesIff (e.Storable allowxtarget) (consNamesWrite allowxtarget e)
      (consNamesRead allowxtarget e.exprType e.attr) fun x => x = (e.names, e.typeNames) := by
  unfold consNamesWrite consNamesRead
  split
  · rename_i hnames
    refine .congr (.checked fun _ => .guarded fun _ => .exact (bitmap_survivesIff _) <|
      .exact (typeSet_survivesIff _) <| .done rfl) ?_
    constructor
    · rintro ⟨hxtarget, _⟩
      exact ⟨fun _ => hxtarget, fun hne => absurd hnames hne⟩
    · intro h
      exact ⟨h.xtarget hnames, h.xtarget hnames, trivial⟩
  · rename_i hne
    refine .done_iff ⟨fun h => ?_, fun h => ⟨fun heq => absurd heq hne, fun _ => ?_⟩⟩
    · rw [(h.names hne).1, (h.names hne).2]
    · exact ⟨(congrArg Prod.fst h).symm, (congrArg Prod.snd h).symm⟩

private theorem consExpr_survivesIff (allowxtarget : Bool) (e : ConstraintExpr) :
    SurvivesIff (e.Storable allowxtarget) (consExprWrite allowxtarget e) (consExprRead allowxtarget) fun x => x = e :=
  .congr (.exact (word_survivesIff _) <| .exact (word_survivesIff _) <| .exact (word_survivesIff _) <|
    .cons_eq (consNames_survivesIff allowxtarget e)
      (fun _ => .pure fun h => congrArg (fun x : ConstraintExpr => (x.names, x.typeNames)) h) <| .done rfl)
    (and_iff_left trivial)

private theorem constraint_survivesIff (allowxtarget : Bool) (c : ConstraintNode) :
    SurvivesIff (c.Storable allowxtarget) (constraintWrite allowxtarget c) (constraintRead allowxtarget)
      fun x => x = c := by
  refine .congr (.exact (word_survivesIff _) <|
    .cons_eq (list_survivesIff_eq (consExpr_survivesIff allowxtarget))
      (fun _ => .bind fun _ => .pure (congrArg ConstraintNode.expr)) <| .guarded fun _ => .done rfl) ?_
  constructor
  · rintro ⟨⟨hlen, hexpr⟩, hdepth, _⟩
    exact ⟨hlen, hexpr, hdepth⟩
  · rintro ⟨hlen, hexpr, hdepth⟩
    exact ⟨⟨hlen, hexpr⟩, hdepth, trivial⟩

/-! ### Classes -/

/-- The fields `default_*`, each a `char`. -/
@[ext]
structure ClassDefaults where
  defaultUser : Byte
  defaultRole : Byte
  defaultRange : Byte
  defaultType : Byte

/-- `class_datum_t`; the common of the class is known by its name. -/
structure ClassDatum where
  value : Word
  comkey : Option Name
  permissions : Symtab PermDatum
  constraints : List ConstraintNode
  validatetrans : List ConstraintNode
  defaults : ClassDefaults

def classDefaultsInit : ClassDefaults := ⟨0, 0, 0, 0⟩

def writeConsHelper (allowxtarget : Bool) (node : List ConstraintNode) : Put Byte :=
  putAll (node.map (constraintWrite allowxtarget))

def readConsHelper (allowxtarget : Bool) (ncons : Word) : Reader Byte (List ConstraintNode) :=
  readMany (constraintRead allowxtarget) ncons.toNat

/-- A `char` in a word of the file. -/
def charWrite (c : Byte) : Put Byte := wordWrite (c.signExtend 32)

def charRead : Reader Byte Byte := do
  let c ← wordRead
  return c.setWidth 8

def comkeyLength (comkey : Option Name) : Nat := (comkey.map fun k => k.bytes.length).getD 0

def comkeyWrite (comkey : Option Name) : Put Byte :=
  match comkey with
  | some k => nameWrite k k.bytes.length
  | none => putAll []

/-- The part of `class_read` for the common of the class, which has to be there. -/
def comkeyRead (p : ModulePolicydb) (len : Word) : Reader Byte (Option Name) :=
  if len ≠ 0 then do
    let comkey ← nameRead len
    guard (comkey ∈ p.pCommons)
    return some comkey
  else pure none

/-- The validatetrans rules and the defaults, which only the classes of a base have in a file. -/
def classBaseWrite (p : ModulePolicydb) (cladatum : ClassDatum) : Put Byte :=
  match p.policyType with
  | .base => putAll [wordWrite (count cladatum.validatetrans.length), writeConsHelper true cladatum.validatetrans,
      charWrite cladatum.defaults.defaultUser, charWrite cladatum.defaults.defaultRole,
      charWrite cladatum.defaults.defaultRange, charWrite cladatum.defaults.defaultType]
  | .mod => putAll []

def classBaseRead (p : ModulePolicydb) : Reader Byte (List ConstraintNode × ClassDefaults) :=
  match p.policyType with
  | .base => do
    let ncons ← wordRead
    let validatetrans ← readConsHelper true ncons
    let defaultUser ← charRead
    let defaultRole ← charRead
    let defaultRange ← charRead
    let defaultType ← charRead
    return (validatetrans, ⟨defaultUser, defaultRole, defaultRange, defaultType⟩)
  | .mod => pure ([], classDefaultsInit)

def classWrite (p : ModulePolicydb) (e : Name × ClassDatum) : Put Byte :=
  putAll [wordWrite (count e.1.bytes.length), wordWrite (count (comkeyLength e.2.comkey)), wordWrite e.2.value,
    wordWrite e.2.permissions.nprim, wordWrite (count e.2.permissions.table.entries.length),
    wordWrite (count e.2.constraints.length), nameWrite e.1 e.1.bytes.length, comkeyWrite e.2.comkey,
    putAll (e.2.permissions.table.entries.map permWrite), writeConsHelper false e.2.constraints,
    classBaseWrite p e.2]

def classRead (p : ModulePolicydb) : Reader Byte (Option (Name × ClassDatum)) := do
  let len ← wordRead
  let len2 ← wordRead
  let value ← wordRead
  let nprim ← wordRead
  let nel ← wordRead
  let ncons ← wordRead
  let key ← nameRead len
  guard (value.toNat ≤ uint16Max)
  guard (nprim.toNat ≤ permSymtabSize)
  let comkey ← comkeyRead p len2
  let permissions ← tableRead (permRead nprim) nel.toNat
  let constraints ← readConsHelper false ncons
  let base ← classBaseRead p
  return some (key, ⟨value, comkey, ⟨permissions, nprim⟩, constraints, base.1, base.2⟩)

/-- A module file has no validatetrans rules and no defaults of a class. -/
structure ClassDatum.Storable (p : ModulePolicydb) (cladatum : ClassDatum) : Prop where
  value : cladatum.value.toNat ≤ uint16Max
  comkey : ∀ k ∈ cladatum.comkey, k.Storable ∧ k ∈ p.pCommons
  permissions : PermsStorable cladatum.permissions
  constraintsLength : cladatum.constraints.length < 2 ^ 32
  constraints : ∀ c ∈ cladatum.constraints, c.Storable false
  base : p.policyType = .base →
    cladatum.validatetrans.length < 2 ^ 32 ∧ ∀ c ∈ cladatum.validatetrans, c.Storable true
  mod : p.policyType = .mod → cladatum.validatetrans = [] ∧ cladatum.defaults = classDefaultsInit

private theorem cons_survivesIff (allowxtarget : Bool) (node : List ConstraintNode) :
    SurvivesIff (node.length < 2 ^ 32 ∧ ∀ c ∈ node, c.Storable allowxtarget) (writeConsHelper allowxtarget node)
      (readConsHelper allowxtarget (count node.length)) fun x => x = node :=
  counted_survivesIff_eq (constraint_survivesIff allowxtarget)

private theorem char_survivesIff (c : Byte) : SurvivesIff True (charWrite c) charRead fun x => x = c := by
  refine .of_singleton (.exact (word_survivesIff _) (.done ?_))
  apply BitVec.eq_of_getLsbD_eq
  intro i hi
  rw [BitVec.getLsbD_setWidth, BitVec.getLsbD_signExtend]
  simp [hi]
  omega

private theorem comkey_survivesIff (p : ModulePolicydb) (comkey : Option Name) :
    SurvivesIff (∀ k ∈ comkey, k.Storable ∧ k ∈ p.pCommons) (comkeyWrite comkey)
      (comkeyRead p (count (comkeyLength comkey))) fun x => x = comkey := by
  unfold comkeyWrite comkeyRead
  cases comkey with
  | none => exact .congr (.done rfl) (by simp)
  | some k =>
    have hcount : count (comkeyLength (some k)) = count k.bytes.length := rfl
    simp only [Option.mem_some_iff, forall_eq']
    rw [hcount]
    by_cases hzero : count k.bytes.length = 0
    rotate_left
    · rw [if_pos hzero]
      refine .of_singleton (.congr (.cons_eq (name_survivesIff k (toNat_count_le _))
        (fun _ => .bind fun _ => .pure Option.some.inj) <| .guarded fun _ => .done rfl)
        (and_congr_right' (and_iff_left trivial)))
    · rw [if_neg (not_not.2 hzero)]
      -- a name without text is read as none
      have hlost : ¬ (k.Storable ∧ k ∈ p.pCommons) := by
        rintro ⟨⟨hne, hlt⟩, _⟩
        have hlen := toNat_count_eq_iff.2 hlt
        rw [hzero] at hlen
        exact hne (List.eq_nil_of_length_eq_zero hlen.symm)
      refine ⟨fun h => absurd h hlost, fun _ out _ rest x rest' hrun hx => ?_⟩
      obtain ⟨rfl, _⟩ := pure_eq_some.1 hrun
      cases hx

private theorem classBase_survivesIff (p : ModulePolicydb) (cladatum : ClassDatum) :
    SurvivesIff
      ((p.policyType = .base →
          cladatum.validatetrans.length < 2 ^ 32 ∧ ∀ c ∈ cladatum.validatetrans, c.Storable true) ∧
        (p.policyType = .mod → cladatum.validatetrans = [] ∧ cladatum.defaults = classDefaultsInit))
      (classBaseWrite p cladatum) (classBaseRead p) fun x => x = (cladatum.validatetrans, cladatum.defaults) := by
  unfold classBaseWrite classBaseRead
  cases p.policyType with
  | base =>
    refine .congr (.exact (word_survivesIff _) <|
      .cons_eq (cons_survivesIff true cladatum.validatetrans)
        (fun _ => .bind fun _ => .bind fun _ => .bind fun _ => .bind fun _ => .pure (congrArg Prod.fst)) <|
      .exact (char_survivesIff _) <| .exact (char_survivesIff _) <| .exact (char_survivesIff _) <|
      .exact (char_survivesIff _) <| .done rfl) ?_
    simp
  | mod =>
    refine .done_iff ?_
    simp only [reduceCtorEq, false_imp_iff, forall_const, true_and, Prod.mk.injEq]
    exact and_congr eq_comm eq_comm

theorem class_survivesIff (p : ModulePolicydb) (e : Name × ClassDatum) :
    SurvivesIff (e.1.Storable ∧ e.2.Storable p) (classWrite p e) (classRead p) fun o => o = some e := by
  refine .congr (.exact (word_survivesIff _) <| .exact (word_survivesIff _) <| .exact (word_survivesIff _) <|
    .exact (word_survivesIff _) <| .exact (word_survivesIff _) <| .exact (word_survivesIff _) <|
    .cons_eq (name_survivesIff _ (toNat_count_le _))
      (fun _ => .bind fun _ => .bind fun _ => .bind fun _ => .bind fun _ => .bind fun _ => .bind fun _ =>
        .pure name_of_entry) <|
    .guarded fun _ => .guarded fun _ =>
    .cons_eq (comkey_survivesIff p e.2.comkey)
      (fun _ => .bind fun _ => .bind fun _ => .bind fun _ =>
        .pure fun h => congrArg ClassDatum.comkey (datum_of_entry h)) <|
    .cons_eq (perms_survivesIff e.2.permissions)
      (fun _ => .bind fun _ => .bind fun _ => .pure fun h =>
        congrArg (fun d => d.permissions.table) (datum_of_entry h)) <|
    .cons_eq (cons_survivesIff false e.2.constraints)
      (fun _ => .bind fun _ => .pure fun h => congrArg ClassDatum.constraints (datum_of_entry h)) <|
    .cons_eq (classBase_survivesIff p e.2)
      (fun _ => .pure fun h => congrArg (fun d : ClassDatum => (d.validatetrans, d.defaults)) (datum_of_entry h)) <|
    .done rfl) ?_
  constructor
  · rintro ⟨hname, hvalue, hnprim, hcomkey, ⟨hplen, hperm⟩, ⟨hclen, hcons⟩, ⟨hbase, hmod⟩, _⟩
    exact ⟨hname, hvalue, hcomkey, ⟨hnprim, hplen, hperm⟩, hclen, hcons, hbase, hmod⟩
  · rintro ⟨hname, hvalue, hcomkey, ⟨hnprim, hplen, hperm⟩, hclen, hcons, hbase, hmod⟩
    exact ⟨hname, hvalue, hnprim, hcomkey, ⟨hplen, hperm⟩, ⟨hclen, hcons⟩, ⟨hbase, hmod⟩, trivial⟩

/-! ### Roles -/

structure RoleDatum where
  value : Word
  bounds : Word
  dominates : Bitmap
  types : TypeSet
  flavor : Word
  roles : Bitmap

/-- `OBJECT_R`. -/
def objectRName : Name := Name.ofBytes (objectR.map fun c => BitVec.ofNat 8 c.toNat)

def roleWrite (e : Name × RoleDatum) : Put Byte :=
  putAll [wordWrite (count e.1.bytes.length), wordWrite e.2.value, wordWrite e.2.bounds,
    nameWrite e.1 e.1.bytes.length,
    bitmapWrite e.2.dominates, typeSetWrite e.2.types, wordWrite e.2.flavor, bitmapWrite e.2.roles]

/-- The role that `role_read` puts into the table: `object_r` is read and left out. -/
def roleEntry (key : Name) (role : RoleDatum) : Reader Byte (Option (Name × RoleDatum)) :=
  if key = objectRName then do
    guard (role.value.toNat = objectRVal)
    return none
  else return some (key, role)

def roleRead : Reader Byte (Option (Name × RoleDatum)) := do
  let len ← wordRead
  let value ← wordRead
  let bounds ← wordRead
  let key ← nameRead len
  let dominates ← bitmapRead
  let types ← typeSetRead
  let flavor ← wordRead
  let roles ← bitmapRead
  roleEntry key ⟨value, bounds, dominates, types, flavor, roles⟩

private theorem roleEntry_survivesIff (e : Name × RoleDatum) :
    SurvivesIff (e.1 ≠ objectRName) (putAll []) (roleEntry e.1 e.2) fun o => o = some e := by
  unfold roleEntry
  split
  · rename_i hname
    refine ⟨fun hne => absurd hname hne, fun _ out _ rest o rest' hrun ho => ?_⟩
    obtain ⟨_, _, _, hpure⟩ := bind_eq_some.1 hrun
    obtain ⟨rfl, _⟩ := pure_eq_some.1 hpure
    cases ho
  · exact .congr (.done rfl) (by simp only [ne_eq, true_iff]; assumption)

private theorem ends_roleEntry {key : Name} {role : RoleDatum} :
    Ends (roleEntry key role) fun o => ∀ e ∈ o, key = e.1 := by
  unfold roleEntry
  refine .ite (fun _ => .bind fun _ => .pure fun e he => ?_) fun _ => .pure fun e he => name_of_entry he
  cases he

theorem role_survivesIff (e : Name × RoleDatum) :
    SurvivesIff (e.1.Storable ∧ e.1 ≠ objectRName) (roleWrite e) roleRead fun o => o = some e :=
  .exact (word_survivesIff _) <| .exact (word_survivesIff _) <| .exact (word_survivesIff _) <|
    .cons_eq (name_survivesIff _ (toNat_count_le _))
      (fun _ => .bind fun _ => .bind fun _ => .bind fun _ => .bind fun _ input o rest h ho =>
        ends_roleEntry input o rest h e ho) <|
    .exact (bitmap_survivesIff _) <| .exact (typeSet_survivesIff _) <| .exact (word_survivesIff _) <|
    .exact (bitmap_survivesIff _) <| roleEntry_survivesIff e

/-! ### Types -/

structure TypeDatum where
  value : Word
  primary : Word
  flavor : TypeFlavor
  types : Bitmap
  flags : Word
  bounds : Word

/-- `TYPE_FLAGS_PERMISSIVE`; the other flags say whether an attribute is expanded. -/
abbrev typeFlagsPermissive : Word := 1

abbrev typedatumPropertyPrimary : Word := 1
abbrev typedatumPropertyAttribute : Word := 2
abbrev typedatumPropertyAlias : Word := 4
abbrev typedatumPropertyPermissive : Word := 8

/-- The variable `properties` of `type_write`. -/
def typeProperties (typdatum : TypeDatum) : Word :=
  (if typdatum.primary ≠ 0 then typedatumPropertyPrimary else 0) |||
    (match typdatum.flavor with
      | .attrib => typedatumPropertyAttribute
      | .alias => typedatumPropertyAlias
      | .type => 0) |||
    (if typdatum.flags &&& typeFlagsPermissive ≠ 0 then typedatumPropertyPermissive else 0)

def typeFlavorOf (properties : Word) : TypeFlavor :=
  if properties &&& typedatumPropertyAlias ≠ 0 then .alias
  else if properties &&& typedatumPropertyAttribute ≠ 0 then .attrib
  else .type

def typeFlagsOf (properties : Word) : Word :=
  if properties &&& typedatumPropertyPermissive ≠ 0 then typeFlagsPermissive else 0

def typeWrite (e : Name × TypeDatum) : Put Byte :=
  putAll [wordWrite (count e.1.bytes.length), wordWrite e.2.value, wordWrite e.2.primary,
    wordWrite (typeProperties e.2),
    wordWrite e.2.bounds, bitmapWrite e.2.types, nameWrite e.1 e.1.bytes.length]

def typeRead : Reader Byte (Option (Name × TypeDatum)) := do
  let len ← wordRead
  let value ← wordRead
  let primary ← wordRead
  let properties ← wordRead
  let bounds ← wordRead
  let types ← bitmapRead
  let key ← nameRead len
  return some (key, ⟨value, primary, typeFlavorOf properties, types, typeFlagsOf properties, bounds⟩)

private theorem typeFlavorOf_typeProperties (typdatum : TypeDatum) :
    typeFlavorOf (typeProperties typdatum) = typdatum.flavor := by
  unfold typeFlavorOf typeProperties
  cases typdatum.flavor <;> split_ifs <;> simp_all

private theorem typeFlagsOf_typeProperties (typdatum : TypeDatum) :
    typeFlagsOf (typeProperties typdatum) = typdatum.flags &&& typeFlagsPermissive := by
  have hbit : typdatum.flags &&& 1 = BitVec.setWidth 32 (BitVec.ofBool (typdatum.flags.getLsbD 0)) :=
    BitVec.and_one_eq_setWidth_ofBool_getLsbD
  unfold typeFlagsOf typeProperties typeFlagsPermissive
  rw [hbit]
  cases typdatum.flags.getLsbD 0 <;> cases typdatum.flavor <;> split_ifs <;> simp_all

theorem type_survivesIff (e : Name × TypeDatum) :
    SurvivesIff (e.1.Storable ∧ e.2.flags &&& typeFlagsPermissive = e.2.flags) (typeWrite e) typeRead
      fun o => o = some e := by
  refine .exact (word_survivesIff _) <| .exact (word_survivesIff _) <| .exact (word_survivesIff _) <|
    .exact (word_survivesIff _) <| .exact (word_survivesIff _) <| .exact (bitmap_survivesIff _) <|
    .cons_eq (name_survivesIff _ (toNat_count_le _)) (fun _ => .pure name_of_entry) <| .done_iff ?_
  rw [typeFlavorOf_typeProperties, typeFlagsOf_typeProperties]
  constructor
  · intro hflags
    rw [hflags]
  · exact fun h => congrArg TypeDatum.flags (datum_of_entry h)

/-! ### Users -/

structure UserDatum where
  value : Word
  bounds : Word
  roles : RoleSet
  range : MlsSemanticRange
  dfltlevel : MlsSemanticLevel

/-- Equal users, with the categories of their levels in any order. -/
def UserDatum.Same (usrdatum usrdatum' : UserDatum) : Prop :=
  usrdatum' = { usrdatum with range := usrdatum'.range, dfltlevel := usrdatum'.dfltlevel } ∧
    usrdatum.range.Same usrdatum'.range ∧ usrdatum.dfltlevel.Same usrdatum'.dfltlevel

def userWrite (e : Name × UserDatum) : Put Byte :=
  putAll [wordWrite (count e.1.bytes.length), wordWrite e.2.value, wordWrite e.2.bounds,
    nameWrite e.1 e.1.bytes.length,
    roleSetWrite e.2.roles, mlsWriteSemanticRangeHelper e.2.range, mlsWriteSemanticLevelHelper e.2.dfltlevel]

def userRead : Reader Byte (Option (Name × UserDatum)) := do
  let len ← wordRead
  let value ← wordRead
  let bounds ← wordRead
  let key ← nameRead len
  let roles ← roleSetRead
  let range ← mlsReadSemanticRangeHelper
  let dfltlevel ← mlsReadSemanticLevelHelper
  return some (key, ⟨value, bounds, roles, range, dfltlevel⟩)

theorem user_survivesIff (e : Name × UserDatum) :
    SurvivesIff (e.1.Storable ∧ e.2.range.Storable ∧ e.2.dfltlevel.Storable) (userWrite e) userRead
      fun o => ∃ e', o = some e' ∧ e'.1 = e.1 ∧ e.2.Same e'.2 := by
  refine .congr (.exact (word_survivesIff _) <| .exact (word_survivesIff _) <| .exact (word_survivesIff _) <|
    .cons_eq (name_survivesIff _ (toNat_count_le _))
      (fun _ => .bind fun _ => .bind fun _ => .bind fun _ => .pure fun ⟨_, h, hname, _⟩ =>
        (name_of_entry h).trans hname) <|
    .exact (roleSet_survivesIff _) <|
    .cons (semanticRange_survivesIff e.2.range)
      (fun _ hrange => .cons (semanticLevel_survivesIff e.2.dfltlevel)
        (fun _ hlevel => .done ⟨_, rfl, rfl, rfl, hrange, hlevel⟩)
        fun _ => .pure fun ⟨_, rfl, _, hsame⟩ => hsame.2.2)
      fun _ => .bind fun _ => .pure fun ⟨_, rfl, _, hsame⟩ => hsame.2.1) ?_
  simp only [and_true]

/-! ### Booleans -/

/-- `cond_bool_datum_t`; the state is an `int`. -/
structure BoolDatum where
  value : Word
  state : Word
  flags : Word

/-- `bool_isvalid`. -/
def boolIsvalid (state : Word) : Bool := state = 0 || state = 1

/-- `cond_write_bool`, where the length of the name is a `uint32_t`. -/
def condWriteBool (e : Name × BoolDatum) : Put Byte :=
  putAll [wordWrite e.2.value, wordWrite e.2.state, wordWrite (count e.1.bytes.length),
    nameWrite e.1 (count e.1.bytes.length).toNat, wordWrite e.2.flags]

def condReadBool : Reader Byte (Option (Name × BoolDatum)) := do
  let value ← wordRead
  let state ← wordRead
  let len ← wordRead
  guard (boolIsvalid state)
  let key ← nameRead len
  let flags ← wordRead
  return some (key, ⟨value, state, flags⟩)

theorem bool_survivesIff (e : Name × BoolDatum) :
    SurvivesIff (boolIsvalid e.2.state ∧ e.1.Storable) (condWriteBool e) condReadBool fun o => o = some e :=
  .congr (.exact (word_survivesIff _) <| .exact (word_survivesIff _) <| .exact (word_survivesIff _) <|
    .guarded fun _ =>
    .cons_eq (name_survivesIff _ le_rfl) (fun _ => .bind fun _ => .pure name_of_entry) <|
    .exact (word_survivesIff _) <| .done rfl) (and_congr_right' (and_iff_left trivial))

/-! ### Sensitivities and categories -/

structure MlsLevel where
  sens : Word
  cat : Bitmap

/-- `level_datum_t`; `isalias` and `notdefined` are of type `unsigned char`. -/
structure LevelDatum where
  level : MlsLevel
  isalias : Byte
  notdefined : Byte

structure CatDatum where
  value : Word
  isalias : Byte

/-- An `unsigned char` in a word of the file. -/
def ucharWrite (c : Byte) : Put Byte := wordWrite (c.setWidth 32)

def mlsWriteLevel (l : MlsLevel) : Put Byte := putAll [wordWrite l.sens, bitmapWrite l.cat]

def mlsReadLevel : Reader Byte MlsLevel := do
  let sens ← wordRead
  let cat ← bitmapRead
  return ⟨sens, cat⟩

def sensWrite (e : Name × LevelDatum) : Put Byte :=
  putAll [wordWrite (count e.1.bytes.length), ucharWrite e.2.isalias, nameWrite e.1 e.1.bytes.length,
    mlsWriteLevel e.2.level]

/-- `sens_read`; `level_datum_init` clears `notdefined`. -/
def sensRead : Reader Byte (Option (Name × LevelDatum)) := do
  let len ← wordRead
  let isalias ← charRead
  let key ← nameRead len
  let level ← mlsReadLevel
  return some (key, ⟨level, isalias, 0⟩)

def catWrite (e : Name × CatDatum) : Put Byte :=
  putAll [wordWrite (count e.1.bytes.length), wordWrite e.2.value, ucharWrite e.2.isalias,
    nameWrite e.1 e.1.bytes.length]

def catRead : Reader Byte (Option (Name × CatDatum)) := do
  let len ← wordRead
  let value ← wordRead
  let isalias ← charRead
  let key ← nameRead len
  return some (key, ⟨value, isalias⟩)

private theorem uchar_survivesIff (c : Byte) : SurvivesIff True (ucharWrite c) charRead fun x => x = c :=
  .of_singleton (.exact (word_survivesIff _) (.done (by simp)))

private theorem mlsLevel_survivesIff (l : MlsLevel) :
    SurvivesIff True (mlsWriteLevel l) mlsReadLevel fun x => x = l :=
  .exact (word_survivesIff _) <| .exact (bitmap_survivesIff _) <| .done rfl

theorem sens_survivesIff (e : Name × LevelDatum) :
    SurvivesIff (e.1.Storable ∧ e.2.notdefined = 0) (sensWrite e) sensRead fun o => o = some e := by
  refine .exact (word_survivesIff _) <| .exact (uchar_survivesIff _) <|
    .cons_eq (name_survivesIff _ (toNat_count_le _)) (fun _ => .bind fun _ => .pure name_of_entry) <|
    .exact (mlsLevel_survivesIff _) <| .done_iff ?_
  constructor
  · intro hdefined
    rw [← hdefined]
  · exact fun h => (congrArg LevelDatum.notdefined (datum_of_entry h)).symm

theorem cat_survivesIff (e : Name × CatDatum) :
    SurvivesIff e.1.Storable (catWrite e) catRead fun o => o = some e :=
  .congr (.exact (word_survivesIff _) <| .exact (word_survivesIff _) <| .exact (uchar_survivesIff _) <|
    .cons_eq (name_survivesIff _ (toNat_count_le _)) (fun _ => .pure name_of_entry) <|
    .done rfl) (and_iff_left trivial)

end Sepol.ModuleFile
