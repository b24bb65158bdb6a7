import Sepol.ModuleFileSymbols

/-!
# Blocks in a module file

`avrule_block_write` and `avrule_block_read`.  Everything in the blocks survives the file under conditions on the
single records, but for two facts that are not in it: which branch of a block is enabled is made of the marks of the
branches, and a block is optional exactly when it is not the first.  The linker appends the blocks of a module, the
first of which is not optional, to those of the base; written and read, that block has become optional.
-/

namespace Sepol.ModuleFile

open RoundTrip

/-- `SYM_NUM`. -/
abbrev symNum : Nat := 8

/-! ### Scopes -/

/-- `scope_index_t`; `class_perms_len` is the length of the list. -/
structure ScopeIndex where
  scope : Fin symNum → Bitmap
  classPermsMap : List Bitmap

def scopeIndexWrite (scopeIndex : ScopeIndex) : Put Byte :=
  putAll [putAll (List.ofFn fun i => bitmapWrite (scopeIndex.scope i)),
    wordWrite (count scopeIndex.classPermsMap.length), putAll (scopeIndex.classPermsMap.map bitmapWrite)]

def scopeIndexRead : Reader Byte ScopeIndex := do
  let scope ← readFin bitmapRead symNum
  let classPermsLen ← wordRead
  guard (classPermsLen ≠ saturated)
  checkAvailable (classPermsLen.toNat * (4 * 3))
  let classPermsMap ← readMany bitmapRead classPermsLen.toNat
  return ⟨scope, classPermsMap⟩

def ScopeIndex.Storable (scopeIndex : ScopeIndex) : Prop := scopeIndex.classPermsMap.length < 2 ^ 32 - 1

private theorem length_bitmapWrite {e : Bitmap} {out : List Byte} (h : bitmapWrite e = some out) :
    4 * 3 ≤ out.length := by
  obtain rfl := Option.some.inj h
  rw [ebitmapWrite]
  simp only [List.length_append, length_cpuToLe32]
  omega

private theorem length_bitmapsWrite {es : List Bitmap} {out : List Byte}
    (h : putAll (es.map bitmapWrite) = some out) : es.length * (4 * 3) ≤ out.length := by
  induction es generalizing out with
  | nil => exact Nat.zero_le _
  | cons e es ih =>
    obtain ⟨front, back, hfront, hback, rfl⟩ := putAll_cons_eq_some.1 h
    have hlen := length_bitmapWrite hfront
    have hrest := ih hback
    rw [List.length_cons, List.length_append]
    omega

private theorem scopeIndex_survivesIff (scopeIndex : ScopeIndex) :
    SurvivesIff scopeIndex.Storable (scopeIndexWrite scopeIndex) scopeIndexRead fun x => x = scopeIndex := by
  refine .congr (.exact (.fin fun i => bitmap_survivesIff (scopeIndex.scope i)) <| .exact (word_survivesIff _) <|
    .guarded fun _ => .available (fun out hout => ?_) <|
    .cons_eq (counted_survivesIff_eq bitmap_survivesIff) (fun _ => .pure (congrArg ScopeIndex.classPermsMap)) <|
    .done rfl) ?_
  · rw [putAll_singleton] at hout
    have hlen := length_bitmapsWrite hout
    have hle := toNat_count_le scopeIndex.classPermsMap.length
    omega
  · rw [ScopeIndex.Storable, ne_eq, ← BitVec.toNat_inj, toNat_count]
    simp only [implies_true, and_true, BitVec.toNat_allOnes]
    omega

/-! ### Declarations -/

/-- The array `symtab` of a declaration. -/
structure DeclSymtabs where
  commons : Symtab CommonDatum
  classes : Symtab ClassDatum
  roles : Symtab RoleDatum
  types : Symtab TypeDatum
  users : Symtab UserDatum
  bools : Symtab BoolDatum
  levels : Symtab LevelDatum
  cats : Symtab CatDatum

structure AvruleDecl where
  declId : Word
  enabled : Word
  condList : List CondNode
  avrules : List Avrule
  roleTrRules : List RoleTransRule
  roleAllowRules : List RoleAllowRule
  filenameTransRules : List FilenameTransRule
  rangeTrRules : List RangeTransRule
  required : ScopeIndex
  declared : ScopeIndex
  symtab : DeclSymtabs

def declSymtabsWrite (p : ModulePolicydb) (symtab : DeclSymtabs) : Put Byte :=
  putAll [symtabWrite commonWrite symtab.commons, symtabWrite (classWrite p) symtab.classes,
    symtabWrite roleWrite symtab.roles, symtabWrite typeWrite symtab.types, symtabWrite userWrite symtab.users,
    symtabWrite condWriteBool symtab.bools, symtabWrite sensWrite symtab.levels, symtabWrite catWrite symtab.cats]

def declSymtabsRead (p : ModulePolicydb) : Reader Byte DeclSymtabs := do
  let commons ← symtabRead commonRead
  let classes ← symtabRead (classRead p)
  let roles ← symtabRead roleRead
  let types ← symtabRead typeRead
  let users ← symtabRead userRead
  let bools ← symtabRead condReadBool
  let levels ← symtabRead sensRead
  let cats ← symtabRead catRead
  return ⟨commons, classes, roles, types, users, bools, levels, cats⟩

def avruleDeclWrite (p : ModulePolicydb) (decl : AvruleDecl) : Put Byte :=
  putAll [wordWrite decl.declId, wordWrite decl.enabled,
    condWriteList p decl.condList, avruleWriteList p decl.avrules,
    roleTransRuleWrite decl.roleTrRules, roleAllowRuleWrite decl.roleAllowRules,
    filenameTransRuleWrite decl.filenameTransRules, rangeTransRuleWrite decl.rangeTrRules,
    scopeIndexWrite decl.required, scopeIndexWrite decl.declared, declSymtabsWrite p decl.symtab]

def avruleDeclRead (p : ModulePolicydb) : Reader Byte AvruleDecl := do
  let declId ← wordRead
  let enabled ← wordRead
  let condList ← condReadList p
  let avrules ← avruleReadList p
  let roleTrRules ← roleTransRuleRead
  let roleAllowRules ← roleAllowRuleRead
  let filenameTransRules ← filenameTransRuleRead
  let rangeTrRules ← rangeTransRuleRead
  let required ← scopeIndexRead
  let declared ← scopeIndexRead
  let symtab ← declSymtabsRead p
  return ⟨declId, enabled, condList, avrules, roleTrRules, roleAllowRules, filenameTransRules, rangeTrRules, required,
    declared, symtab⟩

structure DeclSymtabs.Storable (p : ModulePolicydb) (symtab : DeclSymtabs) : Prop where
  commons : symtab.commons.Storable fun e => e.1.Storable ∧ PermsStorable e.2.permissions
  classes : symtab.classes.Storable fun e => e.1.Storable ∧ e.2.Storable p
  roles : symtab.roles.Storable fun e => e.1.Storable ∧ e.1 ≠ objectRName
  types : symtab.types.Storable fun e => e.1.Storable ∧ e.2.flags &&& typeFlagsPermissive = e.2.flags
  users : symtab.users.Storable fun e => e.1.Storable ∧ e.2.range.Storable ∧ e.2.dfltlevel.Storable
  bools : symtab.bools.Storable fun e => boolIsvalid e.2.state ∧ e.1.Storable
  levels : symtab.levels.Storable fun e => e.1.Storable ∧ e.2.notdefined = 0
  cats : symtab.cats.Storable fun e => e.1.Storable

structure AvruleDecl.Storable (p : ModulePolicydb) (decl : AvruleDecl) : Prop where
  condLength : decl.condList.length < 2 ^ 32
  cond : ∀ node ∈ decl.condList, node.Storable p
  avruleLength : decl.avrules.length < 2 ^ 32
  avrule : ∀ avrule ∈ decl.avrules, avrule.Storable p
  roleTrLength : decl.roleTrRules.length < 2 ^ 32
  roleAllowLength : decl.roleAllowRules.length < 2 ^ 32
  filenameTransLength : decl.filenameTransRules.length < 2 ^ 32
  filenameTrans : ∀ ftr ∈ decl.filenameTransRules, ftr.name.Storable
  rangeTrLength : decl.rangeTrRules.length < 2 ^ 32
  rangeTr : ∀ rt ∈ decl.rangeTrRules, rt.trange.Storable
  required : decl.required.Storable
  declared : decl.declared.Storable
  symtab : decl.symtab.Storable p

/-- Equal tables, with the categories of the levels of users in any order. -/
def DeclSymtabs.Same (symtab symtab' : DeclSymtabs) : Prop :=
  symtab' = { symtab with users := symtab'.users } ∧ symtab.users.Same UserDatum.Same symtab'.users

/-- Equal declarations, with the categories of levels in any order. -/
def AvruleDecl.Same (decl decl' : AvruleDecl) : Prop :=
  decl' = { decl with rangeTrRules := decl'.rangeTrRules, symtab := decl'.symtab } ∧
    List.Forall₂ RangeTransRule.Same decl.rangeTrRules decl'.rangeTrRules ∧ decl.symtab.Same decl'.symtab

private theorem declSymtabs_survivesIff (p : ModulePolicydb) (symtab : DeclSymtabs) :
    SurvivesIff (symtab.Storable p) (declSymtabsWrite p symtab) (declSymtabsRead p) symtab.Same := by
  refine .congr
    (.cons_eq (symtab_survivesIff_eq symtab.commons common_survivesIff)
      (fun _ => .bind fun _ => .bind fun _ => .bind fun _ => .bind fun _ => .bind fun _ => .bind fun _ =>
        .bind fun _ => .pure fun h => congrArg DeclSymtabs.commons h.1) <|
    .cons_eq (symtab_survivesIff_eq symtab.classes (class_survivesIff p))
      (fun _ => .bind fun _ => .bind fun _ => .bind fun _ => .bind fun _ => .bind fun _ => .bind fun _ =>
        .pure fun h => congrArg DeclSymtabs.classes h.1) <|
    .cons_eq (symtab_survivesIff_eq symtab.roles role_survivesIff)
      (fun _ => .bind fun _ => .bind fun _ => .bind fun _ => .bind fun _ => .bind fun _ =>
        .pure fun h => congrArg DeclSymtabs.roles h.1) <|
    .cons_eq (symtab_survivesIff_eq symtab.types type_survivesIff)
      (fun _ => .bind fun _ => .bind fun _ => .bind fun _ => .bind fun _ =>
        .pure fun h => congrArg DeclSymtabs.types h.1) <|
    .cons (symtab_survivesIff symtab.users user_survivesIff)
      (fun _ husers =>
        .cons_eq (symtab_survivesIff_eq symtab.bools bool_survivesIff)
          (fun _ => .bind fun _ => .bind fun _ => .pure fun h => congrArg DeclSymtabs.bools h.1) <|
        .cons_eq (symtab_survivesIff_eq symtab.levels sens_survivesIff)
          (fun _ => .bind fun _ => .pure fun h => congrArg DeclSymtabs.levels h.1) <|
        .cons_eq (symtab_survivesIff_eq symtab.cats cat_survivesIff)
          (fun _ => .pure fun h => congrArg DeclSymtabs.cats h.1) <|
        .done ⟨rfl, husers⟩)
      fun _ => .bind fun _ => .bind fun _ => .bind fun _ => .pure And.right) ?_
  constructor
  · rintro ⟨hcommons, hclasses, hroles, htypes, husers, hbools, hlevels, hcats, _⟩
    exact ⟨hcommons, hclasses, hroles, htypes, husers, hbools, hlevels, hcats⟩
  · rintro ⟨hcommons, hclasses, hroles, htypes, husers, hbools, hlevels, hcats⟩
    exact ⟨hcommons, hclasses, hroles, htypes, husers, hbools, hlevels, hcats, trivial⟩

private theorem avruleDecl_survivesIff (p : ModulePolicydb) (decl : AvruleDecl) :
    SurvivesIff (decl.Storable p) (avruleDeclWrite p decl) (avruleDeclRead p) decl.Same := by
  refine .congr (.exact (word_survivesIff _) <| .exact (word_survivesIff _) <|
    .cons_eq (list_survivesIff_eq (condNode_survivesIff p))
      (fun _ => .bind fun _ => .bind fun _ => .bind fun _ => .bind fun _ => .bind fun _ => .bind fun _ =>
        .bind fun _ => .bind fun _ => .pure fun h => congrArg AvruleDecl.condList h.1) <|
    .cons_eq (avruleList_survivesIff p decl.avrules)
      (fun _ => .bind fun _ => .bind fun _ => .bind fun _ => .bind fun _ => .bind fun _ => .bind fun _ =>
        .bind fun _ => .pure fun h => congrArg AvruleDecl.avrules h.1) <|
    .cons_eq (list_survivesIff_exact roleTrans_survivesIff)
      (fun _ => .bind fun _ => .bind fun _ => .bind fun _ => .bind fun _ => .bind fun _ => .bind fun _ =>
        .pure fun h => congrArg AvruleDecl.roleTrRules h.1) <|
    .cons_eq (list_survivesIff_exact roleAllow_survivesIff)
      (fun _ => .bind fun _ => .bind fun _ => .bind fun _ => .bind fun _ => .bind fun _ =>
        .pure fun h => congrArg AvruleDecl.roleAllowRules h.1) <|
    .cons_eq (list_survivesIff_eq filenameTrans_survivesIff)
      (fun _ => .bind fun _ => .bind fun _ => .bind fun _ => .bind fun _ =>
        .pure fun h => congrArg AvruleDecl.filenameTransRules h.1) <|
    .cons (list_survivesIff fun rt _ => rangeTrans_survivesIff rt)
      (fun _ hrange =>
        .cons_eq (scopeIndex_survivesIff decl.required)
          (fun _ => .bind fun _ => .bind fun _ => .pure fun h => congrArg AvruleDecl.required h.1) <|
        .cons_eq (scopeIndex_survivesIff decl.declared)
          (fun _ => .bind fun _ => .pure fun h => congrArg AvruleDecl.declared h.1) <|
        .cons (declSymtabs_survivesIff p decl.symtab) (fun _ hsymtab => .done ⟨rfl, hrange, hsymtab⟩)
          fun _ => .pure fun h => h.2.2)
      fun _ => .bind fun _ => .bind fun _ => .bind fun _ => .pure fun h => h.2.1) ?_
  constructor
  · rintro ⟨⟨hclen, hcond⟩, ⟨halen, havrule⟩, hrtlen, hralen, ⟨hflen, hftr⟩, ⟨hrlen, hrange⟩, hreq, hdecl, hsymtab, _⟩
    exact ⟨hclen, hcond, halen, havrule, hrtlen, hralen, hflen, hftr, hrlen, hrange, hreq, hdecl, hsymtab⟩
  · rintro ⟨hclen, hcond, halen, havrule, hrtlen, hralen, hflen, hftr, hrlen, hrange, hreq, hdecl, hsymtab⟩
    exact ⟨⟨hclen, hcond⟩, ⟨halen, havrule⟩, hrtlen, hralen, ⟨hflen, hftr⟩, ⟨hrlen, hrange⟩, hreq, hdecl, hsymtab,
      trivial⟩

/-! ### Blocks -/

/-- `avrule_block_t`: `enabled` is the place of a branch, and `AVRULE_OPTIONAL` is the only flag. -/
structure AvruleBlock where
  branchList : List AvruleDecl
  enabled : Option Nat
  optional : Bool

def avruleBlockWriteBranches (p : ModulePolicydb) (cur : AvruleBlock) : Put Byte :=
  listWrite (avruleDeclWrite p) cur.branchList

def avruleBlockWrite (p : ModulePolicydb) : List AvruleBlock → Put Byte := listWrite (avruleBlockWriteBranches p)

/-- The enabled branch that `avrule_block_read` makes of the marks of the branches; it refuses a second mark. -/
def markedBranch : Nat → Option Nat → List Word → Option (Option Nat)
  | _, enabled, [] => some enabled
  | i, enabled, mark :: marks =>
    if mark ≠ 0 then
      match enabled with
      | some _ => none
      | none => markedBranch (i + 1) (some i) marks
    else markedBranch (i + 1) enabled marks

/-- A block of branches that were read. -/
def avruleBlockOf (optional : Bool) (branchList : List AvruleDecl) : Reader Byte AvruleBlock :=
  match markedBranch 0 none (branchList.map AvruleDecl.enabled) with
  | some enabled => pure ⟨branchList, enabled, optional⟩
  | none => failure

/-- One round of the loop of `avrule_block_read`. -/
def avruleBlockReadOne (p : ModulePolicydb) (optional : Bool) : Reader Byte AvruleBlock := do
  let branchList ← listRead (avruleDeclRead p)
  avruleBlockOf optional branchList

/-- The loop of `avrule_block_read`; `nel` is the number of blocks in the file. -/
def avruleBlockReadFrom (p : ModulePolicydb) (nel : Nat) : Nat → Reader Byte (List AvruleBlock)
  | 0 => pure []
  | numBlocks + 1 => do
    -- the first block is not optional, the others are
    let curblock ← avruleBlockReadOne p (numBlocks + 1 ≠ nel)
    let next ← avruleBlockReadFrom p nel numBlocks
    return curblock :: next

def avruleBlockRead (p : ModulePolicydb) : Reader Byte (List AvruleBlock) := do
  let numBlocks ← wordRead
  avruleBlockReadFrom p numBlocks.toNat numBlocks.toNat

def AvruleBlock.Same (block block' : AvruleBlock) : Prop :=
  block'.optional = block.optional ∧ block'.enabled = block.enabled ∧
    List.Forall₂ AvruleDecl.Same block.branchList block'.branchList

/-- The branch that is marked is the enabled one, and no other is. -/
structure AvruleBlock.Marked (block : AvruleBlock) : Prop where
  branch : ∀ i ∈ block.enabled, i < block.branchList.length
  mark : ∀ (i : Nat) (decl : AvruleDecl), block.branchList[i]? = some decl →
    (decl.enabled ≠ 0 ↔ block.enabled = some i)

structure AvruleBlock.Storable (p : ModulePolicydb) (block : AvruleBlock) : Prop where
  marked : block.Marked
  length : block.branchList.length < 2 ^ 32
  branch : ∀ decl ∈ block.branchList, decl.Storable p

/-- The first block and no other is unconditional, and all of them can be stored. -/
structure BlocksStorable (p : ModulePolicydb) (block : List AvruleBlock) : Prop where
  length : block.length < 2 ^ 32
  optional : ∀ (i : Nat) (cur : AvruleBlock), block[i]? = some cur → (cur.optional = true ↔ i ≠ 0)
  storable : ∀ cur ∈ block, cur.Storable p

/-! ### Branches -/

private theorem markedBranch_some {i j : Nat} {marks : List Word} {e : Option Nat} :
    markedBranch i (some j) marks = some e ↔ e = some j ∧ ∀ mark ∈ marks, mark = 0 := by
  induction marks generalizing i with
  | nil =>
    rw [markedBranch, Option.some_inj, eq_comm]
    simp only [List.not_mem_nil, false_imp_iff, implies_true, and_true]
  | cons mark marks ih =>
    rw [markedBranch, List.forall_mem_cons]
    split
    · rename_i hmark
      simp only [reduceCtorEq, hmark, false_and, and_false]
    · rename_i hmark
      rw [ih, not_not.1 hmark]
      simp only [true_and]

private theorem markedBranch_none {i : Nat} {marks : List Word} {e : Option Nat} :
    markedBranch i none marks = some e ↔
      (∀ j ∈ e, i ≤ j ∧ j < i + marks.length) ∧ ∀ j mark, marks[j]? = some mark → (mark ≠ 0 ↔ e = some (i + j)) := by
  induction marks generalizing i with
  | nil =>
    rw [markedBranch, Option.some_inj, eq_comm]
    cases e with
    | none => simp
    | some j =>
      simp only [reduceCtorEq, Option.mem_some_iff, forall_eq', List.length_nil, Nat.add_zero, false_iff, not_and]
      omega
  | cons mark marks ih =>
    rw [markedBranch]
    split
    · rename_i hmark
      rw [markedBranch_some]
      constructor
      · rintro ⟨rfl, hzero⟩
        refine ⟨fun j hj => ?_, fun j m hm => ?_⟩
        · obtain rfl := Option.some.inj hj
          rw [List.length_cons]
          omega
        · cases j with
          | zero =>
            obtain rfl := Option.some.inj hm
            simp only [hmark, ne_eq, not_false_eq_true, Nat.add_zero]
          | succ j =>
            have hzero := hzero m (List.mem_of_getElem? hm)
            simp only [hzero, ne_eq, not_true_eq_false, Option.some_inj, false_iff]
            omega
      · rintro ⟨-, hmarks⟩
        have he : e = some i := (hmarks 0 mark rfl).1 hmark
        refine ⟨he, fun m hm => ?_⟩
        obtain ⟨j, hj⟩ := List.mem_iff_getElem?.1 hm
        by_contra hne
        have hj' := (hmarks (j + 1) m hj).1 hne
        rw [he, Option.some_inj] at hj'
        omega
    · rename_i hmark
      rw [ih]
      constructor
      · rintro ⟨hrange, hmarks⟩
        refine ⟨fun j hj => ?_, fun j m hm => ?_⟩
        · have := hrange j hj
          rw [List.length_cons]
          omega
        · cases j with
          | zero =>
            obtain rfl := Option.some.inj hm
            simp only [hmark, Nat.add_zero, false_iff]
            rintro rfl
            have := (hrange i rfl).1
            omega
          | succ j =>
            rw [hmarks j m hm, Nat.add_assoc, Nat.add_comm 1 j]
      · rintro ⟨hrange, hmarks⟩
        refine ⟨fun j hj => ?_, fun j m hm => ?_⟩
        · have hj' := hrange j hj
          have hne : j ≠ i := by
            rintro rfl
            exact hmark ((hmarks 0 mark rfl).2 hj)
          rw [List.length_cons] at hj'
          omega
        · rw [hmarks (j + 1) m hm, Nat.add_assoc, Nat.add_comm 1 j]

private theorem AvruleBlock.marked_iff {block : AvruleBlock} :
    block.Marked ↔ markedBranch 0 none (block.branchList.map AvruleDecl.enabled) = some block.enabled := by
  rw [markedBranch_none]
  simp only [Nat.zero_add, Nat.zero_le, true_and, List.length_map, List.getElem?_map, Option.map_eq_some_iff]
  constructor
  · intro h
    refine ⟨h.branch, fun j mark hmark => ?_⟩
    obtain ⟨decl, hdecl, rfl⟩ := hmark
    exact h.mark j decl hdecl
  · rintro ⟨hbranch, hmark⟩
    exact ⟨hbranch, fun i decl hdecl => hmark i decl.enabled ⟨decl, hdecl, rfl⟩⟩

private theorem map_enabled_eq {branchList branchList' : List AvruleDecl}
    (h : List.Forall₂ AvruleDecl.Same branchList branchList') :
    branchList'.map AvruleDecl.enabled = branchList.map AvruleDecl.enabled := by
  induction h with
  | nil => rfl
  | cons hsame _ ih => rw [List.map_cons, List.map_cons, ih, hsame.1]

private theorem ends_avruleBlockOf {optional : Bool} {branchList : List AvruleDecl} :
    Ends (avruleBlockOf optional branchList) fun block => block.optional = optional ∧
      block.branchList = branchList := by
  unfold avruleBlockOf
  split
  · exact .pure ⟨rfl, rfl⟩
  · exact .failed

private theorem avruleBlockOf_survivesIff {optional : Bool} {block : AvruleBlock} {branchList : List AvruleDecl}
    (h : List.Forall₂ AvruleDecl.Same block.branchList branchList) :
    SurvivesIff (block.optional = optional ∧ block.Marked) (putAll [])
      (avruleBlockOf optional branchList) block.Same := by
  rw [avruleBlockOf, map_enabled_eq h, AvruleBlock.marked_iff]
  split
  · rename_i enabled henabled
    rw [henabled, Option.some_inj]
    refine .done_iff ?_
    constructor
    · rintro ⟨hoptional, hmarked⟩
      exact ⟨hoptional.symm, hmarked, h⟩
    · rintro ⟨hoptional, hmarked, _⟩
      exact ⟨hoptional.symm, hmarked⟩
  · rename_i hnone
    refine .failed (fun hc => ?_) fun _ => rfl
    rw [hnone] at hc
    cases hc.2

private theorem avruleBlockOne_survivesIff (p : ModulePolicydb) (optional : Bool) (block : AvruleBlock) :
    SurvivesIff (block.optional = optional ∧ block.Storable p) (avruleBlockWriteBranches p block)
      (avruleBlockReadOne p optional) block.Same := by
  refine .of_singleton (.congr (.cons (list_survivesIff fun decl _ => avruleDecl_survivesIff p decl)
    (fun _ hbranches => avruleBlockOf_survivesIff hbranches) fun branchList input block' rest h hsame => ?_) ?_)
  · rw [← (ends_avruleBlockOf input block' rest h).2]
    exact hsame.2.2
  · constructor
    · rintro ⟨⟨hlen, hbranch⟩, hoptional, hmarked⟩
      exact ⟨hoptional, hmarked, hlen, hbranch⟩
    · rintro ⟨hoptional, hmarked, hlen, hbranch⟩
      exact ⟨⟨hlen, hbranch⟩, hoptional, hmarked⟩

/-! ### The list of blocks -/

private theorem avruleBlockReadFrom_eq_readMany {p : ModulePolicydb} {nel n : Nat} (h : n < nel) :
    avruleBlockReadFrom p nel n = readMany (avruleBlockReadOne p true) n := by
  induction n with
  | zero => rfl
  | succ n ih =>
    have hoptional : decide (n + 1 ≠ nel) = true := decide_eq_true (by omega)
    rw [avruleBlockReadFrom, readMany, ih (by omega), hoptional]

private theorem ends_avruleBlockReadFrom_length {p : ModulePolicydb} {nel n : Nat} :
    Ends (avruleBlockReadFrom p nel n) fun block => block.length = n := by
  induction n with
  | zero => exact .pure rfl
  | succ n ih =>
    intro input block rest h
    rw [avruleBlockReadFrom] at h
    obtain ⟨cur, mid, _, h⟩ := bind_eq_some.1 h
    obtain ⟨next, mid', hnext, h⟩ := bind_eq_some.1 h
    obtain ⟨rfl, _⟩ := pure_eq_some.1 h
    rw [List.length_cons, ih _ _ _ hnext]

/-- All blocks of a list, read in their number. -/
private theorem avruleBlockReadFrom_survivesIff (p : ModulePolicydb) (block : List AvruleBlock) :
    SurvivesIff
      ((∀ (i : Nat) (cur : AvruleBlock), block[i]? = some cur → (cur.optional = true ↔ i ≠ 0)) ∧
        ∀ cur ∈ block, cur.Storable p)
      (putAll (block.map (avruleBlockWriteBranches p))) (avruleBlockReadFrom p block.length block.length)
      (List.Forall₂ AvruleBlock.Same block) := by
  cases block with
  | nil =>
    refine .congr (.done .nil) ?_
    simp only [List.getElem?_nil, reduceCtorEq, false_imp_iff, implies_true, List.not_mem_nil, and_true]
  | cons cur next =>
    have hread : avruleBlockReadFrom p (cur :: next).length (cur :: next).length = (do
        let first ← avruleBlockReadOne p false
        let rest ← readMany (avruleBlockReadOne p true) next.length
        return first :: rest) := by
      have hoptional : decide (next.length + 1 ≠ next.length + 1) = false := decide_eq_false (by omega)
      rw [List.length_cons, avruleBlockReadFrom, avruleBlockReadFrom_eq_readMany (Nat.lt_succ_self _), hoptional]
    have hcons : ∀ x xs, List.Forall₂ AvruleBlock.Same (cur :: next) (x :: xs) ↔
        cur.Same x ∧ List.Forall₂ AvruleBlock.Same next xs := fun _ _ => List.forall₂_cons
    rw [hread, List.map_cons]
    refine .congr (.cons (avruleBlockOne_survivesIff p false cur)
      (fun x hx => .map (.many fun b _ => avruleBlockOne_survivesIff p true b) fun xs => ?_)
      fun x => .bind fun xs => .pure fun hall => ((hcons x xs).1 hall).1) ?_
    · rw [hcons, and_iff_right hx]
    · constructor
      · rintro ⟨⟨hfirst, hstorable⟩, hnext⟩
        refine ⟨fun i b hb => ?_, List.forall_mem_cons.2 ⟨hstorable, fun b hb => (hnext b hb).2⟩⟩
        cases i with
        | zero =>
          obtain rfl := Option.some.inj hb
          simp only [hfirst, Bool.false_eq_true, ne_eq, not_true_eq_false]
        | succ i =>
          have hoptional := (hnext b (List.mem_of_getElem? hb)).1
          simp only [hoptional, ne_eq, Nat.add_eq_zero_iff, one_ne_zero, and_false, not_false_eq_true]
      · rintro ⟨hoptional, hstorable⟩
        refine ⟨⟨?_, hstorable cur (List.mem_cons_self ..)⟩,
          fun b hb => ⟨?_, hstorable b (List.mem_cons_of_mem _ hb)⟩⟩
        · have hfirst := hoptional 0 cur rfl
          simpa using hfirst
        · obtain ⟨i, hi⟩ := List.mem_iff_getElem?.1 hb
          exact (hoptional (i + 1) b hi).2 (Nat.succ_ne_zero i)

/-- Whatever is in a file, the blocks that are read from it are optional but for the first. -/
private theorem ends_avruleBlockReadFrom_optional {p : ModulePolicydb} {nel n : Nat} (h : n ≤ nel) :
    Ends (avruleBlockReadFrom p nel n) fun block =>
      ∀ (i : Nat) (cur : AvruleBlock), block[i]? = some cur → (cur.optional = true ↔ i + (nel - n) ≠ 0) := by
  induction n with
  | zero =>
    refine .pure fun i cur hcur => ?_
    rw [List.getElem?_nil] at hcur
    cases hcur
  | succ n ih =>
    intro input block rest hrun
    rw [avruleBlockReadFrom] at hrun
    obtain ⟨first, mid, hfirst, hrun⟩ := bind_eq_some.1 hrun
    obtain ⟨next, mid', hnext, hrun⟩ := bind_eq_some.1 hrun
    obtain ⟨rfl, _⟩ := pure_eq_some.1 hrun
    obtain ⟨branchList, mid'', _, hfirst⟩ := bind_eq_some.1 hfirst
    have hoptional := (ends_avruleBlockOf _ _ _ hfirst).1
    intro i cur hcur
    cases i with
    | zero =>
      obtain rfl := Option.some.inj hcur
      rw [hoptional, decide_eq_true_iff]
      omega
    | succ i =>
      rw [ih (by omega) _ _ _ hnext i cur hcur]
      omega

private theorem ends_avruleBlockRead_optional {p : ModulePolicydb} :
    Ends (avruleBlockRead p) fun block =>
      ∀ (i : Nat) (cur : AvruleBlock), block[i]? = some cur → (cur.optional = true ↔ i ≠ 0) := by
  refine .bind fun numBlocks => ?_
  intro input block rest hrun i cur hcur
  have hoptional := ends_avruleBlockReadFrom_optional le_rfl _ _ _ hrun i cur hcur
  rwa [Nat.sub_self, Nat.add_zero] at hoptional

private theorem avruleBlock_survivesIff (p : ModulePolicydb) (block : List AvruleBlock) :
    SurvivesIff (BlocksStorable p block) (avruleBlockWrite p block) (avruleBlockRead p)
      (List.Forall₂ AvruleBlock.Same block) := by
  have hblocks : SurvivesIff ((count block.length).toNat = block.length ∧
      (∀ (i : Nat) (cur : AvruleBlock), block[i]? = some cur → (cur.optional = true ↔ i ≠ 0)) ∧
        ∀ cur ∈ block, cur.Storable p)
      (putAll (block.map (avruleBlockWriteBranches p)))
      (avruleBlockReadFrom p (count block.length).toNat (count block.length).toNat)
      (List.Forall₂ AvruleBlock.Same block) := by
    by_cases hlen : (count block.length).toNat = block.length
    · rw [hlen]
      exact .congr (avruleBlockReadFrom_survivesIff p block) (and_iff_right rfl).symm
    · -- too few blocks are read
      refine ⟨fun hc => absurd hc.1 hlen, fun _ out _ rest block' rest' hrun hall => hlen ?_⟩
      rw [← ends_avruleBlockReadFrom_length _ _ _ hrun, hall.length_eq]
  refine .congr (.exact (word_survivesIff _) (.singleton hblocks)) ?_
  rw [toNat_count_eq_iff]
  constructor
  · rintro ⟨hlen, hoptional, hstorable⟩
    exact ⟨hlen, hoptional, hstorable⟩
  · rintro ⟨hlen, hoptional, hstorable⟩
    exact ⟨hlen, hoptional, hstorable⟩

/-- The bytes that are written for the blocks are read, to their end, as the same blocks. -/
def BlocksSurvive (p : ModulePolicydb) (block : List AvruleBlock) : Prop :=
  ∃ fp block', avruleBlockWrite p block = some fp ∧ avruleBlockRead p fp = some (block', []) ∧
    List.Forall₂ AvruleBlock.Same block block'

/-- The blocks survive the file exactly when the first of them and no other is unconditional, the marks of the
branches agree with the enabled branches, and all records can be stored. -/
theorem blocksSurvive_iff (p : ModulePolicydb) (block : List AvruleBlock) :
    BlocksSurvive p block ↔ BlocksStorable p block :=
  (avruleBlock_survivesIff p block).iff

/-- The block of a base or of a module with nothing in it. -/
def globalBlock (declId : Word) : AvruleBlock where
  branchList := [⟨declId, 1, [], [], [], [], [], [], ⟨fun _ => bitmapInit, []⟩, ⟨fun _ => bitmapInit, []⟩,
    ⟨⟨⟨[], .nil⟩, 0⟩, ⟨⟨[], .nil⟩, 0⟩, ⟨⟨[], .nil⟩, 0⟩, ⟨⟨[], .nil⟩, 0⟩, ⟨⟨[], .nil⟩, 0⟩, ⟨⟨[], .nil⟩, 0⟩,
      ⟨⟨[], .nil⟩, 0⟩, ⟨⟨[], .nil⟩, 0⟩⟩⟩]
  enabled := some 0
  optional := false

/-- What the linker makes of a base and a module, each of one block that is not optional. -/
def linkedBlocks : List AvruleBlock := [globalBlock 1, globalBlock 2]

private theorem not_blocksSurvive_append {p : ModulePolicydb} {base next : List AvruleBlock} {block : AvruleBlock}
    (hbase : base ≠ []) (hblock : block.optional = false) : ¬ BlocksSurvive p (base ++ block :: next) := by
  rintro ⟨fp, block', _, hread, hsame⟩
  obtain ⟨cur, hcur, hcursame⟩ : ∃ cur, block'[base.length]? = some cur ∧ block.Same cur := by
    have hget : (base ++ block :: next)[base.length]? = some block := by
      rw [List.getElem?_append_right le_rfl, Nat.sub_self]
      rfl
    obtain ⟨hlen, hall⟩ := List.forall₂_iff_get.1 hsame
    obtain ⟨hlt, hblock⟩ := List.getElem?_eq_some_iff.1 hget
    have hsame := hall base.length hlt (hlen ▸ hlt)
    rw [List.get_eq_getElem, List.get_eq_getElem, hblock] at hsame
    exact ⟨_, List.getElem?_eq_getElem (hlen ▸ hlt), hsame⟩
  have hoptional := (ends_avruleBlockRead_optional fp block' [] hread base.length cur hcur).2
    (fun hlen => hbase (List.eq_nil_of_length_eq_zero hlen))
  rw [hcursame.1, hblock] at hoptional
  exact Bool.false_ne_true hoptional

/-- The block of the module is read as an optional one. -/
theorem not_blocksSurvive_linked : ¬ BlocksSurvive ⟨.base, .selinux, [], 0⟩ linkedBlocks :=
  not_blocksSurvive_append (List.cons_ne_nil (globalBlock 1) []) rfl

end Sepol.ModuleFile
