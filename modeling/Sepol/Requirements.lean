import Sepol.Lib.Pruning
import Sepol.AvruleBlock

/-!
# Requirements of the blocks

Which blocks of a linked base pass the test of `is_decl_requires_met` when the first branches of a set of blocks are
enabled, and which blocks have all that they require declared by those branches.  Both are monotone in the set.
-/

namespace Sepol

open Relation Pruning

/-- The declarations of all branches of all blocks. -/
def LinkBase.decls (p : LinkBase) : List AvruleDecl := p.global.flatMap AvruleBlock.branchList

def LinkBase.firstBranch (p : LinkBase) (b : Nat) : Option AvruleDecl :=
  p.global[b]?.bind fun block => block.branchList.head?

def LinkBase.NonOptional (p : LinkBase) : Set Nat :=
  {b | ∃ block, p.global[b]? = some block ∧ block.optional = false}

/-- The arrays and ids that linking leaves behind: every block has a branch and the global block, the first one, no
other; required symbols, classes and permissions have their entries. -/
structure LinkBase.Ok (p : LinkBase) : Prop where
  branch : ∀ block ∈ p.global, block.branchList ≠ []
  globalBlock : ∃ decl optional blocks, p.global = ⟨[decl], optional⟩ :: blocks
  nodup : (p.decls.map AvruleDecl.declId).Nodup
  declVal : ∀ i decl, p.declValToStruct i = some decl → decl ∈ p.decls ∧ decl.declId = i + 1
  declIds_pos : ∀ i e, e ∈ p.scope i → ∀ declId ∈ e.2.declIds, 0 < declId
  canonical : ∀ decl ∈ p.decls, ∀ i, (decl.required.scope i).Canonical
  canonical_perms : ∀ decl ∈ p.decls, ∀ bitmap ∈ decl.required.classPermsMap, bitmap.Canonical
  symbol : ∀ decl ∈ p.decls, ∀ i j, j ∈ decl.required.scope i → (p.symValToName i j).isSome
  classes : ∀ decl ∈ p.decls, ∀ i < decl.required.classPermsMap.length, (p.symValToName .classes i).isSome
  perm : ∀ decl ∈ p.decls, ∀ i bitmap, decl.required.classPermsMap[i]? = some bitmap → ∀ j ∈ bitmap,
    ∃ cladatum, p.classValToStruct i = some cladatum ∧ (requiredPermId cladatum (j + 1)).isSome

variable {p : LinkBase} {en en' : Nat → Bool} {decl : AvruleDecl} {req : Option MissingRequirement} {st : EnableState}
  {E : Finset Nat} {b : Nat}

/-! ### The test of one declaration -/

/-- All symbols that `is_decl_requires_met` looks up are enabled. -/
def RequirementsEnabled (p : LinkBase) (en : Nat → Bool) (decl : AvruleDecl) : Prop :=
  (∀ i, i ≠ .classes → ∀ j ∈ decl.required.scope i, ∀ id, p.symValToName i j = some id → isIdEnabled p en id i) ∧
    ∀ i < decl.required.classPermsMap.length, ∀ id, p.symValToName .classes i = some id → isIdEnabled p en id .classes

theorem isIdEnabled_mono (h : ∀ d, en d → en' d) (id : CString) (i : SymNum) :
    isIdEnabled p en id i → isIdEnabled p en' id i := by
  have hdecl : ∀ d, ((p.declValToStruct (d - 1)).any fun decl => en decl.declId) = true →
      ((p.declValToStruct (d - 1)).any fun decl => en' decl.declId) = true := by
    intro d
    cases p.declValToStruct (d - 1) with
    | none => exact fun h => h
    | some decl => exact h decl.declId
  unfold isIdEnabled
  cases hashtabSearch (p.scope i) id with
  | none => exact fun h => h
  | some scope =>
    dsimp only
    split
    · exact fun h => h
    · split
      · intro hany
        obtain ⟨d, hd, hen⟩ := List.any_eq_true.1 hany
        exact List.any_eq_true.2 ⟨d, hd, hdecl d hen⟩
      · cases scope.declIds.getLast? with
        | none => exact fun h => h
        | some d => exact hdecl d

theorem RequirementsEnabled.mono (h : ∀ d, en d → en' d) (hreq : RequirementsEnabled p en decl) :
    RequirementsEnabled p en' decl :=
  ⟨fun i hi j hj id hid => isIdEnabled_mono h id i (hreq.1 i hi j hj id hid),
    fun i hi id hid => isIdEnabled_mono h id .classes (hreq.2 i hi id hid)⟩

theorem hashtabSearch_isSome {α : Type} {table : List (CString × α)} {e : CString × α} (h : e ∈ table) :
    (hashtabSearch table e.1).isSome := by
  rw [hashtabSearch, Option.isSome_map, List.find?_isSome]
  exact ⟨e, h, decide_eq_true rfl⟩

/-- What is written to `req` names a symbol. -/
def Names (p : LinkBase) (i : SymNum) (req : Option MissingRequirement) : Prop :=
  ∃ j id permValue, req = some ⟨i, j + 1, permValue⟩ ∧ p.symValToName i j = some id

/-- A class that the declaration has permissions for is not enabled. -/
def ClassMissing (p : LinkBase) (en : Nat → Bool) (decl : AvruleDecl) : Prop :=
  ∃ i < decl.required.classPermsMap.length, ∃ id, p.symValToName .classes i = some id ∧ ¬ isIdEnabled p en id .classes

open Classical in
/-- The declarations that are enabled with a set of blocks: their first branches. -/
noncomputable def enabledOf (p : LinkBase) (S : Set Nat) (declId : Nat) : Bool :=
  decide (∃ b ∈ S, ∃ decl, p.firstBranch b = some decl ∧ decl.declId = declId)

theorem enabledOf_eq_true {S : Set Nat} {d : Nat} :
    enabledOf p S d = true ↔ ∃ b ∈ S, ∃ decl, p.firstBranch b = some decl ∧ decl.declId = d := by
  classical exact decide_eq_true_iff

theorem enabledOf_mono {S T : Set Nat} (h : S ≤ T) (d : Nat) : enabledOf p S d → enabledOf p T d := by
  intro hd
  obtain ⟨b, hb, hex⟩ := enabledOf_eq_true.1 hd
  exact enabledOf_eq_true.2 ⟨b, h hb, hex⟩

/-- The blocks that pass the test of the code when the first branches of a set of blocks are enabled. -/
noncomputable def passedBlocks (p : LinkBase) : Set Nat →o Set Nat where
  toFun S := {b | ∃ decl, p.firstBranch b = some decl ∧ RequirementsEnabled p (enabledOf p S) decl}
  monotone' S T hST := by
    intro b hb
    obtain ⟨decl, hdecl, hreq⟩ := hb
    exact ⟨decl, hdecl, hreq.mono (enabledOf_mono hST)⟩

theorem firstBranch_eq_some : p.firstBranch b = some decl ↔
    ∃ block rest, p.global[b]? = some block ∧ block.branchList = decl :: rest := by
  rw [LinkBase.firstBranch, Option.bind_eq_some_iff]
  refine exists_congr fun block => ?_
  rw [List.head?_eq_some_iff]
  exact ⟨fun ⟨h, rest, hrest⟩ => ⟨rest, h, hrest⟩, fun ⟨rest, h, hrest⟩ => ⟨h, rest, hrest⟩⟩

/-- An id belongs to one place in one block. -/
theorem LinkBase.Ok.branch_unique (hok : p.Ok) {b' i i' : Nat} {block block' : AvruleBlock} {decl' : AvruleDecl}
    (hb : p.global[b]? = some block) (hi : block.branchList[i]? = some decl) (hb' : p.global[b']? = some block')
    (hi' : block'.branchList[i']? = some decl') (heq : decl.declId = decl'.declId) : b = b' ∧ i = i' := by
  have hnodup := hok.nodup
  rw [LinkBase.decls, List.map_flatMap, List.nodup_flatMap, List.pairwise_iff_getElem] at hnodup
  obtain ⟨hlt, rfl⟩ := List.getElem?_eq_some_iff.1 hb
  obtain ⟨hlt', rfl⟩ := List.getElem?_eq_some_iff.1 hb'
  have hmem : decl.declId ∈ p.global[b].branchList.map AvruleDecl.declId :=
    List.mem_map_of_mem (List.mem_of_getElem? hi)
  have hmem' : decl.declId ∈ p.global[b'].branchList.map AvruleDecl.declId :=
    heq ▸ List.mem_map_of_mem (List.mem_of_getElem? hi')
  have hbb : b = b' := by
    rcases Nat.lt_trichotomy b b' with h | h | h
    · exact absurd hmem' (hnodup.2 b b' hlt hlt' h hmem)
    · exact h
    · exact absurd hmem (hnodup.2 b' b hlt' hlt h hmem')
  subst hbb
  refine ⟨rfl, ?_⟩
  have hids := hnodup.1 _ (List.getElem_mem hlt)
  have hget : (p.global[b].branchList.map AvruleDecl.declId)[i]? =
      (p.global[b].branchList.map AvruleDecl.declId)[i']? := by
    rw [List.getElem?_map, List.getElem?_map, hi, hi', Option.map_some, Option.map_some, heq]
  have hil : i < (p.global[b].branchList.map AvruleDecl.declId).length := by
    rw [List.length_map]
    exact (List.getElem?_eq_some_iff.1 hi).1
  exact (List.getElem?_inj hil hids).1 hget

end Sepol
