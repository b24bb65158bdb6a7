import Sepol.Requirements

/-!
# The blocks that are enabled

`enable_avrules` removes blocks whose requirements are not met until nothing changes, so that the greatest set of
blocks that passes its own test is left.  The test looks at the scope records, and the set that is wanted is the
greatest one whose requirements its first branches declare; the two agree where the records tell who declares a
symbol.
-/

namespace Sepol

open Relation Pruning

variable {p : LinkBase} {decl : AvruleDecl} {st st' : EnableState} {E : Finset Nat} {b : Nat}

/-! ### The passes -/

/-- The first branches of a set of blocks are the declarations that are enabled. -/
structure EnabledBlocks (p : LinkBase) (E : Finset Nat) (st : EnableState) : Prop where
  range : ∀ b ∈ E, b < p.global.length
  block : ∀ b < p.global.length, st.blockEnabled b = if b ∈ E then some 0 else none
  decl : ∀ decl ∈ p.decls, st.enabled decl.declId = enabledOf p E decl.declId

private theorem isIdEnabled_congr {en en' : Nat → Bool} (hok : p.Ok)
    (h : ∀ decl ∈ p.decls, en decl.declId = en' decl.declId) (id : CString) (i : SymNum) :
    isIdEnabled p en id i = isIdEnabled p en' id i := by
  have hdecl : ∀ d, ((p.declValToStruct (d - 1)).any fun decl => en decl.declId) =
      (p.declValToStruct (d - 1)).any fun decl => en' decl.declId := by
    intro d
    cases hval : p.declValToStruct (d - 1) with
    | none => rfl
    | some decl => exact h decl (hok.declVal _ _ hval).1
  unfold isIdEnabled
  simp only [hdecl]

theorem RequirementsEnabled.congr {en en' : Nat → Bool} (hok : p.Ok)
    (h : ∀ decl ∈ p.decls, en decl.declId = en' decl.declId) (hreq : RequirementsEnabled p en decl) :
    RequirementsEnabled p en' decl := by
  have hid := isIdEnabled_congr hok h
  refine ⟨fun i hi j hj id hname => ?_, fun i hi id hname => ?_⟩
  · rw [← hid]
    exact hreq.1 i hi j hj id hname
  · rw [← hid]
    exact hreq.2 i hi id hname

/-- A block is taken out, and its first branch is disabled. -/
theorem EnabledBlocks.erase (hok : p.Ok) (hE : EnabledBlocks p E st) (hdecl : p.firstBranch b = some decl)
    (req : Option MissingRequirement) : EnabledBlocks p (E.erase b)
      ⟨Function.update st.enabled decl.declId false, Function.update st.blockEnabled b none, req⟩ := by
  obtain ⟨block, rest, hb, hrest⟩ := firstBranch_eq_some.1 hdecl
  refine ⟨fun c hc => hE.range c (Finset.mem_of_mem_erase hc), fun c hc => ?_, fun d hd => ?_⟩
  · by_cases hcb : c = b
    · subst hcb
      simp
    · simp only [Function.update_of_ne hcb, hE.block c hc, Finset.mem_erase, ne_eq, hcb, not_false_eq_true, true_and]
  · dsimp only
    by_cases hid : d.declId = decl.declId
    · rw [hid, Function.update_self, eq_comm, ← Bool.not_eq_true, enabledOf_eq_true]
      intro hex
      obtain ⟨c, hc, decl', hdecl', heq⟩ := hex
      obtain ⟨block', rest', hb', hrest'⟩ := firstBranch_eq_some.1 hdecl'
      -- the id belongs to the first branch of the block that was taken out
      have hfirst : block.branchList[0]? = some decl := by rw [hrest]; rfl
      have hfirst' : block'.branchList[0]? = some decl' := by rw [hrest']; rfl
      have hcb := (hok.branch_unique hb' hfirst' hb hfirst heq).1
      exact Finset.ne_of_mem_erase (Finset.mem_coe.1 hc) hcb
    · rw [Function.update_of_ne hid, hE.decl d hd, Bool.eq_iff_iff, enabledOf_eq_true, enabledOf_eq_true]
      constructor
      · intro hex
        obtain ⟨c, hc, decl', hdecl', heq⟩ := hex
        refine ⟨c, Finset.mem_coe.2 (Finset.mem_erase.2 ⟨?_, Finset.mem_coe.1 hc⟩), decl', hdecl', heq⟩
        rintro rfl
        rw [hdecl] at hdecl'
        exact hid (heq ▸ congrArg AvruleDecl.declId (Option.some.inj hdecl').symm)
      · intro hex
        obtain ⟨c, hc, hex⟩ := hex
        exact ⟨c, Finset.mem_coe.2 (Finset.mem_of_mem_erase (Finset.mem_coe.1 hc)), hex⟩

/-- Blocks that do not pass the test are removed one at a time, and all of them are optional. -/
def RemovesBlocks (p : LinkBase) (E E' : Finset Nat) : Prop :=
  ReflTransGen (Removes (passedBlocks p)) E E' ∧ (p.NonOptional ⊆ E → p.NonOptional ⊆ E')

theorem RemovesBlocks.trans {E' E'' : Finset Nat} (h : RemovesBlocks p E E') (h' : RemovesBlocks p E' E'') :
    RemovesBlocks p E E'' :=
  ⟨h.1.trans h'.1, fun hE => h'.2 (h.2 hE)⟩

theorem RemovesBlocks.erase {block : AvruleBlock} (hE : b ∈ E) (hb : b ∉ passedBlocks p E)
    (hblock : p.global[b]? = some block) (hoptional : block.optional = true) : RemovesBlocks p E (E.erase b) := by
  refine ⟨ReflTransGen.single ⟨b, hE, hb, Finset.coe_erase b E⟩, ?_⟩
  intro hnon c hc
  refine Finset.mem_coe.2 (Finset.mem_erase.2 ⟨?_, Finset.mem_coe.1 (hnon hc)⟩)
  rintro rfl
  obtain ⟨block', hblock', hmandatory⟩ := hc
  rw [hblock] at hblock'
  obtain rfl := Option.some.inj hblock'
  rw [hoptional] at hmandatory
  cases hmandatory

/-- The classes that blocks require that are not optional are enabled with these blocks. -/
def LinkBase.GlobalClassesEnabled (p : LinkBase) : Prop :=
  ∀ b ∈ p.NonOptional, ∀ decl, p.firstBranch b = some decl → ¬ ClassMissing p (enabledOf p p.NonOptional) decl

/-- A block that is not optional stops the run: with `SEPOL_EREQ`, or with a read of what was never set, which is so
only for a missing class. -/
def StopsBlocks (p : LinkBase) (r : EnableResult) : Prop :=
  (∃ st, r = .ereq st) ∨ r = .aborted ∧ ¬ p.GlobalClassesEnabled

/-- Exactly the blocks of a set have their first branches enabled, and the other blocks their else branches. -/
def Resolved (p : LinkBase) (S : Set Nat) (st : EnableState) : Prop :=
  ∀ b block, p.global[b]? = some block → (b ∈ S → st.blockEnabled b = some 0) ∧
    (b ∉ S → st.blockEnabled b = if 2 ≤ block.branchList.length then some 1 else none) ∧
    ∀ i decl, block.branchList[i]? = some decl → (st.enabled decl.declId ↔ st.blockEnabled b = some i)

theorem Resolved.unique {S T : Set Nat} (hS : Resolved p S st) (hT : Resolved p T st)
    (hSrange : ∀ b ∈ S, b < p.global.length) (hTrange : ∀ b ∈ T, b < p.global.length) : S = T := by
  ext b
  constructor
  · intro hb
    have hblock := List.getElem?_eq_getElem (hSrange b hb)
    by_contra hnot
    have hsome := (hS b _ hblock).1 hb
    rw [(hT b _ hblock).2.1 hnot] at hsome
    split at hsome <;> simp at hsome
  · intro hb
    have hblock := List.getElem?_eq_getElem (hTrange b hb)
    by_contra hnot
    have hsome := (hT b _ hblock).1 hb
    rw [(hS b _ hblock).2.1 hnot] at hsome
    split at hsome <;> simp at hsome

theorem StopsBlocks.ereq {r : EnableResult} (h : StopsBlocks p r) (hclasses : p.GlobalClassesEnabled) :
    ∃ st, r = .ereq st :=
  h.resolve_right fun habort => habort.2 hclasses

variable {declIds : List Nat}

end Sepol
