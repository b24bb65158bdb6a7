import Sepol.ModuleToCilRoles

/-!
# Roles and types of all blocks in CIL

All that `module_to_cil.c` writes about roles and types in the blocks of a module is written for one symbol after the
other, so that it says what it is to say exactly when each of the symbols meets the condition for it.
-/

namespace Sepol

open Outcome

variable {p : ModulePolicydb} {declStack : List ModuleDecl} {key : CString} {role : KernelRole} {type : KernelType}
  {scope : SymbolScope} {numAttrs next : Nat}

/-! ### The groups of statements -/

/-- The statements of a group are those that are written for its symbol. -/
def SymbolGroup.Written (g : SymbolGroup) (p : ModulePolicydb) : Prop :=
  ∃ next, symbolToCil p g.declStack g.symbol g.scope g.numAttrs = .ok (g, next)

private theorem SymbolGroup.Written.funcToCil_eq {g : SymbolGroup} (h : g.Written p) :
    ∃ next, funcToCil p g.declStack g.symbol g.scope g.numAttrs = .ok (g.statements, next) := by
  obtain ⟨next, hnext⟩ := h
  simp only [symbolToCil, bind_eq_ok_iff] at hnext
  obtain ⟨⟨statements, next'⟩, hstatements, hgroup⟩ := hnext
  simp only [pure, Except.pure, Except.ok.injEq, Prod.mk.injEq] at hgroup
  obtain ⟨hg, rfl⟩ := hgroup
  have hsame : g.statements = statements := by rw [← hg]
  exact ⟨next', by rw [hsame]; exact hstatements⟩

theorem SymbolGroup.Written.keeps {g : SymbolGroup} (h : g.Written p) (hcondition : g.Condition p) : g.Keeps p := by
  obtain ⟨next, hstatements⟩ := h.funcToCil_eq
  unfold SymbolGroup.Condition at hcondition
  unfold SymbolGroup.Keeps
  cases hsymbol : g.symbol with
  | role key role =>
    simp only [funcToCil, hsymbol] at hstatements hcondition
    exact keepsRole_of_condition hstatements hcondition
  | type key type =>
    simp only [funcToCil, hsymbol] at hstatements hcondition
    exact keepsType_of_condition hstatements hcondition

end Sepol
