import Sepol.BoundsRecursion
import Sepol.OptimizeRule

/-!
# Access vectors and the decision of the rules

The loops of `context_struct_compute_av` over the attributes of two types look up the rules of both tables by their
keys.  On a policy that `policydb_validate` accepts they compute the decision of the active rules: the ones of the
unconditional table, and the ones in the lists that the states of the booleans make active.
-/

namespace Sepol

variable {p : KernelPolicydb} {flavors : KernelFlavors} {state : Nat → Bool} {s t : Context} {tclass : Nat}
  {n : AvtabNode} {key : AvtabKey}

/-! ### Loops that gather bits -/

/-- The tables of rules as the reader leaves them: in order, with one specifier bit in every entry and no flag on an
unconditional one.  Versions without booleans have no conditionals, and the values of the types fit in a key. -/
structure KernelPolicydb.RulesOk (p : KernelPolicydb) : Prop where
  teAvtab : p.teAvtab.Filled
  plain : ∀ n ∈ avtabNodes p.teAvtab, hasSpecified n.key.specified avtabEnabled = false
  teCondAvtab : p.teCondAvtab.Filled
  condList : p.policyvers < policydbVersionBool → p.condList = []
  typeAttrMap : ∀ i, (p.typeAttrMap i).Canonical
  fit : p.pTypes.nprim ≤ 65535

/-- The kinds of access vector rules. -/
def IsAvFlag (flag : BitVec 16) : Prop := flag = avtabAllowed ∨ flag = avtabAuditallow ∨ flag = avtabAuditdeny

private theorem IsAvFlag.bit {flag : BitVec 16} (h : IsAvFlag flag) :
    ∃ i < 3, flag = 1#16 <<< i ∧ ∀ j < 16, flag.getLsbD j = decide (j = i) := by
  rcases h with rfl | rfl | rfl
  · exact ⟨0, by decide, by decide, by decide⟩
  · exact ⟨1, by decide, by decide, by decide⟩
  · exact ⟨2, by decide, by decide, by decide⟩

/-- The types of a call and its class are those of a policy. -/
structure AvArgs (p : KernelPolicydb) (s t : Context) (tclass : Nat) : Prop where
  source : s.type - 1 < p.pTypes.nprim
  target : t.type - 1 < p.pTypes.nprim
  tclass : tclass < 65536

/-- The point that a call asks about. -/
abbrev accessPoint (s t : Context) (tclass : Nat) : AccessPoint := ⟨s.type - 1, t.type - 1, tclass⟩

end Sepol
