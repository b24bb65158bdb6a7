import Sepol.ExtendedPerms
import Sepol.Lib.Coverage

/-!
# Access decisions

What the rules of a policy decide for a source type, a target type and a class: the union of the permissions that are
allowed or audited, the intersection of those whose denial is audited, and the extended permissions.  A rule
contributes atoms to the decision (`Yields`), which are the same for all rules with the same specifier and datum; this
makes the rules those of `Coverage`.
-/

namespace Sepol

variable {p : Policydb} {n : AvtabNode}

structure AccessPoint where
  source : Nat
  target : Nat
  tclass : Nat

/-- The rule is for the types or for attributes of theirs, and for the class. -/
structure RuleApplies (p : Policydb) (n : AvtabNode) (x : AccessPoint) : Prop where
  source : n.key.sourceType.toNat - 1 ∈ p.typeAttrMap x.source
  target : n.key.targetType.toNat - 1 ∈ p.typeAttrMap x.target
  tclass : n.key.targetClass.toNat = x.tclass

/-- The extended permission of a kind with this driver and function number is granted; the two kinds of ioctl
permissions grant functions of one driver and all functions of some drivers. -/
def AvtabExtendedPerms.Grants (xperms : AvtabExtendedPerms) (kind driver function : BitVec 8) : Prop :=
  if xperms.specified = avtabXpermsIoctldriver then
    kind = avtabXpermsIoctlfunction ∧ xpermTest driver xperms.perms = true
  else kind = xperms.specified ∧ xperms.driver = driver ∧ xpermTest function xperms.perms = true

/-- The unconditional rules, and those of the active lists of the conditionals; `σ` gives the truth values of their
expressions, where an expression without a value makes neither list active. -/
def activeRules (p : Policydb) (σ : List CondExpr → Option Bool) : Set AvtabNode :=
  {n | n ∈ avtabNodes p.teAvtab ∨
    ∃ cl ∈ p.condList, ∃ b, σ cl.expr = some b ∧ ∃ addr ∈ cl.branch b, condNodeAt p addr = some n}

structure AccessDecision where
  allowed : Set (Fin 32)
  auditallow : Set (Fin 32)
  auditdeny : Set (Fin 32)
  xpermsRule : Set (BitVec 16)
  xperms : Set (BitVec 16 × BitVec 8 × BitVec 8 × BitVec 8)

/-- The decision for two types and a class: unions of the data of the rules that allow and that audit, the
intersection of the data of those for denials, and for each specifier of extended permissions whether there is a rule,
with the permissions that are granted. -/
def accessDecision (p : Policydb) (σ : List CondExpr → Option Bool) (x : AccessPoint) : AccessDecision where
  allowed := {k | ∃ n ∈ activeRules p σ, RuleApplies p n x ∧ hasSpecified n.key.specified avtabAllowed = true ∧
    n.datum.data.getLsbD k = true}
  auditallow := {k | ∃ n ∈ activeRules p σ, RuleApplies p n x ∧ hasSpecified n.key.specified avtabAuditallow = true ∧
    n.datum.data.getLsbD k = true}
  auditdeny := {k | ∀ n ∈ activeRules p σ, RuleApplies p n x → hasSpecified n.key.specified avtabAuditdeny = true →
    n.datum.data.getLsbD k = true}
  xpermsRule := {sp | ∃ n ∈ activeRules p σ, RuleApplies p n x ∧
    hasSpecified n.key.specified (sp &&& avtabXperms) = true}
  xperms := {g | ∃ n ∈ activeRules p σ, RuleApplies p n x ∧
    hasSpecified n.key.specified (g.1 &&& avtabXperms) = true ∧ n.datum.xperms.Grants g.2.1 g.2.2.1 g.2.2.2}

/-! ### Atoms -/

/-- What a rule can contribute to a decision; `auditdeny k` says that bit `k` is taken out of the intersection. -/
inductive AccessAtom where
  | allowed (k : Fin 32)
  | auditallow (k : Fin 32)
  | auditdeny (k : Fin 32)
  | xpermsRule (sp : BitVec 16)
  | xperms (sp : BitVec 16) (kind driver function : BitVec 8)

/-- The specifier of the rules that contribute the atom. -/
def AccessAtom.flag : AccessAtom → BitVec 16
  | .allowed _ => avtabAllowed
  | .auditallow _ => avtabAuditallow
  | .auditdeny _ => avtabAuditdeny
  | .xpermsRule sp => sp &&& avtabXperms
  | .xperms sp _ _ _ => sp &&& avtabXperms

/-- The datum of a rule with the specifier of the atom contributes it. -/
def AvtabDatum.Yields (d : AvtabDatum) : AccessAtom → Prop
  | .allowed k => d.data.getLsbD k = true
  | .auditallow k => d.data.getLsbD k = true
  | .auditdeny k => d.data.getLsbD k = false
  | .xpermsRule _ => True
  | .xperms _ kind driver function => d.xperms.Grants kind driver function

def AvtabNode.Yields (n : AvtabNode) (a : AccessAtom) : Prop :=
  hasSpecified n.key.specified a.flag = true ∧ n.datum.Yields a

/-- The rule applies to two types, neither of them an attribute, and a class. -/
def AppliesToTypes (p : Policydb) (n : AvtabNode) (x : AccessPoint) : Prop :=
  IsType p x.source ∧ IsType p x.target ∧ RuleApplies p n x

/-- What a set of rules grants for two types and a class. -/
abbrev RulesGrant (p : Policydb) : Set AvtabNode → AccessPoint → AccessAtom → Prop :=
  Coverage.Granted (AppliesToTypes p) AvtabNode.Yields

/-- Policies whose active rules grant the same decide the same. -/
theorem accessDecision_eq_of_granted {p p' : Policydb} {σ : List CondExpr → Option Bool} {x : AccessPoint}
    (hmap : p'.typeAttrMap = p.typeAttrMap) (hs : IsType p x.source) (ht : IsType p x.target)
    (h : ∀ a, RulesGrant p (activeRules p' σ) x a ↔ RulesGrant p (activeRules p σ) x a) :
    accessDecision p' σ x = accessDecision p σ x := by
  have happly : ∀ n, RuleApplies p' n x ↔ AppliesToTypes p n x := fun n => by
    constructor
    · rintro ⟨h1, h2, h3⟩
      exact ⟨hs, ht, hmap ▸ h1, hmap ▸ h2, h3⟩
    · rintro ⟨_, _, h1, h2, h3⟩
      exact ⟨hmap ▸ h1, hmap ▸ h2, h3⟩
  have happly' : ∀ n, RuleApplies p n x ↔ AppliesToTypes p n x := fun n =>
    ⟨fun hx => ⟨hs, ht, hx⟩, fun hx => hx.2.2⟩
  have hex : ∀ a, (∃ n ∈ activeRules p' σ, RuleApplies p' n x ∧ n.Yields a) ↔
      ∃ n ∈ activeRules p σ, RuleApplies p n x ∧ n.Yields a := fun a => by
    simp only [happly, happly']
    exact h a
  have hdeny : ∀ (q : Policydb) (k : Fin 32), (∀ n ∈ activeRules q σ, RuleApplies q n x →
      hasSpecified n.key.specified avtabAuditdeny = true → n.datum.data.getLsbD k = true) ↔
      ¬ ∃ n ∈ activeRules q σ, RuleApplies q n x ∧ n.Yields (.auditdeny k) := fun q k => by
    constructor
    · rintro hall ⟨n, hn, hx, hf, hd⟩
      have := hall n hn hx hf
      rw [show n.datum.data.getLsbD k = false from hd] at this
      cases this
    · intro hno n hn hx hf
      by_contra hd
      exact hno ⟨n, hn, hx, hf, Bool.eq_false_iff.2 hd⟩
  have hrule : ∀ (q : Policydb) (sp : BitVec 16), (∃ n ∈ activeRules q σ, RuleApplies q n x ∧
      hasSpecified n.key.specified (sp &&& avtabXperms) = true) ↔
      ∃ n ∈ activeRules q σ, RuleApplies q n x ∧ n.Yields (.xpermsRule sp) := fun q sp => by
    simp only [AvtabNode.Yields, AvtabDatum.Yields, and_true]
    rfl
  simp only [accessDecision, AccessDecision.mk.injEq, hdeny, hrule]
  refine ⟨Set.ext fun k => hex (.allowed k), Set.ext fun k => hex (.auditallow k),
    Set.ext fun k => not_congr (hex (.auditdeny k)), Set.ext fun sp => hex (.xpermsRule sp),
    Set.ext fun g => hex (.xperms g.1 g.2.1 g.2.2.1 g.2.2.2)⟩

end Sepol
