import Sepol.ComputeAv
import Sepol.CondFlags

/-!
# What access vectors grant

Behind the rules, `context_struct_compute_av` goes over the constraints of the class, the role transitions, and the
bounds of the source type.  A permission is granted exactly when an active rule allows it, no constraint on it fails,
the roles may change, and the same holds for the types that bound the source type (`Permitted`).  After changes of the
booleans the active rules are those for the last states.
-/

namespace Sepol

variable {p : KernelPolicydb} {flavors : KernelFlavors} {state : Nat → Bool} {s t : Context} {tclass : Nat}

/-! ### Constraints and roles -/

/-- The target of the call for the bounds: the type is that of its own bounds, if there are any. -/
def boundedTarget (p : KernelPolicydb) (t : Context) : Context := { t with type := (typeBounds p t.type).getD t.type }

/-- What holds of a decision: it grants the given permissions, and audits what the active rules say. -/
structure AvDecision.Grants (avd : AvDecision) (p : KernelPolicydb) (state : Nat → Bool) (tclass : Nat)
    (s t : Context)
    (allowed : Fin 32 → Prop) : Prop where
  allowed : ∀ k : Fin 32, avd.allowed.getLsbD k = true ↔ allowed k
  auditallow : ∀ k : Fin 32, avd.auditallow.getLsbD k = true ↔
    k ∈ (accessDecision p.toConstraintPolicydb.toPolicydb (condEvaluateExpr state)
      (accessPoint s t tclass)).auditallow
  auditdeny : ∀ k : Fin 32, avd.auditdeny.getLsbD k = true ↔
    k ∈ (accessDecision p.toConstraintPolicydb.toPolicydb (condEvaluateExpr state) (accessPoint s t tclass)).auditdeny

variable {flavors' : KernelFlavors} {requested : BitVec 32} {stack : TextArray} {st : AvState}

/-- The type that bounds a type is a type of the policy. -/
private theorem typeBounds_valid (haccepted : Accepted p flavors) {type bounds : Nat}
    (h : typeBounds p type = some bounds) : bounds - 1 < p.pTypes.nprim ∧ p.HasType bounds := by
  unfold typeBounds at h
  cases htype : p.typeValToStruct (type - 1) with
  | none =>
    rw [htype] at h
    cases h
  | some datum =>
    rw [htype] at h
    dsimp only at h
    split at h
    · cases h
    · next hne =>
      obtain rfl := Option.some.inj h
      have hsome := haccepted.bounds htype hne
      refine ⟨?_, hsome⟩
      obtain ⟨parent, hparent⟩ := Option.isSome_iff_exists.1 hsome
      obtain ⟨e, hentry, _⟩ := Option.map_eq_some_iff.1 hparent
      obtain ⟨hmem, hvalue⟩ := mem_of_indexEntry hentry
      have hvalid := haccepted.types e hmem
      have hnprim := (validateArrayInit_nprim haccepted.arrays).2.2
      have hle : validateValue e.2.value flavors.types = true := by
        unfold validateTypeDatum at hvalid
        split at hvalid
        · cases hvalid
        · next h => simpa using h
      unfold validateValue at hle
      split at hle
      · cases hle
      · change flavors.types.nprim = p.pTypes.nprim at hnprim
        omega

theorem AvArgs.bounds (haccepted : Accepted p flavors) (hargs : AvArgs p s t tclass) {type : Nat}
    (h : typeBounds p s.type = some type) : AvArgs p { s with type } (boundedTarget p t) tclass := by
  refine ⟨(typeBounds_valid haccepted h).1, ?_, hargs.tclass⟩
  unfold boundedTarget
  cases ht : typeBounds p t.type with
  | none => exact hargs.target
  | some bounds => exact (typeBounds_valid haccepted ht).1

private theorem HasType.boundedTarget (haccepted : Accepted p flavors) (ht : p.HasType t.type) :
    p.HasType (boundedTarget p t).type := by
  unfold Sepol.boundedTarget
  cases hbounds : typeBounds p t.type with
  | none => exact ht
  | some bounds => exact (typeBounds_valid haccepted hbounds).2

theorem KernelPolicydb.HasClass.lt (haccepted : Accepted p flavors) (h : p.HasClass tclass) : tclass < 65536 := by
  obtain ⟨hpos, _, hdatum⟩ := h
  obtain ⟨cladatum, hcladatum⟩ := Option.isSome_iff_exists.1 hdatum
  obtain ⟨e, hentry, _⟩ := Option.map_eq_some_iff.1 hcladatum
  obtain ⟨hmem, hvalue⟩ := mem_of_indexEntry hentry
  have hvalid := haccepted.classes e hmem
  simp only [validateClassDatum, Bool.and_eq_true] at hvalid
  obtain ⟨⟨⟨⟨⟨⟨⟨⟨⟨⟨⟨hle, _⟩, _⟩, _⟩, _⟩, _⟩, _⟩, _⟩, _⟩, _⟩, _⟩, _⟩ := hvalid
  rw [Bool.not_eq_true', decide_eq_false_iff_not, Nat.not_lt] at hle
  omega

end Sepol
