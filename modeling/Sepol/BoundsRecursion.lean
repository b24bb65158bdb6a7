import Sepol.PolicydbValidate
import Sepol.Lib.Descent
import Sepol.ConstraintRun

/-!
# Computing access vectors

`context_struct_compute_av` and `type_attribute_bounds_av`, which call each other.  The functions take the number of
calls that may still be made; the result is `none` when there are more.  The sequence number of a decision and the
buffer for reasons are left out.
-/

namespace Sepol

structure AvDecision where
  allowed : BitVec 32
  decided : BitVec 32
  auditallow : BitVec 32
  auditdeny : BitVec 32

/-- The code returns -EINVAL, or it would access memory through a null pointer or outside an array. -/
inductive AvExit where
  | einval
  | outside

/-- The variables of a call: the decision, the reason, the permissions that are still requested, and the stack of
`push` and `pop`. -/
structure AvState where
  avd : AvDecision
  reason : BitVec 32
  requested : BitVec 32
  stack : TextArray

abbrev sepolComputeavTe : BitVec 32 := 1
abbrev sepolComputeavCons : BitVec 32 := 2
abbrev sepolComputeavRbac : BitVec 32 := 4
abbrev sepolComputeavBounds : BitVec 32 := 8

def avDecisionInit : AvDecision := ⟨0, 0xffffffff, 0, 0xffffffff⟩

/-! ### Rules -/

def computeAvNode (avd : AvDecision) (node : AvtabNode) : AvDecision :=
  if node.key.specified = avtabAllowed then { avd with allowed := avd.allowed ||| node.datum.data }
  else if node.key.specified = avtabAuditallow then { avd with auditallow := avd.auditallow ||| node.datum.data }
  else if node.key.specified = avtabAuditdeny then { avd with auditdeny := avd.auditdeny &&& node.datum.data }
  else avd

def condComputeAvNode (avd : AvDecision) (node : AvtabNode) : AvDecision :=
  let enabled (flag : BitVec 16) : Bool := flag ||| avtabEnabled = node.key.specified &&& (flag ||| avtabEnabled)
  let avd := if enabled avtabAllowed then { avd with allowed := avd.allowed ||| node.datum.data } else avd
  let avd := if enabled avtabAuditdeny then { avd with auditdeny := avd.auditdeny &&& node.datum.data } else avd
  if enabled avtabAuditallow then { avd with auditallow := avd.auditallow ||| node.datum.data } else avd

/-- `cond_compute_av`. -/
def condComputeAv (ctab : Avtab) (key : AvtabKey) (avd : AvDecision) : AvDecision :=
  (avtabSearchNodes ctab key).foldl condComputeAvNode avd

/-- The loops over the attributes of the two types. -/
def computeAvTypes (p : KernelPolicydb) (scontext tcontext : Context) (tclass : Nat) : AvDecision :=
  (ebitmapPositiveBits (p.typeAttrMap (scontext.type - 1))).foldl (fun avd i =>
    (ebitmapPositiveBits (p.typeAttrMap (tcontext.type - 1))).foldl (fun avd j =>
      let avkey : AvtabKey :=
        ⟨BitVec.ofNat 16 (i + 1), BitVec.ofNat 16 (j + 1), BitVec.ofNat 16 tclass, avtabAv⟩
      condComputeAv p.teCondAvtab avkey ((avtabSearchNodes p.teAvtab avkey).foldl computeAvNode avd)) avd)
    avDecisionInit

/-- `if (requested & ~avd->allowed)`. -/
def computeAvRequested (flag : BitVec 32) (st : AvState) : AvState :=
  if st.requested &&& ~~~st.avd.allowed ≠ 0 then
    { st with reason := st.reason ||| flag, requested := st.requested &&& st.avd.allowed }
  else st

/-- The loop over the constraints, with the permissions that are allowed. -/
def computeAvConstraints (p : KernelPolicydb) (scontext tcontext : Context) :
    List ConstraintNode → BitVec 32 → TextArray → Except AvExit (BitVec 32 × TextArray)
  | [], allowed, stack => .ok (allowed, stack)
  | constraint :: next, allowed, stack =>
    if constraint.permissions &&& allowed ≠ 0 then
      match constraintExprEvalReason p.toConstraintPolicydb scontext tcontext none constraint stack with
      | .error .outside => .error .outside
      -- -EINVAL is not 0
      | .error .einval => computeAvConstraints p scontext tcontext next allowed stack
      | .error .bug => computeAvConstraints p scontext tcontext next (allowed &&& ~~~constraint.permissions) stack
      | .ok result =>
        computeAvConstraints p scontext tcontext next
          (if result.rc then allowed else allowed &&& ~~~constraint.permissions) result.stack
    else computeAvConstraints p scontext tcontext next allowed stack

/-- The check of the roles for transitions of processes. -/
def computeAvRoles (p : KernelPolicydb) (scontext tcontext : Context) (tclass : Nat) (allowed : BitVec 32) :
    BitVec 32 :=
  if tclass = p.processClass ∧ allowed &&& p.processTransDyntrans ≠ 0 ∧ scontext.role ≠ tcontext.role ∧
      ¬ p.roleAllow.any fun ra => scontext.role = ra.1 && tcontext.role = ra.2 then
    allowed &&& ~~~p.processTransDyntrans
  else allowed

/-- `context_struct_compute_av` up to the bounds. -/
def computeAvDirect (p : KernelPolicydb) (scontext tcontext : Context) (tclass : Nat) (requested : BitVec 32)
    (stack : TextArray) : Except AvExit AvState :=
  if tclass = 0 ∨ tclass > p.pClasses.nprim then .error .einval
  else
    match p.classValToStruct (tclass - 1) with
    | none => .error .outside
    | some tclassDatum =>
      let st := computeAvRequested sepolComputeavTe ⟨computeAvTypes p scontext tcontext tclass, 0, requested, stack⟩
      match computeAvConstraints p scontext tcontext tclassDatum.constraints st.avd.allowed st.stack with
      | .error err => .error err
      | .ok (allowed, stack) =>
        let st := computeAvRequested sepolComputeavCons { st with avd := { st.avd with allowed }, stack }
        let allowed := computeAvRoles p scontext tcontext tclass st.avd.allowed
        .ok (computeAvRequested sepolComputeavRbac { st with avd := { st.avd with allowed } })

/-! ### Bounds -/

/-- The contexts of the call for the bounds, `none` when there is no call. -/
def boundsContexts (p : KernelPolicydb) (scontext tcontext : Context) : Except AvExit (Option (Context × Context)) :=
  match p.typeValToStruct (scontext.type - 1) with
  | none => .error .outside
  | some source =>
    if source.bounds = 0 then .ok none
    else
      match p.typeValToStruct (tcontext.type - 1) with
      | none => .error .outside
      | some target =>
        let loScontext := { scontext with type := source.bounds }
        let loTcontext := if target.bounds ≠ 0 then { tcontext with type := target.bounds } else tcontext
        .ok (some (loScontext, loTcontext))

/-- What the permissions for the bounds leave of a decision. -/
def boundsMask (loAllowed : BitVec 32) (stack : TextArray) (st : AvState) : AvState :=
  let masked := ~~~loAllowed &&& st.avd.allowed
  if masked = 0 then { st with stack }
  else
    { st with
      avd := { st.avd with allowed := st.avd.allowed &&& ~~~masked }
      reason := st.reason ||| sepolComputeavBounds
      stack }

/-- `type_attribute_bounds_av`, with the function that it calls.  When this returns -EINVAL, `lo_avd` is what `memset`
made it. -/
def typeAttributeBoundsAv (p : KernelPolicydb)
    (compute : Context → Context → BitVec 32 → TextArray → Option (Except AvExit AvState))
    (scontext tcontext : Context) (st : AvState) : Option (Except AvExit AvState) :=
  match boundsContexts p scontext tcontext with
  | .error err => some (.error err)
  | .ok none => some (.ok st)
  | .ok (some (loScontext, loTcontext)) =>
    match compute loScontext loTcontext st.requested st.stack with
    | none => none
    | some (.error .outside) => some (.error .outside)
    | some (.error .einval) => some (.ok (boundsMask 0 st.stack st))
    | some (.ok lo) => some (.ok (boundsMask lo.avd.allowed lo.stack st))

def contextStructComputeAv (p : KernelPolicydb) (tclass : Nat) :
    Nat → Context → Context → BitVec 32 → TextArray → Option (Except AvExit AvState)
  | 0, _, _, _, _ => none
  | calls + 1, scontext, tcontext, requested, stack =>
    match computeAvDirect p scontext tcontext tclass requested stack with
    | .error err => some (.error err)
    | .ok st => typeAttributeBoundsAv p (contextStructComputeAv p tclass calls) scontext tcontext st

end Sepol

/-!
## Bounds of types and the end of the recursion

`policydb_validate` looks at the bounds of each type on its own.  So the calls of `context_struct_compute_av` and
`type_attribute_bounds_av` end exactly when the bounds of the source type lead to a type without bounds.
-/

namespace Sepol

open Descent

/-- The type that bounds a type. -/
def typeBounds (p : KernelPolicydb) (type : Nat) : Option Nat :=
  match p.typeValToStruct (type - 1) with
  | none => none
  | some datum => if datum.bounds = 0 then none else some datum.bounds

/-- The role `object_r` that `policydb_init` enters, and bitmaps as the readers build them. -/
structure KernelPolicydb.Wf (p : KernelPolicydb) : Prop where
  objectR : ∃ role, (objectR, role) ∈ p.pRoles.table ∧ role.value = objectRVal
  dominates : ∀ e ∈ p.pRoles.table, e.2.dominates.Canonical
  constraints : ∀ e ∈ p.pClasses.table, ∀ node ∈ e.2.constraints, ∀ x ∈ node.expr, x.Canonical

variable {p : KernelPolicydb} {flavors : KernelFlavors} {s t : Context} {tclass : Nat} {requested : BitVec 32}
  {stack : TextArray}

/-! ### What is validated -/

/-- The checks that the proofs use. -/
structure Accepted (p : KernelPolicydb) (flavors : KernelFlavors) : Prop where
  arrays : validateArrayInit p.toConstraintPolicydb.toPolicydb = some flavors.toConstraintFlavors
  classes : ∀ e ∈ p.pClasses.table, validateClassDatum flavors e.2 = true
  roles : ∀ e ∈ p.pRoles.table, validateRoleDatum flavors e.2 = true
  types : ∀ e ∈ p.pTypes.table, validateTypeDatum p flavors e.2 = true

theorem validateArrayInit_of_kernel (harrays : p.validateArrayInit = some flavors) :
    validateArrayInit p.toConstraintPolicydb.toPolicydb = some flavors.toConstraintFlavors := by
  unfold KernelPolicydb.validateArrayInit at harrays
  obtain ⟨commons, _, harrays⟩ := Option.bind_eq_some_iff.1 harrays
  obtain ⟨classes, _, harrays⟩ := Option.bind_eq_some_iff.1 harrays
  obtain ⟨cflavors, hcflavors, harrays⟩ := Option.bind_eq_some_iff.1 harrays
  obtain ⟨bools, _, harrays⟩ := Option.bind_eq_some_iff.1 harrays
  obtain ⟨levels, _, harrays⟩ := Option.bind_eq_some_iff.1 harrays
  obtain ⟨cats, _, harrays⟩ := Option.bind_eq_some_iff.1 harrays
  obtain rfl := Option.some.inj harrays
  exact hcflavors

theorem exists_accepted (h : policydbValidate p = true) : ∃ flavors, Accepted p flavors := by
  unfold policydbValidate at h
  cases harrays : p.validateArrayInit with
  | none =>
    rw [harrays] at h
    cases h
  | some flavors =>
    rw [harrays] at h
    simp only [Bool.and_eq_true, validateDatumArrayEntries, List.all_eq_true] at h
    obtain ⟨⟨⟨⟨_, ⟨⟨⟨⟨⟨⟨⟨_, hclasses⟩, hroles⟩, htypes⟩, _⟩, _⟩, _⟩, _⟩⟩, _⟩, _⟩, _⟩ := h
    refine ⟨flavors, ?_, hclasses, hroles, htypes⟩
    exact validateArrayInit_of_kernel harrays

theorem validateValue_ne_zero {value : Nat} {flavor : Validate} (h : validateValue value flavor = true) :
    value ≠ 0 := by
  intro hz
  rw [validateValue, if_pos (Or.inl hz)] at h
  cases h

/-- The type that bounds a type has a datum. -/
theorem Accepted.bounds (h : Accepted p flavors) {i : Nat} {type : KernelType}
    (htype : p.typeValToStruct i = some type)
    (hbounds : type.bounds ≠ 0) : (p.typeValToStruct (type.bounds - 1)).isSome := by
  obtain ⟨e, hentry, rfl⟩ := Option.map_eq_some_iff.1 htype
  have hvalid := h.types e (mem_of_indexEntry hentry).1
  have hsimple : validateSimpletype p flavors e.2.bounds = true := by
    unfold validateTypeDatum at hvalid
    split at hvalid
    · cases hvalid
    · split at hvalid
      · cases hvalid
      · rw [Bool.and_eq_true] at hvalid
        obtain ⟨hflavor, _⟩ := hvalid
        split at hflavor <;> simp_all
  unfold validateSimpletype at hsimple
  split at hsimple
  · cases hsimple
  · cases hdatum : p.typeValToStruct (e.2.bounds - 1) with
    | none =>
      rw [hdatum] at hsimple
      cases hsimple
    | some datum => rfl

theorem KernelPolicydb.Wf.indexed (h : p.Wf) (haccepted : Accepted p flavors) : p.toConstraintPolicydb.Indexed where
  objectR := by
    obtain ⟨role, hmem, hvalue⟩ := h.objectR
    exact ⟨role.toRoleDatum, List.mem_map_of_mem hmem, hvalue⟩
  roles key datum hmem := by
    obtain ⟨e, he, heq⟩ := List.mem_map.1 hmem
    obtain ⟨rfl, rfl⟩ := Prod.mk.inj heq
    have hvalid := haccepted.roles e he
    simp only [validateRoleDatum, Bool.and_eq_true] at hvalid
    have hpos := validateValue_ne_zero hvalid.1.1.1.1.1
    have hsome : (p.roleEntry (e.2.value - 1)).isSome := by
      unfold KernelPolicydb.roleEntry indexEntry
      rw [List.find?_isSome]
      refine ⟨e, he, ?_⟩
      rw [Bool.true_and, decide_eq_true_iff]
      dsimp only
      omega
    rw [KernelPolicydb.toConstraintPolicydb, Option.isSome_map]
    exact hsome
  dominates i := by
    unfold KernelPolicydb.toConstraintPolicydb
    dsimp only
    cases hentry : p.roleEntry i with
    | none => exact Ebitmap.Canonical.init
    | some e => exact h.dominates e (mem_of_indexEntry hentry).1

theorem validateClassDatum_constraints {cladatum : KernelClass} (h : validateClassDatum flavors cladatum = true) :
    cladatum.permissions.nprim ≠ uint32Max ∧
      validateConstraintNodes cladatum.permissions.nprim cladatum.constraints flavors.toConstraintFlavors = true := by
  simp only [validateClassDatum, Bool.and_eq_true] at h
  obtain ⟨⟨⟨⟨⟨⟨⟨⟨⟨_, hnprim⟩, _⟩, _⟩, hnodes⟩, _⟩, _⟩, _⟩, _⟩, _⟩ := h
  rw [Bool.not_eq_true', Bool.or_eq_false_iff, decide_eq_false_iff_not, Nat.not_lt] at hnprim
  refine ⟨fun heq => ?_, hnodes⟩
  have hle := hnprim.1
  unfold permSymtabSize at hle
  unfold uint32Max at heq
  omega

/-! ### One call -/

/-- The constraints of a class neither run into an error nor end the calls. -/
private theorem computeAvConstraints_ok (hp : p.Wf) (haccepted : Accepted p flavors)
    (hs : p.toConstraintPolicydb.Evaluable s)
    (ht : p.toConstraintPolicydb.Evaluable t) {i : Nat} {cladatum : KernelClass}
    (hclass : p.classValToStruct i = some cladatum) (allowed : BitVec 32) (stack : TextArray) :
    ∃ r, computeAvConstraints p s t cladatum.constraints allowed stack = .ok r := by
  obtain ⟨e, hentry, rfl⟩ := Option.map_eq_some_iff.1 hclass
  have hmem := (mem_of_indexEntry hentry).1
  obtain ⟨hnprim, hnodes⟩ := validateClassDatum_constraints (haccepted.classes e hmem)
  have hall : ∀ cons : List ConstraintNode, (∀ node ∈ cons, node ∈ e.2.constraints) → ∀ allowed stack,
      ∃ r, computeAvConstraints p s t cons allowed stack = .ok r := by
    intro cons
    induction cons with
    | nil => exact fun _ allowed stack => ⟨_, rfl⟩
    | cons node next ih =>
      intro hsub allowed stack
      have hnode := hsub node (List.mem_cons_self ..)
      have hnext := ih fun n hn => hsub n (List.mem_cons_of_mem _ hn)
      unfold computeAvConstraints
      split
      · obtain ⟨_, ⟨_, result, hresult, _⟩, _⟩ := constraintExprEvalReason_run (hp.indexed haccepted) haccepted.arrays
          hnodes hnode (hp.constraints e hmem node hnode) hs ht (fun h => absurd h hnprim) stack
        rw [hresult]
        exact hnext _ _
      · exact hnext allowed stack
  exact hall _ (fun _ h => h) allowed stack

/-- The part of a call before the bounds leaves the call of a class that the policy has. -/
theorem computeAvDirect_ok (hp : p.Wf) (haccepted : Accepted p flavors) (hs : p.toConstraintPolicydb.Evaluable s)
    (ht : p.toConstraintPolicydb.Evaluable t) (hpos : tclass ≠ 0) (hle : tclass ≤ p.pClasses.nprim)
    (hclass : (p.classValToStruct (tclass - 1)).isSome) (requested : BitVec 32) (stack : TextArray) :
    ∃ st, computeAvDirect p s t tclass requested stack = .ok st := by
  obtain ⟨cladatum, hcladatum⟩ := Option.isSome_iff_exists.1 hclass
  unfold computeAvDirect
  rw [if_neg (by omega), hcladatum]
  dsimp only
  obtain ⟨r, hr⟩ := computeAvConstraints_ok hp haccepted hs ht hcladatum
    (computeAvRequested sepolComputeavTe ⟨computeAvTypes p s t tclass, 0, requested, stack⟩).avd.allowed
    (computeAvRequested sepolComputeavTe ⟨computeAvTypes p s t tclass, 0, requested, stack⟩).stack
  rw [hr]
  exact ⟨_, rfl⟩

/-- The arguments of a call. -/
abbrev BoundsCall : Type := Context × Context × BitVec 32 × TextArray

/-- The call that a call makes for the bounds. -/
def nextCall (p : KernelPolicydb) (tclass : Nat) (call : BoundsCall) : Option BoundsCall :=
  match computeAvDirect p call.1 call.2.1 tclass call.2.2.1 call.2.2.2 with
  | .error _ => none
  | .ok st =>
    match boundsContexts p call.1 call.2.1 with
    | .error _ => none
    | .ok none => none
    | .ok (some contexts) => some (contexts.1, contexts.2, st.requested, st.stack)

/-- What holds of the arguments of all calls. -/
structure BoundsCall.Inv (p : KernelPolicydb) (call : BoundsCall) : Prop where
  source : p.toConstraintPolicydb.Evaluable call.1
  target : p.toConstraintPolicydb.Evaluable call.2.1
  datum : (p.typeValToStruct (call.2.1.type - 1)).isSome

theorem ConstraintPolicydb.Evaluable.withType {q : ConstraintPolicydb} {c : Context} (h : q.Evaluable c)
    (type : Nat) :
    q.Evaluable { c with type } := ⟨h.role_pos, h.role_le, h.role, h.level0, h.level1⟩

/-- The contexts for the bounds are those of the bounds of the types. -/
private theorem boundsContexts_cases (haccepted : Accepted p flavors) {call : BoundsCall} (hinv : call.Inv p) :
    (typeBounds p call.1.type = none ∧ ∀ contexts, boundsContexts p call.1 call.2.1 ≠ .ok (some contexts)) ∨
      ∃ contexts, boundsContexts p call.1 call.2.1 = .ok (some contexts) ∧
        typeBounds p call.1.type = some contexts.1.type ∧
        ∀ requested stack, BoundsCall.Inv p (contexts.1, contexts.2, requested, stack) := by
  obtain ⟨target, htarget⟩ := Option.isSome_iff_exists.1 hinv.datum
  unfold boundsContexts typeBounds
  cases hsource : p.typeValToStruct (call.1.type - 1) with
  | none => exact .inl ⟨rfl, fun _ h => by cases h⟩
  | some source =>
    dsimp only
    by_cases hbounds : source.bounds = 0
    · rw [if_pos hbounds, if_pos hbounds]
      exact .inl ⟨rfl, fun _ h => by cases h⟩
    · rw [if_neg hbounds, if_neg hbounds, htarget]
      refine .inr ⟨_, rfl, rfl, fun requested stack => ⟨hinv.source.withType _, ?_, ?_⟩⟩
      · dsimp only
        split
        · exact hinv.target.withType _
        · exact hinv.target
      · dsimp only
        split
        · next htb => exact haccepted.bounds htarget htb
        · exact hinv.datum

variable (p tclass) in
/-- `context_struct_compute_av` with its arguments in one. -/
def computeCall (calls : Nat) (call : BoundsCall) : Option (Except AvExit AvState) :=
  contextStructComputeAv p tclass calls call.1 call.2.1 call.2.2.1 call.2.2.2

private theorem computeCall_succ_none (calls : Nat) {call : BoundsCall} (h : nextCall p tclass call = none) :
    (computeCall p tclass (calls + 1) call).isSome := by
  unfold nextCall at h
  unfold computeCall contextStructComputeAv
  cases hdirect : computeAvDirect p call.1 call.2.1 tclass call.2.2.1 call.2.2.2 with
  | error err => rfl
  | ok st =>
    rw [hdirect] at h
    dsimp only at h ⊢
    unfold typeAttributeBoundsAv
    cases hcontexts : boundsContexts p call.1 call.2.1 with
    | error err => rfl
    | ok contexts =>
      cases contexts with
      | none => rfl
      | some contexts =>
        rw [hcontexts] at h
        cases h

private theorem computeCall_succ_some (calls : Nat) {call call' : BoundsCall}
    (h : nextCall p tclass call = some call') :
    (computeCall p tclass (calls + 1) call).isSome ↔ (computeCall p tclass calls call').isSome := by
  unfold nextCall at h
  conv_lhs => unfold computeCall contextStructComputeAv
  cases hdirect : computeAvDirect p call.1 call.2.1 tclass call.2.2.1 call.2.2.2 with
  | error err =>
    rw [hdirect] at h
    cases h
  | ok st =>
    rw [hdirect] at h
    dsimp only at h ⊢
    unfold typeAttributeBoundsAv
    cases hcontexts : boundsContexts p call.1 call.2.1 with
    | error err =>
      rw [hcontexts] at h
      cases h
    | ok contexts =>
      rw [hcontexts] at h
      cases contexts with
      | none => cases h
      | some contexts =>
        obtain rfl := Option.some.inj h
        dsimp only
        unfold computeCall
        dsimp only
        cases contextStructComputeAv p tclass calls contexts.1 contexts.2 st.requested st.stack with
        | none => rfl
        | some r =>
          cases r with
          | error err => cases err <;> rfl
          | ok lo => rfl

/-! ### The end of the calls -/

/-- The policy has the class. -/
def KernelPolicydb.HasClass (p : KernelPolicydb) (tclass : Nat) : Prop :=
  tclass ≠ 0 ∧ tclass ≤ p.pClasses.nprim ∧ (p.classValToStruct (tclass - 1)).isSome

def KernelPolicydb.HasType (p : KernelPolicydb) (type : Nat) : Prop := (p.typeValToStruct (type - 1)).isSome

/-- A call for a class or a target type that the policy does not have makes no further call. -/
private theorem nextCall_eq_none (call : BoundsCall) (h : ¬ (p.HasClass tclass ∧ p.HasType call.2.1.type)) :
    nextCall p tclass call = none := by
  unfold nextCall
  by_cases hclass : p.HasClass tclass
  · have htype : p.typeValToStruct (call.2.1.type - 1) = none := by
      rw [← Option.not_isSome_iff_eq_none]
      exact fun htype => h ⟨hclass, htype⟩
    cases computeAvDirect p call.1 call.2.1 tclass call.2.2.1 call.2.2.2 with
    | error err => rfl
    | ok st =>
      unfold boundsContexts
      dsimp only
      cases p.typeValToStruct (call.1.type - 1) with
      | none => rfl
      | some source =>
        dsimp only
        by_cases hbounds : source.bounds = 0
        · rw [if_pos hbounds]
        · rw [if_neg hbounds, htype]
  · have hdirect : ∃ err, computeAvDirect p call.1 call.2.1 tclass call.2.2.1 call.2.2.2 = .error err := by
      unfold computeAvDirect
      by_cases hrange : tclass = 0 ∨ tclass > p.pClasses.nprim
      · exact ⟨.einval, if_pos hrange⟩
      · rw [if_neg hrange]
        have hnone : p.classValToStruct (tclass - 1) = none := by
          rw [← Option.not_isSome_iff_eq_none]
          intro hsome
          rw [not_or, Nat.not_lt] at hrange
          exact hclass ⟨hrange.1, hrange.2, hsome⟩
        rw [hnone]
        exact ⟨.outside, rfl⟩
    obtain ⟨err, herr⟩ := hdirect
    rw [herr]

/-- The calls for a class and a target type that the policy has follow the bounds of the source type. -/
theorem computeCall_ends_iff (hp : p.Wf) (haccepted : Accepted p flavors) (hclass : p.HasClass tclass)
    {call : BoundsCall}
    (hinv : call.Inv p) : (∃ calls, (computeCall p tclass calls call).isSome) ↔ Ends (typeBounds p) call.1.type := by
  obtain ⟨hpos, hle, hdatum⟩ := hclass
  have hnext : ∀ call : BoundsCall, call.Inv p → (nextCall p tclass call).map (·.1.type) = typeBounds p call.1.type ∧
      ∀ call', nextCall p tclass call = some call' → call'.Inv p := by
    intro call hinv
    obtain ⟨st, hst⟩ := computeAvDirect_ok hp haccepted hinv.source hinv.target hpos hle hdatum call.2.2.1 call.2.2.2
    unfold nextCall
    rw [hst]
    dsimp only
    rcases boundsContexts_cases haccepted hinv with ⟨hbounds, hnone⟩ | ⟨contexts, hcontexts, hbounds, hinv'⟩
    · cases hcontexts : boundsContexts p call.1 call.2.1 with
      | error err => exact ⟨hbounds.symm, fun call' h => by cases h⟩
      | ok contexts =>
        cases contexts with
        | none => exact ⟨hbounds.symm, fun call' h => by cases h⟩
        | some contexts => exact absurd hcontexts (hnone contexts)
    · rw [hcontexts]
      refine ⟨hbounds.symm, fun call' h => ?_⟩
      obtain rfl := Option.some.inj h
      exact hinv' _ _
  rw [← ends_map_iff (fun call call' hinv h => (hnext call hinv).2 call' h)
    (fun call hinv => (hnext call hinv).1) hinv]
  exact isSome_iff_ends (fun _ => rfl) (fun n call _ h => computeCall_succ_none n h)
    (fun call call' hinv h => (hnext call hinv).2 call' h) (fun n call call' _ h => computeCall_succ_some n h) hinv

/-- The calls end exactly when the first one makes no further call, because the policy does not have its class or its
target type, or when the bounds of the source type lead to a type without bounds. -/
theorem contextStructComputeAv_ends_iff (p : KernelPolicydb) (hp : p.Wf) (hvalid : policydbValidate p = true)
    (scontext tcontext : p.toConstraintPolicydb.ValidContext) (tclass : Nat) (requested : BitVec 32)
    (stack : TextArray) :
    (∃ calls, (contextStructComputeAv p tclass calls scontext tcontext requested stack).isSome) ↔
      ¬ (p.HasClass tclass ∧ p.HasType tcontext.1.type) ∨ Ends (typeBounds p) scontext.1.type := by
  obtain ⟨flavors, haccepted⟩ := exists_accepted hvalid
  by_cases hhas : p.HasClass tclass ∧ p.HasType tcontext.1.type
  · rw [or_iff_right (not_not.2 hhas)]
    have hindexed := hp.indexed haccepted
    have hinv : BoundsCall.Inv p (scontext.1, tcontext.1, requested, stack) :=
      ⟨scontext.2.evaluable hindexed, tcontext.2.evaluable hindexed, hhas.2⟩
    exact computeCall_ends_iff hp haccepted hhas.1 hinv
  · refine iff_of_true ⟨1, ?_⟩ (.inl hhas)
    exact computeCall_succ_none 0 (nextCall_eq_none (scontext.1, tcontext.1, requested, stack) hhas)

/-! ### A type bounded by itself -/

/-- A policy with one class, one user, the role `object_r` and the type `t`, whose bounds are given. -/
def boundedTypePolicydb (bounds : Nat) : KernelPolicydb where
  policyvers := 33
  mls := false
  targetPlatform := sepolTargetSelinux
  pCommons := symtabInit
  pClasses := ⟨[(['c'], ⟨1, none, symtabInit, [], [], 0, 0, 0, 0⟩)], 1⟩
  pRoles := ⟨[(objectR, ⟨⟨objectRVal, ebitmapInit⟩, ebitmapInit,
    ⟨ebitmapInit, ebitmapInit, 0⟩, 0, 0, ebitmapInit⟩)], 1⟩
  pTypes := ⟨[(['t'], ⟨⟨1, .type, bounds⟩, 1, ebitmapInit, 0⟩)], 1⟩
  pUsers := ⟨[(['u'],
    ⟨⟨1, ebitmapInit, mlsRangeInit⟩, ⟨ebitmapInit, 0⟩, ⟨⟨0, []⟩, ⟨0, []⟩⟩, ⟨0, []⟩, mlsLevelInit, 0⟩)], 1⟩
  pBools := symtabInit
  pLevels := symtabInit
  pCats := symtabInit
  teAvtab := avtabAlloc 0
  teCondAvtab := avtabAlloc 0
  condList := []
  roleAllow := []
  permissiveMap := ebitmapInit
  processClass := 0
  processTransDyntrans := 0
  typeAttrMap := fun i => selfMap 1 i
  attrTypeMap := fun i => selfMap 1 i

private theorem boundedTypePolicydb_wf (bounds : Nat) : (boundedTypePolicydb bounds).Wf where
  objectR := ⟨_, List.mem_singleton_self _, rfl⟩
  dominates e he := by
    rw [List.mem_singleton.1 he]
    exact Ebitmap.Canonical.init
  constraints e he := by
    rw [List.mem_singleton.1 he]
    exact fun node hnode => absurd hnode List.not_mem_nil

private theorem boundedTypePolicydb_valid (bounds : Nat) :
    (boundedTypePolicydb bounds).toConstraintPolicydb.Valid ⟨1, 1, 1, mlsRangeInit⟩ :=
  ⟨rfl, Ebitmap.Canonical.init, Ebitmap.Canonical.init⟩

/-- The policy with the type `v` bounded by `u`, and `u` by `t`. -/
def boundsChainPolicydb : KernelPolicydb :=
  { boundedTypePolicydb 0 with
    pTypes := ⟨[(['t'], ⟨⟨1, .type, 0⟩, 1, ebitmapInit, 0⟩), (['u'], ⟨⟨2, .type, 1⟩, 1, ebitmapInit, 0⟩),
      (['v'], ⟨⟨3, .type, 2⟩, 1, ebitmapInit, 0⟩)], 3⟩
    typeAttrMap := selfMap 3
    attrTypeMap := selfMap 3 }

/-- The bounds of `v` lead to `t`, which has none. -/
theorem contextStructComputeAv_ends_chain :
    (∃ calls, (contextStructComputeAv boundsChainPolicydb 1 calls ⟨1, 1, 3, mlsRangeInit⟩ ⟨1, 1, 3, mlsRangeInit⟩ 0
        .empty).isSome) ↔
      ¬ (boundsChainPolicydb.HasClass 1 ∧ boundsChainPolicydb.HasType 3) ∨
        Ends (typeBounds boundsChainPolicydb) 3 := by
  have hcontext : boundsChainPolicydb.toConstraintPolicydb.Valid ⟨1, 1, 3, mlsRangeInit⟩ :=
    ⟨rfl, Ebitmap.Canonical.init, Ebitmap.Canonical.init⟩
  have hwf : boundsChainPolicydb.Wf := ⟨(boundedTypePolicydb_wf 0).objectR, (boundedTypePolicydb_wf 0).dominates,
    (boundedTypePolicydb_wf 0).constraints⟩
  exact contextStructComputeAv_ends_iff boundsChainPolicydb hwf (by decide +kernel) ⟨_, hcontext⟩ ⟨_, hcontext⟩ 1 0
    .empty

/-- The calls for a type that is its own bounds do not end. -/
theorem contextStructComputeAv_ends_not :
    ¬ ∀ p : KernelPolicydb, p.Wf → policydbValidate p = true →
      ∀ (scontext tcontext : p.toConstraintPolicydb.ValidContext) (tclass : Nat) (requested : BitVec 32)
        (stack : TextArray),
        ∃ calls, (contextStructComputeAv p tclass calls scontext tcontext requested stack).isSome := by
  intro h
  have hvalid : policydbValidate (boundedTypePolicydb 1) = true := by decide +kernel
  obtain ⟨flavors, haccepted⟩ := exists_accepted hvalid
  have hwf := boundedTypePolicydb_wf 1
  have hcontext := boundedTypePolicydb_valid 1
  have hevaluable := hcontext.evaluable (hwf.indexed haccepted)
  have hends := h _ hwf hvalid ⟨_, hcontext⟩ ⟨_, hcontext⟩ 1 0 .empty
  have hclass : (boundedTypePolicydb 1).HasClass 1 := ⟨by decide, by decide, rfl⟩
  have hinv : BoundsCall.Inv (boundedTypePolicydb 1)
      (⟨1, 1, 1, mlsRangeInit⟩, ⟨1, 1, 1, mlsRangeInit⟩, 0, .empty) := ⟨hevaluable, hevaluable, rfl⟩
  have hself : typeBounds (boundedTypePolicydb 1) 1 = some 1 := rfl
  exact not_ends_of_self hself ((computeCall_ends_iff hwf haccepted hclass hinv).1 hends)

end Sepol
