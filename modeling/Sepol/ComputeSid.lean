import Sepol.ComputeAv
import Sepol.MlsCompute
import Sepol.SidReuse

/-!
# Computing the context of a new object

`sepol_compute_sid` computes the context of a new object, of a member of an object or of an object that is relabeled
from the contexts of two SIDs, and returns its SID.  The type is that of an active type rule for the two types and the
class, and a new SID is only handed out for a context that is valid.
-/

namespace Sepol

/-! ### The functions -/

/-- `role_trans_t`, without the link. -/
structure RoleTrans where
  role : Nat
  type : Nat
  tclass : Nat
  newRole : Nat

/-- A kernel policy with its list `role_tr`. -/
structure ServerPolicydb extends RangePolicydb where
  roleTr : List RoleTrans

/-- The policy as the security server sees it. -/
abbrev ServerPolicydb.services (p : ServerPolicydb) : Policydb := p.toConstraintPolicydb.toPolicydb

abbrev defaultSource : Nat := 1
abbrev defaultTarget : Nat := 2

/-- The variable `cladatum` of `sepol_compute_sid`. -/
def ServerPolicydb.cladatum (p : ServerPolicydb) (tclass : Nat) : Option KernelClass :=
  if tclass ≠ 0 ∧ tclass ≤ p.pClasses.nprim then p.classValToStruct (tclass - 1) else none

/-- The user identity; `specified` is one of the three kinds of type rules. -/
def computeSidUser (cladatum : Option KernelClass) (scontext tcontext : Context) (specified : BitVec 16) : Nat :=
  if specified = avtabTransition ∨ specified = avtabChange then
    if cladatum.any fun c => c.defaultUser = defaultTarget then tcontext.user else scontext.user
  else if specified = avtabMember then tcontext.user
  else contextInit.user

/-- The default role. -/
def computeSidRole (p : ServerPolicydb) (scontext tcontext : Context) (tclass : Nat) : Nat :=
  if (p.cladatum tclass).any fun c => c.defaultRole = defaultSource then scontext.role
  else if (p.cladatum tclass).any fun c => c.defaultRole = defaultTarget then tcontext.role
  else if tclass = p.processClass then scontext.role
  else objectRVal

/-- The default type. -/
def computeSidType (p : ServerPolicydb) (scontext tcontext : Context) (tclass : Nat) : Nat :=
  if (p.cladatum tclass).any fun c => c.defaultType = defaultSource then scontext.type
  else if (p.cladatum tclass).any fun c => c.defaultType = defaultTarget then tcontext.type
  else if tclass = p.processClass then scontext.type
  else tcontext.type

/-- The key of the type rules for two contexts and a class. -/
def typeRuleKey (scontext tcontext : Context) (tclass : Nat) (specified : BitVec 16) : AvtabKey :=
  ⟨BitVec.ofNat 16 scontext.type, BitVec.ofNat 16 tcontext.type, BitVec.ofNat 16 tclass, specified⟩

/-- The entry that `avdatum` belongs to: the first conditional one that is enabled if there is no permanent one. -/
def computeSidRule (p : ServerPolicydb) (avkey : AvtabKey) : Option AvtabNode :=
  match avtabSearch p.teAvtab avkey with
  | some node => some node
  | none => (avtabSearchNodes p.teCondAvtab avkey).find? fun node => hasSpecified node.key.specified avtabEnabled

/-- The first role transition for two contexts and a class. -/
def computeSidRoleTrans (p : ServerPolicydb) (scontext tcontext : Context) (tclass : Nat) : Option RoleTrans :=
  p.roleTr.find? fun roletr =>
    roletr.role = scontext.role && roletr.type = tcontext.type && roletr.tclass = tclass

/-- The variable `newcontext` of `sepol_compute_sid`; `none` when `mls_compute_sid` fails. -/
def computeSidContext (p : ServerPolicydb) (scontext tcontext : Context) (tclass : Nat) (specified : BitVec 16) :
    Option Context :=
  let user := computeSidUser (p.cladatum tclass) scontext tcontext specified
  let role := computeSidRole p scontext tcontext tclass
  let type := computeSidType p scontext tcontext tclass
  let type :=
    match computeSidRule p (typeRuleKey scontext tcontext tclass specified) with
    | some node => node.datum.data.toNat
    | none => type
  let role :=
    if hasSpecified specified avtabTransition then
      match computeSidRoleTrans p scontext tcontext tclass with
      | some roletr => roletr.newRole
      | none => role
    else role
  mlsComputeSid p.toRangePolicydb scontext tcontext tclass (specified.setWidth 32)
    { contextInit with user, role, type }

/-- The return codes of `sepol_compute_sid`. -/
inductive SidErrno where
  | einval
  | mls
  | eacces
  | sidtab (e : Errno)
deriving DecidableEq

/-- A request to the SID table, as the last step of a computation. -/
def contextSid (s : Sidtab) (context : Context) (mem : Bool) : Except SidErrno SecurityId × Sidtab :=
  match sidtabContextToSid s context mem with
  | (.error e, s) => (.error (.sidtab e), s)
  | (.ok sid, s) => (.ok sid, s)

/-- `sepol_compute_sid`; `mem` says whether the SID table gets memory. -/
def sepolComputeSid (p : ServerPolicydb) (s : Sidtab) (ssid tsid : SecurityId) (tclass : BitVec 16)
    (specified : BitVec 16) (mem : Bool) : Except SidErrno SecurityId × Sidtab :=
  match sidtabSearch s ssid, sidtabSearch s tsid with
  | none, _ => (.error .einval, s)
  | _, none => (.error .einval, s)
  | some scontext, some tcontext =>
    match computeSidContext p scontext tcontext tclass.toNat specified with
    | none => (.error .mls, s)
    | some newcontext =>
      if !contextIsValid p.services newcontext && selinuxEnforcing then (.error .eacces, s)
      else contextSid s newcontext mem

def sepolTransitionSid (p : ServerPolicydb) (s : Sidtab) (ssid tsid : SecurityId) (tclass : BitVec 16) (mem : Bool) :
    Except SidErrno SecurityId × Sidtab := sepolComputeSid p s ssid tsid tclass avtabTransition mem

def sepolMemberSid (p : ServerPolicydb) (s : Sidtab) (ssid tsid : SecurityId) (tclass : BitVec 16) (mem : Bool) :
    Except SidErrno SecurityId × Sidtab := sepolComputeSid p s ssid tsid tclass avtabMember mem

def sepolChangeSid (p : ServerPolicydb) (s : Sidtab) (ssid tsid : SecurityId) (tclass : BitVec 16) (mem : Bool) :
    Except SidErrno SecurityId × Sidtab := sepolComputeSid p s ssid tsid tclass avtabChange mem

variable {p : ServerPolicydb} {state : Nat → Bool} {s s' : Sidtab} {scontext tcontext c : Context} {tclass : Nat}
  {specified : BitVec 16} {n : AvtabNode} {ssid tsid sid : SecurityId} {mem mem' : Bool}

/-! ### Type rules -/

/-- The kinds of type rules. -/
def IsTypeFlag (specified : BitVec 16) : Prop :=
  specified = avtabTransition ∨ specified = avtabChange ∨ specified = avtabMember

private theorem IsTypeFlag.search (h : IsTypeFlag specified) (sp : BitVec 16) :
    hasSpecified (specified &&& ~~~avtabEnabled) sp = hasSpecified sp specified := by
  have hmask : specified &&& ~~~avtabEnabled = specified := by
    rcases h with rfl | rfl | rfl <;> decide
  rw [hmask, hasSpecified, hasSpecified, BitVec.and_comm]

/-- All contexts of the table are valid. -/
def Sidtab.Valid (s : Sidtab) (p : Policydb) : Prop := ∀ n ∈ sidtabNodes s, contextIsValid p n.context = true

private theorem exists_node_of_sidtabSearch (hs : s.Ok) (hc : sidtabSearch s sid = some c) :
    ∃ n ∈ sidtabNodes s, n.context = c := by
  unfold sidtabSearch at hc
  cases hfind : sidtabFind s sid with
  | some n =>
    rw [hfind] at hc
    exact ⟨n, ((sidtabFind_iff hs).1 hfind).1, Option.some.inj hc⟩
  | none =>
    rw [hfind] at hc
    obtain ⟨n, hn, hcontext⟩ := Option.map_eq_some_iff.1 hc
    exact ⟨n, ((sidtabFind_iff hs).1 hn).1, hcontext⟩

theorem Sidtab.Valid.search {p : Policydb} (h : s.Valid p) (hs : s.Ok) (hc : sidtabSearch s sid = some c) :
    contextIsValid p c = true := by
  obtain ⟨n, hn, rfl⟩ := exists_node_of_sidtabSearch hs hc
  exact h n hn

/-- The table after a request that a caller got a SID from: it has the context, and nothing else is new. -/
structure Sidtab.Gives (s s' : Sidtab) (sid : SecurityId) (c : Context) : Prop where
  ok : s'.Ok
  mem : ⟨sid, c⟩ ∈ sidtabNodes s'
  keep : ∀ n ∈ sidtabNodes s, n ∈ sidtabNodes s'
  new : ∀ n ∈ sidtabNodes s', n ∈ sidtabNodes s ∨ n = ⟨sid, c⟩ ∧ sid = s.nextSid
  again : ∀ mem, sidtabContextToSid s' c mem = (.ok sid, s')

/-- SIDs that were handed out before keep their context. -/
theorem Sidtab.Gives.search_eq (h : s.Gives s' sid c) (hs : s.Ok) (hlt : ssid < s.nextSid)
    (hunlabeled : secinitsidUnlabeled < s.nextSid) : sidtabSearch s' ssid = sidtabSearch s ssid := by
  have hfind : ∀ sid', sid' < s.nextSid → sidtabFind s' sid' = sidtabFind s sid' := by
    intro sid' hlt
    cases hf : sidtabFind s sid' with
    | some n =>
      obtain ⟨hn, hsid⟩ := (sidtabFind_iff hs).1 hf
      exact (sidtabFind_iff h.ok).2 ⟨h.keep n hn, hsid⟩
    | none =>
      rw [Option.eq_none_iff_forall_ne_some]
      intro n hn
      obtain ⟨hmem, rfl⟩ := (sidtabFind_iff h.ok).1 hn
      rcases h.new n hmem with hold | ⟨rfl, hnew⟩
      · rw [(sidtabFind_iff hs).2 ⟨hold, rfl⟩] at hf
        cases hf
      · dsimp only at hlt
        rw [hnew] at hlt
        exact BitVec.lt_irrefl _ hlt
  unfold sidtabSearch
  rw [hfind _ hlt, hfind _ hunlabeled]

end Sepol
