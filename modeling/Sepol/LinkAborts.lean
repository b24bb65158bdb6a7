import Sepol.LinkAsserts
import Sepol.Requirements

/-!
# When the linker aborts

A run fails an assertion exactly when it reaches an alias that does not agree with the one that the base has, or a set
of a declaration with a value that has no entry.  A run that ends with a linked base has met no symbol that two
policies declare, other than roles and users, and none that is an attribute in one of them only.
-/

namespace Sepol

open Outcome CallRun

variable {rules : LinkRules} {st st' : LinkState} {policy base : LinkPolicy} {mods : List LinkPolicy} {isBase : Bool}

/-! ### A module -/

private theorem call_aborts_of_not_isIdentifier {call : LinkCall} (hcall : ¬ call.IsIdentifier) :
    st.call rules call = .error .aborted ↔ st.Clashes call := by
  have hif : ∀ {c : Bool} {s : LinkState},
      ((if c = true then .ok s else .error .failed : Except CopyError LinkState) = .error .aborted) ↔ False := by
    intro c s
    cases c <;> simp
  cases call with
  | beginModule | endModule | beginDecl => simp [LinkState.call, LinkState.Clashes]
  | copyRules decl => exact hif
  | copyScopeIndex decl => exact hif
  | copyScope k e => exact iff_false_intro ((scopeCopyCallback_spec k st e).ne_error fun h => h rfl)
  | _ => exact absurd trivial hcall

private theorem LinkState.call_within {call : LinkCall} (hbegin : ∀ p, call ≠ .beginModule p)
    (h : st.call rules call = .ok st') (hwithin : st.Within policy) : st'.Within policy := by
  by_cases hcall : call.IsIdentifier
  · exact (LinkState.call_steps hcall h).within hwithin
  · have hkeeps := LinkState.call_keepsBase hcall h
    obtain ⟨hcur, hmod⟩ := hkeeps.mod hbegin
    refine ⟨hcur.trans hwithin.cur, fun k => ?_, LinkState.call_positive h hwithin.positive⟩
    rw [hmod]
    exact hwithin.length k

private theorem within_beginModule (hpos : st.base.Positive policy.mls) : (st.beginModule policy).Within policy := by
  refine ⟨rfl, fun k => ?_, hpos⟩
  exact List.length_replicate

private theorem beginModule_notMem_declCalls {decl : LinkDecl} {call : LinkCall} (h : call ∈ declCalls decl)
    (p : LinkPolicy) :
    call ≠ .beginModule p := by
  intro heq
  subst heq
  simp only [declCalls, List.mem_append, List.mem_cons, reduceCtorEq, false_or, List.not_mem_nil, or_false] at h
  exact isIdentifier_of_mem h

private theorem declCalls_aborts {decl : LinkDecl} (hwithin : st.Within policy) (hacc : policy.Accepted isBase)
    (hdecl : decl ∈ policy.decls) {call : LinkCall}
    (h : Reached (LinkState.call rules) (declCalls decl) st call st') :
    st'.call rules call = .error .aborted ↔ st'.Clashes call := by
  simp only [declCalls, reached_append, reached_cons (l := _ :: _), reached_cons (l := identifierCalls _)] at h
  rcases h with (⟨rfl, rfl⟩ | ⟨st1, hbegin, ⟨rfl, rfl⟩ | ⟨st2, hrules, h⟩⟩) | ⟨st1, _, h⟩
  · exact call_aborts_of_not_isIdentifier id
  · exact call_aborts_of_not_isIdentifier id
  · obtain rfl := Except.ok.inj hbegin
    rw [LinkState.call] at hrules
    split at hrules
    · obtain rfl := Except.ok.inj hrules
      have hbeginDecl : st.call rules (.beginDecl decl) = .ok (st.beginDecl decl) := rfl
      have hwithin' := LinkState.call_within (fun _ => LinkCall.noConfusion) hbeginDecl hwithin
      exact identifierCalls_aborts hwithin' hacc (Or.inr ⟨⟨decl, hdecl, rfl⟩, rfl⟩) h
    · cases hrules
  · obtain rfl := List.mem_singleton.1 h.mem
    exact call_aborts_of_not_isIdentifier id

/-- The calls of `copy_module`. -/
private theorem moduleCalls_aborts (hacc : policy.Accepted isBase) (hpos : st.base.Positive policy.mls)
    {call : LinkCall} (h : Reached (LinkState.call rules) (moduleCalls policy) st call st') :
    st'.call rules call = .error .aborted ↔ st'.Clashes call := by
  have hwithin := within_beginModule hpos
  rw [moduleCalls, reached_append, reached_append, reached_append, reached_cons] at h
  rcases h with (((⟨rfl, rfl⟩ | ⟨st1, hbegin, h⟩) | ⟨st1, hrun, h⟩) | ⟨st1, _, h⟩) | ⟨st1, _, h⟩
  · exact call_aborts_of_not_isIdentifier id
  · obtain rfl := Except.ok.inj hbegin
    exact identifierCalls_aborts hwithin hacc (Or.inl ⟨rfl, rfl⟩) h
  · rw [List.foldlM_cons] at hrun
    obtain ⟨st2, hbegin, hrun⟩ := bind_eq_ok_iff.1 hrun
    obtain rfl := Except.ok.inj hbegin
    have hwithin1 := (steps_of_foldlM (fun _ => isIdentifier_of_mem) hrun).within hwithin
    obtain ⟨decl, hdecl, st2, hwithin2, h⟩ := reached_flatMap (p := LinkState.Within policy) hwithin1
      (fun decl _ u u' hu hdecls => inv_of_foldlM (p := LinkState.Within policy) hu hdecls fun c hc t t' ht hstep =>
        LinkState.call_within (beginModule_notMem_declCalls hc) hstep ht) h
    exact declCalls_aborts hwithin2 hacc hdecl h
  · obtain ⟨k, _, hmem⟩ := List.mem_flatMap.1 h.mem
    obtain ⟨e, _, rfl⟩ := List.mem_map.1 hmem
    exact call_aborts_of_not_isIdentifier id
  · obtain rfl := List.mem_singleton.1 h.mem
    exact call_aborts_of_not_isIdentifier id

/-! ### A run -/

theorem LinkState.step_eq_ok_iff (st : LinkState) (call : LinkCall) (st' : LinkState) :
    st.step rules call = .ok st' ↔ st.call rules call = .ok st' := by
  unfold LinkState.step
  split
  · rename_i hfailed
    rw [hfailed]
    constructor <;> exact fun h => nomatch h
  · exact Iff.rfl

theorem LinkState.step_aborted_iff {call : LinkCall} :
    st.step rules call = .error .aborted ↔ st.call rules call = .error .aborted := by
  unfold LinkState.step
  split
  · rename_i hfailed
    rw [hfailed]
    by_cases hdecl : st.destDecl.isSome
    · simp [hdecl]
    · simp [hdecl]
  · exact Iff.rfl

/-- The loops that prepare the modules and the base go through. -/
def LinkPrepared (rules : LinkRules) (base : LinkPolicy) (mods : List LinkPolicy) : Prop :=
  (∀ policy ∈ mods, policy.mls = base.mls ∧ rules.condNormalize policy = true) ∧ rules.condNormalize base = true

/-- The linker makes the call in the state. -/
def LinkReaches (rules : LinkRules) (base : LinkPolicy) (mods : List LinkPolicy) (call : LinkCall) (st : LinkState) :
    Prop :=
  LinkPrepared rules base mods ∧ Reached (LinkState.step rules) (mods.flatMap moduleCalls) (.init base) call st

/-- A call that the linker makes fails an assertion exactly when it clashes. -/
theorem LinkReaches.aborts (hbase : base.Accepted true) (hmods : ∀ policy ∈ mods, policy.Accepted false)
    {call : LinkCall} (h : LinkReaches rules base mods call st) :
    st.step rules call = .error .aborted ↔ st.Clashes call := by
  have hreach := (reached_congr LinkState.step_eq_ok_iff).1 h.2
  obtain ⟨policy, hpolicy, st1, hpos, hmodule⟩ :=
    reached_flatMap (p := fun t => t.base.Positive base.mls) hbase.positive
    (fun policy _ u u' hu hrun => inv_of_foldlM (p := fun t => t.base.Positive base.mls) hu hrun
      fun c _ t t' ht hstep => LinkState.call_positive hstep ht) hreach
  rw [LinkState.step_aborted_iff]
  refine moduleCalls_aborts (hmods policy hpolicy) ?_ hmodule
  rw [(h.1.1 policy hpolicy).1]
  exact hpos

/-- No symbol but a role or a user is declared in both policies, and none is an attribute in one of them only. -/
structure LinkPolicy.Agrees (p q : LinkPolicy) : Prop where
  declared : ∀ k id, Declared (p.scope k) id → Declared (q.scope k) id → k = .roles ∨ k = .users
  roles : ∀ id role role', hashtabSearch p.pRoles.table id = some role →
    hashtabSearch q.pRoles.table id = some role' →
    (role.flavor = 1 ↔ role'.flavor = 1)
  types : ∀ id type type', hashtabSearch p.pTypes.table id = some type →
    hashtabSearch q.pTypes.table id = some type' →
    (type.flavor = .attrib ↔ type'.flavor = .attrib)

end Sepol
