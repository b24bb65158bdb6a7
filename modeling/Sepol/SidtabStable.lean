import Sepol.SidtabInv

/-!
# The SID table as a stable partial bijection

Sequences of calls of `sepol_sidtab_insert` and `sepol_sidtab_context_to_sid` on a new table.  As long as the inserted
SIDs are ordinary ones and the inserted contexts new, the table is a bijection between its SIDs and its contexts,
and no later call changes what a SID stands for.
-/

namespace Sepol

/-- A call on the table; `mem` says whether its allocations succeed. -/
inductive SidtabCall where
  | insert (sid : SecurityId) (context : Context) (mem : Bool)
  | contextToSid (context : Context) (mem : Bool)

def SidtabCall.context : SidtabCall → Context
  | insert _ context _ => context
  | contextToSid context _ => context

/-- The result of a call, with the SID its context has got, and the table afterwards. -/
def sidtabCall (s : Sidtab) : SidtabCall → Except Errno SecurityId × Sidtab
  | .insert sid context mem =>
    let r := sidtabInsert s sid context mem
    (r.1.map fun _ => sid, r.2)
  | .contextToSid context mem => sidtabContextToSid s context mem

def sidtabCalls (s : Sidtab) (calls : List SidtabCall) : Sidtab :=
  calls.foldl (fun s call => (sidtabCall s call).2) s

/-- An inserted SID is neither `SECSID_NULL` nor `UINT_MAX`, and an inserted context is not in the table. -/
def SidtabCall.Admissible (s : Sidtab) : SidtabCall → Prop
  | insert sid context _ => sid ≠ 0 ∧ sid ≠ uintMax ∧ ∀ n ∈ sidtabNodes s, contextCmp n.context context = false
  | contextToSid _ _ => True

def AdmissibleCalls : Sidtab → List SidtabCall → Prop
  | _, [] => True
  | s, call :: rest => call.Admissible s ∧ AdmissibleCalls (sidtabCall s call).2 rest

/-- Equal contexts have the same SID and different contexts different SIDs. -/
def Sidtab.Bijective (s : Sidtab) : Prop :=
  ∀ n ∈ sidtabNodes s, ∀ m ∈ sidtabNodes s, contextCmp n.context m.context = true ↔ n.sid = m.sid

variable {s : Sidtab} {calls : List SidtabCall}

/-! ### One call -/

private theorem sidtabCall_of_error (h : s.Ok) (call : SidtabCall) {e : Errno}
    (he : (sidtabCall s call).1 = .error e) : (sidtabCall s call).2 = s := by
  cases call with
  | insert sid context mem =>
    simp only [sidtabCall] at he ⊢
    rcases sidtabInsert_cases h sid context mem with ⟨r, _⟩ | ⟨r, _⟩ | ⟨t, r, _⟩
    · rw [r]
    · rw [r]
    · rw [r] at he; cases he
  | contextToSid context mem =>
    simp only [sidtabCall] at he ⊢
    rcases sidtabContextToSid_cases h context mem with ⟨n, _, _, r⟩ | ⟨_, r | ⟨t, r, _⟩⟩
    · rw [r]
    · rw [r]
    · rw [r] at he; cases he

/-- A call that succeeds returns the SID of a node with its context; this node is in the table already, or it is
the only one that the call adds. -/
private theorem sidtabCall_of_ok (h : s.Ok) (call : SidtabCall) {sid : SecurityId}
    (hr : (sidtabCall s call).1 = .ok sid) :
    (sidtabCall s call).2 = s ∧ (∃ n ∈ sidtabNodes s, n.sid = sid ∧ n.context = call.context) ∨
      s.Adds (sidtabCall s call).2 ⟨sid, call.context⟩ ∧ (∀ n ∈ sidtabNodes s, n.sid ≠ sid) ∧
        (call.Admissible s → ∀ n ∈ sidtabNodes s, n.context ≠ call.context) := by
  cases call with
  | insert sid' context mem =>
    simp only [sidtabCall] at hr ⊢
    rcases sidtabInsert_cases h sid' context mem with ⟨r, _⟩ | ⟨r, _⟩ | ⟨t, r, _, hnew, hadd, _⟩
    · rw [r] at hr; cases hr
    · rw [r] at hr; cases hr
    · rw [r] at hr ⊢
      cases hr
      refine Or.inr ⟨hadd, hnew, fun hadm n hn e => ?_⟩
      have hne := hadm.2.2 n hn
      have heq : contextCmp n.context context = true := (contextCmp_iff _ _).2 e
      rw [heq] at hne
      cases hne
  | contextToSid context mem =>
    simp only [sidtabCall] at hr ⊢
    rcases sidtabContextToSid_cases h context mem with ⟨n, hn, hc, r⟩ | ⟨hnone, r | ⟨t, r, _, hadd, _⟩⟩
    · rw [r] at hr ⊢
      cases hr
      exact Or.inl ⟨rfl, n, hn, rfl, hc⟩
    · rw [r] at hr; cases hr
    · rw [r] at hr ⊢
      cases hr
      refine Or.inr ⟨hadd, fun n hn e => ?_, fun _ => hnone⟩
      have := h.lt_next n hn
      rw [e] at this
      exact BitVec.lt_irrefl _ this

theorem sidtabCall_ok (h : s.Ok) (call : SidtabCall) (hadm : call.Admissible s) : (sidtabCall s call).2.Ok := by
  cases call with
  | insert sid context mem =>
    simp only [sidtabCall]
    rcases sidtabInsert_cases h sid context mem with ⟨r, _⟩ | ⟨r, _⟩ | ⟨t, r, _⟩
    · rw [r]; exact h
    · rw [r]; exact h
    · rw [r]; exact sidtabInsert_ok h hadm.1 hadm.2.1 r
  | contextToSid context mem => exact sidtabContextToSid_ok h context mem

theorem mem_sidtabCall (h : s.Ok) (call : SidtabCall) {n : SidtabNode} (hn : n ∈ sidtabNodes s) :
    n ∈ sidtabNodes (sidtabCall s call).2 := by
  cases hr : (sidtabCall s call).1 with
  | error e => rwa [sidtabCall_of_error h _ hr]
  | ok sid =>
    rcases sidtabCall_of_ok h _ hr with ⟨e, _⟩ | ⟨hadd, _⟩
    · rwa [e]
    · exact hadd.mem_iff.2 (Or.inr hn)

private theorem sidtabCall_bijective (h : s.Ok) (hb : s.Bijective) (call : SidtabCall) (hadm : call.Admissible s) :
    (sidtabCall s call).2.Bijective := by
  cases hr : (sidtabCall s call).1 with
  | error e => rwa [sidtabCall_of_error h _ hr]
  | ok sid =>
    rcases sidtabCall_of_ok h _ hr with ⟨e, _⟩ | ⟨hadd, hsid, hctx⟩
    · rwa [e]
    · intro n hn m hm
      rw [contextCmp_iff]
      rcases hadd.mem_iff.1 hn with rfl | hn <;> rcases hadd.mem_iff.1 hm with rfl | hm
      · exact iff_of_true rfl rfl
      · exact iff_of_false (fun e => hctx hadm m hm e.symm) fun e => hsid m hm e.symm
      · exact iff_of_false (hctx hadm n hn) (hsid n hn)
      · rw [← contextCmp_iff]
        exact hb n hn m hm

/-! ### Runs -/

private theorem sidtabCalls_ok (h : s.Ok) (hadm : AdmissibleCalls s calls) : (sidtabCalls s calls).Ok := by
  induction calls generalizing s with
  | nil => exact h
  | cons call rest ih => exact ih (sidtabCall_ok h _ hadm.1) hadm.2

private theorem sidtabCalls_bijective (h : s.Ok) (hb : s.Bijective) (hadm : AdmissibleCalls s calls) :
    (sidtabCalls s calls).Bijective := by
  induction calls generalizing s with
  | nil => exact hb
  | cons call rest ih => exact ih (sidtabCall_ok h _ hadm.1) (sidtabCall_bijective h hb _ hadm.1) hadm.2

private theorem mem_sidtabCalls (h : s.Ok) (hadm : AdmissibleCalls s calls) {n : SidtabNode}
    (hn : n ∈ sidtabNodes s) : n ∈ sidtabNodes (sidtabCalls s calls) := by
  induction calls generalizing s with
  | nil => exact hn
  | cons call rest ih => exact ih (sidtabCall_ok h _ hadm.1) hadm.2 (mem_sidtabCall h _ hn)

private theorem sidtabInit_bijective : sidtabInit.Bijective := by
  intro n hn
  simp [sidtabNodes, sidtabInit] at hn

theorem exists_node_of_sidtabCall (h : s.Ok) (call : SidtabCall) {sid : SecurityId}
    (hr : (sidtabCall s call).1 = .ok sid) :
    ⟨sid, call.context⟩ ∈ sidtabNodes (sidtabCall s call).2 := by
  rcases sidtabCall_of_ok h _ hr with ⟨e, n, hn, hs, hc⟩ | ⟨hadd, _⟩
  · rw [e, ← hs, ← hc]; exact hn
  · exact hadd.mem_iff.2 (Or.inl rfl)

/-- What holds of a table and of all tables later calls make of it. -/
structure Sidtab.Stable (s : Sidtab) : Prop where
  sorted : ∀ i, (s.htable i).Pairwise fun n m => n.sid < m.sid
  hash : ∀ i, ∀ n ∈ s.htable i, sidtabHash n.sid = i
  nel : s.nel.toNat = (sidtabNodes s).length
  lt_next : ∀ n ∈ sidtabNodes s, n.sid < s.nextSid
  bijective : s.Bijective
  error : ∀ call e, (sidtabCall s call).1 = .error e → (sidtabCall s call).2 = s
  keeps : ∀ call, ∀ n ∈ sidtabNodes s, n ∈ sidtabNodes (sidtabCall s call).2
  search : ∀ call, call.Admissible s → ∀ sid, (sidtabCall s call).1 = .ok sid →
    ∀ calls, AdmissibleCalls (sidtabCall s call).2 calls →
      ∃ c, sidtabSearch (sidtabCalls (sidtabCall s call).2 calls) sid = some c ∧ contextCmp c call.context = true
  sameSid : ∀ call, call.Admissible s → ∀ sid, (sidtabCall s call).1 = .ok sid →
    ∀ calls, AdmissibleCalls (sidtabCall s call).2 calls →
      ∀ c mem sid', (sidtabContextToSid (sidtabCalls (sidtabCall s call).2 calls) c mem).1 = .ok sid' →
        (contextCmp call.context c = true ↔ sid = sid')

/-- Every table reached from a new one by calls that insert new contexts under ordinary SIDs is a stable bijection
between its SIDs and its contexts. -/
theorem sidtab_stable {calls : List SidtabCall} (h : AdmissibleCalls sidtabInit calls) :
    (sidtabCalls sidtabInit calls).Stable := by
  have hok := sidtabCalls_ok sidtabInit_ok h
  have hbij := sidtabCalls_bijective sidtabInit_ok sidtabInit_bijective h
  refine ⟨fun i => hok.sorted i, hok.hash, hok.nel, hok.lt_next, hbij, fun call e => sidtabCall_of_error hok call,
    fun call n => mem_sidtabCall hok call, ?_, ?_⟩
  · intro call hadm sid hr calls' hadm'
    have hok1 := sidtabCall_ok hok call hadm
    have hn := mem_sidtabCalls hok1 hadm' (exists_node_of_sidtabCall hok call hr)
    exact ⟨call.context, sidtabSearch_of_mem (sidtabCalls_ok hok1 hadm') hn, (contextCmp_iff _ _).2 rfl⟩
  · intro call hadm sid hr calls' hadm' c mem sid' hr'
    have hok1 := sidtabCall_ok hok call hadm
    have hok2 := sidtabCalls_ok hok1 hadm'
    have hbij2 := sidtabCalls_bijective hok1 (sidtabCall_bijective hok hbij call hadm) hadm'
    -- both nodes are in the table after the last call, which is a bijection again
    have hn := mem_sidtabCall hok2 (.contextToSid c mem)
      (mem_sidtabCalls hok1 hadm' (exists_node_of_sidtabCall hok call hr))
    have hm := exists_node_of_sidtabCall hok2 (.contextToSid c mem) hr'
    exact sidtabCall_bijective hok2 hbij2 (.contextToSid c mem) trivial _ hn _ hm

/-- An unlabeled context entered under its initial SID, then two requests for a context of its own. -/
theorem sidtab_stable_example :
    (sidtabCalls sidtabInit [.insert secinitsidUnlabeled contextInit true,
      .contextToSid { contextInit with user := 1 } true, .contextToSid { contextInit with user := 1 } true]).Stable :=
  sidtab_stable
    ⟨⟨by decide, by decide, fun n hn => by simp [sidtabNodes, sidtabInit] at hn⟩, trivial, trivial, trivial⟩

/-- Inserted contexts that differ from each other are not enough: `UINT_MAX` as a SID makes `next_sid` wrap around
to zero. -/
theorem sidtab_insert_uintMax :
    ¬ ∀ calls : List SidtabCall,
      (calls.filterMap fun call => match call with
        | .insert _ context _ => some context
        | .contextToSid _ _ => none).Pairwise (fun c1 c2 => contextCmp c1 c2 = false) →
      (sidtabCalls sidtabInit calls).Stable := by
  intro h
  have hs := h [.insert uintMax contextInit true] (List.pairwise_singleton ..)
  have hn : ⟨uintMax, contextInit⟩ ∈ sidtabNodes (sidtabCalls sidtabInit [.insert uintMax contextInit true]) :=
    exists_node_of_sidtabCall sidtabInit_ok (.insert uintMax contextInit true) rfl
  have hlt := hs.lt_next _ hn
  revert hlt
  decide

end Sepol
