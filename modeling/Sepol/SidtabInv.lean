import Sepol.Lib.SortedChain
import Sepol.Sidtab

/-!
# Invariants of the SID table

`Sidtab.Ok` says that the buckets are sorted and hold the SIDs of their hash, that `nel` counts the nodes and that
all SIDs lie between `SECSID_NULL` and `next_sid`.  Under it the walk along one bucket finds the node of a SID, and
both ways of entering a context add one node and change nothing else.  A table reached from the initial one by calls
that enter new contexts is moreover a bijection between its SIDs and its contexts, and stays one.
-/

namespace Sepol

private theorem sidtabHash_congr {a b : SecurityId} (h : a = b) : sidtabHash a = sidtabHash b := by rw [h]

private theorem mem_sidtabNodes {s : Sidtab} {n : SidtabNode} : n ∈ sidtabNodes s ↔ ∃ i, n ∈ s.htable i := by
  simp [sidtabNodes]

/-- The key by which a bucket is sorted. -/
def sidtabKey (n : SidtabNode) : Nat := n.sid.toNat

private theorem sidtabKey_eq_iff {n : SidtabNode} {sid : SecurityId} : sidtabKey n = sid.toNat ↔ n.sid = sid :=
  ⟨fun e => BitVec.eq_of_toNat_eq e, fun e => by rw [← e]; rfl⟩

/-- The invariant of the table. -/
structure Sidtab.Ok (s : Sidtab) : Prop where
  sorted : ∀ i, SortedChain.Sorted sidtabKey (s.htable i)
  hash : ∀ i, ∀ n ∈ s.htable i, sidtabHash n.sid = i
  nel : s.nel.toNat = (sidtabNodes s).length
  ne_null : ∀ n ∈ sidtabNodes s, n.sid ≠ 0
  lt_next : ∀ n ∈ sidtabNodes s, n.sid < s.nextSid
  next : s.nextSid ≠ 0

variable {s s' : Sidtab} {sid : SecurityId} {context : Context} {mem : Bool}

private theorem Sidtab.Ok.mem_bucket (h : s.Ok) {n : SidtabNode} (hn : n ∈ sidtabNodes s) :
    n ∈ s.htable (sidtabHash n.sid) := by
  obtain ⟨i, hi⟩ := mem_sidtabNodes.1 hn
  rwa [h.hash i n hi]

theorem Sidtab.Ok.sid_inj (h : s.Ok) {n m : SidtabNode} (hn : n ∈ sidtabNodes s) (hm : m ∈ sidtabNodes s)
    (e : n.sid = m.sid) : n = m := by
  have hn' := h.mem_bucket hn
  rw [e] at hn'
  exact (h.sorted _).eq_of_key_eq hn' (h.mem_bucket hm) (sidtabKey_eq_iff.2 e)

/-! ### Searching -/

private theorem sidtabFind_eq (s : Sidtab) (sid : SecurityId) :
    sidtabFind s sid = SortedChain.lookup sidtabKey sid.toNat (s.htable (sidtabHash sid)) := by
  have hseek : SortedChain.seek sidtabKey sid.toNat (s.htable (sidtabHash sid)) =
      (s.htable (sidtabHash sid)).dropWhile fun cur => cur.sid < sid := rfl
  rw [sidtabFind, SortedChain.lookup, hseek]
  split
  · rename_i heq; rw [heq]
  · rename_i heq
    rw [heq]
    simp only [eq_comm (a := sid), eq_comm (a := sid.toNat), sidtabKey_eq_iff]

theorem sidtabFind_iff (h : s.Ok) {n : SidtabNode} :
    sidtabFind s sid = some n ↔ n ∈ sidtabNodes s ∧ n.sid = sid := by
  rw [sidtabFind_eq, SortedChain.lookup_eq_some_iff (h.sorted _)]
  constructor
  · rintro ⟨hn, e⟩
    exact ⟨mem_sidtabNodes.2 ⟨_, hn⟩, sidtabKey_eq_iff.1 e⟩
  · rintro ⟨hn, rfl⟩
    exact ⟨h.mem_bucket hn, rfl⟩

theorem sidtabSearch_of_mem (h : s.Ok) {n : SidtabNode} (hn : n ∈ sidtabNodes s) :
    sidtabSearch s n.sid = some n.context := by
  rw [sidtabSearch, (sidtabFind_iff h).2 ⟨hn, rfl⟩]

/-- SIDs without a node are mapped to the unlabeled SID. -/
theorem sidtabSearch_of_not_mem (h : s.Ok) (hsid : ∀ n ∈ sidtabNodes s, n.sid ≠ sid) :
    sidtabSearch s sid = sidtabSearch s secinitsidUnlabeled := by
  have hnone : sidtabFind s sid = none := by
    cases hf : sidtabFind s sid with
    | none => rfl
    | some n =>
      obtain ⟨hn, e⟩ := (sidtabFind_iff h).1 hf
      exact absurd e (hsid n hn)
  rw [sidtabSearch, hnone, sidtabSearch]
  cases sidtabFind s secinitsidUnlabeled <;> rfl

theorem sidtabSearchContext_cases (h : s.Ok) (context : Context) :
    (∃ n ∈ sidtabNodes s, n.context = context ∧ sidtabSearchContext s context = n.sid ∧ n.sid ≠ 0) ∨
      (∀ n ∈ sidtabNodes s, n.context ≠ context) ∧ sidtabSearchContext s context = 0 := by
  unfold sidtabSearchContext
  cases hf : (sidtabNodes s).find? fun cur => contextCmp cur.context context with
  | some n =>
    have hn := List.mem_of_find?_eq_some hf
    have hcmp : contextCmp n.context context = true :=
      List.find?_some (p := fun cur : SidtabNode => contextCmp cur.context context)
      hf
    exact Or.inl ⟨n, hn, (contextCmp_iff _ _).1 hcmp, rfl, h.ne_null n hn⟩
  | none =>
    refine Or.inr ⟨fun n hn e => ?_, rfl⟩
    exact List.find?_eq_none.1 hf n hn ((contextCmp_iff _ _).2 e)

/-! ### Inserting -/

/-- The table `s'` is the table `s` with one more node. -/
structure Sidtab.Adds (s s' : Sidtab) (n : SidtabNode) : Prop where
  nodes : (sidtabNodes s').Perm (n :: sidtabNodes s)
  shutdown : s'.shutdown = s.shutdown

theorem Sidtab.Adds.mem_iff {n m : SidtabNode} (h : s.Adds s' n) :
    m ∈ sidtabNodes s' ↔ m = n ∨ m ∈ sidtabNodes s := by
  rw [h.nodes.mem_iff, List.mem_cons]

/-- What an insertion can do. -/
theorem sidtabInsert_cases (h : s.Ok) (sid : SecurityId) (context : Context) (mem : Bool) :
    (sidtabInsert s sid context mem = (.error .eexist, s) ∧ ∃ n ∈ sidtabNodes s, n.sid = sid) ∨
    (sidtabInsert s sid context mem = (.error .enomem, s) ∧ mem = false) ∨
    ∃ s', sidtabInsert s sid context mem = (.ok (), s') ∧ mem = true ∧ (∀ n ∈ sidtabNodes s, n.sid ≠ sid) ∧
      s.Adds s' ⟨sid, context⟩ ∧
      s'.nextSid = (if sid ≥ s.nextSid then sid + 1 else s.nextSid) ∧ s'.nel = s.nel + 1 ∧
      s'.htable = Function.update s.htable (sidtabHash sid)
        (SortedChain.insert sidtabKey ⟨sid, context⟩ (s.htable (sidtabHash sid))) := by
  have hfind : ((s.htable (sidtabHash sid)).dropWhile fun cur => cur.sid < sid).head?.any
      (fun cur => sid = cur.sid) = true ↔ ∃ n ∈ sidtabNodes s, n.sid = sid := by
    constructor
    · intro he
      cases hd : (s.htable (sidtabHash sid)).dropWhile fun cur => cur.sid < sid with
      | nil => rw [hd] at he; cases he
      | cons cur rest =>
        rw [hd] at he
        have he : sid = cur.sid := by simpa using he
        exact ⟨cur, mem_sidtabNodes.2 ⟨_, (List.dropWhile_suffix _).subset (by rw [hd]; exact List.mem_cons_self ..)⟩,
          he.symm⟩
    · rintro ⟨n, hn, e⟩
      have := (sidtabFind_iff h).2 ⟨hn, e⟩
      rw [sidtabFind] at this
      split at this
      · cases this
      · rename_i heq
        split at this
        · rename_i hs
          rw [heq]
          simpa using hs
        · cases this
  unfold sidtabInsert
  by_cases hex : ∃ n ∈ sidtabNodes s, n.sid = sid
  · exact Or.inl ⟨by rw [if_pos (hfind.2 hex)], hex⟩
  · rw [if_neg (fun he => hex (hfind.1 he))]
    cases mem with
    | false => exact Or.inr (Or.inl ⟨rfl, rfl⟩)
    | true =>
      refine Or.inr (Or.inr ⟨_, rfl, rfl, fun n hn e => hex ⟨n, hn, e⟩, ⟨?_, rfl⟩, rfl, rfl, ?_⟩)
      · rw [contextCpy_eq]
        exact SortedChain.flatMap_update_perm (List.nodup_finRange _) (List.mem_finRange _) _
          (@SortedChain.insert_perm _ _ _ sidtabKey ⟨sid, context⟩ _)
      · rw [contextCpy_eq]
        rfl

private theorem length_lt_of_sids {l : List SidtabNode} (hnd : (l.map SidtabNode.sid).Nodup)
    (h0 : ∀ n ∈ l, n.sid ≠ 0) : l.length < 2 ^ 32 := by
  have hsub : l.map sidtabKey ⊆ List.range' 1 (2 ^ 32 - 1) := by
    intro k hk
    obtain ⟨n, hn, rfl⟩ := List.mem_map.1 hk
    have h1 : n.sid.toNat ≠ 0 := fun e => h0 n hn (BitVec.eq_of_toNat_eq e)
    have h2 := n.sid.isLt
    exact List.mem_range'_1.2 (show 1 ≤ n.sid.toNat ∧ n.sid.toNat < 1 + (2 ^ 32 - 1) by omega)
  have hnd' : (l.map sidtabKey).Nodup := by
    have := hnd.map (f := BitVec.toNat) fun a b e => BitVec.eq_of_toNat_eq e
    rwa [List.map_map] at this
  have := (List.subperm_of_subset hnd' hsub).length_le
  rw [List.length_map, List.length_range'] at this
  omega

theorem Sidtab.Ok.nodup (h : s.Ok) : ((sidtabNodes s).map SidtabNode.sid).Nodup := by
  rw [sidtabNodes, List.map_flatMap, List.nodup_flatMap]
  constructor
  · intro i _
    have hs := h.sorted i
    rw [SortedChain.Sorted] at hs
    rw [List.nodup_iff_pairwise_ne, List.pairwise_map]
    exact hs.imp fun hab e => absurd (sidtabKey_eq_iff.2 e) hab.ne
  · refine (List.nodup_finRange _).imp fun {i j} hij => ?_
    rw [Function.onFun, List.disjoint_left]
    intro a hi hj
    obtain ⟨n, hn, rfl⟩ := List.mem_map.1 hi
    obtain ⟨m, hm, e⟩ := List.mem_map.1 hj
    exact hij ((h.hash i n hn).symm.trans ((sidtabHash_congr e.symm).trans (h.hash j m hm)))

/-- Inserting a SID that is neither `SECSID_NULL` nor `UINT_MAX` keeps the invariant. -/
theorem sidtabInsert_ok (h : s.Ok) (h0 : sid ≠ 0) (hmax : sid ≠ uintMax)
    (hins : sidtabInsert s sid context mem = (.ok (), s')) : s'.Ok := by
  rcases sidtabInsert_cases h sid context mem with ⟨e, _⟩ | ⟨e, _⟩ | ⟨t, e, _, hnew, hadd, hnext, hnel, htab⟩
  · rw [e] at hins; cases hins
  · rw [e] at hins; cases hins
  · rw [e] at hins
    obtain rfl : t = s' := (Prod.mk.inj hins).2
    have hmax' : sid.toNat ≠ 2 ^ 32 - 1 := fun e => hmax (BitVec.eq_of_toNat_eq e)
    have hne : ∀ n ∈ sidtabNodes t, n.sid ≠ 0 := by
      intro n hn
      rcases hadd.mem_iff.1 hn with rfl | hn
      · exact h0
      · exact h.ne_null n hn
    have hsucc : (sid + 1).toNat = sid.toNat + 1 := by bv_omega
    refine ⟨fun i => ?_, fun i n hn => ?_, ?_, hne, fun n hn => ?_, ?_⟩
    · rw [htab]
      by_cases hi : i = sidtabHash sid
      · subst hi
        rw [Function.update_self]
        refine SortedChain.insert_sorted (h.sorted _) fun b hb e => ?_
        exact hnew b (mem_sidtabNodes.2 ⟨_, hb⟩) (sidtabKey_eq_iff.1 e)
      · rw [Function.update_of_ne hi]
        exact h.sorted i
    · rw [htab] at hn
      by_cases hi : i = sidtabHash sid
      · subst hi
        rw [Function.update_self, SortedChain.mem_insert] at hn
        rcases hn with rfl | hn
        · rfl
        · exact h.hash _ n hn
      · rw [Function.update_of_ne hi] at hn
        exact h.hash i n hn
    · have hlen : (sidtabNodes t).length = (sidtabNodes s).length + 1 := hadd.nodes.length_eq
      have hnd : ((sidtabNodes t).map SidtabNode.sid).Nodup := by
        rw [(hadd.nodes.map _).nodup_iff, List.map_cons, List.nodup_cons]
        refine ⟨fun hm => ?_, h.nodup⟩
        obtain ⟨n, hn, e⟩ := List.mem_map.1 hm
        exact hnew n hn e
      have hlt := length_lt_of_sids hnd hne
      rw [hnel, BitVec.toNat_add, h.nel, hlen]
      exact Nat.mod_eq_of_lt (by rw [hlen] at hlt; exact hlt)
    · rw [hnext]
      rcases hadd.mem_iff.1 hn with rfl | hn
      · split
        · rw [BitVec.lt_def, hsucc]; exact Nat.lt_succ_self _
        · rename_i hge; exact BitVec.not_le.1 hge
      · have := h.lt_next n hn
        split
        · rename_i hge
          have hge : s.nextSid ≤ sid := hge
          rw [BitVec.lt_def] at this ⊢
          rw [BitVec.le_def] at hge
          omega
        · exact this
    · rw [hnext]
      split
      · intro e
        rw [e] at hsucc
        cases hsucc
      · exact h.next

private theorem Sidtab.Ok.bump (h : s.Ok) (hmax : s.nextSid ≠ uintMax) :
    Sidtab.Ok { s with nextSid := s.nextSid + 1 } := by
  have hmax : s.nextSid.toNat ≠ 2 ^ 32 - 1 := fun e => hmax (BitVec.eq_of_toNat_eq e)
  refine ⟨h.sorted, h.hash, h.nel, h.ne_null, fun n hn => ?_, ?_⟩
  · have hlt := h.lt_next n hn
    change n.sid < s.nextSid + 1
    bv_omega
  · change s.nextSid + 1 ≠ 0
    bv_omega

/-- What a request for the SID of a context can do. -/
theorem sidtabContextToSid_cases (h : s.Ok) (context : Context) (mem : Bool) :
    (∃ n ∈ sidtabNodes s, n.context = context ∧ sidtabContextToSid s context mem = (.ok n.sid, s)) ∨
    (∀ n ∈ sidtabNodes s, n.context ≠ context) ∧
      (sidtabContextToSid s context mem = (.error .enomem, s) ∨
        ∃ s', sidtabContextToSid s context mem = (.ok s.nextSid, s') ∧ s.nextSid ≠ uintMax ∧
          s.Adds s' ⟨s.nextSid, context⟩ ∧ s'.nextSid = s.nextSid + 1 ∧
          sidtabInsert { s with nextSid := s.nextSid + 1 } s.nextSid context mem = (.ok (), s')) := by
  rcases sidtabSearchContext_cases h context with ⟨n, hn, hc, hs, hn0⟩ | ⟨hnone, hs⟩
  · refine Or.inl ⟨n, hn, hc, ?_⟩
    rw [sidtabContextToSid, hs, if_pos hn0]
  · refine Or.inr ⟨hnone, ?_⟩
    unfold sidtabContextToSid
    simp only [hs, ne_eq, not_true_eq_false, if_false]
    by_cases hlim : s.nextSid = uintMax ∨ s.shutdown = true
    · exact Or.inl (if_pos hlim)
    · have hmax : s.nextSid ≠ uintMax := fun e => hlim (Or.inl e)
      have hmax' : s.nextSid.toNat ≠ 2 ^ 32 - 1 := fun e => hmax (BitVec.eq_of_toNat_eq e)
      have hnew : ∀ n ∈ sidtabNodes s, n.sid ≠ s.nextSid := fun n hn e => by
        have := h.lt_next n hn
        rw [e] at this
        exact BitVec.lt_irrefl _ this
      simp only [if_neg hlim]
      rcases sidtabInsert_cases (h.bump hmax) s.nextSid context mem with ⟨_, n, hn, e⟩ | ⟨e, _⟩ |
        ⟨t, e, _, _, hadd, hnext, _⟩
      · exact absurd e (hnew n hn)
      · refine Or.inl ?_
        rw [e]
        simp only [BitVec.add_sub_cancel]
      · refine Or.inr ⟨t, by rw [e], hmax, ⟨hadd.nodes, hadd.shutdown⟩, ?_, e⟩
        rw [hnext, if_neg]
        change ¬ s.nextSid ≥ s.nextSid + 1
        rw [ge_iff_le, BitVec.le_def]
        bv_omega

theorem sidtabInit_ok : sidtabInit.Ok := by
  have hnil : sidtabNodes sidtabInit = [] := by simp [sidtabNodes, sidtabInit]
  refine ⟨fun i => List.Pairwise.nil, fun i n hn => ?_, ?_, fun n hn => ?_, fun n hn => ?_, by decide⟩
  · cases hn
  · rw [hnil]; rfl
  · rw [hnil] at hn; cases hn
  · rw [hnil] at hn; cases hn

theorem sidtabContextToSid_ok (h : s.Ok) (context : Context) (mem : Bool) :
    (sidtabContextToSid s context mem).2.Ok := by
  rcases sidtabContextToSid_cases h context mem with ⟨n, _, _, e⟩ | ⟨_, e | ⟨t, e, hmax, _, _, hins⟩⟩
  · rw [e]; exact h
  · rw [e]; exact h
  · rw [e]
    exact sidtabInsert_ok (h.bump hmax) h.next hmax hins

end Sepol
