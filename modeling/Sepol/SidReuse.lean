import Sepol.Services
import Sepol.SidtabStable

/-!
# SIDs across policy loads

Runs of requests for SIDs and successful policy loads.  A load clones the SID table, converts the contexts of the
clone and drops the entries that do not convert.  The clone computes `next_sid` from the entries it is made of, so a
load keeps `next_sid` when the entry with the highest SID is still there (`Sidtab.TopPresent`); then a SID that was
handed out once stands for the conversion of its context or for nothing.
-/

namespace Sepol

variable {s s' : Sidtab} {srv srv' : SecurityServer} {policydb newp : Policydb} {mem : SecurityId → Bool}

/-! ### Cloning and converting a table -/

/-- The entry with the highest SID handed out so far is in the table. -/
def Sidtab.TopPresent (s : Sidtab) : Prop := s.nextSid = 1 ∨ ∃ n ∈ sidtabNodes s, n.sid + 1 = s.nextSid

private theorem cloneNodes {l : List SidtabNode} (hs : s.Ok) (h0 : ∀ n ∈ l, n.sid ≠ 0 ∧ n.sid ≠ uintMax)
    (h : sidtabMapNodes (cloneSid mem) l s = (.ok (), s')) :
    s'.Ok ∧ (∀ n, n ∈ sidtabNodes s' ↔ n ∈ l ∨ n ∈ sidtabNodes s) ∧
      ∀ bound, s.nextSid ≤ bound → (∀ n ∈ l, n.sid < bound) → s'.nextSid ≤ bound := by
  induction l generalizing s with
  | nil =>
    obtain rfl : s = s' := (Prod.mk.inj h).2
    exact ⟨hs, fun n => by simp, fun bound hb _ => hb⟩
  | cons cur rest ih =>
    rw [sidtabMapNodes, cloneSid] at h
    have hcur := h0 cur (List.mem_cons_self ..)
    rcases sidtabInsert_cases hs cur.sid cur.context (mem cur.sid) with ⟨e, _⟩ | ⟨e, _⟩ | ⟨t, e, _, _, hadd, hnext, _⟩
    · rw [e] at h; cases h
    · rw [e] at h; cases h
    · rw [e] at h
      have ht := sidtabInsert_ok hs hcur.1 hcur.2 e
      obtain ⟨hok, hmem, hbound⟩ := ih ht (fun n hn => h0 n (List.mem_cons_of_mem _ hn)) h
      refine ⟨hok, fun n => ?_, fun bound hb hl => hbound bound ?_ fun n hn => hl n (List.mem_cons_of_mem _ hn)⟩
      · rw [hmem, hadd.mem_iff, List.mem_cons]
        tauto
      · have hlt := hl cur (List.mem_cons_self ..)
        have hne : cur.sid.toNat ≠ 2 ^ 32 - 1 := fun e => hcur.2 (BitVec.eq_of_toNat_eq e)
        rw [hnext]
        split
        · bv_omega
        · exact hb

/-- The clone of a table has its entries, and its `next_sid` when the highest SID is among them. -/
private theorem sidtabMap_clone (hs : s.Ok) (h : sidtabMap s (cloneSid mem) sidtabInit = (.ok (), s')) :
    s'.Ok ∧ (∀ n, n ∈ sidtabNodes s' ↔ n ∈ sidtabNodes s) ∧ (s.TopPresent → s'.nextSid = s.nextSid) := by
  have h0 : ∀ n ∈ sidtabNodes s, n.sid ≠ 0 ∧ n.sid ≠ uintMax := fun n hn => by
    have hlt := hs.lt_next n hn
    exact ⟨hs.ne_null n hn, by bv_omega⟩
  obtain ⟨hok, hmem, hbound⟩ := cloneNodes sidtabInit_ok h0 h
  have hnil : sidtabNodes sidtabInit = [] := by simp [sidtabNodes, sidtabInit]
  have hmem : ∀ n, n ∈ sidtabNodes s' ↔ n ∈ sidtabNodes s := fun n => by rw [hmem, hnil]; simp
  have hone : (1 : BitVec 32) ≤ s.nextSid := by
    have := hs.next
    bv_omega
  have hle := hbound s.nextSid hone hs.lt_next
  refine ⟨hok, hmem, fun htop => ?_⟩
  have hge : s.nextSid ≤ s'.nextSid := by
    rcases htop with e | ⟨n, hn, e⟩
    · have := hok.next
      rw [e]
      bv_omega
    · have hlt := hok.lt_next n ((hmem n).2 hn)
      rw [← e]
      bv_omega
  bv_omega

variable {apply : SecurityId → Context → Except Errno Context}

private theorem mem_sidtabKeepNodes {l : List SidtabNode} {m : SidtabNode} :
    m ∈ sidtabKeepNodes apply l ↔ ∃ n ∈ l, n.sid = m.sid ∧ apply n.sid n.context = .ok m.context := by
  rw [sidtabKeepNodes, List.mem_filterMap]
  refine exists_congr fun n => and_congr_right fun _ => ?_
  cases apply n.sid n.context with
  | error e => simp
  | ok c =>
    cases m
    simp

private theorem sidtabNodes_keep (s : Sidtab) (apply : SecurityId → Context → Except Errno Context) :
    sidtabNodes (sidtabMapRemoveOnError s apply) = sidtabKeepNodes apply (sidtabNodes s) := by
  simp [sidtabNodes, sidtabMapRemoveOnError, sidtabKeepNodes, List.filterMap_flatMap]

private theorem sidtabMapRemoveOnError_ok (hs : s.Ok) : (sidtabMapRemoveOnError s apply).Ok := by
  have hmem : ∀ {m : SidtabNode}, m ∈ sidtabNodes (sidtabMapRemoveOnError s apply) →
      ∃ n ∈ sidtabNodes s, n.sid = m.sid := fun hm => by
    rw [sidtabNodes_keep, mem_sidtabKeepNodes] at hm
    obtain ⟨n, hn, e, _⟩ := hm
    exact ⟨n, hn, e⟩
  refine ⟨fun i => ?_, fun i m hm => ?_, ?_, fun m hm => ?_, fun m hm => ?_, hs.next⟩
  · refine List.Pairwise.filterMap _ (fun a a' haa' b hb b' hb' => ?_) (hs.sorted i)
    have e1 : a.sid = b.sid := by
      split at hb
      · cases hb; rfl
      · cases hb
    have e2 : a'.sid = b'.sid := by
      split at hb'
      · cases hb'; rfl
      · cases hb'
    change b.sid.toNat < b'.sid.toNat
    rw [← e1, ← e2]
    exact haa'
  · obtain ⟨n, hn, e, _⟩ := mem_sidtabKeepNodes.1 hm
    rw [← e]
    exact hs.hash i n hn
  · have hle : (sidtabNodes (sidtabMapRemoveOnError s apply)).length ≤ (sidtabNodes s).length := by
      rw [sidtabNodes_keep, sidtabKeepNodes]
      exact List.length_filterMap_le _ _
    have hlt := s.nel.isLt
    have hnel := hs.nel
    have hdef : (sidtabMapRemoveOnError s apply).nel = s.nel -
      BitVec.ofNat 32 ((sidtabNodes s).length - (sidtabNodes (sidtabMapRemoveOnError s apply)).length) := rfl
    have hsub : ∀ k n : Nat, k ≤ n → n < 2 ^ 32 → (2 ^ 32 - (n - k) % 2 ^ 32 + n) % 2 ^ 32 = k := by omega
    rw [hdef, BitVec.toNat_sub, BitVec.toNat_ofNat, hnel]
    rw [hnel] at hlt
    exact hsub _ _ hle hlt
  · obtain ⟨n, hn, e⟩ := hmem hm
    rw [← e]
    exact hs.ne_null n hn
  · obtain ⟨n, hn, e⟩ := hmem hm
    rw [← e]
    exact hs.lt_next n hn

/-! ### One policy load -/

private theorem installPolicydb_policydb (hp : srv.policydb = some policydb) :
    (srv.installPolicydb newp).policydb = some newp := by
  obtain ⟨mine, given, sidtab⟩ := srv
  cases given <;> rfl

/-- What a successful load does to the active policy and to the SID table. -/
theorem loadPolicydb_ok (hs : srv.sidtab.Ok) (hp : srv.policydb = some policydb)
    (h : loadPolicydb srv policydb newp mem = (.ok (), srv')) :
    srv'.policydb = some newp ∧ srv'.sidtab.Ok ∧
      (∀ m ∈ sidtabNodes srv'.sidtab, ∃ n ∈ sidtabNodes srv.sidtab,
        n.sid = m.sid ∧ convertContext policydb newp n.context = .ok m.context) ∧
      (srv.sidtab.TopPresent → srv'.sidtab.nextSid = srv.sidtab.nextSid) := by
  rcases loadPolicydb_cases srv policydb newp mem with ⟨_, hl⟩ | ⟨_, hl⟩ | ⟨newsidtab, hclone, hl⟩
  · rw [hl] at h; cases h
  · rw [hl] at h; cases h
  · rw [hl] at h
    obtain rfl := (Prod.mk.inj h).2
    obtain ⟨hok, hmem, hnext⟩ := sidtabMap_clone hs hclone
    have hok' : (sidtabMapRemoveOnError newsidtab fun _ c => convertContext policydb newp c).Ok :=
      sidtabMapRemoveOnError_ok hok
    refine ⟨installPolicydb_policydb hp, ⟨hok'.sorted, hok'.hash, hok'.nel, hok'.ne_null, hok'.lt_next, hok'.next⟩,
      fun m hm => ?_, hnext⟩
    change m ∈ sidtabNodes (sidtabMapRemoveOnError newsidtab fun _ c => convertContext policydb newp c) at hm
    rw [sidtabNodes_keep, mem_sidtabKeepNodes] at hm
    obtain ⟨n, hn, e⟩ := hm
    exact ⟨n, (hmem n).1 hn, e⟩

/-! ### Runs -/

/-- A request for the SID of a context, or a load of an image that `policydb_read` reads as `newp`. -/
inductive ServerCall where
  | contextToSid (context : Context) (mem : Bool)
  | loadPolicy (newp : Policydb) (mem : SecurityId → Bool)

/-- The state after a call; `none` for a load that fails. -/
def serverCall (srv : SecurityServer) : ServerCall → Option SecurityServer
  | .contextToSid context mem => some { srv with sidtab := (sidtabContextToSid srv.sidtab context mem).2 }
  | .loadPolicy newp mem =>
    match srv.policydb with
    | none => none
    | some policydb =>
      match loadPolicydb srv policydb newp mem with
      | (.ok (), srv') => some srv'
      | (.error _, _) => none

def serverCalls (srv : SecurityServer) (calls : List ServerCall) : Option SecurityServer :=
  calls.foldlM serverCall srv

/-- The conversion of a context by the loads among the calls, starting under the policy `policydb`. -/
def convertAlong : Policydb → List ServerCall → Context → Option Context
  | _, [], c => some c
  | policydb, .contextToSid _ _ :: rest, c => convertAlong policydb rest c
  | policydb, .loadPolicy newp _ :: rest, c =>
    match convertContext policydb newp c with
    | .ok c => convertAlong newp rest c
    | .error _ => none

/-- Before each load of the run the entry with the highest SID is in the table. -/
def TopPresentAtLoads : SecurityServer → List ServerCall → Prop
  | _, [] => True
  | srv, call :: rest =>
    (match call with
      | .contextToSid _ _ => True
      | .loadPolicy _ _ => srv.sidtab.TopPresent) ∧
      ∀ srv', serverCall srv call = some srv' → TopPresentAtLoads srv' rest

/-- The SID `sid` was handed out, and stands for the context `c` at most. -/
structure Sidtab.Tracks (s : Sidtab) (sid : SecurityId) (c : Option Context) : Prop where
  lt_next : sid < s.nextSid
  context : ∀ n ∈ sidtabNodes s, n.sid = sid → c = some n.context

theorem Sidtab.Tracks.search (hs : s.Ok) {sid : SecurityId} {c : Option Context} (h : s.Tracks sid c) :
    (∃ c', c = some c' ∧ sidtabSearch s sid = some c') ∨ sidtabSearch s sid = sidtabSearch s secinitsidUnlabeled := by
  by_cases hn : ∃ n ∈ sidtabNodes s, n.sid = sid
  · obtain ⟨n, hn, rfl⟩ := hn
    exact Or.inl ⟨n.context, h.context n hn rfl, sidtabSearch_of_mem hs hn⟩
  · push Not at hn
    exact Or.inr (sidtabSearch_of_not_mem hs hn)

theorem Sidtab.Tracks.contextToSid (hs : s.Ok) {sid : SecurityId} {c : Option Context} (h : s.Tracks sid c)
    (context : Context) (ok : Bool) : (sidtabContextToSid s context ok).2.Tracks sid c := by
  rcases sidtabContextToSid_cases hs context ok with ⟨n, _, _, e⟩ | ⟨_, e | ⟨t, e, hmax, hadd, hnext, _⟩⟩
  · rw [e]; exact h
  · rw [e]; exact h
  · rw [e]
    have hlt := h.lt_next
    have hmax : s.nextSid.toNat ≠ 2 ^ 32 - 1 := fun e => hmax (BitVec.eq_of_toNat_eq e)
    refine ⟨?_, fun n hn hsid => ?_⟩
    · change sid < t.nextSid
      rw [hnext]
      bv_omega
    · rcases hadd.mem_iff.1 hn with rfl | hn
      · -- the new entry has a SID that was never handed out
        subst hsid
        exact absurd hlt (BitVec.lt_irrefl _)
      · exact h.context n hn hsid

private theorem Sidtab.Tracks.loadPolicy (hs : srv.sidtab.Ok) (hp : srv.policydb = some policydb) {sid : SecurityId}
    {c : Option Context} (h : srv.sidtab.Tracks sid c) (htop : srv.sidtab.TopPresent)
    (hl : loadPolicydb srv policydb newp mem = (.ok (), srv')) :
    srv'.sidtab.Tracks sid (c.bind fun c => (convertContext policydb newp c).toOption) := by
  obtain ⟨_, _, hnodes, hnext⟩ := loadPolicydb_ok hs hp hl
  refine ⟨by rw [hnext htop]; exact h.lt_next, fun m hm hsid => ?_⟩
  obtain ⟨n, hn, e, hc⟩ := hnodes m hm
  rw [h.context n hn (e.trans hsid), Option.bind_some, hc]
  rfl

/-- A run whose loads find the highest SID keeps track of a SID and the conversion of its context. -/
private theorem serverCalls_tracks {sid : SecurityId} {calls : List ServerCall} {c : Option Context}
    (hs : srv.sidtab.Ok)
    (hp : srv.policydb = some policydb) (h : srv.sidtab.Tracks sid c) (htop : TopPresentAtLoads srv calls)
    (hrun : serverCalls srv calls = some srv') :
    srv'.sidtab.Ok ∧ srv'.sidtab.Tracks sid (c.bind (convertAlong policydb calls)) := by
  induction calls generalizing srv policydb c with
  | nil =>
    obtain rfl : srv = srv' := Option.some.inj hrun
    refine ⟨hs, ?_⟩
    cases c <;> exact h
  | cons call rest ih =>
    rw [serverCalls, List.foldlM_cons] at hrun
    obtain ⟨t, ht, hrest⟩ := Option.bind_eq_some_iff.1 hrun
    have htop' := htop.2 t ht
    cases call with
    | contextToSid context ok =>
      obtain rfl := Option.some.inj ht
      refine ih ?_ ?_ ?_ htop' hrest
      · exact sidtabContextToSid_ok hs context ok
      · exact hp
      · exact h.contextToSid hs context ok
    | loadPolicy newp mem =>
      simp only [serverCall, hp] at ht
      split at ht
      · rename_i t' hl
        obtain rfl := Option.some.inj ht
        obtain ⟨hp', hok, _⟩ := loadPolicydb_ok hs hp hl
        have := ih hok hp' (h.loadPolicy hs hp htop.1 hl) htop' hrest
        refine ⟨this.1, ?_⟩
        convert this.2 using 1
        rw [Option.bind_assoc]
        congr 1
        funext c
        rw [convertAlong]
        cases convertContext policydb newp c <;> rfl
      · cases ht

private theorem serverCalls_ok {calls : List ServerCall} (hs : srv.sidtab.Ok) (hp : ∃ p, srv.policydb = some p)
    (hrun : serverCalls srv calls = some srv') : srv'.sidtab.Ok := by
  induction calls generalizing srv with
  | nil =>
    obtain rfl : srv = srv' := Option.some.inj hrun
    exact hs
  | cons call rest ih =>
    rw [serverCalls, List.foldlM_cons] at hrun
    obtain ⟨t, ht, hrest⟩ := Option.bind_eq_some_iff.1 hrun
    obtain ⟨p, hp⟩ := hp
    cases call with
    | contextToSid context ok =>
      obtain rfl := Option.some.inj ht
      refine ih ?_ ?_ hrest
      · exact sidtabContextToSid_ok hs context ok
      · exact ⟨p, hp⟩
    | loadPolicy newp mem =>
      simp only [serverCall, hp] at ht
      split at ht
      · rename_i t' hl
        obtain rfl := Option.some.inj ht
        obtain ⟨hp', hok, _⟩ := loadPolicydb_ok hs hp hl
        exact ih hok ⟨newp, hp'⟩ hrest
      · cases ht

/-- A policy with the user `u` and the types of the list, whose contexts all have the role `object_r`. -/
def policyWithTypes (types : List CString) : Policydb where
  __ := policydbInit
  pUsers := ⟨[(['u'], ⟨1, ebitmapInit, mlsRangeInit⟩)], 1⟩
  pUserValToName := fun i => if i = 0 then some ['u'] else none
  pRoleValToName := fun i => if i = 0 then some objectR else none
  pTypes := ⟨types.zipIdx.map fun t => (t.1, ⟨t.2 + 1, .type, 0⟩), types.length⟩
  pTypeValToName := fun i => types[i]?

def contextOfType (type : Nat) : Context := { contextInit with user := 1, role := objectRVal, type }

/-- The server under a policy with three types, with an unlabeled context of the first one. -/
def threeTypesServer : SecurityServer where
  mypolicydb := .filled (policyWithTypes [['a'], ['b'], ['c']])
  setPolicydb := none
  sidtab := (sidtabInsert sidtabInit secinitsidUnlabeled (contextOfType 1) true).2

theorem threeTypesServer_ok : threeTypesServer.sidtab.Ok :=
  sidtabCall_ok sidtabInit_ok (.insert secinitsidUnlabeled (contextOfType 1) true)
    ⟨by decide, by decide, fun n hn => by simp [sidtabNodes, sidtabInit] at hn⟩

/-- A SID that was returned for a context stands, after any later calls whose loads find the highest SID in the table,
for the conversion of that context or for the context of the unlabeled SID. -/
theorem sid_not_reused {srv1 srv2 : SecurityServer} {calls1 calls2 : List ServerCall} {c : Context} {ok : Bool}
    {sid : SecurityId} (hs : srv.sidtab.Ok) (hp : ∃ p, srv.policydb = some p)
    (h1 : serverCalls srv calls1 = some srv1) (hp1 : srv1.policydb = some policydb)
    (hr : (sidtabContextToSid srv1.sidtab c ok).1 = .ok sid)
    (htop : TopPresentAtLoads srv1 (.contextToSid c ok :: calls2))
    (h2 : serverCalls srv1 (.contextToSid c ok :: calls2) = some srv2) :
    (∃ c', convertAlong policydb calls2 c = some c' ∧ sidtabSearch srv2.sidtab sid = some c') ∨
      sidtabSearch srv2.sidtab sid = sidtabSearch srv2.sidtab secinitsidUnlabeled := by
  have hs1 := serverCalls_ok hs hp h1
  have hs2 := sidtabContextToSid_ok hs1 c ok
  have hn := exists_node_of_sidtabCall hs1 (.contextToSid c ok) hr
  have htracks : (sidtabContextToSid srv1.sidtab c ok).2.Tracks sid (some c) := by
    refine ⟨hs2.lt_next _ hn, fun n hn' hsid => ?_⟩
    rw [hs2.sid_inj hn' hn hsid]
    rfl
  rw [serverCalls, List.foldlM_cons] at h2
  obtain ⟨t, ht, hrest⟩ := Option.bind_eq_some_iff.1 h2
  have htop' := htop.2 t ht
  obtain rfl := Option.some.inj ht
  have hend : srv2.sidtab.Ok ∧ srv2.sidtab.Tracks sid ((some c).bind (convertAlong policydb calls2)) := by
    refine serverCalls_tracks ?_ ?_ ?_ htop' hrest
    · exact hs2
    · exact hp1
    · exact htracks
  exact hend.2.search hend.1

/-- The server after calls that succeed. -/
def afterCalls (calls : List ServerCall) : SecurityServer :=
  (serverCalls threeTypesServer calls).getD threeTypesServer

private theorem afterCalls_eq {calls : List ServerCall} (h : (serverCalls threeTypesServer calls).isSome = true) :
    serverCalls threeTypesServer calls = some (afterCalls calls) := by
  obtain ⟨srv, hsrv⟩ := Option.isSome_iff_exists.1 h
  rw [afterCalls, hsrv, Option.getD_some]

/-- The SID 4 of a context of the second type, across a load of the policy without that type. -/
theorem sid_not_reused_dropped :
    (∃ c', convertAlong (policyWithTypes [['a'], ['b'], ['c']])
        [.loadPolicy (policyWithTypes [['a'], ['c']]) fun _ => true] (contextOfType 2) = some c' ∧
      sidtabSearch (afterCalls [.contextToSid (contextOfType 2) true,
        .loadPolicy (policyWithTypes [['a'], ['c']]) fun _ => true]).sidtab 4 = some c') ∨
    sidtabSearch (afterCalls [.contextToSid (contextOfType 2) true,
        .loadPolicy (policyWithTypes [['a'], ['c']]) fun _ => true]).sidtab 4 =
      sidtabSearch (afterCalls [.contextToSid (contextOfType 2) true,
        .loadPolicy (policyWithTypes [['a'], ['c']]) fun _ => true]).sidtab secinitsidUnlabeled := by
  refine sid_not_reused threeTypesServer_ok ⟨_, rfl⟩ (show serverCalls _ [] = some threeTypesServer from rfl) rfl
    (show (sidtabContextToSid threeTypesServer.sidtab (contextOfType 2) true).1 = .ok 4 from rfl) ?_
    (afterCalls_eq (by decide +kernel))
  refine ⟨trivial, fun srv' h => ⟨?_, fun _ _ => trivial⟩⟩
  obtain rfl := Option.some.inj h
  exact Or.inr (by decide +kernel)

/-- Without the highest SID in the table a load forgets it: the SID 4 of a context of the second type is dropped by a
load of the policy without that type, forgotten by a load of the old policy, and handed out for a context of the
third type. -/
theorem sid_reused :
    ¬ ∀ (srv srv1 srv2 : SecurityServer) (policydb : Policydb) (calls1 calls2 : List ServerCall) (c : Context)
        (ok : Bool) (sid : SecurityId),
      srv.sidtab.Ok → (∃ p, srv.policydb = some p) → serverCalls srv calls1 = some srv1 →
      srv1.policydb = some policydb → (sidtabContextToSid srv1.sidtab c ok).1 = .ok sid →
      serverCalls srv1 (.contextToSid c ok :: calls2) = some srv2 →
      (∃ c', convertAlong policydb calls2 c = some c' ∧ sidtabSearch srv2.sidtab sid = some c') ∨
        sidtabSearch srv2.sidtab sid = sidtabSearch srv2.sidtab secinitsidUnlabeled := by
  intro h
  have hreuse := h threeTypesServer threeTypesServer _ _ []
    [.loadPolicy (policyWithTypes [['a'], ['c']]) fun _ => true,
      .loadPolicy (policyWithTypes [['a'], ['b'], ['c']]) fun _ => true, .contextToSid (contextOfType 3) true]
    (contextOfType 2) true 4 threeTypesServer_ok ⟨_, rfl⟩ rfl rfl rfl (afterCalls_eq (by decide +kernel))
  rcases hreuse with ⟨c', hc, _⟩ | hs
  · have hnone : convertAlong (policyWithTypes [['a'], ['b'], ['c']])
        [.loadPolicy (policyWithTypes [['a'], ['c']]) fun _ => true,
          .loadPolicy (policyWithTypes [['a'], ['b'], ['c']]) fun _ => true, .contextToSid (contextOfType 3) true]
        (contextOfType 2) = none := by decide +kernel
    have : some c' = none := hc.symm.trans hnone
    cases this
  · revert hs
    decide +kernel

end Sepol
