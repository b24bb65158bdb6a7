import Sepol.Hashtab
import Sepol.Policydb

/-!
# The hash table is a finite map

Over every sequence of calls a table of chains holds, for each key, the datum of the last insertion that went through
and was not undone by a removal.  The table may grow in any insertion; a full table refuses every insertion, also that
of a key it has.
-/

namespace Sepol

open ChainedTable

/-- A call, with the outcome of the allocations an insertion makes. -/
inductive HashtabCall (κ δ : Type) where
  | insert (key : κ) (datum : δ) (tableMem nodeMem : Bool)
  | remove (key : κ)
  | search (key : κ)

/-- What a call returns. -/
inductive HashtabReply (δ : Type) where
  | code (code : HashtabCode)
  | datum (datum : Option δ)

namespace Hashtab

variable {κ δ σ : Type} (ops : HashtabOps κ)

def step (h : Hashtab κ δ) : HashtabCall κ δ → HashtabReply δ × Hashtab κ δ
  | .insert key datum tableMem nodeMem =>
    let r := h.insert ops key datum tableMem nodeMem
    (.code r.1, r.2)
  | .remove key =>
    let r := h.remove ops key
    (.code r.1, r.2.2)
  | .search key => (.datum (h.search ops key), h)

/-- The table after some calls on a new one, the last call first, and the calls with what they returned. -/
def run (size : Nat) : List (HashtabCall κ δ) → Hashtab κ δ × List (HashtabCall κ δ × HashtabReply δ)
  | [] => (create size, [])
  | call :: calls =>
    let before := run size calls
    let r := before.1.step ops call
    (r.2, (call, r.1) :: before.2)

/-- The datum last inserted for `key` and not removed since, by what the calls returned. -/
def held (key : κ) : List (HashtabCall κ δ × HashtabReply δ) → Option δ
  | [] => none
  | (.insert k datum _ _, .code .ok) :: past => if ops.keycmp key k = .eq then some datum else held key past
  | (.remove k, .code .ok) :: past => if ops.keycmp key k = .eq then none else held key past
  | _ :: past => held key past

variable {ops}

/-! ### One call -/

theorem Ok.search_perm (hops : ops.Lawful) {h h' : Hashtab κ δ} (hh : h.Ok ops) (hh' : h'.Ok ops)
    (hp : h'.entries.Perm h.entries) (key : κ) : h'.search ops key = h.search ops key := by
  have := hops.trans
  rw [hh.search_eq hops, hh'.search_eq hops, (hh'.distinct hops).find?_perm hp]

theorem Ok.search_cons (hops : ops.Lawful) {h h' : Hashtab κ δ} (hh : h.Ok ops) (hh' : h'.Ok ops) {e : κ × δ}
    (hp : h'.entries.Perm (e :: h.entries)) (key : κ) :
    h'.search ops key = if ops.keycmp key e.1 = .eq then some e.2 else h.search ops key := by
  have := hops.trans
  rw [hh.search_eq hops, hh'.search_eq hops, (hh'.distinct hops).find?_perm hp, List.find?_cons]
  split <;> rename_i hc
  · rw [if_pos (by simpa using hc)]; rfl
  · rw [if_neg (by simpa using hc)]

private theorem Ok.search_isSome (hops : ops.Lawful) {h : Hashtab κ δ} (hh : h.Ok ops) (key : κ) :
    (h.search ops key).isSome = true ↔ ∃ e ∈ h.entries, ops.keycmp key e.1 = .eq := by
  rw [hh.search_eq hops, Option.isSome_map, List.find?_isSome]
  simp

/-- A full table refuses an insertion, a present key is found whether or not the table grew, and otherwise the entry
is added if there is memory for it. -/
theorem Ok.insert_cases (hops : ops.Lawful) {h : Hashtab κ δ} (hh : h.Ok ops) (key : κ) (datum : δ)
    (tableMem nodeMem : Bool) {code : HashtabCode} {h' : Hashtab κ δ}
    (hr : h.insert ops key datum tableMem nodeMem = (code, h')) :
    h'.Ok ops ∧
      ((h.nel = nelMax ∧ code = .enomem ∧ h' = h) ∨
        (h.nel ≠ nelMax ∧ (h.search ops key).isSome ∧ code = .eexist ∧ h'.entries.Perm h.entries ∧ h'.nel = h.nel) ∨
        (h.nel ≠ nelMax ∧ h.search ops key = none ∧ nodeMem = false ∧ code = .enomem ∧
          h'.entries.Perm h.entries) ∨
        (h.nel ≠ nelMax ∧ h.search ops key = none ∧ nodeMem = true ∧ code = .ok ∧
          h'.entries.Perm ((key, datum) :: h.entries) ∧ h'.nel = h.nel + 1)) := by
  have := hops.trans
  rw [Hashtab.insert] at hr
  split at hr
  · rename_i hfull
    obtain ⟨rfl, rfl⟩ := Prod.mk.inj hr
    exact ⟨hh, .inl ⟨hfull, rfl, rfl⟩⟩
  · rename_i hfull
    obtain ⟨hg, hperm, hnel⟩ := hh.checkResize hops tableMem
    have hsearch := hh.search_perm hops hg hperm key
    simp only at hr
    generalize h.checkResize ops tableMem = g at hr hg hperm hnel hsearch
    have hnode := hg.chainNode_eq hops key
    split at hr
    · rename_i hsome
      obtain ⟨rfl, rfl⟩ := Prod.mk.inj hr
      refine ⟨hg, .inr (.inl ⟨hfull, ?_, rfl, hperm, hnel⟩)⟩
      rw [← hsearch, search, Option.isSome_map]
      exact hsome
    · rename_i hnone
      rw [Option.not_isSome_iff_eq_none] at hnone
      have habsent : h.search ops key = none := by rw [← hsearch, search, hnone]; rfl
      split at hr
      · rename_i hmem
        obtain ⟨rfl, rfl⟩ := Prod.mk.inj hr
        have hlt := hops.hash_lt g.size key hg.size_pos
        have hins := @insert_perm _ _ ops.keycmp Prod.fst (key, datum) key (g.htable (ops.hashValue g.size key))
        have hentries := entries_update_perm hlt hins
        rw [hnode, List.find?_eq_none] at hnone
        have hnew : ∀ e ∈ g.htable (ops.hashValue g.size key), ops.keycmp key e.1 ≠ .eq := by
          intro e he heq
          exact hnone e (mem_entries.2 ⟨_, hlt, he⟩) (by simpa using heq)
        have hord := @insert_inOrder _ _ ops.keycmp Prod.fst _ (key, datum) _ (hg.filed.inOrder _ hlt) hnew
        refine ⟨⟨hg.size_pos, hg.size_lt, hg.filed.update hord ?_, ?_⟩,
          .inr (.inr (.inr ⟨hfull, habsent, hmem, rfl, hentries.trans (hperm.cons _), by rw [hnel]⟩))⟩
        · intro e he
          rcases List.mem_cons.1 (hins.mem_iff.1 he) with rfl | he
          · rfl
          · exact hg.filed.placed _ hlt e he
        · exact (congrArg (· + 1) hg.nel_eq).trans hentries.length_eq.symm
      · rename_i hmem
        obtain ⟨rfl, rfl⟩ := Prod.mk.inj hr
        exact ⟨hg, .inr (.inr (.inl ⟨hfull, habsent, by simpa using hmem, rfl, hperm⟩))⟩

/-- A removal takes the entry with an equal key out, if there is one. -/
private theorem Ok.remove_cases (hops : ops.Lawful) {h : Hashtab κ δ} (hh : h.Ok ops) (key : κ) {code : HashtabCode}
    {node : Option (κ × δ)} {h' : Hashtab κ δ} (hr : h.remove ops key = (code, node, h')) :
    h'.Ok ops ∧
      ((h.search ops key = none ∧ code = .enoent ∧ node = none ∧ h' = h) ∨
        ∃ cur, ops.keycmp key cur.1 = .eq ∧ code = .ok ∧ node = some cur ∧ h.entries.Perm (cur :: h'.entries)) := by
  have := hops.trans
  rw [Hashtab.remove] at hr
  split at hr
  · rename_i hnone
    cases hr
    exact ⟨hh, .inl ⟨by rw [search, hnone]; rfl, rfl, rfl, rfl⟩⟩
  · rename_i cur hcur
    cases hr
    have hlt := hops.hash_lt h.size key hh.size_pos
    obtain ⟨hhead, heq⟩ := Option.filter_eq_some_iff.1 hcur
    obtain ⟨rest, hrest⟩ : ∃ rest, ahead ops.keycmp Prod.fst key
      (h.htable (ops.hashValue h.size key)) = cur :: rest :=
      List.head?_eq_some_iff.1 hhead
    have hsplit := @passed_append_ahead _ _ ops.keycmp Prod.fst key (h.htable (ops.hashValue h.size key))
    rw [hrest] at hsplit ⊢
    have hchain : (h.htable (ops.hashValue h.size key)).Perm
        (cur :: (passed ops.keycmp Prod.fst key (h.htable (ops.hashValue h.size key)) ++ rest)) := by
      conv_lhs => rw [← hsplit]
      exact List.perm_middle
    have hsub : (passed ops.keycmp Prod.fst key (h.htable (ops.hashValue h.size key)) ++ rest).Sublist
        (h.htable (ops.hashValue h.size key)) := by
      conv_rhs => rw [← hsplit]
      exact (List.sublist_cons_self ..).append_left _
    have hentries := entries_perm_update hlt hchain
    refine ⟨⟨hh.size_pos, hh.size_lt, hh.filed.update ((hh.filed.inOrder _ hlt).sublist hsub) ?_, ?_⟩,
      .inr ⟨cur, by simpa using heq, rfl, rfl, hentries⟩⟩
    · intro e he
      exact hh.filed.placed _ hlt e (hsub.subset he)
    · exact congrArg (· - 1) (hh.nel_eq.trans hentries.length_eq)

private theorem Ok.search_remove (hops : ops.Lawful) {h h' : Hashtab κ δ} (hh : h.Ok ops) (hh' : h'.Ok ops) {key : κ}
    {cur : κ × δ} (hcur : ops.keycmp key cur.1 = .eq) (hp : h.entries.Perm (cur :: h'.entries)) (k : κ) :
    h'.search ops k = if ops.keycmp k key = .eq then none else h.search ops k := by
  have := hops.trans
  have hd := (hh.distinct hops).perm hp
  rw [hh'.search_cons hops hh hp k, hh'.search_eq hops]
  split <;> rename_i hk
  · rw [find?_eq_none_of_distinct hd (Std.TransCmp.eq_trans hk hcur)]; rfl
  · rw [if_neg]
    intro hkc
    exact hk (Std.TransCmp.eq_trans hkc (Std.OrientedCmp.eq_symm hcur))

/-! ### Any number of calls -/

/-- After any calls the table is in order, and a search finds what the calls left there. -/
private theorem run_spec (hops : ops.Lawful) {size : Nat} (hpos : 0 < size) (hlt : size < 2 ^ 32)
    (calls : List (HashtabCall κ δ)) :
    (run ops size calls).1.Ok ops ∧
      ∀ key, (run ops size calls).1.search ops key = held ops key (run ops size calls).2 := by
  induction calls with
  | nil =>
    have hok : (create size : Hashtab κ δ).Ok ops := create_ok ops hpos hlt
    refine ⟨hok, fun key => ?_⟩
    rw [run, hok.search_eq hops, create_entries]
    rfl
  | cons call calls ih =>
    obtain ⟨hok, hheld⟩ := ih
    rw [run]
    generalize run ops size calls = before at hok hheld
    cases call with
    | insert key datum tableMem nodeMem =>
      rcases hr : before.1.insert ops key datum tableMem nodeMem with ⟨code, h'⟩
      obtain ⟨hok', hcases⟩ := hok.insert_cases hops key datum tableMem nodeMem hr
      simp only [step, hr]
      refine ⟨hok', fun k => ?_⟩
      rcases hcases with ⟨-, rfl, rfl⟩ | ⟨-, -, rfl, hp, -⟩ | ⟨-, -, -, rfl, hp⟩ | ⟨-, -, -, rfl, hp, -⟩
      · exact hheld k
      · exact (hok.search_perm hops hok' hp k).trans (hheld k)
      · exact (hok.search_perm hops hok' hp k).trans (hheld k)
      · rw [hok.search_cons hops hok' hp k, held, hheld]
    | remove key =>
      rcases hr : before.1.remove ops key with ⟨code, node, h'⟩
      obtain ⟨hok', hcases⟩ := hok.remove_cases hops key hr
      simp only [step, hr]
      refine ⟨hok', fun k => ?_⟩
      rcases hcases with ⟨-, rfl, -, rfl⟩ | ⟨cur, hcur, rfl, -, hp⟩
      · exact hheld k
      · rw [hok.search_remove hops hok' hcur hp k, held, hheld]
    | search key => exact ⟨hok, hheld⟩

private theorem mapNodes_eq_foldl (apply : κ → δ → σ → Int × σ) (nodes : List (κ × δ)) :
    ∀ args, (∀ visited cur rest, nodes = visited ++ cur :: rest →
      (apply cur.1 cur.2 (visited.foldl (fun s e => (apply e.1 e.2 s).2) args)).1 = 0) →
      mapNodes apply nodes args = (0, nodes.foldl (fun s e => (apply e.1 e.2 s).2) args) := by
  induction nodes with
  | nil => intro args _; rfl
  | cons cur nodes ih =>
    intro args hok
    have hcur : (apply cur.1 cur.2 args).1 = 0 := hok [] cur nodes rfl
    rw [mapNodes, List.foldl_cons, ← ih (apply cur.1 cur.2 args).2]
    · simp [hcur]
    · intro visited c rest hsplit
      exact hok (cur :: visited) c rest (by rw [hsplit]; rfl)

/-- The hash table is a finite map, over any calls with any outcome of their allocations: the chains are in order and
`nel` counts their entries; while there are fewer than `UINT32_MAX` of them an insertion reports a present key, and
only that, and then changes no entry, and a full table refuses every insertion; a search finds the datum last inserted
and not removed; and the callback of a walk is called on each entry in turn, each key once, unless a call fails. -/
theorem run_finiteMap {ops : HashtabOps κ} (hops : ops.Lawful) {size : Nat} (hpos : 0 < size) (hlt : size < 2 ^ 32)
    (calls : List (HashtabCall κ δ)) {h : Hashtab κ δ} {past : List (HashtabCall κ δ × HashtabReply δ)}
    (hrun : run ops size calls = (h, past)) :
    (∀ i < h.size, InOrder ops.keycmp Prod.fst (h.htable i) ∧ ∀ e ∈ h.htable i, ops.hashValue h.size e.1 = i) ∧
    h.nel = h.entries.length ∧
    (h.nel < nelMax → ∀ key datum tableMem nodeMem,
      (h.insert ops key datum tableMem nodeMem).1 = .eexist ↔ (held ops key past).isSome) ∧
    (h.nel = nelMax → ∀ key datum tableMem nodeMem, h.insert ops key datum tableMem nodeMem = (.enomem, h)) ∧
    (∀ key datum tableMem nodeMem h', h.insert ops key datum tableMem nodeMem = (.eexist, h') →
      h'.entries.Perm h.entries ∧ h'.nel = h.nel ∧ ∀ k, h'.search ops k = h.search ops k) ∧
    (∀ key, h.search ops key = held ops key past) ∧
    (∀ key datum, held ops key past = some datum ↔ ∃ k, ops.keycmp key k = .eq ∧ (k, datum) ∈ h.entries) ∧
    Distinct ops.keycmp Prod.fst h.entries ∧
    ∀ (apply : κ → δ → σ → Int × σ) (args : σ),
      (∀ visited cur rest, h.entries = visited ++ cur :: rest →
        (apply cur.1 cur.2 (visited.foldl (fun s e => (apply e.1 e.2 s).2) args)).1 = 0) →
      h.map apply args = (0, h.entries.foldl (fun s e => (apply e.1 e.2 s).2) args) := by
  have := hops.trans
  obtain ⟨hok, hheld⟩ := run_spec hops hpos hlt calls
  rw [hrun] at hok hheld
  dsimp only at hok hheld
  refine ⟨fun i hi => ⟨hok.filed.inOrder i hi, hok.filed.placed i hi⟩, hok.nel_eq, ?_, ?_, ?_, hheld, ?_,
    hok.distinct hops, fun apply args => mapNodes_eq_foldl apply h.entries args⟩
  · intro hroom key datum tableMem nodeMem
    rcases hr : h.insert ops key datum tableMem nodeMem with ⟨code, h'⟩
    rw [← hheld]
    obtain ⟨-, hcases⟩ := hok.insert_cases hops key datum tableMem nodeMem hr
    rcases hcases with ⟨hfull, -⟩ | ⟨-, hs, rfl, -⟩ | ⟨-, hs, -, rfl, -⟩ | ⟨-, hs, -, rfl, -⟩
    · omega
    · simp [hs]
    · simp [hs]
    · simp [hs]
  · intro hfull key datum tableMem nodeMem
    rw [insert, if_pos hfull]
  · intro key datum tableMem nodeMem h' hr
    obtain ⟨hok', hcases⟩ := hok.insert_cases hops key datum tableMem nodeMem hr
    rcases hcases with ⟨-, hc, -⟩ | ⟨-, -, -, hp, hnel⟩ | ⟨-, -, -, hc, -⟩ | ⟨-, -, -, hc, -⟩
    · cases hc
    · exact ⟨hp, hnel, hok.search_perm hops hok' hp⟩
    · cases hc
    · cases hc
  · intro key datum
    rw [← hheld, hok.search_eq hops, Option.map_eq_some_iff]
    constructor
    · rintro ⟨e, he, rfl⟩
      exact ⟨e.1, by simpa using List.find?_some he, List.mem_of_find?_eq_some he⟩
    · rintro ⟨k, hk, hmem⟩
      obtain ⟨s, t, hst⟩ := List.append_of_mem hmem
      have hp : h.entries.Perm ((k, datum) :: (s ++ t)) := hst ▸ List.perm_middle
      refine ⟨(k, datum), ?_, rfl⟩
      rw [(hok.distinct hops).find?_perm hp, List.find?_cons, hk]
      rfl

/-- Numbers filed by their remainder. -/
def natOps : HashtabOps Nat where
  hashValue size key := key % size
  keycmp := compare

private theorem natOps_lawful : natOps.Lawful where
  hash_lt _ key hpos := Nat.mod_lt key hpos
  hash_congr size a b h := by rw [show a = b from Nat.compare_eq_eq.1 h]
  trans := (inferInstance : Std.TransCmp (compare : Nat → Nat → Ordering))

theorem run_finiteMap_removed :
    let calls : List (HashtabCall Nat Nat) :=
      [.remove 5, .insert 5 1 true true, .insert 4 9 true true, .insert 5 7 true true]
    (run natOps 1 calls).1.search natOps 4 = some 9 ∧ (run natOps 1 calls).1.search natOps 5 = none ∧
      ∀ key, (run natOps 1 calls).1.search natOps key = held natOps key (run natOps 1 calls).2 :=
  ⟨rfl, rfl, (run_finiteMap (σ := Unit) natOps_lawful (by decide) (by decide) _ rfl).2.2.2.2.2.1⟩

/-- The insertions of the numbers below `n`. -/
def insertBelow : Nat → List (HashtabCall Nat Unit)
  | 0 => []
  | n + 1 => .insert n () true true :: insertBelow n

private theorem run_insertBelow (n : Nat) (hn : n ≤ nelMax) :
    (run natOps 1 (insertBelow n)).1.nel = n ∧
      ∀ k, ((run natOps 1 (insertBelow n)).1.search natOps k).isSome = true ↔ k < n := by
  induction n with
  | zero =>
    refine ⟨rfl, fun k => ?_⟩
    rw [((@run_spec _ _ _ natOps_lawful 1 (by decide) (by decide) (insertBelow 0)).1).search_isSome natOps_lawful]
    simp [insertBelow, run]
  | succ n ih =>
    obtain ⟨hnel, hsearch⟩ := ih (by omega)
    have hok := (@run_spec _ _ _ natOps_lawful 1 (by decide) (by decide) (insertBelow n)).1
    rw [insertBelow, run]
    generalize run natOps 1 (insertBelow n) = before at hnel hsearch hok
    rcases hr : before.1.insert natOps n () true true with ⟨code, h'⟩
    obtain ⟨hok', hcases⟩ := hok.insert_cases natOps_lawful n () true true hr
    simp only [step, hr]
    have habsent : ¬ (before.1.search natOps n).isSome := fun h => absurd ((hsearch n).1 h) (lt_irrefl n)
    rcases hcases with ⟨hfull, -⟩ | ⟨-, hs, -⟩ | ⟨-, -, hmem, -⟩ | ⟨-, -, -, -, hp, hnel'⟩
    · omega
    · exact absurd hs habsent
    · cases hmem
    · refine ⟨by omega, fun k => ?_⟩
      rw [hok.search_cons natOps_lawful hok' hp k]
      split <;> rename_i hk
      · have : k = n := Nat.compare_eq_eq.1 hk
        simp [this]
      · have : k ≠ n := fun h => hk (by rw [h]; exact Nat.compare_eq_eq.2 rfl)
        rw [hsearch]
        omega

/-- A full table reports no present key. -/
theorem insert_full_enomem :
    let r := run natOps 1 (insertBelow nelMax)
    (held natOps 0 r.2).isSome = true ∧
      ∀ tableMem nodeMem, r.1.insert natOps 0 () tableMem nodeMem = (.enomem, r.1) := by
  obtain ⟨hnel, hsearch⟩ := run_insertBelow nelMax le_rfl
  have hheld := (@run_spec _ _ _ natOps_lawful 1 (by decide) (by decide) (insertBelow nelMax)).2
  refine ⟨?_, fun tableMem nodeMem => ?_⟩
  · rw [← hheld, hsearch]
    decide
  · rw [insert, if_pos hnel]

end Hashtab

end Sepol

/-!
## The hash table of a symbol table

A symbol table hashes the characters of a name and compares names as strings, so that its hash table is a map from
names; a search in it is that of its entries.
-/

namespace Sepol

open ChainedTable

/-- The hash of a name before it is cut to the number of chains. -/
def symhashName (key : CString) : Nat := key.foldl (fun hash c => (((hash <<< 5) + hash) % 2 ^ 32) ^^^ c.toNat) 5381

def symhash (size : Nat) (key : CString) : Nat := symhashName key &&& (size - 1)

def symcmp (key1 key2 : CString) : Ordering := compare key1 key2

def symtabOps : HashtabOps CString where
  hashValue := symhash
  keycmp := symcmp

theorem symcmp_eq_iff {key1 key2 : CString} : symcmp key1 key2 = .eq ↔ key1 = key2 := by
  unfold symcmp
  exact Std.LawfulEqCmp.compare_eq_iff_eq

theorem symtabOps_lawful : symtabOps.Lawful where
  hash_lt size key hpos := lt_of_le_of_lt Nat.and_le_right (Nat.sub_lt hpos Nat.one_pos)
  hash_congr size a b h := by rw [symcmp_eq_iff.1 h]
  trans := inferInstanceAs (Std.TransCmp (compare : CString → CString → Ordering))

end Sepol
