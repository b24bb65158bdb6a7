import Sepol.CilAvrule

/-!
# Merging access vector rules

`__cil_insert_avrule` outside a conditional gives the bits of a rule to the entry with its key, a new one or the one
that is there.  The entries of a kind of rules have a bit for two types and a class exactly when one of the insertions
of this kind had it; for rules that deny auditing the bits that are taken away count.
-/

namespace Sepol

/-! ### A change of one datum -/

variable {h : Avtab} {key : AvtabKey} {n : AvtabNode} {f : AvtabDatum → AvtabDatum}

/-- The node that `avtab_search` finds gets another datum, and all other nodes stay. -/
private theorem avtabModify_perm (ha : h.Allocated) (hn : avtabSearch h key = some n) (f : AvtabDatum → AvtabDatum) :
    ∃ rest, (avtabNodes h).Perm (n :: rest) ∧
      (avtabNodes (avtabModify h key f)).Perm ({ n with datum := f n.datum } :: rest) := by
  obtain ⟨before, after, hchain, hmodify⟩ :=
    SortedChain.modifyUntil_eq_of_seek (f := fun n => { n with datum := f n.datum }) hn
  have hlt := List.mem_range.2 (avtabHash_lt ha.mask key)
  have hperm : ∀ x : AvtabNode, (before ++ x :: after).Perm (x :: (before ++ after)) := fun x => List.perm_middle
  -- the table without the node
  let others := Function.update h.htable (avtabHash key h.mask) (before ++ after)
  have hflat : ∀ x : AvtabNode, ((List.range h.nslot).flatMap
      (Function.update h.htable (avtabHash key h.mask) (before ++ x :: after))).Perm
      (x :: (List.range h.nslot).flatMap others) := fun x => by
    have hx := SortedChain.flatMap_update_perm List.nodup_range hlt others (a := x) (v := before ++ x :: after)
      (by rw [show others _ = before ++ after from Function.update_self ..]; exact hperm x)
    simpa [others] using hx
  refine ⟨(List.range h.nslot).flatMap others, ?_, ?_⟩
  · have hsame := hflat n
    rw [← hchain, Function.update_eq_self] at hsame
    exact hsame
  · refine (List.Perm.of_eq ?_).trans (hflat { n with datum := f n.datum })
    rw [avtabNodes, ← hmodify]
    refine List.flatMap_congr fun i _ => ?_
    by_cases hi : i = avtabHash key h.mask
    · rw [hi, Function.update_self]
      exact if_pos rfl
    · rw [Function.update_of_ne hi]
      exact if_neg hi

private theorem avtabModify_filled (hf : h.Filled) (hn : avtabSearch h key = some n) (f : AvtabDatum → AvtabDatum) :
    (avtabModify h key f).Filled := by
  obtain ⟨rest, hold, hnew⟩ := avtabModify_perm hf.alloc hn f
  have hnode : ∀ m ∈ avtabNodes (avtabModify h key f), ∃ m' ∈ avtabNodes h, m.addr = m'.addr ∧ m.key = m'.key := by
    intro m hm
    rcases List.mem_cons.1 (hnew.mem_iff.1 hm) with rfl | hm
    · exact ⟨n, hold.mem_iff.2 (List.mem_cons_self ..), rfl, rfl⟩
    · exact ⟨m, hold.mem_iff.2 (List.mem_cons_of_mem _ hm), rfl, rfl⟩
  have hlength : (avtabNodes (avtabModify h key f)).length = (avtabNodes h).length := by
    rw [hnew.length_eq, hold.length_eq]
    rfl
  refine ⟨(avtabModify_spec hf.alloc key f).1, ?_, ?_, ?_, fun m hm => ?_, fun m hm => ?_⟩
  · rw [hlength]
    exact hf.nel
  · rw [hlength]
    exact hf.fresh
  · rw [(hnew.map AvtabNode.addr).nodup_iff]
    exact (hold.map AvtabNode.addr).nodup_iff.1 hf.addr
  · obtain ⟨m', hm', haddr, _⟩ := hnode m hm
    rw [haddr]
    exact hf.addrLt m' hm'
  · obtain ⟨m', hm', _, hkey⟩ := hnode m hm
    rw [hkey]
    exact hf.single m' hm'

/-! ### The bits of a table -/

/-- The value of a bit that counts in a rule of the kind. -/
def CilRuleKind.sign (kind : CilRuleKind) : Bool := kind ≠ .dontaudit

/-- The entry has the bit for a kind of rules, two types and a class. -/
structure AvtabNode.Gives (n : AvtabNode) (kind : CilRuleKind) (s t c : BitVec 16) (k : Fin 32) : Prop where
  specified : kind.specified = some n.key.specified
  source : n.key.sourceType = s
  target : n.key.targetType = t
  tclass : n.key.targetClass = c
  bit : n.datum.data.getLsbD k = kind.sign

/-- The insertion has the bit. -/
structure CilAvInsert.Gives (i : CilAvInsert) (kind : CilRuleKind) (s t c : BitVec 16) (k : Fin 32) : Prop where
  source : BitVec.ofNat 16 i.src = s
  target : BitVec.ofNat 16 i.tgt = t
  tclass : BitVec.ofNat 16 i.obj = c
  bit : i.data.getLsbD k = kind.sign

/-- An entry of the table has the bit. -/
def AvtabGives (tab : Avtab) (kind : CilRuleKind) (s t c : BitVec 16) (k : Fin 32) : Prop :=
  ∃ n ∈ avtabNodes tab, n.Gives kind s t c k

/-- A table with access vector rules only. -/
structure AvRulesOnly (tab : Avtab) : Prop where
  filled : tab.Filled
  kinds : ∀ n ∈ avtabNodes tab, ∃ kind : CilRuleKind, kind.specified = some n.key.specified

variable {tab : Avtab} {kind kind' : CilRuleKind} {st st' : CilTables} {i : CilAvInsert} {l : List CilAvInsert}
  {s t c : BitVec 16} {k : Fin 32}

private theorem CilRuleKind.specified_single {sp : BitVec 16} (h : kind.specified = some sp) : SingleBit sp := by
  cases kind with
  | allowed =>
    obtain rfl := Option.some.inj h
    exact ⟨0, by decide, by decide⟩
  | auditallow =>
    obtain rfl := Option.some.inj h
    exact ⟨1, by decide, by decide⟩
  | dontaudit =>
    obtain rfl := Option.some.inj h
    exact ⟨2, by decide, by decide⟩
  | neverallow => cases h

theorem CilRuleKind.hasSpecified_iff {sp sp' : BitVec 16} (h : kind.specified = some sp)
    (h' : kind'.specified = some sp') : hasSpecified sp sp' = true ↔ kind = kind' := by
  cases kind <;> cases kind' <;> first | cases h; done | cases h'; done | skip
  all_goals
    obtain rfl := Option.some.inj h
    obtain rfl := Option.some.inj h'
    decide

private theorem CilRuleKind.specified_and {sp : BitVec 16} (h : kind.specified = some sp) :
    sp &&& ~~~avtabEnabled = sp := by
  cases kind with
  | neverallow => cases h
  | _ =>
    obtain rfl := Option.some.inj h
    decide

private theorem AvRulesOnly.key_eq (hr : AvRulesOnly tab) {key : AvtabKey} {n : AvtabNode}
    (hkey : kind.specified = some key.specified) (hn : avtabSearch tab key = some n) :
    n ∈ avtabNodes tab ∧ n.key = key := by
  rw [avtabSearch_eq hr.filled.alloc.ok] at hn
  obtain ⟨hmem, hmatch⟩ := (mem_htable_and_hit_iff hr.filled.alloc.ok).1
    ⟨List.mem_of_find?_eq_some hn, List.find?_some hn⟩
  obtain ⟨kind', hkind'⟩ := hr.kinds n hmem
  obtain ⟨⟨h1, h2, h3⟩, hspec⟩ := hmatch
  rw [CilRuleKind.specified_and hkey] at hspec
  obtain rfl := (CilRuleKind.hasSpecified_iff hkey hkind').1 hspec
  have h4 : n.key.specified = key.specified := Option.some.inj (hkind'.symm.trans hkey)
  refine ⟨hmem, ?_⟩
  cases hnkey : n.key
  cases key
  simp_all

private theorem gives_new (hkey : kind.specified = some key.specified) {datum : AvtabDatum} {addr : Nat} :
    AvtabNode.Gives ⟨key, datum, addr⟩ kind' s t c k ↔
      kind' = kind ∧ key.sourceType = s ∧ key.targetType = t ∧ key.targetClass = c ∧
        datum.data.getLsbD k = kind.sign := by
  constructor
  · rintro ⟨h1, h2, h3, h4, h5⟩
    have hkind : kind' = kind := by
      refine (CilRuleKind.hasSpecified_iff h1 hkey).1 ?_
      exact (CilRuleKind.hasSpecified_iff hkey hkey).2 rfl
    subst hkind
    exact ⟨rfl, h2, h3, h4, h5⟩
  · rintro ⟨rfl, h2, h3, h4, h5⟩
    exact ⟨hkey, h2, h3, h4, h5⟩

private theorem merged_bit (kind : CilRuleKind) (old new : BitVec 32) (k : Fin 32) :
    (if kind = .dontaudit then old &&& new else old ||| new).getLsbD k = kind.sign ↔
      old.getLsbD k = kind.sign ∨ new.getLsbD k = kind.sign := by
  unfold CilRuleKind.sign
  by_cases hkind : kind = .dontaudit
  · rw [if_pos hkind, BitVec.getLsbD_and]
    cases old.getLsbD k <;> cases new.getLsbD k <;> simp [hkind]
  · rw [if_neg hkind, BitVec.getLsbD_or]
    cases old.getLsbD k <;> cases new.getLsbD k <;> simp [hkind]

private theorem avtabGives_of_perm {n : AvtabNode} {rest : List AvtabNode} (h : (avtabNodes tab).Perm (n :: rest)) :
    AvtabGives tab kind s t c k ↔ n.Gives kind s t c k ∨ ∃ m ∈ rest, m.Gives kind s t c k := by
  unfold AvtabGives
  simp only [h.mem_iff, List.mem_cons, or_and_right, exists_or, exists_eq_left]

/-- An insertion adds its bits and no others. -/
private theorem cilInsertAvrule_gives (hst : AvRulesOnly st.teAvtab)
    (h : cilInsertAvrule kind i.src i.tgt i.obj i.data none st = some st') :
    AvRulesOnly st'.teAvtab ∧ ∀ kind' s t c k, AvtabGives st'.teAvtab kind' s t c k ↔
      AvtabGives st.teAvtab kind' s t c k ∨ kind' = kind ∧ i.Gives kind s t c k := by
  obtain ⟨specified, hspec, h⟩ := Option.bind_eq_some_iff.1 h
  let key := cilAvtabKey i.src i.tgt i.obj specified
  have hkey : kind.specified = some key.specified := hspec
  have hgives : ∀ {s t c : BitVec 16} {k : Fin 32}, key.sourceType = s ∧ key.targetType = t ∧ key.targetClass = c ∧
      i.data.getLsbD k = kind.sign ↔ i.Gives kind s t c k := fun {s t c k} =>
    ⟨fun ⟨h1, h2, h3, h4⟩ => ⟨h1, h2, h3, h4⟩, fun ⟨h1, h2, h3, h4⟩ => ⟨h1, h2, h3, h4⟩⟩
  dsimp only at h
  split at h
  case h_1 hnone =>
    -- a new entry
    obtain ⟨tab, htab, rfl⟩ := Option.map_eq_some_iff.1 h
    rw [avtabInsert_eq hst.filled.alloc] at htab
    split at htab
    · cases htab
    · obtain rfl := Option.some.inj htab
      have hperm := avtabNodes_insertedTable hst.filled.alloc key ⟨i.data, avtabExtendedPermsInit⟩
      refine ⟨⟨insertedTable_filled hst.filled (CilRuleKind.specified_single hkey) _, fun n hn => ?_⟩,
        fun kind' s t c k => ?_⟩
      · rcases List.mem_cons.1 (hperm.mem_iff.1 hn) with rfl | hn
        · exact ⟨kind, hkey⟩
        · exact hst.kinds n hn
      · refine (avtabGives_of_perm hperm).trans ?_
        rw [gives_new hkey, hgives]
        exact or_comm
  case h_2 existing hsome =>
    -- the entry with the key gets the bits
    obtain rfl := Option.some.inj h
    obtain ⟨hmem, hexisting⟩ := hst.key_eq hkey hsome
    let merge : AvtabDatum → AvtabDatum := fun dup =>
      { dup with data := if kind = .dontaudit then dup.data &&& i.data else dup.data ||| i.data }
    obtain ⟨rest, hold, hnew⟩ := avtabModify_perm hst.filled.alloc hsome merge
    refine ⟨⟨avtabModify_filled hst.filled hsome merge, fun n hn => ?_⟩, fun kind' s t c k => ?_⟩
    · rcases List.mem_cons.1 (hnew.mem_iff.1 hn) with rfl | hn
      · exact hst.kinds existing hmem
      · exact hst.kinds n (hold.mem_iff.2 (List.mem_cons_of_mem _ hn))
    · obtain ⟨ekey, edatum, eaddr⟩ := existing
      obtain rfl : ekey = key := hexisting
      rw [avtabGives_of_perm hold, gives_new hkey]
      refine (avtabGives_of_perm hnew).trans ?_
      rw [gives_new hkey, ← hgives, merged_bit]
      simp only [and_or_left]
      exact or_right_comm

private theorem cilAvInserts_gives (hst : AvRulesOnly st.teAvtab) (h : cilAvInserts kind none l st = some st') :
    AvRulesOnly st'.teAvtab ∧ ∀ kind' s t c k, AvtabGives st'.teAvtab kind' s t c k ↔
      AvtabGives st.teAvtab kind' s t c k ∨ kind' = kind ∧ ∃ i ∈ l, i.Gives kind s t c k := by
  unfold cilAvInserts at h
  induction l generalizing st with
  | nil =>
    obtain rfl := Option.some.inj h
    exact ⟨hst, fun kind' s t c k => by simp⟩
  | cons i l ih =>
    rw [List.foldlM_cons] at h
    obtain ⟨st1, h1, h⟩ := Option.bind_eq_some_iff.1 h
    obtain ⟨hst1, hgives1⟩ := cilInsertAvrule_gives hst h1
    obtain ⟨hst', hgives'⟩ := ih hst1 h
    refine ⟨hst', fun kind' s t c k => ?_⟩
    rw [hgives', hgives1, or_assoc, ← and_or_left]
    simp only [List.mem_cons, or_and_right, exists_or, exists_eq_left]

/-- The insertions of a list of rules. -/
theorem cilAvrules_gives {p : Policydb} {db : CilBinaryDb} {rules : List CilPolicyAvrule}
    (hst : AvRulesOnly st.teAvtab)
    (h : rules.foldlM (fun st rule => cilAvruleToAvtab p db rule none st) st = some st') :
    AvRulesOnly st'.teAvtab ∧ (∀ rule ∈ rules, (cilAvruleInserts p db rule).isSome) ∧
      ∀ kind s t c k, AvtabGives st'.teAvtab kind s t c k ↔ AvtabGives st.teAvtab kind s t c k ∨
        ∃ rule ∈ rules, kind = rule.ruleKind ∧ ∃ l, cilAvruleInserts p db rule = some l ∧
          ∃ i ∈ l, i.Gives rule.ruleKind s t c k := by
  induction rules generalizing st with
  | nil =>
    obtain rfl := Option.some.inj h
    exact ⟨hst, fun rule hrule => absurd hrule List.not_mem_nil, fun kind s t c k => by simp⟩
  | cons rule rules ih =>
    rw [List.foldlM_cons] at h
    obtain ⟨st1, h1, h⟩ := Option.bind_eq_some_iff.1 h
    rw [cilAvruleToAvtab_eq] at h1
    obtain ⟨l, hl, h1⟩ := Option.bind_eq_some_iff.1 h1
    obtain ⟨hst1, hgives1⟩ := cilAvInserts_gives hst h1
    obtain ⟨hst', hsome, hgives'⟩ := ih hst1 h
    refine ⟨hst', fun r hr => ?_, fun kind s t c k => ?_⟩
    · rcases List.mem_cons.1 hr with rfl | hr
      · rw [hl]
        rfl
      · exact hsome r hr
    · rw [hgives', hgives1, or_assoc]
      simp only [List.mem_cons, or_and_right, exists_or, exists_eq_left, hl, Option.some.injEq, exists_eq_left']

theorem avRulesOnly_alloc {nrules : Nat} (hn : nrules ≠ 0) : AvRulesOnly (avtabAlloc nrules) := by
  refine ⟨avtabAlloc_filled hn, fun n hmem => ?_⟩
  rw [avtabNodes_avtabAlloc] at hmem
  exact absurd hmem List.not_mem_nil

end Sepol
