import Sepol.Expand

/-!
# Entries of the output tables

What holds of the tables of the output while rules are expanded (`ExpandTables.Ok`), the entries of a list of a
conditional and of the unconditional table, and what `find_avtab_node` and the write to the node that it returns do to
them.
-/

namespace Sepol

variable {γ : Type} {st st' : ExpandTables γ} {cond c : Option γ} {key : AvtabKey}
  {xperms : Option AvExtendedPerms} {n m : AvtabNode} {l : List AvtabNode} {f : AvtabNode → AvtabNode} {addr : Nat}

/-- The tables are filled, and the lists of the conditionals hold the addresses of the nodes that they own. -/
structure ExpandTables.Ok (st : ExpandTables γ) : Prop where
  te : st.teAvtab.Filled
  cond : st.teCondAvtab.Filled
  owner : ∀ n ∈ avtabNodes st.teCondAvtab, ∃ c, st.parseContext n.addr = some c ∧ n.addr ∈ st.condLists c
  list : ∀ c, ∀ addr ∈ st.condLists c, st.parseContext addr = some c ∧
    ∃ n ∈ avtabNodes st.teCondAvtab, n.addr = addr

/-- The entries of the unconditional table, or of a list of a conditional. -/
def ExpandTables.entries (st : ExpandTables γ) : Option γ → List AvtabNode
  | none => avtabNodes st.teAvtab
  | some c => (st.condLists c).filterMap (avtabNodeAt st.teCondAvtab)

/-- A node of the table of a list belongs to the list. -/
def ExpandTables.Owns (st : ExpandTables γ) (n : AvtabNode) : Option γ → Prop
  | none => True
  | some c => st.parseContext n.addr = some c

theorem ExpandTables.Ok.filled (ok : st.Ok) (cond : Option γ) : (st.table cond).Filled := by
  cases cond with
  | none => exact ok.te
  | some c => exact ok.cond

/-- The entries of a list are the nodes of the table that belong to it. -/
theorem ExpandTables.Ok.mem_entries_iff (ok : st.Ok) :
    n ∈ st.entries cond ↔ n ∈ avtabNodes (st.table cond) ∧ st.Owns n cond := by
  cases cond with
  | none => exact ⟨fun h => ⟨h, trivial⟩, fun h => h.1⟩
  | some c =>
    change n ∈ (st.condLists c).filterMap (avtabNodeAt st.teCondAvtab) ↔
      n ∈ avtabNodes st.teCondAvtab ∧ st.parseContext n.addr = some c
    rw [List.mem_filterMap]
    constructor
    · rintro ⟨addr, haddr, hn⟩
      obtain ⟨hmem, rfl⟩ := (avtabNodeAt_eq_some_iff ok.cond).1 hn
      exact ⟨hmem, (ok.list c _ haddr).1⟩
    · rintro ⟨hn, hown⟩
      obtain ⟨c', hc', hlist⟩ := ok.owner n hn
      obtain rfl : c' = c := Option.some.inj (hc'.symm.trans hown)
      exact ⟨n.addr, hlist, (avtabNodeAt_eq_some_iff ok.cond).2 ⟨hn, rfl⟩⟩

private theorem ExpandTables.Ok.mem_searchNodes_iff (ok : st.Ok) (hkey : SingleBit key.specified) :
    n ∈ avtabSearchNodes (st.table cond) key ↔ n ∈ avtabNodes (st.table cond) ∧ sameKey key n.key := by
  rw [avtabSearchNodes_eq_filter (ok.filled cond).alloc, List.mem_filter, decide_eq_true_eq]
  exact and_congr_right fun hn => matchesKey_iff_sameKey hkey ((ok.filled cond).single n hn)

/-! ### Searches -/

private theorem mem_of_dropWhile_eq_cons {p : AvtabNode → Bool} {l l' : List AvtabNode}
    (h : l.dropWhile p = n :: l') : n ∈ l ∧ p n = false := by
  refine ⟨(List.dropWhile_suffix p).subset (h ▸ List.mem_cons_self ..), ?_⟩
  have hhead := List.head?_dropWhile_not p l
  rw [h] at hhead
  simpa using hhead

private theorem forall_of_dropWhile_eq_nil {p : AvtabNode → Bool} {l : List AvtabNode} (h : l.dropWhile p = []) :
    ∀ m ∈ l, p m = true := List.dropWhile_eq_nil_iff.1 h

private theorem mem_dropWhile_of_not {p : AvtabNode → Bool} {l : List AvtabNode} (hm : m ∈ l) (hp : p m = false) :
    m ∈ l.dropWhile p := by
  induction l with
  | nil => cases hm
  | cons a l ih =>
    rw [List.dropWhile_cons]
    split
    · rename_i ha
      rcases List.mem_cons.1 hm with rfl | hm
      · rw [hp] at ha
        cases ha
      · exact ih hm
    · exact hm

/-- The nodes that the first loop of `find_avtab_node` leaves. -/
private def foundXperms (st : ExpandTables γ) (key : AvtabKey) (cond : Option γ)
    (xperms : Option AvExtendedPerms) : List AvtabNode :=
  if hasSpecified key.specified avtabXperms then
    match xperms with
    | none => []
    | some xperms => (avtabSearchNodes (st.table cond) key).dropWhile fun n => !sameXperms xperms n
  else avtabSearchNodes (st.table cond) key

private theorem foundXperms_subset (h : n ∈ foundXperms st key cond xperms) :
    n ∈ avtabSearchNodes (st.table cond) key := by
  unfold foundXperms at h
  split at h
  · cases xperms with
    | none => cases h
    | some x => exact (List.dropWhile_suffix _).subset h
  · exact h

variable [DecidableEq γ]

private theorem findExisting_eq (st : ExpandTables γ) (key : AvtabKey) (cond : Option γ)
    (xperms : Option AvExtendedPerms) :
    findExisting st key cond xperms =
      match cond with
      | none => foundXperms st key cond xperms
      | some c => (foundXperms st key cond xperms).dropWhile fun n => st.parseContext n.addr ≠ some c := rfl

/-- A node that `find_avtab_node` finds is an entry of the list with the key. -/
theorem findExisting_eq_cons (ok : st.Ok) (hkey : SingleBit key.specified)
    (h : findExisting st key cond xperms = n :: l) : n ∈ st.entries cond ∧ sameKey key n.key := by
  rw [ok.mem_entries_iff, and_right_comm, ← ok.mem_searchNodes_iff hkey]
  rw [findExisting_eq] at h
  cases cond with
  | none => exact ⟨foundXperms_subset (h ▸ List.mem_cons_self ..), trivial⟩
  | some c =>
    obtain ⟨hmem, hown⟩ := mem_of_dropWhile_eq_cons h
    have hown' : st.parseContext n.addr = some c := by simpa using hown
    exact ⟨foundXperms_subset hmem, hown'⟩

theorem findExisting_none_eq_cons {x : AvExtendedPerms} (hx : hasSpecified key.specified avtabXperms = true)
    (h : findExisting st key none (some x) = n :: l) : sameXperms x n = true := by
  rw [findExisting_eq, foundXperms, if_pos hx] at h
  simpa using (mem_of_dropWhile_eq_cons h).2

/-- In a list the search for extended permissions finds the first entry of the list behind the first node of the same
kind and driver. -/
theorem findExisting_some_eq_cons {x : AvExtendedPerms} {c : γ} (hx : hasSpecified key.specified avtabXperms = true)
    (h : findExisting st key (some c) (some x) = n :: l) :
    ((avtabSearchNodes st.teCondAvtab key).dropWhile fun n => !sameXperms x n).find?
      (fun n => st.parseContext n.addr = some c) = some n := by
  rw [findExisting_eq, foundXperms, if_pos hx] at h
  rw [List.find?_eq_head?_dropWhile_not]
  have hhead := congrArg List.head? h
  simpa [ExpandTables.table] using hhead

/-- When nothing is found the list has no entry with the key, or none of the same kind and driver. -/
theorem findExisting_eq_nil (ok : st.Ok) (hkey : SingleBit key.specified) (h : findExisting st key cond xperms = [])
    (hn : n ∈ st.entries cond) (hsame : sameKey key n.key) :
    hasSpecified key.specified avtabXperms = true ∧ ∀ x, xperms = some x → sameXperms x n = false := by
  rw [ok.mem_entries_iff] at hn
  have hsearch := (ok.mem_searchNodes_iff hkey).2 ⟨hn.1, hsame⟩
  have hnot : n ∉ foundXperms st key cond xperms := by
    intro hin
    rw [findExisting_eq] at h
    cases cond with
    | none =>
      change foundXperms st key none xperms = [] at h
      rw [h] at hin
      cases hin
    | some c =>
      have howner := forall_of_dropWhile_eq_nil h n hin
      exact of_decide_eq_true howner hn.2
  unfold foundXperms at hnot
  by_cases hx : hasSpecified key.specified avtabXperms = true
  · refine ⟨hx, fun x hxp => ?_⟩
    subst hxp
    rw [if_pos hx] at hnot
    by_contra hsx
    exact hnot (mem_dropWhile_of_not hsearch (by simpa using hsx))
  · rw [if_neg hx] at hnot
    exact absurd hsearch hnot

/-! ### Writes -/

omit [DecidableEq γ] in
private theorem updateNode_mem_iff (hfill : (st.table cond).Filled) (hn : n ∈ avtabNodes (st.table cond)) :
    m ∈ avtabNodes ((st.updateNode cond n.addr f).table cond) ↔ m = f n ∨ m ∈ avtabNodes (st.table cond) ∧ m ≠ n := by
  cases cond with
  | none => exact mem_avtabNodes_updateNode hfill hn
  | some c => exact mem_avtabNodes_updateNode hfill hn

/-- A write to an entry of a list replaces the entry and leaves the other lists alone. -/
theorem ExpandTables.Ok.updateNode (ok : st.Ok) (hf : KeepsKey f) (hn : n ∈ st.entries cond) :
    (st.updateNode cond n.addr f).Ok ∧ ∀ c m, m ∈ (st.updateNode cond n.addr f).entries c ↔
      if c = cond then m = f n ∨ m ∈ st.entries c ∧ m ≠ n else m ∈ st.entries c := by
  obtain ⟨hmem, hown⟩ := ok.mem_entries_iff.1 hn
  have hiff : ∀ m, m ∈ avtabNodes ((st.updateNode cond n.addr f).table cond) ↔
      m = f n ∨ m ∈ avtabNodes (st.table cond) ∧ m ≠ n := fun m => updateNode_mem_iff (ok.filled cond) hmem
  have hok : (st.updateNode cond n.addr f).Ok := by
    cases cond with
    | none => exact ⟨avtabUpdateNode_filled hf ok.te _, ok.cond, ok.owner, ok.list⟩
    | some c =>
      refine ⟨ok.te, avtabUpdateNode_filled hf ok.cond _, fun m hm => ?_, fun c' addr haddr => ?_⟩
      · rcases (hiff m).1 hm with rfl | ⟨hm, _⟩
        · rw [hf.addr]
          exact ok.owner n hmem
        · exact ok.owner m hm
      · obtain ⟨hctx, m, hm, rfl⟩ := ok.list c' addr haddr
        refine ⟨hctx, ?_⟩
        by_cases heq : m = n
        · exact ⟨f n, (hiff _).2 (Or.inl rfl), by rw [hf.addr, heq]⟩
        · exact ⟨m, (hiff _).2 (Or.inr ⟨hm, heq⟩), rfl⟩
  refine ⟨hok, fun c m => ?_⟩
  by_cases hc : c = cond
  · subst hc
    have howns : (st.updateNode c n.addr f).Owns m c ↔ st.Owns m c := by
      cases c with
      | none => exact Iff.rfl
      | some c => exact Iff.rfl
    have hfown : m = f n → st.Owns m c := by
      rintro rfl
      cases c with
      | none => exact trivial
      | some c =>
        change st.parseContext (f n).addr = some c
        rw [hf.addr]
        exact hown
    rw [if_pos rfl, hok.mem_entries_iff, hiff, howns, ok.mem_entries_iff]
    constructor
    · rintro ⟨h | ⟨hm, hne⟩, ho⟩
      · exact Or.inl h
      · exact Or.inr ⟨⟨hm, ho⟩, hne⟩
    · rintro (h | ⟨⟨hm, ho⟩, hne⟩)
      · exact ⟨Or.inl h, hfown h⟩
      · exact ⟨Or.inr ⟨hm, hne⟩, ho⟩
  · rw [if_neg hc, hok.mem_entries_iff, ok.mem_entries_iff]
    cases cond with
    | none =>
      cases c with
      | none => exact absurd rfl hc
      | some c => exact Iff.rfl
    | some c' =>
      cases c with
      | none => exact Iff.rfl
      | some c =>
        have hne : c ≠ c' := fun h => hc (h ▸ rfl)
        change m ∈ avtabNodes ((st.updateNode (some c') n.addr f).table (some c')) ∧ st.parseContext m.addr = some c ↔
          m ∈ avtabNodes (st.table (some c')) ∧ st.parseContext m.addr = some c
        rw [hiff]
        constructor
        · rintro ⟨rfl | ⟨hm, _⟩, ho⟩
          · rw [hf.addr] at ho
            exact absurd (Option.some.inj (ho.symm.trans hown)) hne
          · exact ⟨hm, ho⟩
        · rintro ⟨hm, ho⟩
          refine ⟨Or.inr ⟨hm, fun h => ?_⟩, ho⟩
          rw [h] at ho
          exact hne (Option.some.inj (ho.symm.trans hown))

/-- The node that `find_avtab_node` inserts. -/
def newEntry (st : ExpandTables γ) (cond : Option γ) (key : AvtabKey) : AvtabNode :=
  ⟨key, ⟨if key.specified = avtabAuditdeny then BitVec.allOnes 32 else 0, avtabExtendedPermsInit⟩,
    (st.table cond).fresh⟩

/-- When nothing is found a new entry is put into the list. -/
private theorem findAvtabNode_new (ok : st.Ok) (hkey : SingleBit key.specified)
    (h : findExisting st key cond xperms = []) :
    ∃ st', findAvtabNode st key cond xperms = some (st', (newEntry st cond key).addr) ∧ st'.Ok ∧
      ∀ c m, m ∈ st'.entries c ↔ c = cond ∧ m = newEntry st cond key ∨ m ∈ st.entries c := by
  have hfill := ok.filled cond
  have hperm := avtabNodes_insertedTable hfill.alloc key (newEntry st cond key).datum
  have hfill' := insertedTable_filled hfill hkey (newEntry st cond key).datum
  have hiff : ∀ m, m ∈ avtabNodes (insertedTable (st.table cond) key (newEntry st cond key).datum) ↔
      m = newEntry st cond key ∨ m ∈ avtabNodes (st.table cond) := fun m => by
    rw [hperm.mem_iff, List.mem_cons]
    rfl
  have hinsert : avtabInsertNonunique (st.table cond) key
      ⟨if key.specified = avtabAuditdeny then BitVec.allOnes 32 else 0, avtabExtendedPermsInit⟩ =
        some (insertedTable (st.table cond) key (newEntry st cond key).datum, newEntry st cond key) :=
    avtabInsertNonunique_eq hfill.alloc key _
  unfold findAvtabNode
  rw [h]
  dsimp only
  rw [hinsert]
  cases cond with
  | none =>
    refine ⟨_, rfl, ⟨hfill', ok.cond, ok.owner, ok.list⟩, fun c m => ?_⟩
    cases c with
    | none =>
      refine (hiff m).trans ⟨?_, ?_⟩
      · rintro (h | h)
        · exact Or.inl ⟨rfl, h⟩
        · exact Or.inr h
      · rintro (⟨_, h⟩ | h)
        · exact Or.inl h
        · exact Or.inr h
    | some c => exact ⟨Or.inr, fun h => h.resolve_left fun h => by cases h.1⟩
  | some c =>
    have hlt : ∀ m ∈ avtabNodes st.teCondAvtab, m.addr ≠ st.teCondAvtab.fresh := fun m hm h =>
      absurd (ok.cond.addrLt m hm) (by omega)
    have hok : ExpandTables.Ok { st with
        teCondAvtab := insertedTable (st.table (some c)) key (newEntry st (some c) key).datum
        parseContext := Function.update st.parseContext st.teCondAvtab.fresh (some c)
        condLists := Function.update st.condLists c (st.teCondAvtab.fresh :: st.condLists c) } := by
      refine ⟨ok.te, hfill', fun m hm => ?_, fun c' addr haddr => ?_⟩
      · rcases (hiff m).1 hm with rfl | hm
        · exact ⟨c, Function.update_self .., by simp [newEntry, ExpandTables.table]⟩
        · obtain ⟨c', hctx, hin⟩ := ok.owner m hm
          refine ⟨c', ?_, ?_⟩
          · dsimp only
            rw [Function.update_of_ne (hlt m hm), hctx]
          · dsimp only
            by_cases hc : c' = c
            · subst hc
              rw [Function.update_self]
              exact List.mem_cons_of_mem _ hin
            · rwa [Function.update_of_ne hc]
      · dsimp only at haddr ⊢
        have hcases : c' = c ∧ addr = st.teCondAvtab.fresh ∨ addr ∈ st.condLists c' := by
          by_cases hc : c' = c
          · subst hc
            rw [Function.update_self] at haddr
            exact (List.mem_cons.1 haddr).imp (fun h => ⟨rfl, h⟩) id
          · rw [Function.update_of_ne hc] at haddr
            exact Or.inr haddr
        rcases hcases with ⟨rfl, rfl⟩ | haddr
        · exact ⟨Function.update_self .., _, (hiff _).2 (Or.inl rfl), rfl⟩
        · obtain ⟨hctx, m, hm, rfl⟩ := ok.list c' addr haddr
          exact ⟨by rw [Function.update_of_ne (hlt m hm), hctx], m, (hiff m).2 (Or.inr hm), rfl⟩
    refine ⟨_, rfl, hok, fun c' m => ?_⟩
    cases c' with
    | none => exact ⟨Or.inr, fun h => h.resolve_left fun h => by cases h.1⟩
    | some c' =>
      refine Iff.trans hok.mem_entries_iff ?_
      rw [ok.mem_entries_iff]
      change m ∈ avtabNodes (insertedTable _ _ _) ∧
        Function.update st.parseContext st.teCondAvtab.fresh (some c) m.addr =
        some c' ↔ _ ∨ m ∈ avtabNodes st.teCondAvtab ∧ st.parseContext m.addr = some c'
      rw [hiff]
      constructor
      · rintro ⟨rfl | hm, hctx⟩
        · rw [show (newEntry st (some c) key).addr = st.teCondAvtab.fresh from rfl, Function.update_self] at hctx
          exact Or.inl ⟨hctx.symm, rfl⟩
        · have hne := hlt m hm
          rw [Function.update_of_ne hne] at hctx
          exact Or.inr ⟨hm, hctx⟩
      · rintro (⟨hc, rfl⟩ | ⟨hm, hctx⟩)
        · refine ⟨Or.inl rfl, ?_⟩
          rw [show (newEntry st (some c) key).addr = st.teCondAvtab.fresh from rfl, Function.update_self, hc]
        · exact ⟨Or.inr hm, by rw [Function.update_of_ne (hlt m hm), hctx]⟩

/-- A write to the node that `find_avtab_node` returns: an entry of the list is replaced, or a new one is added. -/
theorem findAvtabNode_write (ok : st.Ok) (hkey : SingleBit key.specified) (hf : KeepsKey f) :
    ∃ st₁ addr, findAvtabNode st key cond xperms = some (st₁, addr) ∧ (st₁.updateNode cond addr f).Ok ∧
      ((∃ n l, findExisting st key cond xperms = n :: l ∧ ∀ c m, m ∈ (st₁.updateNode cond addr f).entries c ↔
          if c = cond then m = f n ∨ m ∈ st.entries c ∧ m ≠ n else m ∈ st.entries c) ∨
        (findExisting st key cond xperms = [] ∧ ∀ c m, m ∈ (st₁.updateNode cond addr f).entries c ↔
          c = cond ∧ m = f (newEntry st cond key) ∨ m ∈ st.entries c)) := by
  cases hfound : findExisting st key cond xperms with
  | cons n l =>
    have hn := (findExisting_eq_cons ok hkey hfound).1
    obtain ⟨hok, hentries⟩ := ok.updateNode hf hn
    refine ⟨st, n.addr, ?_, hok, Or.inl ⟨n, l, rfl, hentries⟩⟩
    unfold findAvtabNode
    rw [hfound]
  | nil =>
    obtain ⟨st₁, hfind, hok₁, hentries₁⟩ := findAvtabNode_new ok hkey hfound
    have hnew : newEntry st cond key ∈ st₁.entries cond := (hentries₁ _ _).2 (Or.inl ⟨rfl, rfl⟩)
    have hfresh : newEntry st cond key ∉ st.entries cond := by
      intro hin
      have hlt := (ok.filled cond).addrLt _ (ok.mem_entries_iff.1 hin).1
      exact Nat.lt_irrefl _ hlt
    obtain ⟨hok, hentries⟩ := hok₁.updateNode hf hnew
    refine ⟨st₁, _, hfind, hok, Or.inr ⟨rfl, fun c m => ?_⟩⟩
    rw [hentries]
    by_cases hc : c = cond
    · subst hc
      rw [if_pos rfl, hentries₁]
      constructor
      · rintro (h | ⟨⟨_, h⟩ | h, hne⟩)
        · exact Or.inl ⟨rfl, h⟩
        · exact absurd h hne
        · exact Or.inr h
      · rintro (⟨_, h⟩ | h)
        · exact Or.inl h
        · exact Or.inr ⟨Or.inr h, fun heq => hfresh (heq ▸ h)⟩
    · rw [if_neg hc, hentries₁]
      exact ⟨fun h => h.imp (fun h => absurd h.1 hc) id, fun h => h.imp (fun h => absurd h.1 hc) id⟩

omit [DecidableEq γ] in
theorem entries_expandInit (nrules : Nat) (cond : Option γ) :
    (expandInit nrules : ExpandTables γ).entries cond = [] := by
  cases cond with
  | none => exact avtabNodes_avtabAlloc nrules
  | some c => rfl

omit [DecidableEq γ] in
theorem expandInit_ok {nrules : Nat} (hn : nrules ≠ 0) : (expandInit nrules : ExpandTables γ).Ok := by
  refine ⟨avtabAlloc_filled hn, avtabAlloc_filled hn, fun n hmem => ?_, fun c addr haddr => ?_⟩
  · change n ∈ avtabNodes (avtabAlloc nrules) at hmem
    rw [avtabNodes_avtabAlloc] at hmem
    cases hmem
  · cases haddr

end Sepol
