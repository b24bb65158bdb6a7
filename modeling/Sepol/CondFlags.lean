import Sepol.CondRead

/-!
# The flags of conditional rules

`evaluate_conds` writes the flags of a conditional only when the value of its expression is not the stored state.  The
reader takes over the stored state and the flags of an image, so after evaluations the flags of a conditional are
right exactly when the two agree in the image or the value has differed from the stored state once.
-/

namespace Sepol

variable {tab tab' : Avtab} {state σ : Nat → Bool} {b addr : Nat} {node : KernelCondNode} {p p' : CondPolicy}
  {nodes : List KernelCondNode}

/-- The enabled flag of the node at an address. -/
def flagAt (tab : Avtab) (addr : Nat) : Option Bool :=
  (avtabNodeAt tab addr).map fun n => hasSpecified n.key.specified avtabEnabled

/-- The addresses in the lists of a conditional. -/
def CondNode.addrs (node : CondNode) : List Nat := node.trueList ++ node.falseList

/-- The rules of the true list are enabled exactly in state 1, those of the false list exactly in state 0. -/
structure FlagsFit (tab : Avtab) (node : CondNode) (v : Int) : Prop where
  trueList : ∀ addr ∈ node.trueList, flagAt tab addr = some (decide (v = 1))
  falseList : ∀ addr ∈ node.falseList, flagAt tab addr = some (decide (v = 0))

theorem FlagsFit.congr {node : CondNode} {v : Int} (h : FlagsFit tab node v)
    (hflags : ∀ addr ∈ node.addrs, flagAt tab' addr = flagAt tab addr) : FlagsFit tab' node v := by
  constructor
  · intro addr haddr
    rw [hflags addr (List.mem_append_left _ haddr), h.trueList addr haddr]
  · intro addr haddr
    rw [hflags addr (List.mem_append_right _ haddr), h.falseList addr haddr]

/-! ### One conditional -/

private theorem flagAt_updateNode (tab : Avtab) (addr b : Nat) (enabled : Bool) :
    flagAt (avtabUpdateNode tab addr fun n => n.setEnabled enabled) b =
      if b = addr then (flagAt tab b).map fun _ => enabled else flagAt tab b := by
  unfold flagAt
  rw [avtabNodeAt_updateNode fun n => AvtabNode.setEnabled_addr n enabled]
  by_cases hb : b = addr
  · rw [if_pos hb, Option.map_map, Option.map_map]
    refine Option.map_congr fun n _ => ?_
    rw [Function.comp_apply, if_pos hb]
    exact n.hasSpecified_setEnabled enabled
  · rw [if_neg hb, Option.map_map]
    refine Option.map_congr fun n _ => ?_
    rw [Function.comp_apply, if_neg hb]

private theorem flagAt_condSetEnabled (enabled : Bool) (list : List Nat) (tab : Avtab) (b : Nat) :
    flagAt (condSetEnabled enabled list tab) b =
      if b ∈ list then (flagAt tab b).map fun _ => enabled else flagAt tab b := by
  induction list generalizing tab with
  | nil => simp [condSetEnabled]
  | cons cur next ih =>
    rw [condSetEnabled, ih, flagAt_updateNode]
    by_cases hcur : b = cur
    · cases flagAt tab b <;> simp [hcur]
    · simp [hcur]

private theorem evaluateCondNode_snd (state : Nat → Bool) (tab : Avtab) (node : KernelCondNode) :
    (evaluateCondNode state tab node).2 = { node with curState := condExprState state node.expr } := by
  unfold evaluateCondNode
  extract_lets newState
  split
  · rfl
  · rename_i heq
    change node = { node with curState := newState }
    rw [not_not.1 heq]

private theorem flagAt_evaluateCondNode_of_notMem (hb : b ∉ node.addrs) :
    flagAt (evaluateCondNode state tab node).1 b = flagAt tab b := by
  have hb' : b ∉ node.trueList ∧ b ∉ node.falseList := by
    simpa [CondNode.addrs, not_or] using hb
  unfold evaluateCondNode
  extract_lets newState
  split
  · dsimp only
    rw [flagAt_condSetEnabled, if_neg hb'.2, flagAt_condSetEnabled, if_neg hb'.1]
  · rfl

private theorem isSome_flagAt_evaluateCondNode :
    (flagAt (evaluateCondNode state tab node).1 b).isSome = (flagAt tab b).isSome := by
  unfold evaluateCondNode
  extract_lets newState
  split
  · dsimp only
    rw [flagAt_condSetEnabled, flagAt_condSetEnabled]
    split <;> split <;> simp
  · rfl

private theorem condExprState_cases (state : Nat → Bool) (expr : List CondExpr) :
    condExprState state expr = -1 ∨ condExprState state expr = 0 ∨ condExprState state expr = 1 := by
  unfold condExprState
  split
  · exact Or.inl rfl
  · split
    · exact Or.inr (Or.inr rfl)
    · exact Or.inr (Or.inl rfl)

/-- The evaluation of one conditional: its flags are rewritten when its state changes. -/
private theorem evaluateCondNode_flags (state : Nat → Bool) (hdisj : node.addrs.Nodup)
    (hsome : ∀ addr ∈ node.addrs, (flagAt tab addr).isSome) :
    (condExprState state node.expr = node.curState → (evaluateCondNode state tab node).1 = tab) ∧
      (condExprState state node.expr ≠ node.curState →
        FlagsFit (evaluateCondNode state tab node).1 node.toCondNode (condExprState state node.expr)) := by
  unfold evaluateCondNode
  extract_lets newState
  constructor
  · intro heq
    rw [if_neg (not_not.2 heq)]
  · intro hne
    rw [if_pos hne]
    have hnot : ∀ addr ∈ node.trueList, addr ∉ node.falseList :=
      fun addr h1 h2 => (List.nodup_append.1 hdisj).2.2 addr h1 addr h2 rfl
    have hcases := condExprState_cases state node.expr
    change FlagsFit _ _ newState
    constructor
    · intro addr haddr
      obtain ⟨v, hv⟩ := Option.isSome_iff_exists.1 (hsome addr (List.mem_append_left _ haddr))
      have hpos : decide (0 < newState) = decide (newState = 1) := decide_eq_decide.2 (by omega)
      rw [flagAt_condSetEnabled, if_neg (hnot addr haddr), flagAt_condSetEnabled, if_pos haddr, hv, hpos]
      rfl
    · intro addr haddr
      obtain ⟨v, hv⟩ := Option.isSome_iff_exists.1 (hsome addr (List.mem_append_right _ haddr))
      rw [flagAt_condSetEnabled, if_pos haddr, flagAt_condSetEnabled, if_neg fun h => hnot addr h haddr, hv]
      rfl

/-! ### All conditionals -/

/-- The addresses in the lists of all conditionals are different and have a node each. -/
structure CondPolicy.AddrsOk (p : CondPolicy) : Prop where
  nodup : (p.condList.flatMap fun node => node.addrs).Nodup
  present : ∀ node ∈ p.condList, ∀ addr ∈ node.addrs, (flagAt p.teCondAvtab addr).isSome

private theorem evaluateCondNodes_condList (state : Nat → Bool) (tab : Avtab) (nodes : List KernelCondNode) :
    (evaluateCondNodes state tab nodes).condList =
      nodes.map fun node => { node with curState := condExprState state node.expr } := by
  induction nodes generalizing tab with
  | nil => rfl
  | cons cur next ih => rw [evaluateCondNodes, List.map_cons, evaluateCondNode_snd, ih]

private theorem isSome_flagAt_evaluateCondNodes :
    (flagAt (evaluateCondNodes state tab nodes).teCondAvtab b).isSome = (flagAt tab b).isSome := by
  induction nodes generalizing tab with
  | nil => rfl
  | cons cur next ih => rw [evaluateCondNodes, ih, isSome_flagAt_evaluateCondNode]

private theorem flagAt_evaluateCondNodes_of_notMem (hb : ∀ node ∈ nodes, b ∉ node.addrs) :
    flagAt (evaluateCondNodes state tab nodes).teCondAvtab b = flagAt tab b := by
  induction nodes generalizing tab with
  | nil => rfl
  | cons cur next ih =>
    rw [evaluateCondNodes, ih fun node hnode => hb node (List.mem_cons_of_mem _ hnode)]
    exact flagAt_evaluateCondNode_of_notMem (hb cur (List.mem_cons_self ..))

/-- The evaluation of all conditionals does to each what its own evaluation does. -/
private theorem evaluateCondNodes_flags (state : Nat → Bool) (hnodup : (nodes.flatMap fun node => node.addrs).Nodup)
    (hsome : ∀ node ∈ nodes, ∀ addr ∈ node.addrs, (flagAt tab addr).isSome) :
    ∀ node ∈ nodes,
      (condExprState state node.expr = node.curState → ∀ addr ∈ node.addrs,
        flagAt (evaluateCondNodes state tab nodes).teCondAvtab addr = flagAt tab addr) ∧
      (condExprState state node.expr ≠ node.curState →
        FlagsFit (evaluateCondNodes state tab nodes).teCondAvtab node.toCondNode
        (condExprState state node.expr)) := by
  induction nodes generalizing tab with
  | nil => exact fun node hnode => (List.not_mem_nil hnode).elim
  | cons cur next ih =>
    rw [List.flatMap_cons, List.nodup_append] at hnodup
    obtain ⟨hcur, hnext, hdisj⟩ := hnodup
    -- the addresses of the first conditional are not among those of the others
    have hfirst : ∀ addr ∈ cur.addrs, ∀ node ∈ next, addr ∉ node.addrs := fun addr haddr node hnode hin =>
      hdisj addr haddr addr (List.mem_flatMap.2 ⟨node, hnode, hin⟩) rfl
    have hstep := evaluateCondNode_flags state hcur (hsome cur (List.mem_cons_self ..))
    intro node hnode
    rw [evaluateCondNodes]
    dsimp only
    rcases List.mem_cons.1 hnode with rfl | hnode
    · have hkeep : ∀ addr ∈ node.addrs,
          flagAt (evaluateCondNodes state (evaluateCondNode state tab node).1 next).teCondAvtab addr =
            flagAt (evaluateCondNode state tab node).1 addr :=
        fun addr haddr => flagAt_evaluateCondNodes_of_notMem (hfirst addr haddr)
      refine ⟨fun heq addr haddr => ?_, fun hne => (hstep.2 hne).congr hkeep⟩
      rw [hkeep addr haddr, hstep.1 heq]
    · have hsome' : ∀ node ∈ next, ∀ addr ∈ node.addrs, (flagAt (evaluateCondNode state tab cur).1 addr).isSome := by
        intro node hnode addr haddr
        rw [isSome_flagAt_evaluateCondNode]
        exact hsome node (List.mem_cons_of_mem _ hnode) addr haddr
      have hrest := ih hnext hsome' node hnode
      refine ⟨fun heq addr haddr => ?_, hrest.2⟩
      rw [hrest.1 heq addr haddr]
      exact flagAt_evaluateCondNode_of_notMem fun hin => hfirst addr hin node hnode haddr

/-! ### Runs -/

/-- The state of a conditional after evaluations for some states of the booleans. -/
def lastState (states : List (Nat → Bool)) (node : KernelCondNode) : Int :=
  match states.getLast? with
  | none => node.curState
  | some state => condExprState state node.expr

private theorem evaluateRun_concat (states : List (Nat → Bool)) (state : Nat → Bool) (p : CondPolicy) :
    evaluateRun (states ++ [state]) p = evaluateConds state (evaluateRun states p) := by
  rw [evaluateRun, List.foldl_append]
  rfl

/-- After any evaluations the conditionals have their last states, and a conditional has the flags that it started
with if its value was its first state all the time, otherwise the flags of its last state. -/
theorem evaluateRun_flags (hp : p.AddrsOk) (states : List (Nat → Bool)) :
    (evaluateRun states p).condList = p.condList.map (fun node => { node with curState := lastState states node }) ∧
    (∀ b, (flagAt (evaluateRun states p).teCondAvtab b).isSome = (flagAt p.teCondAvtab b).isSome) ∧
    ∀ node ∈ p.condList,
      ((∀ state ∈ states, condExprState state node.expr = node.curState) → ∀ addr ∈ node.addrs,
        flagAt (evaluateRun states p).teCondAvtab addr = flagAt p.teCondAvtab addr) ∧
      ((∃ state ∈ states, condExprState state node.expr ≠ node.curState) →
        FlagsFit (evaluateRun states p).teCondAvtab node.toCondNode (lastState states node)) := by
  induction states using List.reverseRecOn with
  | nil =>
    refine ⟨?_, fun b => rfl, fun node _ => ⟨fun _ addr _ => rfl, ?_⟩⟩
    · exact (List.map_id _).symm
    · rintro ⟨state, hstate, _⟩
      exact (List.not_mem_nil hstate).elim
  | append_singleton states state ih =>
    obtain ⟨hlist, hsome, hflags⟩ := ih
    rw [evaluateRun_concat, evaluateConds]
    refine ⟨?_, fun b => by rw [isSome_flagAt_evaluateCondNodes, hsome], fun node hnode => ?_⟩
    · rw [evaluateCondNodes_condList, hlist, List.map_map]
      refine List.map_congr_left fun node _ => ?_
      simp [lastState]
    have haddrs : ((evaluateRun states p).condList.flatMap fun node => node.addrs).Nodup := by
      rw [hlist, List.flatMap_map]
      exact hp.nodup
    have hpresent : ∀ n ∈ (evaluateRun states p).condList, ∀ addr ∈ n.addrs,
        (flagAt (evaluateRun states p).teCondAvtab addr).isSome := by
      intro n hn addr haddr
      rw [hlist] at hn
      obtain ⟨n', hn', rfl⟩ := List.mem_map.1 hn
      rw [hsome]
      exact hp.present n' hn' addr haddr
    have hmem : { node with curState := lastState states node } ∈ (evaluateRun states p).condList := by
      rw [hlist]
      exact List.mem_map.2 ⟨node, hnode, rfl⟩
    have hstep := evaluateCondNodes_flags state haddrs hpresent _ hmem
    have hlast : lastState (states ++ [state]) node = condExprState state node.expr := by
      simp [lastState]
    rw [hlast]
    obtain ⟨hkeep, hfit⟩ := hflags node hnode
    dsimp only at hstep
    constructor
    · intro hall addr haddr
      have hall' : ∀ τ ∈ states, condExprState τ node.expr = node.curState :=
        fun τ hτ => hall τ (List.mem_append_left _ hτ)
      have hcur : lastState states node = node.curState := by
        unfold lastState
        split
        · rfl
        · rename_i τ hτ
          exact hall' τ (List.mem_of_getLast? hτ)
      have hstate := hall state (List.mem_append_right _ (List.mem_singleton.2 rfl))
      rw [hstep.1 (hstate.trans hcur.symm) addr haddr, hkeep hall' addr haddr]
    · intro hex
      by_cases heq : condExprState state node.expr = lastState states node
      · -- nothing is written now, so the value has differed before
        have hex' : ∃ τ ∈ states, condExprState τ node.expr ≠ node.curState := by
          by_contra hall
          push Not at hall
          obtain ⟨τ, hτ, hne⟩ := hex
          rcases List.mem_append.1 hτ with hτ | hτ
          · exact hne (hall τ hτ)
          · rw [List.mem_singleton.1 hτ, heq] at hne
            apply hne
            unfold lastState
            split
            · rfl
            · rename_i ρ hρ
              exact hall ρ (List.mem_of_getLast? hρ)
        rw [heq]
        exact (hfit hex').congr (hstep.1 heq)
      · exact hstep.2 heq

/-! ### The reader -/

/-- A table under construction: it is empty or allocated, and the next address is above those of its nodes. -/
structure Avtab.Growing (h : Avtab) : Prop where
  alloc : h.nslot = 0 ∨ h.Allocated
  addrLt : ∀ n ∈ avtabNodes h, n.addr < h.fresh

/-- A table has grown out of another one: no node has got lost and the new ones have new addresses. -/
structure GrownFrom (tab tab' : Avtab) : Prop where
  fresh : tab.fresh ≤ tab'.fresh
  present : ∀ addr, (flagAt tab addr).isSome → (flagAt tab' addr).isSome

theorem isSome_flagAt_iff : (flagAt tab addr).isSome ↔ ∃ n ∈ avtabNodes tab, n.addr = addr := by
  rw [flagAt, Option.isSome_map, avtabNodeAt, List.find?_isSome]
  simp

theorem GrownFrom.trans {tab₁ tab₂ tab₃ : Avtab} (h1 : GrownFrom tab₁ tab₂) (h2 : GrownFrom tab₂ tab₃) :
    GrownFrom tab₁ tab₃ :=
  ⟨Nat.le_trans h1.fresh h2.fresh, fun addr haddr => h2.present addr (h1.present addr haddr)⟩

/-- The addresses that were added to a table while a list was read. -/
structure ReadInto (tab tab' : Avtab) (list : List Nat) : Prop where
  growing : tab'.Growing
  grown : GrownFrom tab tab'
  nodup : list.Nodup
  fresh : ∀ addr ∈ list, tab.fresh ≤ addr ∧ addr < tab'.fresh
  present : ∀ addr ∈ list, (flagAt tab' addr).isSome

private theorem avtabInsertNonunique_readInto {key : AvtabKey} {datum : AvtabDatum} {n : AvtabNode} (hg : tab.Growing)
    (h : avtabInsertNonunique tab key datum = some (tab', n)) : ReadInto tab tab' [n.addr] := by
  have ha : tab.Allocated := by
    rcases hg.alloc with hzero | ha
    · rw [avtabInsertNonunique, if_pos hzero] at h
      cases h
    · exact ha
  rw [avtabInsertNonunique_eq ha] at h
  cases h
  have hperm := avtabNodes_insertedTable ha key datum
  have hall := insertedTable_allocated ha key datum
  have hfresh : (insertedTable tab key datum).fresh = tab.fresh + 1 := rfl
  refine ⟨⟨Or.inr hall, fun n hn => ?_⟩, ⟨by omega, fun addr haddr => ?_⟩, List.nodup_singleton _,
    fun addr haddr => ?_,
    fun addr haddr => ?_⟩
  · rcases List.mem_cons.1 (hperm.mem_iff.1 hn) with rfl | hn
    · exact Nat.lt_succ_self _
    · have := hg.addrLt n hn
      omega
  · obtain ⟨n, hn, heq⟩ := isSome_flagAt_iff.1 haddr
    exact isSome_flagAt_iff.2 ⟨n, hperm.mem_iff.2 (List.mem_cons_of_mem _ hn), heq⟩
  · rw [List.mem_singleton.1 haddr]
    dsimp only
    omega
  · exact isSome_flagAt_iff.2 ⟨_, hperm.mem_iff.2 (List.mem_cons_self ..), (List.mem_singleton.1 haddr).symm⟩

theorem ReadInto.append {tab₁ tab₂ tab₃ : Avtab} {list list' : List Nat} (h1 : ReadInto tab₁ tab₂ list)
    (h2 : ReadInto tab₂ tab₃ list') : ReadInto tab₁ tab₃ (list ++ list') := by
  have hle1 := h1.grown.fresh
  have hle2 := h2.grown.fresh
  refine ⟨h2.growing, h1.grown.trans h2.grown, List.nodup_append.2 ⟨h1.nodup, h2.nodup, fun a ha b hb hab => ?_⟩,
    fun addr haddr => ?_, fun addr haddr => ?_⟩
  · have hlt := h1.fresh a ha
    have hge := h2.fresh b hb
    omega
  · rcases List.mem_append.1 haddr with haddr | haddr
    · have := h1.fresh addr haddr
      omega
    · have := h2.fresh addr haddr
      omega
  · rcases List.mem_append.1 haddr with haddr | haddr
    · exact h2.grown.present addr (h1.present addr haddr)
    · exact h2.present addr haddr

private theorem Avtab.Growing.readInto_nil (hg : tab.Growing) : ReadInto tab tab [] :=
  ⟨hg, ⟨Nat.le_refl _, fun _ h => h⟩, List.nodup_nil, fun _ h => (List.not_mem_nil h).elim,
    fun _ h => (List.not_mem_nil h).elim⟩

variable {teAvtab : Avtab} {vers boolsNprim len : Nat} {fp rest : List Byte}

private theorem condReadAvList_readInto {other list : List Nat} (hg : tab.Growing)
    (h : condReadAvList teAvtab vers fp other tab = some ((tab', list), rest)) : ReadInto tab tab' list := by
  unfold condReadAvList at h
  simp only [Option.bind_eq_bind, Option.bind_eq_some_iff, Prod.exists] at h
  obtain ⟨buf, fp', _, hitems⟩ := h
  refine avtabReadItems_induction (R := fun data : Avtab × List Nat => ReadInto tab data.1 data.2) ?_ hg.readInto_nil
    hitems
  intro key datum data data' hdata hinsert
  unfold condInsertf at hinsert
  split at hinsert
  · cases hinsert
  · obtain ⟨⟨tab₁, n⟩, hnew, heq⟩ := Option.map_eq_some_iff.1 hinsert
    cases heq
    exact hdata.append (avtabInsertNonunique_readInto hdata.growing hnew)

private theorem condReadNode_readInto (hg : tab.Growing)
    (h : condReadNode teAvtab vers boolsNprim fp tab = some (tab', node, rest)) : ReadInto tab tab' node.addrs := by
  unfold condReadNode at h
  simp only [Option.bind_eq_bind, Option.bind_eq_some_iff, Prod.exists] at h
  obtain ⟨_, _, _, _, _, _, _, _, _, tab₁, trueList, _, htrue, tab₂, falseList, _, hfalse, h⟩ := h
  cases h
  have h1 := condReadAvList_readInto hg htrue
  exact h1.append (condReadAvList_readInto h1.growing hfalse)

private theorem condReadNodes_readInto (hg : tab.Growing)
    (h : condReadNodes teAvtab vers boolsNprim len fp tab = some (p, rest)) :
    ReadInto tab p.teCondAvtab (p.condList.flatMap fun node => node.addrs) := by
  induction len generalizing fp tab p rest with
  | zero =>
    cases h
    exact hg.readInto_nil
  | succ len ih =>
    rw [condReadNodes] at h
    simp only [Option.bind_eq_bind, Option.bind_eq_some_iff, Prod.exists] at h
    obtain ⟨tab₁, node, _, hnode, p₁, _, hnodes, h⟩ := h
    cases h
    have h1 := condReadNode_readInto hg hnode
    exact h1.append (ih h1.growing hnodes)

/-- The addresses in the lists of an accepted image. -/
theorem condReadList_addrsOk (h : condReadList teAvtab vers boolsNprim fp = some (p, rest)) : p.AddrsOk := by
  unfold condReadList at h
  simp only [Option.bind_eq_bind, Option.bind_eq_some_iff, Prod.exists] at h
  obtain ⟨_, _, _, hnodes⟩ := h
  have hg : (avtabAlloc teAvtab.nel.toNat).Growing := by
    refine ⟨?_, fun n hn => by simp at hn⟩
    by_cases hnel : teAvtab.nel.toNat = 0
    · left
      rw [avtabAlloc, if_pos hnel]
    · exact Or.inr (avtabAlloc_allocated hnel)
  have hread := condReadNodes_readInto hg hnodes
  exact ⟨hread.nodup, fun node hnode addr haddr => hread.present addr (List.mem_flatMap.2 ⟨node, hnode, haddr⟩)⟩

/-! ### The rules that were read -/

/-- A table has no other addresses than an older one and a list. -/
def AddrsFrom (tab tab' : Avtab) (list : List Nat) : Prop :=
  ∀ addr, (flagAt tab' addr).isSome → (flagAt tab addr).isSome ∨ addr ∈ list

theorem AddrsFrom.append {tab₁ tab₂ tab₃ : Avtab} {list list' : List Nat} (h1 : AddrsFrom tab₁ tab₂ list)
    (h2 : AddrsFrom tab₂ tab₃ list') : AddrsFrom tab₁ tab₃ (list ++ list') := by
  intro addr haddr
  rcases h2 addr haddr with haddr | haddr
  · exact (h1 addr haddr).imp_right (List.mem_append_left _)
  · exact Or.inr (List.mem_append_right _ haddr)

/-- The flags of the conditionals of an accepted image whose booleans have an entry, after any changes of the booleans
with evaluations, the last for `state`. -/
theorem evaluateRun_flagsFit_iff (h : condReadList teAvtab vers boolsNprim fp = some (p, rest))
    (_hbools : ∀ node ∈ p.condList, BoolsValid node.expr) (states : List (Nat → Bool)) (state : Nat → Bool) :
    (evaluateRun (states ++ [state]) p).condList =
        p.condList.map (fun node => { node with curState := condExprState state node.expr }) ∧
      ∀ node ∈ p.condList,
        FlagsFit (evaluateRun (states ++ [state]) p).teCondAvtab node.toCondNode (condExprState state node.expr) ↔
          FlagsFit p.teCondAvtab node.toCondNode node.curState ∨
            ∃ τ ∈ states ++ [state], condExprState τ node.expr ≠ node.curState := by
  have hp := condReadList_addrsOk h
  obtain ⟨hlist, _, hflags⟩ := evaluateRun_flags hp (states ++ [state])
  have hlast : ∀ node, lastState (states ++ [state]) node = condExprState state node.expr := by
    intro node
    simp [lastState]
  refine ⟨?_, fun node hnode => ?_⟩
  · rw [hlist]
    simp only [hlast]
  · obtain ⟨hkeep, hfit⟩ := hflags node hnode
    rw [hlast] at hfit
    by_cases hall : ∀ τ ∈ states ++ [state], condExprState τ node.expr = node.curState
    · rw [hall state (List.mem_append_right _ (List.mem_singleton.2 rfl))]
      constructor
      · intro hright
        exact Or.inl (hright.congr fun addr haddr => (hkeep hall addr haddr).symm)
      · rintro (hright | ⟨τ, hτ, hne⟩)
        · exact hright.congr (hkeep hall)
        · exact absurd (hall τ hτ) hne
    · push Not at hall
      exact ⟨fun _ => Or.inr hall, fun _ => hfit hall⟩

/-- An unconditional table with one rule. -/
def oneRuleAvtab : Avtab := avtabRun 1 [.insert ⟨1, 1, 1, avtabAllowed⟩ ⟨1, avtabExtendedPermsInit⟩]

/-- An image with one conditional on the first boolean, whose true list has a rule that is not enabled. -/
def condImage (curState : Nat) : List Byte :=
  cpuToLe32 1 ++ cpuToLe32 curState ++ cpuToLe32 1 ++ (cpuToLe32 condBool ++ cpuToLe32 1) ++
    (cpuToLe32 1 ++ (cpuToLe16 1 ++ cpuToLe16 1 ++ cpuToLe16 1 ++ cpuToLe16 1) ++ cpuToLe32 1) ++ cpuToLe32 0

/-- The image with the state 0: an evaluation to 1 turns the rule on. -/
theorem evaluateRun_flagsFit_iff_example :
    ∃ p rest, condReadList oneRuleAvtab 30 1 (condImage 0) = some (p, rest) ∧ ∃ node ∈ p.condList,
      FlagsFit (evaluateRun ([] ++ [fun _ => true]) p).teCondAvtab node.toCondNode 1 := by
  have hread : (condReadList oneRuleAvtab 30 1 (condImage 0)).isSome = true := by decide +kernel
  obtain ⟨⟨p, rest⟩, h⟩ := Option.isSome_iff_exists.1 hread
  have hlist : (condReadList oneRuleAvtab 30 1 (condImage 0)).map (fun r => r.1.condList.map fun node =>
      (node.expr, node.curState)) = some [([⟨condBool, 1⟩], 0)] := by decide +kernel
  rw [h, Option.map_some, Option.some_inj] at hlist
  obtain ⟨node, nodes, hnodes⟩ : ∃ node nodes, p.condList = node :: nodes := by
    cases hc : p.condList with
    | nil => simp [hc] at hlist
    | cons node nodes => exact ⟨node, nodes, rfl⟩
  rw [hnodes, List.map_cons] at hlist
  have hnode := (List.cons.inj hlist).1
  rw [Prod.mk.injEq] at hnode
  have hstate : condExprState (fun _ => true) node.expr = 1 := by
    rw [hnode.1]
    rfl
  have hmem : node ∈ p.condList := hnodes ▸ List.mem_cons_self ..
  have hbools : ∀ node ∈ p.condList, BoolsValid node.expr := by
    rw [hnodes, (List.map_eq_nil_iff.1 (List.cons.inj hlist).2)]
    intro node' hnode' id hid
    obtain ⟨e, he, _, rfl⟩ := hid
    rw [List.mem_singleton.1 hnode', hnode.1, List.mem_singleton] at he
    rw [he]
  refine ⟨p, rest, h, node, hmem, ?_⟩
  rw [← hstate]
  refine ((evaluateRun_flagsFit_iff h hbools [] fun _ => true).2 node hmem).2
    (Or.inr ⟨_, List.mem_singleton.2 rfl, ?_⟩)
  rw [hstate, hnode.2]
  decide

/-- The image with the state 1 is accepted, the expression evaluates to 1, and the rule of the true list stays off. -/
theorem evaluateRun_storedState_counterexample :
    ∃ p rest, condReadList oneRuleAvtab 30 1 (condImage 1) = some (p, rest) ∧ ∃ node ∈ p.condList,
      condExprState (fun _ => true) node.expr = 1 ∧ node.trueList ≠ [] ∧ ∀ addr ∈ node.trueList,
        flagAt (evaluateRun [fun _ => true] p).teCondAvtab addr = some false := by
  have hread : ((condReadList oneRuleAvtab 30 1 (condImage 1)).map fun r => decide (r.1.condList.length = 1 ∧
      ∀ node ∈ r.1.condList, condExprState (fun _ => true) node.expr = 1 ∧ node.trueList ≠ [] ∧
        ∀ addr ∈ node.trueList, flagAt (evaluateRun [fun _ => true] r.1).teCondAvtab addr = some false)) =
      some true := by decide +kernel
  obtain ⟨⟨p, rest⟩, h, hall⟩ := Option.map_eq_some_iff.1 hread
  obtain ⟨hlen, hnodes⟩ := of_decide_eq_true hall
  obtain ⟨node, hnode⟩ := List.exists_mem_of_length_pos (show 0 < p.condList.length from hlen ▸ Nat.one_pos)
  exact ⟨p, rest, h, node, hnode, hnodes node hnode⟩

end Sepol
