import Sepol.CilContextRulesKeys
import Sepol.Lib.EarlyExit

/-!
# What the pass over context rules does

The pass succeeds exactly when any two rules it takes for one have contexts that it finds equal, and then it leaves
one rule for each sort key.  So it treats duplicate rules as it should exactly when what it compares decides the same
as the keys and contexts of the policy do.
-/

namespace Sepol.ContextRules

open SortedRuns

/-! ### The loop -/

section Loop

variable {k : ContextRuleKind} {done rest : List (Rule k)} {b : Rule k} {s s' : LoopState (Rule k)}

/-- What holds while no conflict was found: the rules that are `done` are merged at the front of the array, up to
index `i`, and those in `rest` are still in their places. -/
structure Progress (k : ContextRuleKind) (done rest : List (Rule k)) (s : LoopState (Rule k)) : Prop where
  ok : s.ok = true
  conflicting : s.conflicting = 0
  merged : ∃ kept rep gap, s.array = kept ++ rep :: gap ++ rest ∧ kept.length = s.i ∧
    kept.length + 1 + gap.length = done.length ∧ Merged (sortKey k) (SeenSame k) done kept rep
  removed : s.i + 1 + s.removed = done.length

theorem Progress.start (a : Rule k) (l : List (Rule k)) : Progress k [a] l ⟨0, 0, 0, true, a :: l⟩ where
  ok := rfl
  conflicting := rfl
  merged := ⟨[], a, [], rfl, rfl, rfl, Merged.single _ _ a⟩
  removed := rfl

/-- The loop reads the rule it keeps for the last key and the next rule. -/
theorem Progress.reads (h : Progress k done (b :: rest) s) :
    ∃ kept rep gap, s.array = kept ++ rep :: gap ++ b :: rest ∧ kept.length = s.i ∧
      kept.length + 1 + gap.length = done.length ∧ Merged (sortKey k) (SeenSame k) done kept rep ∧
      s.array[s.i]? = some rep ∧ s.array[done.length]? = some b := by
  obtain ⟨kept, rep, gap, harray, hi, hlen, hm⟩ := h.merged
  refine ⟨kept, rep, gap, harray, hi, hlen, hm, ?_, ?_⟩
  · rw [harray, ← hi]
    simp
  · have hpre : (kept ++ rep :: gap).length = done.length := by
      rw [List.length_append, List.length_cons]
      omega
    rw [harray, ← hpre, List.getElem?_append_right (Nat.le_refl _), Nat.sub_self]
    rfl

/-- The next rule has another key. -/
private theorem Progress.step_new (h : Progress k done (b :: rest) s) (ht : Together (sortKey k) (done ++ b :: rest))
    {rep : Rule k} (hrep : s.array[s.i]? = some rep) (hne : sortKey k rep ≠ sortKey k b) :
    ∃ s', processStep (compar k) (concompar k) true s done.length = some s' ∧ Progress k (done ++ [b]) rest s' := by
  obtain ⟨kept, rep', gap, harray, hi, hlen, hm, hrep', hb⟩ := h.reads
  obtain rfl : rep = rep' := Option.some.inj (hrep.symm.trans hrep')
  have hcmp : compar k rep b ≠ .eq := fun heq => hne (((ordersBy_compar k).eq_iff rep b).1 heq)
  have hm' := hm.append_new ht hne
  have hremoved := h.removed
  have hstep : processStep (compar k) (concompar k) true s done.length =
      some (if s.i + 1 ≠ done.length then { s with i := s.i + 1, conflicting := 0, array := s.array.set (s.i + 1) b }
        else { s with i := s.i + 1, conflicting := 0 }) := by
    simp [processStep, processPair, hrep, hb, hcmp]
  rw [hstep]
  refine ⟨_, rfl, ?_⟩
  cases gap with
  | nil =>
    -- no rule was merged yet: the next rule is in its place
    have heq : s.i + 1 = done.length := by
      simp only [List.length_nil] at hlen
      omega
    rw [if_neg (not_not.2 heq)]
    refine ⟨h.ok, rfl, ⟨kept ++ [rep], b, [], ?_, ?_, ?_, hm'⟩, ?_⟩
    · simp [harray]
    · simp [hi]
    · simp only [List.length_append, List.length_cons, List.length_nil] at hlen ⊢
      omega
    · simp only [List.length_append, List.length_cons, List.length_nil]
      omega
  | cons g gap =>
    have hne' : s.i + 1 ≠ done.length := by
      simp only [List.length_cons] at hlen
      omega
    rw [if_pos hne']
    refine ⟨h.ok, rfl, ⟨kept ++ [rep], b, gap ++ [b], ?_, ?_, ?_, hm'⟩, ?_⟩
    · have hsplit : s.array = (kept ++ [rep]) ++ g :: (gap ++ b :: rest) := by simp [harray]
      have hidx : s.i + 1 = (kept ++ [rep]).length := by simp [hi]
      rw [hidx, hsplit, List.set_append_right _ _ (Nat.le_refl _), Nat.sub_self]
      simp
    · simp [hi]
    · simp only [List.length_append, List.length_cons, List.length_nil] at hlen ⊢
      omega
    · simp only [List.length_append, List.length_cons, List.length_nil]
      omega

/-- The next rule has the same key and contexts that are found equal: it takes the place of the one kept. -/
private theorem Progress.step_same (h : Progress k done (b :: rest) s) {rep : Rule k}
    (hrep : s.array[s.i]? = some rep) (heq : sortKey k rep = sortKey k b) (hsame : SeenSame k rep b) :
    ∃ s', processStep (compar k) (concompar k) true s done.length = some s' ∧ Progress k (done ++ [b]) rest s' := by
  obtain ⟨kept, rep', gap, harray, hi, hlen, hm, hrep', hb⟩ := h.reads
  obtain rfl : rep = rep' := Option.some.inj (hrep.symm.trans hrep')
  have hcmp : compar k rep b = .eq := ((ordersBy_compar k).eq_iff rep b).2 heq
  have hcon : concompar k rep b = some .eq := (concompar_eq_iff k rep b).2 hsame
  have hm' := hm.append_same (fun _ _ _ => SeenSame.trans) heq hsame
  have hremoved := h.removed
  have hne : s.i ≠ done.length := by omega
  have hstep : processStep (compar k) (concompar k) true s done.length =
      some { s with removed := s.removed + 1, array := s.array.set s.i b } := by
    simp [processStep, processPair, hrep, hb, hcmp, hcon, hne, h.conflicting]
  rw [hstep]
  refine ⟨_, rfl, h.ok, h.conflicting, ⟨kept, b, gap ++ [b], ?_, hi, ?_, hm'⟩, ?_⟩
  · have hsplit : s.array = kept ++ rep :: (gap ++ b :: rest) := by simp [harray]
    dsimp only
    rw [hsplit, ← hi, List.set_append_right _ _ (Nat.le_refl _), Nat.sub_self]
    simp
  · simp only [List.length_append, List.length_cons, List.length_nil]
    omega
  · simp only [List.length_append, List.length_cons, List.length_nil]
    omega

/-- The first lines of the body: the comparison of the rule kept and the next one. -/
private theorem processStep_eq_some {compar : Rule k → Rule k → Ordering}
    {concompar : Rule k → Rule k → Option Ordering} {j : Nat} (h : processStep compar concompar true s j = some s') :
    ∃ rep b, s.array[s.i]? = some rep ∧ s.array[j]? = some b ∧
      (s'.ok = s.ok ∨ compar rep b = .eq ∧ concompar rep b ≠ some .eq ∧ s'.ok = false) ∧
      (compar rep b = .eq → concompar rep b ≠ some .eq → s'.ok = false) := by
  simp only [processStep, Option.bind_eq_bind, Option.bind_eq_some_iff] at h
  obtain ⟨rep, hrep, b, hb, s1, hs1, hs'⟩ := h
  refine ⟨rep, b, hrep, hb, ?_⟩
  have hok : s'.ok = s1.ok := by
    obtain rfl := Option.some.inj hs'
    split <;> rfl
  rw [hok]
  unfold processPair at hs1
  by_cases hcmp : compar rep b = .eq
  · rw [if_neg (not_not.2 hcmp), if_pos rfl] at hs1
    obtain ⟨conflict, hconflict, rfl⟩ := Option.map_eq_some_iff.1 hs1
    obtain ⟨c, hc, rfl⟩ := Option.map_eq_some_iff.1 hconflict
    by_cases heq : c = .eq
    · simp [heq, hc]
    · simp [heq, hc, hcmp]
  · rw [if_pos hcmp] at hs1
    obtain rfl := Option.some.inj hs1
    exact ⟨.inl rfl, fun h => absurd h hcmp⟩

/-- Once a conflict was found, the pass has failed. -/
private theorem processStep_ok {compar : Rule k → Rule k → Ordering} {concompar : Rule k → Rule k → Option Ordering}
    {j : Nat} (h : processStep compar concompar true s j = some s') (hok : s'.ok = true) : s.ok = true := by
  obtain ⟨rep, b, -, -, hs' | ⟨-, -, hs'⟩, -⟩ := processStep_eq_some h
  · rw [← hs', hok]
  · rw [hs'] at hok
    cases hok

private theorem ok_of_foldlM {compar : Rule k → Rule k → Ordering} {concompar : Rule k → Rule k → Option Ordering}
    {l : List Nat} (h : l.foldlM (processStep compar concompar true) s = some s') (hok : s'.ok = true) :
    s.ok = true := by
  have hkeep : ∀ {t u v : LoopState (Rule k)}, (u.ok = true → t.ok = true) → (v.ok = true → u.ok = true) →
      v.ok = true → t.ok = true := fun htu huv hv => htu (huv hv)
  have hsteps := EarlyExit.steps_of_foldlM (R := fun t u : LoopState (Rule k) => u.ok = true → t.ok = true)
    (fun _ ht => ht) hkeep (fun hstep => processStep_ok hstep) h
  exact hsteps.1 hok

/-- The loop goes through when any two rules of one sort key are found equal. -/
theorem Progress.run (h : Progress k done rest s) (ht : Together (sortKey k) (done ++ rest))
    (hall : Agreeing (sortKey k) (SeenSame k) (done ++ rest)) :
    ∃ s', (List.range' done.length rest.length).foldlM (processStep (compar k) (concompar k) true) s = some s' ∧
      Progress k (done ++ rest) [] s' := by
  induction rest generalizing done s with
  | nil => exact ⟨s, rfl, by rwa [List.append_nil]⟩
  | cons b rest ih =>
    obtain ⟨kept, rep, gap, -, -, -, hm, hrep, -⟩ := h.reads
    have hnext : ∃ s', processStep (compar k) (concompar k) true s done.length = some s' ∧
        Progress k (done ++ [b]) rest s' := by
      by_cases heq : sortKey k rep = sortKey k b
      · exact h.step_same hrep heq (hm.agrees hall heq)
      · exact h.step_new ht hrep heq
    obtain ⟨s1, hs1, h1⟩ := hnext
    have happ : done ++ b :: rest = done ++ [b] ++ rest := by simp
    rw [happ] at ht hall ⊢
    obtain ⟨s', hs', h'⟩ := ih h1 ht hall
    refine ⟨s', ?_, h'⟩
    rw [List.length_append, List.length_cons, List.length_nil] at hs'
    rw [List.length_cons, List.range'_succ, List.foldlM_cons, hs1]
    exact hs'

/-- A loop that went through without a conflict has made all these steps. -/
private theorem Progress.of_run (h : Progress k done rest s) (ht : Together (sortKey k) (done ++ rest))
    (hrun : (List.range' done.length rest.length).foldlM (processStep (compar k) (concompar k) true) s = some s')
    (hok : s'.ok = true) : Progress k (done ++ rest) [] s' := by
  induction rest generalizing done s with
  | nil =>
    obtain rfl : s = s' := by simpa using hrun
    rwa [List.append_nil]
  | cons b rest ih =>
    obtain ⟨kept, rep, gap, -, -, -, hm, hrep, hb⟩ := h.reads
    rw [List.length_cons, List.range'_succ, List.foldlM_cons] at hrun
    obtain ⟨s1, hs1, hrun⟩ := Option.bind_eq_some_iff.1 hrun
    have hok1 : s1.ok = true := ok_of_foldlM hrun hok
    have hnext : Progress k (done ++ [b]) rest s1 := by
      by_cases heq : sortKey k rep = sortKey k b
      · by_cases hsame : SeenSame k rep b
        · obtain ⟨s2, hs2, h2⟩ := h.step_same hrep heq hsame
          obtain rfl : s1 = s2 := Option.some.inj (hs1.symm.trans hs2)
          exact h2
        · -- the conflict would have been noticed
          obtain ⟨rep', b', hrep', hb', -, hconflict⟩ := processStep_eq_some hs1
          obtain rfl : rep = rep' := Option.some.inj (hrep.symm.trans hrep')
          obtain rfl : b = b' := Option.some.inj (hb.symm.trans hb')
          have hfalse := hconflict (((ordersBy_compar k).eq_iff rep b).2 heq)
            fun hcon => hsame ((concompar_eq_iff k rep b).1 hcon)
          rw [hfalse] at hok1
          cases hok1
      · obtain ⟨s2, hs2, h2⟩ := h.step_new ht hrep heq
        obtain rfl : s1 = s2 := Option.some.inj (hs1.symm.trans hs2)
        exact h2
    have happ : done ++ b :: rest = done ++ [b] ++ rest := by simp
    rw [happ] at ht ⊢
    refine ih hnext ht ?_
    rw [List.length_append, List.length_cons, List.length_nil]
    exact hrun

end Loop

/-! ### The pass -/

section Pass

variable {k : ContextRuleKind} (q : Qsort (compar k)) (rules : List (Rule k))

/-- `__cil_post_process_context_rules` for the rules of kind `k`, with multiple declarations allowed. -/
def processRules {k : ContextRuleKind} (q : Qsort (compar k)) (rules : List (Rule k)) :
    Option (Bool × List (Rule k)) :=
  cilPostProcessContextRules (compar k) (concompar k) true q.sort rules

/-- What is left of a list that the loop went through: the rules at the front. -/
theorem Progress.take {l : List (Rule k)} {s : LoopState (Rule k)} (h : Progress k l [] s) :
    OnePerKey (sortKey k) l (s.array.take (l.length - s.removed)) := by
  obtain ⟨kept, rep, gap, harray, hi, hlen, hm⟩ := h.merged
  have hremoved := h.removed
  have hcount : l.length - s.removed = (kept ++ [rep]).length := by
    rw [List.length_append, List.length_cons, List.length_nil]
    omega
  have hsplit : s.array = (kept ++ [rep]) ++ gap := by simp [harray]
  rw [hcount, hsplit, List.take_left]
  exact hm.onePerKey

private theorem exists_sort_eq_cons (h : ¬ rules.length < 2) :
    ∃ a rest, q.sort rules = a :: rest ∧ rest.length = rules.length - 1 ∧ ([a] ++ rest).Perm rules ∧
      Together (sortKey k) ([a] ++ rest) := by
  have hperm := q.perm rules
  have hlen := hperm.length_eq
  have htogether := (ordersBy_compar k).together (q.sorted rules)
  cases hq : q.sort rules with
  | nil =>
    rw [hq, List.length_nil] at hlen
    omega
  | cons a rest =>
    rw [hq] at hlen htogether hperm
    rw [List.length_cons] at hlen
    exact ⟨a, rest, rfl, by omega, hperm, htogether⟩

/-- A pass that succeeds has found any two rules of one sort key equal, and leaves one rule for each sort key. -/
private theorem of_processRules {left : List (Rule k)} (h : processRules q rules = some (true, left)) :
    Agreeing (sortKey k) (SeenSame k) rules ∧ OnePerKey (sortKey k) rules left := by
  unfold processRules cilPostProcessContextRules at h
  by_cases hlen : rules.length < 2
  · rw [if_pos hlen] at h
    obtain rfl : rules = left := congrArg Prod.snd (Option.some.inj h)
    match rules with
    | [] => exact ⟨List.Pairwise.nil, List.Subset.refl _, List.Pairwise.nil, fun a ha => absurd ha List.not_mem_nil⟩
    | [a] => exact ⟨List.pairwise_singleton _ _, OnePerKey.single _ a⟩
    | _ :: _ :: _ => simp at hlen
  · rw [if_neg hlen] at h
    obtain ⟨s, hs, h⟩ := Option.bind_eq_some_iff.1 h
    obtain ⟨a, rest, hq, hrest, hperm, ht⟩ := exists_sort_eq_cons q rules hlen
    have hout := Option.some.inj h
    have hok : s.ok = true := congrArg Prod.fst hout
    have hleft : s.array.take (rules.length - s.removed) = left := congrArg Prod.snd hout
    rw [hq, ← hrest] at hs
    have hp := (Progress.start a rest).of_run ht hs hok
    obtain ⟨kept, rep, gap, -, -, -, hm⟩ := hp.merged
    refine ⟨hm.agreeing.perm (fun _ _ => SeenSame.symm) hperm, ?_⟩
    have htake := hp.take
    rw [hperm.length_eq, hleft] at htake
    exact htake.perm hperm

private theorem processRules_succeeds_iff :
    (∃ left, processRules q rules = some (true, left)) ↔ Agreeing (sortKey k) (SeenSame k) rules := by
  constructor
  · rintro ⟨left, h⟩
    exact (of_processRules q rules h).1
  · intro hall
    unfold processRules cilPostProcessContextRules
    by_cases hlen : rules.length < 2
    · exact ⟨rules, by rw [if_pos hlen]⟩
    · obtain ⟨a, rest, hq, hrest, hperm, ht⟩ := exists_sort_eq_cons q rules hlen
      obtain ⟨s, hs, hp⟩ := (Progress.start a rest).run ht
        (hall.perm (fun _ _ => SeenSame.symm) hperm.symm)
      refine ⟨s.array.take (rules.length - s.removed), ?_⟩
      rw [if_neg hlen, hq, ← hrest]
      refine Option.bind_eq_some_iff.2 ⟨s, hs, ?_⟩
      rw [hp.ok]

end Pass

/-! ### When duplicate rules are treated as they should be -/

section Consistent

variable (inetPton : CString → Option (List UInt8)) {k : ContextRuleKind} (q : Qsort (compar k))
  (rules : List (Rule k))

/-- The pass succeeds if and only if any two rules with the same key have equal contexts, and then it keeps exactly
one rule for each key. -/
structure TreatedConsistently : Prop where
  succeeds_iff : (∃ left, processRules q rules = some (true, left)) ↔
    Agreeing (key inetPton k) (SameContexts k) rules
  onePerKey : ∀ left, processRules q rules = some (true, left) → OnePerKey (key inetPton k) rules left

/-- Two rules have the same key when neither is sorted before the other. -/
def KeysSeen : Prop := rules.Pairwise fun r s => sortKey k r = sortKey k s ↔ key inetPton k r = key inetPton k s

/-- Either two rules of one key have different contexts, and the pass finds such two rules too among those it takes
for one; or there are no such rules for either, and the pass takes two rules for one when they have the same key. -/
def SeenAsDistinguished : Prop :=
  (Agreeing (sortKey k) (SeenSame k) rules ↔ Agreeing (key inetPton k) (SameContexts k) rules) ∧
    (Agreeing (key inetPton k) (SameContexts k) rules → KeysSeen inetPton rules)

variable {inetPton q rules}

theorem KeysSeen.iff (h : KeysSeen inetPton rules) {r s : Rule k} (hr : r ∈ rules) (hs : s ∈ rules) :
    sortKey k r = sortKey k s ↔ key inetPton k r = key inetPton k s := by
  have hsymm : Std.Symm fun r s : Rule k => sortKey k r = sortKey k s ↔ key inetPton k r = key inetPton k s := by
    constructor
    intro r s hrs
    rw [eq_comm, hrs, eq_comm]
  by_cases hrs : r = s
  · simp [hrs]
  · exact List.Pairwise.forall h hr hs hrs

/-- One rule for each sort key is one for each key. -/
theorem KeysSeen.onePerKey (h : KeysSeen inetPton rules) {left : List (Rule k)}
    (hleft : OnePerKey (sortKey k) rules left) : OnePerKey (key inetPton k) rules left where
  subset := hleft.subset
  apart := by
    refine hleft.apart.imp_of_mem fun ha hb hne heq => ?_
    exact hne ((h.iff (hleft.subset ha) (hleft.subset hb)).2 heq)
  exists_mem a ha := by
    obtain ⟨b, hb, heq⟩ := hleft.exists_mem a ha
    exact ⟨b, hb, (h.iff (hleft.subset hb) ha).1 heq⟩

private theorem keysSeen_of_onePerKey {left : List (Rule k)} (hsort : OnePerKey (sortKey k) rules left)
    (hkey : OnePerKey (key inetPton k) rules left) : KeysSeen inetPton rules := by
  have hcover : ∀ {κ κ' : Type} {f : Rule k → κ} {g : Rule k → κ'}, OnePerKey f rules left →
      OnePerKey g rules left → (∀ r s, f r = f s → g r = g s) → ∀ r ∈ rules, ∀ s ∈ rules, g r = g s → f r = f s := by
    intro κ κ' f g hf hg hfg r hr s hs heq
    obtain ⟨a, ha, har⟩ := hf.exists_mem r hr
    obtain ⟨b, hb, hbs⟩ := hf.exists_mem s hs
    have hab : g a = g b := (hfg a r har).trans (heq.trans (hfg b s hbs).symm)
    have hsymm : Std.Symm fun a b : Rule k => g a ≠ g b := ⟨fun _ _ h => h.symm⟩
    have hsame : a = b := by
      by_contra hne
      exact List.Pairwise.forall hg.apart ha hb hne hab
    rw [← har, ← hbs, hsame]
  have htrue : rules.Pairwise fun _ _ => True := List.pairwise_of_forall fun _ _ => trivial
  refine htrue.imp_of_mem fun {r s} hr hs _ => ?_
  rcases key_refines inetPton k with hrefines | hrefines
  · exact ⟨hcover hkey hsort hrefines r hr s hs, hrefines r s⟩
  · exact ⟨hrefines r s, hcover hsort hkey hrefines r hr s hs⟩

/-- Duplicate rules of a kind are treated consistently exactly when the sort keys and what is compared of the contexts
decide the same as the keys and contexts of the policy. -/
theorem treatedConsistently_iff (inetPton : CString → Option (List UInt8)) (k : ContextRuleKind)
    (q : Qsort (compar k)) (rules : List (Rule k)) :
    TreatedConsistently inetPton q rules ↔ SeenAsDistinguished inetPton rules := by
  constructor
  · intro h
    refine ⟨(processRules_succeeds_iff q rules).symm.trans h.succeeds_iff, ?_⟩
    intro hagreeing
    obtain ⟨left, hleft⟩ := h.succeeds_iff.2 hagreeing
    exact keysSeen_of_onePerKey (of_processRules q rules hleft).2 (h.onePerKey left hleft)
  · rintro ⟨hiff, hkeys⟩
    refine ⟨(processRules_succeeds_iff q rules).trans hiff, ?_⟩
    intro left hleft
    obtain ⟨hagreeing, hone⟩ := of_processRules q rules hleft
    exact (hkeys (hiff.1 hagreeing)).onePerKey hone

end Consistent

/-! ### Two port rules -/

/-- A sort of the C library. -/
def Qsort.insertion {ρ κ : Type} {cmp : ρ → ρ → Ordering} {f : ρ → κ} (h : OrdersBy cmp f) : Qsort cmp where
  sort := List.insertionSort fun a b => cmp a b ≠ .gt
  perm l := List.perm_insertionSort _ l
  sorted l := by
    have htotal : Std.Total fun a b => cmp a b ≠ .gt := by
      constructor
      intro a b
      rw [← h.swap a b]
      cases cmp a b <;> simp
    have htrans : IsTrans ρ fun a b => cmp a b ≠ .gt := ⟨h.trans⟩
    exact List.pairwise_insertionSort _ l

/-- The port 80 with one category at both levels. -/
def portRule (cat : Char) : CilPortcon :=
  let level : CilLevel := ⟨['s', '0'], some ⟨[['c', cat]]⟩⟩
  ⟨.tcp, 80, 80, ⟨['u'], ['r'], ['t'], some ⟨some level, some level⟩⟩⟩

/-- Two rules for a port, with contexts of different categories, are taken for one. -/
theorem not_treatedConsistently_ports :
    ¬ TreatedConsistently (k := .portcon) (fun _ => none) (Qsort.insertion ordersBy_portcon)
      [portRule '0', portRule '1'] := by
  intro h
  have hseen : Agreeing (sortKey .portcon) (SeenSame .portcon) [portRule '0', portRule '1'] := by
    refine List.pairwise_pair.2 fun _ => ?_
    exact ⟨by simp [contexts], rfl⟩
  have hsame := h.succeeds_iff.1 ((processRules_succeeds_iff _ _).2 hseen)
  have heq : SameContexts .portcon (portRule '0') (portRule '1') := List.pairwise_pair.1 hsame rfl
  have hne : (portRule '0').context.range.map CilLevelrange.value ≠
    (portRule '1').context.range.map CilLevelrange.value := by
    decide
  simp only [SameContexts, contexts, List.map_cons, List.map_nil, Option.map_some, List.cons.injEq, Option.some.injEq,
    and_true] at heq
  exact hne (congrArg (fun v => v.2.2.2) heq)

end Sepol.ContextRules
