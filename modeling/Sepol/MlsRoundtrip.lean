import Sepol.MlsPrint

/-!
# Round trip of MLS ranges

The walk of the printer skips the positions between the nodes of a category set, so the category it writes as the
last one of a run is the last one only when the run does not reach over a gap between two nodes, or into it
(`GapSafe`).  Then the parser gets the levels back, and otherwise it does not.
-/

namespace Sepol

open Runs (runs intervals RunOk WalkOk Covers AllClosed Closed walk Consecutive openRun)

variable {p : Policydb} {level : MlsLevel} {fin : Nat} {run : List Nat}

/-- Where nodes leave a gap, a run of set bits that reaches the end of the first node starts there and has at most
one more bit at the start of the second one. -/
def GapSafe : List EbitmapNode → Prop
  | n1 :: n2 :: l =>
    (n1.startbit + 64 < n2.startbit → n1.map.getLsbD 63 = true →
      n1.map.getLsbD 62 = false ∧ ¬ (n2.map.getLsbD 0 = true ∧ n2.map.getLsbD 1 = true)) ∧ GapSafe (n2 :: l)
  | _ => True

/-- A level that names an existing sensitivity and has a canonical set of existing categories. -/
structure LevelOk (p : Policydb) (level : MlsLevel) : Prop where
  sens : 1 ≤ level.sens
  sensName : (p.pSensValToName (level.sens - 1)).isSome = true
  cat : level.cat.Canonical
  catName : ∀ i ∈ level.cat, (p.pCatValToName i).isSome = true

/-- The same sensitivity and the same category set. -/
def SameLevel (l1 l2 : MlsLevel) : Prop := l1.sens = l2.sens ∧ ∀ i, i ∈ l1.cat ↔ i ∈ l2.cat

/-- The parser reads what the printer writes for a context, and gets the same two levels. -/
def MlsRoundtrip (p : Policydb) (c : Context) : Prop :=
  ∃ s c', mlsToString p c = some s ∧ mlsFromString p s contextInit = some c' ∧
    SameLevel c'.range.level0 c.range.level0 ∧ SameLevel c'.range.level1 c.range.level1

/-! ### The walk through the nodes -/

/-- The bit of a node at a position. -/
def nodeBit (n : EbitmapNode) (i : Nat) : Bool := n.map.getLsbD (i - n.startbit)

/-- The positions of a node with their bits. -/
def nodeWalk (n : EbitmapNode) : List (Nat × Bool) := walk (nodeBit n) n.startbit 64

theorem bitVisits_eq (e : Ebitmap) : bitVisits e = e.node.flatMap nodeWalk := by
  rw [bitVisits, List.map_flatMap]
  refine List.flatMap_congr fun n _ => ?_
  rw [nodeVisits, nodeWalk, walk, List.range'_eq_map_range, List.map_map, List.map_map]
  refine List.map_congr_left fun k hk => ?_
  simp [nodeBit, ebitmapNodeGetBit_eq n (List.mem_range.1 hk)]

theorem mem_bitVisits {e : Ebitmap} (h : e.Canonical) (i : Nat) : (i, true) ∈ bitVisits e ↔ i ∈ e := by
  rw [bitVisits_eq, h.mem_iff_node, List.mem_flatMap]
  refine exists_congr fun n => and_congr_right fun _ => ?_
  simp only [nodeWalk, walk, List.mem_map, List.mem_range'_1, Prod.mk.injEq]
  constructor
  · rintro ⟨j, ⟨h1, h2⟩, rfl, hb⟩
    exact ⟨j - n.startbit, by omega, by omega, hb⟩
  · rintro ⟨k, hk, rfl, hb⟩
    exact ⟨n.startbit + k, by omega, rfl, by simpa [nodeBit] using hb⟩

theorem walkOk_bitVisits {e : Ebitmap} (h : e.Canonical) : WalkOk e.highbit [] (bitVisits e) := by
  have hmap : (bitVisits e).map Prod.fst = e.node.flatMap fun n => List.range' n.startbit 64 := by
    rw [bitVisits_eq, List.map_flatMap]
    refine List.flatMap_congr fun n _ => ?_
    rw [nodeWalk, walk, List.map_map]
    exact List.map_id _
  constructor
  · rw [List.nil_append, hmap, List.pairwise_flatMap]
    refine ⟨fun n _ => List.pairwise_lt_range' .., h.sorted.imp_of_mem fun {a b} ha hb hab x hx y hy => ?_⟩
    rw [List.mem_range'_1] at hx hy
    have := h.aligned a ha
    have := h.aligned b hb
    omega
  · intro x hx
    rw [List.nil_append, hmap, List.mem_flatMap] at hx
    obtain ⟨n, hn, hx⟩ := hx
    rw [List.mem_range'_1] at hx
    have := h.node_end_le hn
    omega

private theorem nodeWalk_eq (n : EbitmapNode) : nodeWalk n =
    (n.startbit, n.map.getLsbD 0) :: (n.startbit + 1, n.map.getLsbD 1) ::
      walk (nodeBit n) (n.startbit + 1 + 1) 62 := by
  rw [nodeWalk, walk, List.range'_succ, List.range'_succ, List.map_cons, List.map_cons]
  simp [nodeBit, walk]

/-- A run that ends before a gap with two or more bits is not closed well whatever follows. -/
private theorem not_allClosed_before_gap {ws : List (Nat × Bool)} {s i : Nat} {b : Bool} (hc : Consecutive run s)
    (hlen : 2 ≤ run.length) (hi : s < i) : ¬ AllClosed fin run ((i, b) :: ws) := by
  obtain ⟨n, hn, rfl⟩ := hc
  rw [List.length_range'] at hlen
  cases b with
  | false =>
    rw [Runs.allClosed_skip (by simp; omega)]
    rintro ⟨hclosed, _⟩
    match n, hlen, hclosed with
    | 2, _, h =>
      have h : i = s - 2 + 1 + 1 := h
      omega
    | n + 3, _, h =>
      have h := h.2
      simp only [List.length_range'] at h
      omega
  | true =>
    rw [Runs.allClosed_mark]
    refine Runs.not_allClosed_of_gap (by simp; omega) ?_
    rintro ⟨a, ha⟩
    rw [List.length_append, List.length_singleton, List.length_range', List.range'_concat] at ha
    obtain ⟨h1, h2⟩ := List.append_inj ha (by simp)
    have h3 : s - n = a := by
      have := congrArg List.head? h1
      obtain ⟨m, rfl⟩ := Nat.exists_eq_succ_of_ne_zero (show n ≠ 0 by omega)
      simpa [List.range'_succ] using this
    have h4 : i = a + n := by simpa using h2
    omega

/-- Behind a single bit before a gap, the runs are closed well when those of the next node are and at most its first
bit continues the run. -/
private theorem allClosed_single_before_gap {n : EbitmapNode} {ws : List (Nat × Bool)} {x : Nat}
    (hx : x + 1 < n.startbit) :
    AllClosed fin [x] (nodeWalk n ++ ws) ↔
      ¬ (n.map.getLsbD 0 = true ∧ n.map.getLsbD 1 = true) ∧ AllClosed fin [] (nodeWalk n ++ ws) := by
  rw [nodeWalk_eq, List.cons_append, List.cons_append]
  cases h0 : n.map.getLsbD 0 with
  | false =>
    rw [Runs.allClosed_skip (by simp), Runs.allClosed_skip_nil]
    simp [Closed]
  | true =>
    rw [Runs.allClosed_mark, Runs.allClosed_mark]
    cases h1 : n.map.getLsbD 1 with
    | false =>
      rw [Runs.allClosed_skip (by simp), Runs.allClosed_skip (by simp)]
      simp [Closed]
    | true =>
      rw [Runs.allClosed_mark]
      simp only [and_self, not_true_eq_false, false_and, iff_false]
      refine Runs.not_allClosed_of_gap (by simp) ?_
      rintro ⟨a, ha⟩
      simp [List.range'] at ha
      omega

/-- The runs of a walk through nodes are closed well exactly when the gaps are safe. -/
private theorem allClosed_iff_gapSafe {n : EbitmapNode} {l : List EbitmapNode}
    (hs : (n :: l).Pairwise fun a b => a.startbit + 64 ≤ b.startbit)
    (hlast : ∀ m, (n :: l).getLast? = some m → m.startbit + 64 = fin) (hrun : Consecutive run n.startbit) :
    AllClosed fin run ((n :: l).flatMap nodeWalk) ↔ GapSafe (n :: l) := by
  induction l generalizing n run with
  | nil =>
    obtain ⟨hall, hopen⟩ := @Runs.allClosed_walk fin run [] (nodeBit n) n.startbit 64 hrun
    rw [List.append_nil] at hall
    rw [List.flatMap_cons, List.flatMap_nil, List.append_nil, nodeWalk, hall, GapSafe, iff_true]
    · have hfin := hlast n rfl
      by_cases hne : openRun run (walk (nodeBit n) n.startbit 64) = []
      · rw [hne]
        intro r hr
        cases hr
      · rw [Runs.allClosed_nil hne, ← hfin]
        exact hopen.closed
    · simp
  | cons m l ih =>
    rw [List.pairwise_cons] at hs
    have hnm := hs.1 m (by simp)
    have ih' := fun {run : List Nat} => @ih run m hs.2 fun k hk => hlast k (by rwa [List.getLast?_cons_cons])
    obtain ⟨hall, hopen⟩ := @Runs.allClosed_walk fin run ((m :: l).flatMap nodeWalk) (nodeBit n) n.startbit 64 hrun
    rw [List.flatMap_cons, nodeWalk, hall, GapSafe]
    rcases Nat.eq_or_lt_of_le hnm with heq | hgap
    · rw [ih' (heq ▸ hopen)]
      simp [heq]
    · have hbit : ∀ k, nodeBit n (n.startbit + k) = n.map.getLsbD k := fun k => by simp [nodeBit]
      have hrun' := Runs.openRun_walk (nodeBit n) n.startbit 62 run
      rw [hbit, show n.startbit + 62 + 1 = n.startbit + 63 by rfl, hbit] at hrun'
      simp only [hgap, true_imp_iff]
      cases h63 : n.map.getLsbD 63 with
      | false =>
        rw [h63] at hrun'
        rw [hrun']
        simpa using ih' (Consecutive.nil _)
      | true =>
        rw [h63] at hrun'
        cases h62 : n.map.getLsbD 62 with
        | true =>
          rw [h62] at hrun'
          simp only [true_imp_iff, Bool.true_eq_false, false_and, iff_false]
          rw [List.flatMap_cons, nodeWalk_eq m]
          refine not_allClosed_before_gap hopen ?_ hgap
          rw [hrun']
          simp
        | false =>
          rw [h62] at hrun'
          rw [hrun', List.flatMap_cons]
          simp only [if_true, Bool.false_eq_true, if_false, true_imp_iff, true_and]
          rw [allClosed_single_before_gap hgap, ← List.flatMap_cons, ih' (Consecutive.nil _)]

private theorem closed_catRuns_iff {e : Ebitmap} (h : e.Canonical) :
    (∀ r ∈ catRuns e, Closed r) ↔ GapSafe e.node := by
  change AllClosed e.highbit [] (bitVisits e) ↔ _
  rw [bitVisits_eq]
  cases hl : e.node with
  | nil =>
    simp only [List.flatMap_nil, GapSafe, iff_true]
    intro r hr
    cases hr
  | cons n l =>
    have hs : (n :: l).Pairwise fun a b => a.startbit + 64 ≤ b.startbit := by
      rw [← hl]
      refine h.sorted.imp_of_mem fun {a b} ha hb hab => ?_
      have := h.aligned a ha
      have := h.aligned b hb
      omega
    refine allClosed_iff_gapSafe hs (fun m hm => ?_) (Consecutive.nil _)
    rw [h.highbit, newHighbit, hl, hm]
    exact (uint32_of_lt (h.bound m (by rw [hl]; exact List.mem_of_getLast? hm))).symm

/-! ### Levels -/

private theorem mem_of_mem_catRuns {e : Ebitmap} (h : e.Canonical) {r : List Nat × Nat} (hr : r ∈ catRuns e) {x : Nat}
    (hx : x ∈ r.1) : x ∈ e := by
  have hmem : x ∈ (catRuns e).flatMap Prod.fst := List.mem_flatMap.2 ⟨r, hr, hx⟩
  rw [catRuns, Runs.flatMap_runs, List.nil_append] at hmem
  rw [← mem_bitVisits h]
  simpa using hmem

private theorem runText_of_closed {e : Ebitmap} (hname : ∀ i ∈ e, (p.pCatValToName i).isSome = true)
    {r : List Nat × Nat} (hmem : ∀ x ∈ r.1, x ∈ e) (hc : Closed r) : ∃ t, runText p r = some t := by
  have named : ∀ i ∈ r.1, ∃ name, p.pCatValToName i = some name := fun i hi =>
    Option.isSome_iff_exists.1 (hname i (hmem i hi))
  obtain ⟨run, y⟩ := r
  match run, hc, named with
  | [], _, _ => exact ⟨[], rfl⟩
  | [a], _, named =>
    obtain ⟨name, hn⟩ := named a (List.mem_singleton_self a)
    exact ⟨name, by simp [runText, hn, mlsCloseRange]⟩
  | [a, x], hc, named =>
    obtain ⟨name, hn⟩ := named a (List.mem_cons_self ..)
    obtain ⟨name', hn'⟩ := named x (List.mem_cons_of_mem _ (List.mem_singleton_self x))
    obtain rfl : y = x + 1 := hc
    exact ⟨name ++ ',' :: name', by simp [runText, hn, mlsCloseRange, hn']⟩
  | a :: b :: c :: l, hc, named =>
    have hr : a :: b :: c :: l = List.range' a (l.length + 3) := hc.1
    obtain rfl : y = a + (l.length + 3) := hc.2
    obtain ⟨name, hn⟩ := named a (List.mem_cons_self ..)
    have hlast : a + (l.length + 3) - 1 ∈ a :: b :: c :: l := by
      rw [hr, List.mem_range'_1]
      omega
    obtain ⟨name', hn'⟩ := named _ hlast
    exact ⟨name ++ '.' :: name', by simp only [runText, hn, mlsCloseRange, hn', Option.bind_some]; simp⟩

private theorem mapM_isSome {α β : Type} {f : α → Option β} {l : List α} (h : ∀ a ∈ l, ∃ b, f a = some b) :
    ∃ bs, l.mapM f = some bs := by
  induction l with
  | nil => exact ⟨[], rfl⟩
  | cons a l ih =>
    obtain ⟨b, hb⟩ := h a (List.mem_cons_self ..)
    obtain ⟨bs, hbs⟩ := ih fun a ha => h a (List.mem_cons_of_mem _ ha)
    exact ⟨b :: bs, by simp [List.mapM_cons, hb, hbs]⟩

private theorem mlsLevelToContext_isSome (h : LevelOk p level) (hg : GapSafe level.cat.node) :
    ∃ t, mlsLevelToContext p level = some t := by
  have hc := (closed_catRuns_iff h.cat).2 hg
  obtain ⟨ts, hts⟩ := mapM_isSome fun r hr =>
    runText_of_closed h.catName (fun x hx => mem_of_mem_catRuns h.cat hr hx) (hc r hr)
  obtain ⟨name, hn⟩ := Option.isSome_iff_exists.1 h.sensName
  exact ⟨name ++ glue false ts, by rw [mlsLevelToContext_eq p h.cat, hn, hts]; rfl⟩

private theorem fits_catRuns {e : Ebitmap} (h : e.Canonical) : Fits ((catRuns e).flatMap intervals) := by
  intro iv hiv
  obtain ⟨r, hr, hiv⟩ := List.mem_flatMap.1 hiv
  obtain ⟨hok, hfin⟩ := Runs.runs_ok (walkOk_bitVisits h) hr
  have hle := h.highbit_le
  obtain ⟨run, y⟩ := r
  match run, hok, hiv with
  | [a], hok, hiv =>
    have := hok.lt a (by simp)
    obtain rfl := List.mem_singleton.1 hiv
    dsimp only at *
    omega
  | [a, x], hok, hiv =>
    have := hok.lt a (by simp)
    simp only [intervals, List.mem_cons, List.not_mem_nil, or_false] at hiv
    rcases hiv with rfl | rfl <;> dsimp only at * <;> omega
  | a :: b :: c :: l, hok, hiv =>
    have := hok.lt a (by simp)
    obtain rfl := List.mem_singleton.1 hiv
    dsimp only at *
    omega

private theorem sameLevel_iff_gapSafe (h : LevelOk p level) {cat : Ebitmap}
    (hset : SetsIntervals ebitmapInit cat ((catRuns level.cat).flatMap intervals)) :
    SameLevel ⟨level.sens, cat⟩ level ↔ GapSafe level.cat.node := by
  obtain ⟨_, hmem⟩ := hset Ebitmap.Canonical.init
  rw [← closed_catRuns_iff h.cat, catRuns, ← Runs.covers_iff_closed (walkOk_bitVisits h.cat), SameLevel,
    eq_self_iff_true, true_and]
  refine forall_congr' fun j => ?_
  rw [mem_bitVisits h.cat, hmem]
  simp only [not_mem_ebitmapInit, false_or]
  rfl

private theorem levelText_of_levelOk (hi : MlsIndex p) (h : LevelOk p level) {t : CString}
    (ht : mlsLevelToContext p level = some t) :
    LevelText p t level.sens ((catRuns level.cat).flatMap intervals) :=
  levelText_of_mlsLevelToContext hi h.cat h.sens (fun _ hr => (Runs.runs_ok (walkOk_bitVisits h.cat) hr).1) ht

private theorem mlsRoundtrip_iff_of_fits (hn : MlsNames p) (hi : MlsIndex p) (hm : p.mls = true) {c : Context}
    (h0 : LevelOk p c.range.level0) (h1 : LevelOk p c.range.level1) (hfits : c.TextFits p) :
    MlsRoundtrip p c ↔ GapSafe c.range.level0.cat.node ∧ GapSafe c.range.level1.cat.node := by
  have hnul : '$' ≠ '\x00' := by decide
  rw [MlsRoundtrip, mlsToString_eq p c hm hfits]
  cases heq : mlsLevelEq c.range.level0 c.range.level1 with
  | true =>
    have heq := (mlsLevelEq_iff _ _).1 heq
    rw [← heq, and_self]
    -- one level is written, and its text is a level of the grammar
    have hparse : ∀ {t : CString}, mlsLevelToContext p c.range.level0 = some t →
        ∃ cat, SetsIntervals ebitmapInit cat ((catRuns c.range.level0.cat).flatMap intervals) ∧
          mlsFromString p t contextInit = some { contextInit with
            range := ⟨⟨c.range.level0.sens, cat⟩, ⟨c.range.level0.sens, cat⟩⟩ } := fun ht => by
      obtain ⟨cat, rest, hset, e⟩ := mlsContextToSid_of_level hn hm hnul (levelText_of_levelOk hi h0 ht)
        (fits_catRuns h0.cat) contextInit
      exact ⟨cat, hset, by rw [mlsFromString, e]; rfl⟩
    constructor
    · rintro ⟨s, c', hs, hc', hsame, _⟩
      obtain ⟨t, ht, _⟩ := Option.bind_eq_some_iff.1 hs
      rw [ht] at hs
      obtain rfl : t = s := by simpa using hs
      obtain ⟨cat, hset, e⟩ := hparse ht
      rw [e] at hc'
      obtain rfl := Option.some.inj hc'
      exact (sameLevel_iff_gapSafe h0 hset).1 hsame
    · intro hg
      obtain ⟨t, ht⟩ := mlsLevelToContext_isSome h0 hg
      obtain ⟨cat, hset, e⟩ := hparse ht
      have hsame := (sameLevel_iff_gapSafe h0 hset).2 hg
      exact ⟨t, _, by rw [ht]; rfl, e, hsame, hsame⟩
  | false =>
    have hparse : ∀ {t u : CString}, mlsLevelToContext p c.range.level0 = some t →
        mlsLevelToContext p c.range.level1 = some u →
        ∃ cat cat', SetsIntervals ebitmapInit cat ((catRuns c.range.level0.cat).flatMap intervals) ∧
          SetsIntervals ebitmapInit cat' ((catRuns c.range.level1.cat).flatMap intervals) ∧
          mlsFromString p (t ++ '-' :: u) contextInit = some { contextInit with
            range := ⟨⟨c.range.level0.sens, cat⟩, ⟨c.range.level1.sens, cat'⟩⟩ } := fun ht hu => by
      obtain ⟨cat, cat', rest, hset, hset', e⟩ := mlsContextToSid_of_levels hn hm hnul (levelText_of_levelOk hi h0 ht)
        (fits_catRuns h0.cat) (levelText_of_levelOk hi h1 hu) (fits_catRuns h1.cat) contextInit
      exact ⟨cat, cat', hset, hset', by rw [mlsFromString, e]; rfl⟩
    constructor
    · rintro ⟨s, c', hs, hc', hsame0, hsame1⟩
      obtain ⟨t, ht, hs⟩ := Option.bind_eq_some_iff.1 hs
      obtain ⟨u, hu, rfl⟩ := Option.map_eq_some_iff.1 hs
      obtain ⟨cat, cat', hset, hset', e⟩ := hparse ht hu
      rw [e] at hc'
      obtain rfl := Option.some.inj hc'
      exact ⟨(sameLevel_iff_gapSafe h0 hset).1 hsame0, (sameLevel_iff_gapSafe h1 hset').1 hsame1⟩
    · rintro ⟨hg0, hg1⟩
      obtain ⟨t, ht⟩ := mlsLevelToContext_isSome h0 hg0
      obtain ⟨u, hu⟩ := mlsLevelToContext_isSome h1 hg1
      obtain ⟨cat, cat', hset, hset', e⟩ := hparse ht hu
      exact ⟨t ++ '-' :: u, _, by rw [ht, hu]; rfl, e, (sameLevel_iff_gapSafe h0 hset).2 hg0,
        (sameLevel_iff_gapSafe h1 hset').2 hg1⟩

/-- Printing and parsing gives the two levels back exactly when the gaps of both category sets are safe and the size
of the text is an `int`. -/
theorem mlsRoundtrip_iff (hn : MlsNames p) (hi : MlsIndex p) (hm : p.mls = true) {c : Context}
    (h0 : LevelOk p c.range.level0) (h1 : LevelOk p c.range.level1) :
    MlsRoundtrip p c ↔ (GapSafe c.range.level0.cat.node ∧ GapSafe c.range.level1.cat.node) ∧ c.TextFits p := by
  constructor
  · intro h
    have hfits : c.TextFits p := by
      obtain ⟨s, _, hs, _⟩ := h
      exact textFits_of_mlsToString hm hs
    exact ⟨(mlsRoundtrip_iff_of_fits hn hi hm h0 h1 hfits).1 h, hfits⟩
  · rintro ⟨hg, hfits⟩
    exact (mlsRoundtrip_iff_of_fits hn hi hm h0 h1 hfits).2 hg

/-- The name of a category, two letters. -/
def letterCatName (i : Nat) : CString := [Char.ofNat (97 + i / 16), Char.ofNat (97 + i % 16)]

/-- A policy with one sensitivity and 129 categories. -/
def manyCatsPolicy : Policydb where
  __ := policydbInit
  mls := true
  pLevels := ⟨[(['s', '0'], ⟨1, ebitmapInit⟩)], 1⟩
  pSensValToName := fun i => if i < 1 then some ['s', '0'] else none
  pCats := ⟨(List.range 129).map fun i => (letterCatName i, ⟨i + 1⟩), 129⟩
  pCatValToName := fun i => if i < 129 then some (letterCatName i) else none

private theorem manyCatsPolicy_names : MlsNames manyCatsPolicy :=
  ⟨by decide, by decide +kernel, by decide +kernel⟩

private theorem manyCatsPolicy_index : MlsIndex manyCatsPolicy where
  sens := fun {i name} h => by
    have hall : ∀ i < 1, ∃ d, hashtabSearch manyCatsPolicy.pLevels.table ['s', '0'] = some d ∧ d.level.sens = i + 1 :=
      fun i hi => ⟨⟨1, ebitmapInit⟩, rfl, by simp; omega⟩
    simp only [manyCatsPolicy, Option.ite_none_right_eq_some, Option.some.injEq] at h
    exact h.2 ▸ hall i h.1
  cat := fun {i name} h => by
    have hall : ∀ i < 129,
        (hashtabSearch manyCatsPolicy.pCats.table (letterCatName i)).map CatDatum.value = some (i + 1) := by
      decide +kernel
    simp only [manyCatsPolicy, Option.ite_none_right_eq_some, Option.some.injEq] at h
    exact h.2 ▸ Option.map_eq_some_iff.1 (hall i h.1)

private theorem levelOk_manyCats {e : Ebitmap} (hc : e.Canonical)
    (hall : ∀ i ∈ ebitmapPositiveBits e, (manyCatsPolicy.pCatValToName i).isSome = true) :
    LevelOk manyCatsPolicy ⟨1, e⟩ :=
  ⟨le_refl 1, rfl, hc, fun i hi => hall i ((mem_ebitmapPositiveBits hc).2 hi)⟩

/-- The set of the categories 62 and 63 and of those from 64 to 66, in two nodes. -/
def rangeCats : Ebitmap := ⟨[⟨0, 0xC000000000000000⟩, ⟨64, 7⟩], 128⟩

/-- The context from no category to these. -/
def rangeCatsContext : Context := { contextInit with range := ⟨⟨1, ebitmapInit⟩, ⟨1, rangeCats⟩⟩ }

theorem mlsRoundtrip_iff_rangeCats : MlsRoundtrip manyCatsPolicy rangeCatsContext := by
  have hc : rangeCats.Canonical := ⟨by simp [NodesSorted, rangeCats], by unfold NodeWf; decide, rfl⟩
  refine (@mlsRoundtrip_iff _ manyCatsPolicy_names manyCatsPolicy_index rfl rangeCatsContext
    (levelOk_manyCats Ebitmap.Canonical.init (by decide +kernel)) (levelOk_manyCats hc (by decide +kernel))).2
    ⟨⟨trivial, fun h => absurd h (by decide), trivial⟩, fun text htext => ?_⟩
  have hprint : mlsSidToContext manyCatsPolicy rangeCatsContext =
      some [':', 's', '0', '-', 's', '0', ':', 'd', 'o', '.', 'e', 'c'] := by decide +kernel
  obtain rfl := Option.some.inj (hprint.symm.trans htext)
  decide

/-- The set of the categories 62, 63 and 128. -/
def gapCats : Ebitmap := ⟨[⟨0, 0xC000000000000000⟩, ⟨128, 1⟩], 192⟩

private theorem levelOk_gapCats : LevelOk manyCatsPolicy ⟨1, gapCats⟩ :=
  levelOk_manyCats ⟨by simp [NodesSorted, gapCats], by unfold NodeWf; decide, rfl⟩ (by decide +kernel)

/-- The categories 62, 63 and 128 are printed as the range from 62 to 128, which is parsed with category 64. -/
theorem mlsRoundtrip_fails_gapCats :
    ¬ ∀ (p : Policydb) (c : Context), MlsNames p → MlsIndex p → p.mls = true → LevelOk p c.range.level0 →
      LevelOk p c.range.level1 → MlsRoundtrip p c := by
  intro h
  obtain ⟨s, c', hs, hc', ⟨_, hmem⟩, _⟩ := h manyCatsPolicy
    { contextInit with range := ⟨⟨1, gapCats⟩, ⟨1, gapCats⟩⟩ } manyCatsPolicy_names manyCatsPolicy_index rfl
    levelOk_gapCats levelOk_gapCats
  have hprint : mlsToString manyCatsPolicy { contextInit with range := ⟨⟨1, gapCats⟩, ⟨1, gapCats⟩⟩ } =
      some ['s', '0', ':', 'd', 'o', '.', 'i', 'a'] := by decide +kernel
  have hparse : (mlsFromString manyCatsPolicy ['s', '0', ':', 'd', 'o', '.', 'i', 'a'] contextInit).map
      (fun c => decide (64 ∈ c.range.level0.cat)) = some true := by decide +kernel
  obtain rfl := Option.some.inj (hprint.symm.trans hs)
  rw [hc'] at hparse
  have hin : 64 ∈ c'.range.level0.cat := by simpa using hparse
  have hout : 64 ∉ gapCats := by decide
  exact hout ((hmem 64).1 hin)

end Sepol
