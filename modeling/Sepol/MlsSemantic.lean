import Sepol.KernelPolicydb
import Sepol.MlsRoundtrip

/-!
# Semantic levels

`mls_level_to_semantic` writes the runs of a category set down as ranges of categories, and
`mls_semantic_level_expand` sets the categories of the ranges again.  The walk skips the positions between the nodes,
so a run that reaches the end of a node stays open up to the next node wherever that one starts.
-/

namespace Sepol

open Runs (runs spans MarkedUpTo)

/-! ### To semantic levels -/

/-- The categories written so far; the first one is `open_cat` as long as there is one. -/
structure SemanticCats where
  cat : List MlsSemanticCat
  isOpen : Bool

/-- `open_cat->high = i`. -/
def closeCat (i : Nat) : List MlsSemanticCat → List MlsSemanticCat
  | [] => []
  | openCat :: cat => { openCat with high := i } :: cat

/-- The body of the loop at a position with its bit. -/
def semanticCatsStep (s : SemanticCats) (v : Nat × Bool) : SemanticCats :=
  if v.2 then
    if s.isOpen then s else ⟨⟨v.1 + 1, 0⟩ :: s.cat, true⟩
  else
    if !s.isOpen then s else ⟨closeCat v.1 s.cat, false⟩

def mlsLevelToSemantic (l : MlsLevel) : MlsSemanticLevel :=
  let visits := ebitmapForEachBit l.cat
  let s := (visits.1.map fun v => (v.2, ebitmapNodeGetBit v.1 v.2)).foldl semanticCatsStep ⟨[], false⟩
  ⟨l.sens, if s.isOpen then closeCat visits.2 s.cat else s.cat⟩

/-! ### Expansion -/

/-- A category is set when it can be associated with the level. -/
def setLevelCat (levdatum : LevelDatum) (l : Ebitmap) (i : Nat) : Option Ebitmap :=
  if !ebitmapGetBit levdatum.level.cat i then none else ebitmapSetBit l i true

/-- The positions from `cat->low - 1` up to `cat->high`. -/
def MlsSemanticCat.positions (cat : MlsSemanticCat) : List Nat :=
  List.range' (cat.low - 1) (cat.high - (cat.low - 1))

/-- The body of the loop over the categories of a level. -/
def semanticCatExpand (levdatum : LevelDatum) (l : Ebitmap) (cat : MlsSemanticCat) : Option Ebitmap :=
  if cat.low = 0 ∨ cat.low > cat.high then none
  else cat.positions.foldlM (setLevelCat levdatum) l

/-- `mls_semantic_level_expand`; the result is `none` where the code returns -1. -/
def mlsSemanticLevelExpand (p : Policydb) (sl : MlsSemanticLevel) : Option MlsLevel :=
  if !p.mls then some ⟨0, ebitmapInit⟩
  else if sl.sens = 0 then some ⟨0, ebitmapInit⟩
  else if sl.sens > p.pLevels.nprim then none
  else do
    let levdatum ← hashtabSearchName p.pLevels.table (p.pSensValToName (sl.sens - 1))
    let cat ← sl.cat.foldlM (semanticCatExpand levdatum) ebitmapInit
    some ⟨sl.sens, cat⟩

private theorem foldlM_setLevelCat {levdatum : LevelDatum} {l : Ebitmap} (hl : l.Canonical) (positions : List Nat)
    (hbound : ∀ i ∈ positions, i < 2 ^ 32 - 64)
    (hget : ∀ i ∈ positions, ebitmapGetBit levdatum.level.cat i = true) :
    ∃ l', positions.foldlM (setLevelCat levdatum) l = some l' ∧ l'.Canonical ∧
      ∀ j, j ∈ l' ↔ j ∈ l ∨ j ∈ positions := by
  induction positions generalizing l with
  | nil => exact ⟨l, rfl, hl, fun j => by simp⟩
  | cons i positions ih =>
    have hi := hbound i (by simp)
    have hset := ebitmapSetBit_true hi l
    obtain ⟨l', hfold, hcanonical, hmem⟩ := ih (hl.setBit hi hset) (fun j hj => hbound j (List.mem_cons_of_mem _ hj))
      fun j hj => hget j (List.mem_cons_of_mem _ hj)
    refine ⟨l', ?_, hcanonical, fun j => ?_⟩
    · rw [List.foldlM_cons, setLevelCat, hget i (by simp), Bool.not_true, if_neg (by simp), hset]
      exact hfold
    · rw [hmem, mem_of_ebitmapSetBit hl hi hset, List.mem_cons, or_assoc]

/-- When the positions are set, each of them can be associated with the level, and is one of a bitmap. -/
private theorem of_foldlM_setLevelCat {levdatum : LevelDatum} {l l' : Ebitmap} {positions : List Nat}
    (h : positions.foldlM (setLevelCat levdatum) l = some l') :
    ∀ i ∈ positions, ebitmapGetBit levdatum.level.cat i = true ∧ (i < 2 ^ 32 → i < 2 ^ 32 - 64) := by
  induction positions generalizing l with
  | nil => simp
  | cons i positions ih =>
    rw [List.foldlM_cons] at h
    obtain ⟨l₁, hi, hrest⟩ := Option.bind_eq_some_iff.1 h
    rw [setLevelCat] at hi
    have hget : ebitmapGetBit levdatum.level.cat i = true := by
      by_contra hget
      simp [hget] at hi
    rw [hget, Bool.not_true, if_neg (by simp)] at hi
    have hbound : i < 2 ^ 32 → i < 2 ^ 32 - 64 := by
      intro hlt
      by_contra hle
      rw [ebitmapSetBit_none (Nat.not_lt.1 hle) hlt] at hi
      cases hi
    intro j hj
    rcases List.mem_cons.1 hj with rfl | hj
    · exact ⟨hget, hbound⟩
    · exact ih hrest j hj

private theorem foldlM_semanticCatExpand {levdatum : LevelDatum} {cats : List MlsSemanticCat}
    (hcats : ∀ cat ∈ cats, 1 ≤ cat.low ∧ cat.low ≤ cat.high) (l : Ebitmap) :
    cats.foldlM (semanticCatExpand levdatum) l =
      (cats.flatMap MlsSemanticCat.positions).foldlM (setLevelCat levdatum) l := by
  induction cats generalizing l with
  | nil => rfl
  | cons cat cats ih =>
    obtain ⟨hlow, hhigh⟩ := hcats cat (by simp)
    rw [List.foldlM_cons, List.flatMap_cons, List.foldlM_append, semanticCatExpand, if_neg (by omega)]
    exact Option.bind_congr fun l' _ => ih (fun c hc => hcats c (List.mem_cons_of_mem _ hc)) l'

private theorem valid_of_foldlM_semanticCatExpand {levdatum : LevelDatum} {cats : List MlsSemanticCat}
    {l l' : Ebitmap}
    (h : cats.foldlM (semanticCatExpand levdatum) l = some l') : ∀ cat ∈ cats, 1 ≤ cat.low ∧ cat.low ≤ cat.high := by
  induction cats generalizing l with
  | nil => simp
  | cons cat cats ih =>
    rw [List.foldlM_cons] at h
    obtain ⟨l₁, hcat, hrest⟩ := Option.bind_eq_some_iff.1 h
    have hvalid : ¬ (cat.low = 0 ∨ cat.low > cat.high) := by
      intro hbad
      rw [semanticCatExpand, if_pos hbad] at hcat
      cases hcat
    intro c hc
    rcases List.mem_cons.1 hc with rfl | hc
    · omega
    · exact ih hrest c hc

/-- A level that is expanded has valid ranges, and gets the categories of all of them. -/
theorem mlsSemanticLevelExpand_spec {p : Policydb} {sl : MlsSemanticLevel} {l : MlsLevel} (hmls : p.mls = true)
    (hsens : 1 ≤ sl.sens) (hhigh : ∀ cat ∈ sl.cat, cat.high < 2 ^ 32) (h : mlsSemanticLevelExpand p sl = some l) :
    (∀ cat ∈ sl.cat, 1 ≤ cat.low ∧ cat.low ≤ cat.high) ∧
      ∀ i, i ∈ l.cat ↔ ∃ cat ∈ sl.cat, cat.low - 1 ≤ i ∧ i < cat.high := by
  rw [mlsSemanticLevelExpand, hmls, Bool.not_true, if_neg (by simp), if_neg (by omega)] at h
  split at h
  · cases h
  · obtain ⟨levdatum, -, h⟩ := Option.bind_eq_some_iff.1 h
    obtain ⟨cat, hfold, h⟩ := Option.bind_eq_some_iff.1 h
    obtain rfl := Option.some.inj h
    have hvalid := valid_of_foldlM_semanticCatExpand hfold
    rw [foldlM_semanticCatExpand hvalid] at hfold
    have hpositions : ∀ i, i ∈ sl.cat.flatMap MlsSemanticCat.positions ↔
        ∃ cat ∈ sl.cat, cat.low - 1 ≤ i ∧ i < cat.high := by
      intro i
      rw [List.mem_flatMap]
      refine exists_congr fun c => and_congr_right fun hc => ?_
      have := hvalid c hc
      rw [MlsSemanticCat.positions, List.mem_range'_1]
      omega
    obtain ⟨cat', hfold', -, hmem⟩ := foldlM_setLevelCat Ebitmap.Canonical.init _
      (fun i hi => by
        obtain ⟨c, hc, -, hi'⟩ := (hpositions i).1 hi
        have := hhigh c hc
        exact (of_foldlM_setLevelCat hfold i hi).2 (by omega))
      fun i hi => (of_foldlM_setLevelCat hfold i hi).1
    obtain rfl := Option.some.inj (hfold.symm.trans hfold')
    refine ⟨hvalid, fun i => ?_⟩
    rw [hmem, hpositions]
    exact or_iff_right (not_mem_ebitmapInit i)

/-! ### The ranges of a level -/

/-- The range that a run is written down as. -/
def runCat : List Nat × Nat → List MlsSemanticCat
  | ([], _) => []
  | (a :: _, y) => [⟨a + 1, y⟩]

/-- The loop with an open run, and what it does at its end. -/
private theorem foldl_semanticCatsStep (fin : Nat) (run : List Nat) (vs : List (Nat × Bool))
    (cat : List MlsSemanticCat) : (let s := vs.foldl semanticCatsStep ⟨(runCat (run, 0)) ++ cat, !run.isEmpty⟩
      if s.isOpen then closeCat fin s.cat else s.cat) = ((runs fin run vs).flatMap runCat).reverse ++ cat := by
  induction vs generalizing run cat with
  | nil => cases run <;> simp [runs, runCat, closeCat]
  | cons v vs ih =>
    obtain ⟨i, b⟩ := v
    cases b with
    | true =>
      rw [show runs fin run ((i, true) :: vs) = runs fin (run ++ [i]) vs from rfl, ← ih (run ++ [i]) cat]
      cases run <;> simp [semanticCatsStep, runCat]
    | false =>
      cases run with
      | nil =>
        rw [show runs fin [] ((i, false) :: vs) = runs fin [] vs from rfl, ← ih [] cat]
        simp [semanticCatsStep, runCat]
      | cons a l =>
        have hrest := ih [] (⟨a + 1, i⟩ :: cat)
        rw [show runs fin (a :: l) ((i, false) :: vs) = (a :: l, i) :: runs fin [] vs from rfl, List.flatMap_cons,
          List.reverse_append, List.append_assoc]
        simpa [semanticCatsStep, runCat, closeCat] using hrest

private theorem mlsLevelToSemantic_eq {l : MlsLevel} (h : l.cat.Canonical) :
    mlsLevelToSemantic l = ⟨l.sens, ((catRuns l.cat).flatMap runCat).reverse⟩ := by
  have hloop := foldl_semanticCatsStep l.cat.highbit [] (bitVisits l.cat) []
  simp only [List.append_nil] at hloop
  rw [mlsLevelToSemantic, ebitmapForEachBit_eq h, MlsSemanticLevel.mk.injEq]
  exact ⟨rfl, hloop⟩

private theorem mem_positions_runCat (rs : List (List Nat × Nat)) (j : Nat) :
    j ∈ (rs.flatMap runCat).flatMap MlsSemanticCat.positions ↔ Runs.Covers (rs.flatMap spans) j := by
  induction rs with
  | nil => simp [Runs.Covers]
  | cons r rs ih =>
    rw [List.flatMap_cons, List.flatMap_append, List.mem_append, ih, List.flatMap_cons, Runs.covers_append]
    refine or_congr_left ?_
    obtain ⟨run, y⟩ := r
    cases run with
    | nil => simp [runCat, spans, Runs.Covers]
    | cons a l =>
      simp only [runCat, spans, Runs.Covers, MlsSemanticCat.positions, List.flatMap_cons, List.flatMap_nil,
        List.append_nil, List.mem_range'_1, List.mem_singleton, exists_eq_left]
      omega

private theorem runCat_valid {e : Ebitmap} (h : e.Canonical) {cat : MlsSemanticCat}
    (hcat : cat ∈ (catRuns e).flatMap runCat) : 1 ≤ cat.low ∧ cat.low ≤ cat.high := by
  obtain ⟨⟨run, y⟩, hr, hcat⟩ := List.mem_flatMap.1 hcat
  cases run with
  | nil => cases hcat
  | cons a l =>
    obtain rfl := List.mem_singleton.1 hcat
    have := (Runs.runs_ok (walkOk_bitVisits h) hr).1.lt a (by simp)
    exact ⟨Nat.le_add_left 1 a, this⟩

/-! ### Gaps -/

/-- A node whose last bit is set is followed by the node that starts right behind it. -/
def NoOpenGap (l : List EbitmapNode) : Prop :=
  l.IsChain fun n m => n.map.getLsbD 63 = true → m.startbit = n.startbit + 64

private theorem mem_visited {e : Ebitmap} {w : Nat} :
    w ∈ (bitVisits e).map Prod.fst ↔ ∃ n ∈ e.node, n.startbit ≤ w ∧ w < n.startbit + 64 := by
  simp only [bitVisits_eq, nodeWalk, Runs.walk, List.map_flatMap, List.map_map, List.mem_flatMap, List.mem_map,
    List.mem_range'_1, Function.comp_apply, exists_eq_right]

private theorem node_end_le_of_sublist {e : Ebitmap} (h : e.Canonical) {n m : EbitmapNode}
    (hsub : [n, m].Sublist e.node) : n.startbit + 64 ≤ m.startbit := by
  have hlt : n.startbit < m.startbit := by simpa using h.sorted.sublist hsub
  have := h.aligned n (hsub.subset (by simp))
  have := h.aligned m (hsub.subset (by simp))
  omega

/-- Where a run stays open over a gap, the position at the start of the gap is taken for one of the run. -/
private theorem exists_markedUpTo_gap {e : Ebitmap} (h : e.Canonical) {n m : EbitmapNode} {l l' : List EbitmapNode}
    (hnode : e.node = l ++ n :: m :: l') (hbit : n.map.getLsbD 63 = true) (hgap : m.startbit ≠ n.startbit + 64) :
    ∃ j < e.highbit, MarkedUpTo [] (bitVisits e) j ∧ j ∉ e := by
  have hnm : n.startbit + 64 ≤ m.startbit := node_end_le_of_sublist h (by rw [hnode]; simp)
  have hm : m ∈ e.node := by simp [hnode]
  have hn : n ∈ e.node := by simp [hnode]
  have hend := h.node_end_le hm
  have hv : n.startbit + 63 ∈ e := (h.mem_iff_node _).2 ⟨n, hn, 63, by decide, rfl, hbit⟩
  -- a node starts behind the gap or ends before it
  have hnodes : ∀ k ∈ e.node, n.startbit + 64 < k.startbit ∨ k.startbit ≤ n.startbit := by
    intro k hk
    rw [hnode] at hk
    rcases List.mem_append.1 hk with hk | hk
    · have : k.startbit + 64 ≤ n.startbit := node_end_le_of_sublist h (by
        rw [hnode]
        exact (List.singleton_sublist.2 hk).append (by simp))
      omega
    · rcases List.mem_cons.1 hk with rfl | hk
      · omega
      · rcases List.mem_cons.1 hk with rfl | hk
        · omega
        · have : m.startbit + 64 ≤ k.startbit := node_end_le_of_sublist h (by
            rw [hnode]
            refine List.Sublist.trans ?_ (List.sublist_append_right _ _)
            exact ((List.singleton_sublist.2 hk).cons_cons m).cons n)
          omega
  refine ⟨n.startbit + 64, by omega, ⟨n.startbit + 63, Or.inr ((mem_bitVisits h _).2 hv), by omega, ?_⟩, ?_⟩
  · intro w hw hwj
    rw [List.nil_append, mem_visited] at hw
    obtain ⟨k, hk, hkw, hwk⟩ := hw
    rcases hnodes k hk with hlt | hle
    · omega
    · omega
  · rw [h.mem_iff_node]
    rintro ⟨k, hk, i, hi, heq, -⟩
    rcases hnodes k hk with hlt | hle
    · omega
    · omega

/-- Without an open gap the last position visited is the position itself. -/
private theorem mem_of_markedUpTo {e : Ebitmap} (h : e.Canonical) (hgap : NoOpenGap e.node) {j : Nat}
    (hj : j < e.highbit) (hup : MarkedUpTo [] (bitVisits e) j) : j ∈ e := by
  obtain ⟨v, hv, hvj, hmax⟩ := hup
  have hv : v ∈ e := (mem_bitVisits h v).1 (by simpa using hv)
  obtain ⟨n, hn, k, hk, rfl, hbit⟩ := (h.mem_iff_node v).1 hv
  have hmax : ∀ m ∈ e.node, ∀ w, m.startbit ≤ w → w < m.startbit + 64 → w ≤ j → w ≤ n.startbit + k := by
    intro m hm w hmw hwm
    exact hmax w (by rw [List.nil_append, mem_visited]; exact ⟨m, hm, hmw, hwm⟩)
  by_cases hin : j < n.startbit + 64
  · have hjv := hmax n hn j (by omega) hin le_rfl
    obtain rfl : j = n.startbit + k := by omega
    exact hv
  · exfalso
    have hlast := hmax n hn (n.startbit + 63) (by omega) (by omega) (by omega)
    obtain rfl : k = 63 := by omega
    obtain ⟨l, l', hnode⟩ := List.append_of_mem hn
    cases l' with
    | nil =>
      have hhigh : e.highbit = n.startbit + 64 := by
        rw [h.highbit, newHighbit, hnode, List.getLast?_concat]
        exact uint32_of_lt (h.bound n hn)
      omega
    | cons m l' =>
      have hstart : m.startbit = n.startbit + 64 :=
        List.isChain_iff_forall_rel_of_append_cons_cons.1 hgap hnode hbit
      have := hmax m (by simp [hnode]) m.startbit (by omega) (by omega) (by omega)
      omega

private theorem markedUpTo_subset_iff {e : Ebitmap} (h : e.Canonical) :
    (∀ j < e.highbit, MarkedUpTo [] (bitVisits e) j → j ∈ e) ↔ NoOpenGap e.node := by
  constructor
  · intro hall
    refine List.isChain_iff_forall_rel_of_append_cons_cons.2 fun n m l l' hnode hbit => ?_
    by_contra hgap
    obtain ⟨j, hj, hup, hno⟩ := exists_markedUpTo_gap h hnode hbit hgap
    exact hno (hall j hj hup)
  · intro hgap j hj hup
    exact mem_of_markedUpTo h hgap hj hup

/-! ### The round trip -/

/-- A level of a policy with MLS, whose categories can be associated with its sensitivity. -/
structure AssociatedLevel (p : Policydb) (level : MlsLevel) (levdatum : LevelDatum) : Prop where
  mls : p.mls = true
  cat : level.cat.Canonical
  sens : 1 ≤ level.sens
  sens_le : level.sens ≤ p.pLevels.nprim
  found : hashtabSearchName p.pLevels.table (p.pSensValToName (level.sens - 1)) = some levdatum
  associated : ∀ i ∈ level.cat, ebitmapGetBit levdatum.level.cat i = true

/-- The semantic level of a level is expanded, and gives the same level. -/
def SemanticRoundtrip (p : Policydb) (level : MlsLevel) : Prop :=
  ∃ level', mlsSemanticLevelExpand p (mlsLevelToSemantic level) = some level' ∧ SameLevel level' level

private theorem mlsSemanticLevelExpand_eq {p : Policydb} {level : MlsLevel} {levdatum : LevelDatum}
    (h : AssociatedLevel p level levdatum) :
    mlsSemanticLevelExpand p (mlsLevelToSemantic level) =
      ((((catRuns level.cat).flatMap runCat).reverse.flatMap MlsSemanticCat.positions).foldlM (setLevelCat levdatum)
        ebitmapInit).map fun cat => ⟨level.sens, cat⟩ := by
  have hsens := h.sens
  have hle := h.sens_le
  have hvalid : ∀ cat ∈ ((catRuns level.cat).flatMap runCat).reverse, 1 ≤ cat.low ∧ cat.low ≤ cat.high := by
    intro cat hcat
    exact runCat_valid h.cat (List.mem_reverse.1 hcat)
  rw [mlsLevelToSemantic_eq h.cat, mlsSemanticLevelExpand, h.mls, Bool.not_true, if_neg (by simp),
    if_neg (by dsimp only; omega), if_neg (by dsimp only; omega)]
  simp only [h.found, ← foldlM_semanticCatExpand hvalid, Option.bind_eq_bind, Option.bind_some]
  cases List.foldlM (semanticCatExpand levdatum) ebitmapInit ((catRuns level.cat).flatMap runCat).reverse <;> rfl

/-- A level is got back exactly when no run of its categories stays open over a gap between two nodes. -/
theorem semanticRoundtrip_iff (p : Policydb) (level : MlsLevel) (levdatum : LevelDatum)
    (h : AssociatedLevel p level levdatum) : SemanticRoundtrip p level ↔ NoOpenGap level.cat.node := by
  have hhigh := h.cat.highbit_le
  have hmem : ∀ j, j ∈ ((catRuns level.cat).flatMap runCat).reverse.flatMap MlsSemanticCat.positions ↔
      j < level.cat.highbit ∧ MarkedUpTo [] (bitVisits level.cat) j := by
    intro j
    rw [← Runs.covers_spans_iff (walkOk_bitVisits h.cat), ← catRuns, ← mem_positions_runCat]
    simp only [List.mem_flatMap, List.mem_reverse]
  have hbound : ∀ j ∈ ((catRuns level.cat).flatMap runCat).reverse.flatMap MlsSemanticCat.positions,
      j < 2 ^ 32 - 64 := by
    intro j hj
    have := ((hmem j).1 hj).1
    omega
  rw [← markedUpTo_subset_iff h.cat, SemanticRoundtrip, mlsSemanticLevelExpand_eq h]
  constructor
  · rintro ⟨level', hexpand, -, hsame⟩ j hj hup
    obtain ⟨cat, hfold, rfl⟩ := Option.map_eq_some_iff.1 hexpand
    obtain ⟨cat', hfold', -, hcat⟩ := foldlM_setLevelCat Ebitmap.Canonical.init _ hbound
      (fun i hi => (of_foldlM_setLevelCat hfold i hi).1)
    obtain rfl := Option.some.inj (hfold.symm.trans hfold')
    exact (hsame j).1 ((hcat j).2 (Or.inr ((hmem j).2 ⟨hj, hup⟩)))
  · intro hall
    obtain ⟨cat, hfold, -, hcat⟩ := foldlM_setLevelCat Ebitmap.Canonical.init _ hbound
      fun j hj => h.associated j (hall j ((hmem j).1 hj).1 ((hmem j).1 hj).2)
    refine ⟨⟨level.sens, cat⟩, by rw [hfold]; rfl, rfl, fun j => ?_⟩
    rw [hcat, hmem]
    constructor
    · rintro (hj | ⟨hj, hup⟩)
      · exact absurd hj (not_mem_ebitmapInit j)
      · exact hall j hj hup
    · intro hj
      exact Or.inr ⟨h.cat.lt_of_mem hj, j, Or.inr ((mem_bitVisits h.cat j).2 hj), le_rfl, fun w _ hw => hw⟩

/-! ### A run over a gap -/

/-- The categories 63 and 128 in two nodes that leave a gap. -/
def borderCats : Ebitmap := ⟨[⟨0, 1#64 <<< 63⟩, ⟨128, 1⟩], 192⟩

/-- A policy with one sensitivity, with which the categories 63 and 128 can be associated. -/
def borderCatsPolicy : Policydb :=
  { policydbInit with
    mls := true
    pLevels := ⟨[(['s', '0'], ⟨⟨1, borderCats⟩⟩)], 1⟩
    pSensValToName := fun _ => some ['s', '0'] }

private theorem borderCats_canonical : borderCats.Canonical where
  sorted := by unfold NodesSorted borderCats; decide
  node := by unfold NodeWf borderCats; decide
  highbit := by decide

private theorem borderCats_associated : AssociatedLevel borderCatsPolicy ⟨1, borderCats⟩ ⟨⟨1, borderCats⟩⟩ where
  mls := rfl
  cat := borderCats_canonical
  sens := le_rfl
  sens_le := le_rfl
  found := rfl
  associated := fun i hi => (ebitmapGetBit_iff borderCats_canonical i).2 hi

theorem semanticRoundtrip_iff_border :
    SemanticRoundtrip borderCatsPolicy ⟨1, borderCats⟩ ↔ NoOpenGap borderCats.node :=
  semanticRoundtrip_iff borderCatsPolicy ⟨1, borderCats⟩ ⟨⟨1, borderCats⟩⟩ borderCats_associated

/-- The two categories are written down as one range, which is not expanded. -/
theorem not_semanticRoundtrip_border : ¬ ∀ (p : Policydb) (level : MlsLevel) (levdatum : LevelDatum),
    AssociatedLevel p level levdatum → SemanticRoundtrip p level := by
  intro hall
  obtain ⟨level', hexpand, -⟩ := hall _ _ _ borderCats_associated
  have hnone : mlsSemanticLevelExpand borderCatsPolicy (mlsLevelToSemantic ⟨1, borderCats⟩) = none := by
    decide +kernel
  rw [hnone] at hexpand
  cases hexpand

end Sepol
