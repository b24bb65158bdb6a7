import Sepol.Lib.Delimited
import Sepol.Lib.MaximalRuns
import Sepol.Policydb

/-!
# Category sets in CIL and policy.conf

`cats_ebitmap_to_str` of `kernel_to_cil.c` and of `kernel_to_conf.c` print a set of categories to a buffer whose size
`cats_ebitmap_len` computed before.  All four functions walk the runs of the set in the same loop.  The length
function for CIL counts the name of the last category but one of a run where the last one is printed, so a text fits
or not by the lengths of these names.
-/

namespace Sepol

open MaximalRuns (runs Linked Maximal)

/-! ### The loop -/

/-- The variables of the loops; `acc` is what a loop computes. -/
structure CatsRunState (β : Type) where
  start : Nat
  range : Nat
  acc : β

variable {β : Type} {m : Type → Type} [Monad m]

def catsStep (cats : Ebitmap) (body : β → Nat → Nat → Nat → m β) (s : CatsRunState β) (i : Nat) :
    m (CatsRunState β) :=
  let start := if s.range = 0 then i else s.start
  let range := s.range + 1
  if ebitmapGetBit cats (i + 1) then pure ⟨start, range, s.acc⟩
  else do
    let acc ← body s.acc start i range
    pure ⟨start, 0, acc⟩

/-- The loop over the categories; the body is run at the end of a run, with its first and its last position and the
number of its positions. -/
def catsLoop (cats : Ebitmap) (body : β → Nat → Nat → Nat → m β) (acc : β) : m β := do
  let s ← (ebitmapPositiveBits cats).foldlM (catsStep cats body) ⟨0, 0, acc⟩
  pure s.acc

/-- `snprintf` of a text; the rest of the buffer is an `int`. -/
def catsPrint (s : CString × Int) (text : CString) : Option (CString × Int) :=
  if text.length ≥ s.2 then none else some (s.1 ++ text, s.2 - text.length)

namespace KernelToCil

/-- The loop body of `cats_ebitmap_len`; 10 is `strlen("(range  ) ")`. -/
def catsLen (valToName : Nat → CString) (len start i range : Nat) : Nat :=
  let len := len + (valToName start).length
  if range > 2 then len + ((valToName (i - 1)).length + 10)
  else if range = 2 then len + ((valToName (i - 1)).length + 2)
  else if range = 1 then len + 1
  else len

/-- A `size_t` does not overflow for names that are in memory. -/
def catsEbitmapLen (cats : Ebitmap) (valToName : Nat → CString) : Nat :=
  let len := Id.run (catsLoop cats (fun len start i range => pure (catsLen valToName len start i range)) 0)
  if len > 0 then len + 2 else len

def catsItem (valToName : Nat → CString) (start i range : Nat) : CString :=
  if range > 1 then
    if range = 2 then valToName start ++ [' '] ++ valToName i ++ [' ']
    else ['(', 'r', 'a', 'n', 'g', 'e', ' '] ++ valToName start ++ [' '] ++ valToName i ++ [')', ' ']
  else valToName start ++ [' ']

/-- `malloc` fails for a negative size, which is more than `PTRDIFF_MAX` as a `size_t`. -/
def catsEbitmapToStr (cats : Ebitmap) (valToName : Nat → CString) : Option CString :=
  let remaining := sizeToInt (catsEbitmapLen cats valToName)
  if remaining = 0 then none
  else if remaining < 0 then none
  else do
    let (text, _) ← catsLoop cats (fun s start i range => catsPrint s (catsItem valToName start i range))
      (['('], remaining - 1)
    some (text.dropLast ++ [')'])

/-- `level_to_str`; a null string is printed as `(null)`. -/
def levelToStr (sens : CString) (cats : Ebitmap) (valToName : Nat → CString) : CString :=
  if ebitmapIsEmpty cats then ['('] ++ sens ++ [')']
  else
    ['('] ++ sens ++ [' '] ++
      (catsEbitmapToStr cats valToName).getD ['(', 'n', 'u', 'l', 'l', ')'] ++ [')']

end KernelToCil

namespace KernelToConf

/-- The loop body of `cats_ebitmap_len`. -/
def catsLen (valToName : Nat → CString) (len start i range : Nat) : Nat :=
  let len := len + ((valToName start).length + 1)
  if range > 1 then len + ((valToName i).length + 1) else len

def catsEbitmapLen (cats : Ebitmap) (valToName : Nat → CString) : Nat :=
  Id.run (catsLoop cats (fun len start i range => pure (catsLen valToName len start i range)) 0)

def catsItem (valToName : Nat → CString) (first : Bool) (start i range : Nat) : CString :=
  let comma : CString := if first then [] else [',']
  if range > 1 then
    let sep := if range = 2 then ',' else '.'
    comma ++ valToName start ++ [sep] ++ valToName i
  else comma ++ valToName start

def catsEbitmapToStr (cats : Ebitmap) (valToName : Nat → CString) : Option CString :=
  let remaining := sizeToInt (catsEbitmapLen cats valToName)
  if remaining = 0 then none
  else if remaining < 0 then none
  else do
    let (text, _) ← catsLoop cats (fun s start i range => do
      let printed ← catsPrint s.1 (catsItem valToName s.2 start i range)
      some (printed, false)) (([], remaining), true)
    some text.1

end KernelToConf

/-! ### The runs of a set -/

variable {e : Ebitmap} {names : Nat → CString} {nprim : Nat}

theorem catsMore_linked (he : e.Canonical) : Linked (fun i => ebitmapGetBit e (i + 1)) (ebitmapPositiveBits e) where
  sorted := ebitmapPositiveBits_sorted he
  next _ _ hmore := (mem_ebitmapPositiveBits he).2 ((ebitmapGetBit_iff he _).1 hmore)

/-- The runs of a category set. -/
def catsRuns (e : Ebitmap) : List (Nat × Nat) := runs (fun i => ebitmapGetBit e (i + 1)) none (ebitmapPositiveBits e)

theorem CatsRunState.start_eq {s : CatsRunState β} {i : Nat} (hs : s.range ≠ 0 → i = s.start + s.range) :
    (if s.range = 0 then i else s.start) = i - s.range ∧ s.range + 1 = i + 1 - (i - s.range) := by
  by_cases hzero : s.range = 0
  · rw [if_pos hzero]
    omega
  · have := hs hzero
    rw [if_neg hzero]
    omega

/-- The loop from a position in the set on. -/
private theorem foldlM_catsStep [LawfulMonad m] (body : β → Nat → Nat → Nat → m β) {i : Nat} {l : List Nat}
    (h : Linked (fun i => ebitmapGetBit e (i + 1)) (i :: l)) {s : CatsRunState β}
    (hs : s.range ≠ 0 → i = s.start + s.range) :
    (do
        let s ← (i :: l).foldlM (catsStep e body) s
        pure s.acc) =
      (runs (fun i => ebitmapGetBit e (i + 1)) (some (i - s.range)) (i :: l)).foldlM
        (fun acc r => body acc r.1 r.2 (r.2 + 1 - r.1)) s.acc := by
  induction l generalizing i s with
  | nil =>
    have hlast := h.last
    rw [List.foldlM_cons, catsStep, (CatsRunState.start_eq hs).1, (CatsRunState.start_eq hs).2, hlast, runs, hlast]
    simp [runs]
  | cons j l ih =>
    rw [List.foldlM_cons, catsStep, (CatsRunState.start_eq hs).1, runs, Option.getD_some]
    cases hmore : ebitmapGetBit e (i + 1) with
    | true =>
      obtain ⟨l', hl'⟩ := h.head hmore
      obtain ⟨rfl, rfl⟩ := List.cons.inj hl'
      have hle : s.range ≤ i := by
        by_cases hzero : s.range = 0
        · omega
        · have := hs hzero
          omega
      have hrest := ih h.tail (s := ⟨i - s.range, s.range + 1, s.acc⟩) fun _ => by dsimp only; omega
      rw [if_pos rfl, if_pos rfl, pure_bind, hrest, Nat.add_sub_add_right]
    | false =>
      rw [if_neg (by simp), if_neg (by simp), List.foldlM_cons, (CatsRunState.start_eq hs).2]
      simp only [bind_assoc, pure_bind]
      congr 1
      funext acc
      exact ih h.tail (s := ⟨i - s.range, 0, acc⟩) fun hne => absurd rfl hne

/-- The loop runs its body once for each run. -/
theorem catsLoop_eq [LawfulMonad m] (he : e.Canonical) (body : β → Nat → Nat → Nat → m β) (acc : β) :
    catsLoop e body acc = (catsRuns e).foldlM (fun acc r => body acc r.1 r.2 (r.2 + 1 - r.1)) acc := by
  rw [catsLoop, catsRuns]
  have hlinked := catsMore_linked he
  cases hl : ebitmapPositiveBits e with
  | nil => simp [runs]
  | cons i l =>
    rw [hl] at hlinked
    exact foldlM_catsStep body hlinked (s := ⟨0, 0, acc⟩) fun h => absurd rfl h

theorem catsRuns_ne_nil (he : e.Canonical) (hne : ∃ i, i ∈ e) : catsRuns e ≠ [] := by
  obtain ⟨i, hi⟩ := hne
  obtain ⟨r, hr, -⟩ := (MaximalRuns.exists_mem_runs_iff (catsMore_linked he)).2 ((mem_ebitmapPositiveBits he).2 hi)
  exact List.ne_nil_of_mem hr

/-! ### Printing to a buffer -/

/-- Texts are printed one behind the other when there is room for all of them. -/
private theorem foldlM_catsPrint {texts : List CString} (hne : texts ≠ []) (s : CString × Int) :
    texts.foldlM catsPrint s =
      if (texts.flatten.length : Int) < s.2 then some (s.1 ++ texts.flatten, s.2 - texts.flatten.length)
        else none := by
  induction texts generalizing s with
  | nil => exact absurd rfl hne
  | cons t texts ih =>
    rw [List.foldlM_cons, catsPrint, List.flatten_cons, List.length_append]
    by_cases hfull : (t.length : Int) ≥ s.2
    · rw [if_pos hfull, if_neg (by omega)]
      rfl
    · rw [if_neg hfull]
      change texts.foldlM catsPrint (s.1 ++ t, s.2 - t.length) = _
      cases texts with
      | nil =>
        rw [if_pos (by simpa using hfull)]
        simp
      | cons t' texts =>
        rw [ih (by simp)]
        by_cases hfits : ((t' :: texts).flatten.length : Int) < s.2 - t.length
        · rw [if_pos hfits, if_pos (by omega), List.append_assoc]
          congr 2
          omega
        · rw [if_neg hfits, if_neg (by omega)]

private theorem foldl_add_eq_sum {α : Type} {f : Nat → α → Nat} {g : α → Nat} {rs : List α}
    (h : ∀ r ∈ rs, ∀ len, f len r = len + g r) (len : Nat) : rs.foldl f len = len + (rs.map g).sum := by
  induction rs generalizing len with
  | nil => rfl
  | cons r rs ih =>
    rw [List.foldl_cons, ih fun r hr => h r (List.mem_cons_of_mem _ hr), h r (by simp), List.map_cons, List.sum_cons,
      Nat.add_assoc]

/-! ### Lengths of names -/

/-- The number of positions of a run. -/
def runLength (r : Nat × Nat) : Nat := r.2 + 1 - r.1

/-- The names of the first categories of the runs and the punctuation, as both functions for CIL count them. -/
def firstLength (names : Nat → CString) (rs : List (Nat × Nat)) : Nat :=
  (rs.map fun r => (names r.1).length + if runLength r > 2 then 10 else if runLength r = 2 then 2 else 1).sum

/-- The names of the last categories of the runs of two or more. -/
def lastLength (names : Nat → CString) (rs : List (Nat × Nat)) : Nat :=
  (rs.map fun r => if runLength r > 1 then (names r.2).length else 0).sum

/-- The names of the last categories but one of these runs. -/
def beforeLastLength (names : Nat → CString) (rs : List (Nat × Nat)) : Nat :=
  (rs.map fun r => if runLength r > 1 then (names (r.2 - 1)).length else 0).sum

/-- The names of the first and the last categories, with a separator each. -/
def confLength (names : Nat → CString) (rs : List (Nat × Nat)) : Nat :=
  (rs.map fun r => (names r.1).length + 1 + if runLength r > 1 then (names r.2).length + 1 else 0).sum

private theorem sum_map_add {α : Type} (f g : α → Nat) (rs : List α) :
    (rs.map fun r => f r + g r).sum = (rs.map f).sum + (rs.map g).sum := by
  induction rs with
  | nil => rfl
  | cons r rs ih =>
    simp only [List.map_cons, List.sum_cons, ih]
    omega

namespace KernelToCil

private theorem catsLen_eq (names : Nat → CString) (len : Nat) (r : Nat × Nat) (hr : r.1 ≤ r.2) :
    catsLen names len r.1 r.2 (r.2 + 1 - r.1) =
      len + (((names r.1).length + if runLength r > 2 then 10 else if runLength r = 2 then 2 else 1) +
        if runLength r > 1 then (names (r.2 - 1)).length else 0) := by
  unfold catsLen runLength
  dsimp only
  split_ifs <;> omega

theorem catsEbitmapLen_eq (he : e.Canonical) (hne : ∃ i, i ∈ e) (names : Nat → CString) :
    catsEbitmapLen e names =
      firstLength names (catsRuns e) + beforeLastLength names (catsRuns e) + 2 := by
  have hle : ∀ r ∈ catsRuns e, r.1 ≤ r.2 := fun r hr => (MaximalRuns.maximal_of_mem_runs (catsMore_linked he) hr).le
  have hfold : Id.run (catsLoop e (fun len start i range => pure (catsLen names len start i range)) 0) =
      (catsRuns e).foldl (fun len r => catsLen names len r.1 r.2 (r.2 + 1 - r.1)) 0 := by
    rw [catsLoop_eq he]
    simp
  have hsum := foldl_add_eq_sum (fun r hr len => catsLen_eq names len r (hle r hr)) 0
  have hpos : 0 < firstLength names (catsRuns e) := by
    obtain ⟨r, rs, hrs⟩ := List.exists_cons_of_ne_nil (catsRuns_ne_nil he hne)
    rw [firstLength, hrs, List.map_cons, List.sum_cons]
    split_ifs <;> omega
  rw [sum_map_add] at hsum
  change _ = 0 + (firstLength names (catsRuns e) + beforeLastLength names (catsRuns e)) at hsum
  rw [catsEbitmapLen, hfold, hsum, if_pos (by omega)]
  omega

/-- The text of a run. -/
def runText (names : Nat → CString) (r : Nat × Nat) : CString := catsItem names r.1 r.2 (r.2 + 1 - r.1)

private theorem length_runText (names : Nat → CString) (r : Nat × Nat) :
    (runText names r).length =
      ((names r.1).length + if runLength r > 2 then 10 else if runLength r = 2 then 2 else 1) +
        if runLength r > 1 then (names r.2).length else 0 := by
  unfold runText catsItem runLength
  split_ifs <;> simp only [List.length_append, List.length_cons, List.length_nil] <;> omega

theorem length_flatMap_runText (names : Nat → CString) (rs : List (Nat × Nat)) :
    (rs.flatMap (runText names)).length = firstLength names rs + lastLength names rs := by
  rw [List.length_flatMap, List.map_congr_left fun r _ => length_runText names r, sum_map_add]
  rfl

/-- The text is printed when it fits, with its two parentheses and a terminator in place of the last blank. -/
theorem catsEbitmapToStr_eq (he : e.Canonical) (hne : ∃ i, i ∈ e) (names : Nat → CString) :
    catsEbitmapToStr e names =
      if (firstLength names (catsRuns e) + lastLength names (catsRuns e) + 2 : Int) ≤
          sizeToInt (firstLength names (catsRuns e) + beforeLastLength names (catsRuns e) + 2) then
        some ((['('] ++ (catsRuns e).flatMap (runText names)).dropLast ++ [')'])
      else none := by
  have hlength := length_flatMap_runText names (catsRuns e)
  have hloop : ∀ remaining : Int,
      catsLoop e (fun s start i range => catsPrint s (catsItem names start i range)) (['('], remaining) =
        if (((catsRuns e).flatMap (runText names)).length : Int) < remaining then
          some (['('] ++ (catsRuns e).flatMap (runText names),
            remaining - ((catsRuns e).flatMap (runText names)).length)
        else none := by
    intro remaining
    have hprint := foldlM_catsPrint (show (catsRuns e).map (runText names) ≠ [] by
      simpa using catsRuns_ne_nil he hne) (['('], remaining)
    rw [catsLoop_eq he, List.flatMap_def]
    rw [List.foldlM_map] at hprint
    exact hprint
  rw [catsEbitmapToStr, catsEbitmapLen_eq he hne, hloop]
  dsimp only
  generalize sizeToInt (firstLength names (catsRuns e) + beforeLastLength names (catsRuns e) + 2) = remaining
  by_cases hzero : remaining = 0
  · rw [if_pos hzero, if_neg (by omega)]
  · by_cases hneg : remaining < 0
    · rw [if_neg hzero, if_pos hneg, if_neg (by omega)]
    · rw [if_neg hzero, if_neg hneg]
      by_cases hfits : (((catsRuns e).flatMap (runText names)).length : Int) < remaining - 1
      · rw [if_pos hfits, if_pos (by omega)]
        rfl
      · rw [if_neg hfits, if_neg (by omega)]
        rfl

end KernelToCil

namespace KernelToConf

/-- The text of a run, with or without a comma in front. -/
def runText (names : Nat → CString) (first : Bool) (r : Nat × Nat) : CString :=
  catsItem names first r.1 r.2 (r.2 + 1 - r.1)

/-- The texts of the runs; the first one has no comma. -/
def runTexts (names : Nat → CString) : List (Nat × Nat) → List CString
  | [] => []
  | r :: rs => runText names true r :: rs.map (runText names false)

theorem catsEbitmapLen_eq (he : e.Canonical) (names : Nat → CString) :
    catsEbitmapLen e names = confLength names (catsRuns e) := by
  have hfold : Id.run (catsLoop e (fun len start i range => pure (catsLen names len start i range)) 0) =
      (catsRuns e).foldl (fun len r => catsLen names len r.1 r.2 (r.2 + 1 - r.1)) 0 := by
    rw [catsLoop_eq he]
    simp
  have hlen : ∀ r ∈ catsRuns e, ∀ len, catsLen names len r.1 r.2 (r.2 + 1 - r.1) =
      len + ((names r.1).length + 1 + if runLength r > 1 then (names r.2).length + 1 else 0) := by
    intro r _ len
    unfold catsLen runLength
    dsimp only
    split_ifs <;> omega
  rw [catsEbitmapLen, hfold, foldl_add_eq_sum hlen, Nat.zero_add]
  rfl

private theorem length_runText (names : Nat → CString) (first : Bool) (r : Nat × Nat) :
    (runText names first r).length + (if first then 1 else 0) =
      (names r.1).length + 1 + if runLength r > 1 then (names r.2).length + 1 else 0 := by
  unfold runText catsItem runLength
  cases first
  · simp only [Bool.false_eq_true, if_false]
    split_ifs <;> simp only [List.length_append, List.length_cons, List.length_nil] <;> omega
  · simp only [if_true]
    split_ifs <;> simp only [List.length_append, List.length_cons, List.length_nil] <;> omega

/-- The text is one character shorter than what is counted. -/
theorem length_runTexts (names : Nat → CString) {rs : List (Nat × Nat)} (hne : rs ≠ []) :
    (runTexts names rs).flatten.length + 1 = confLength names rs := by
  obtain ⟨r, rs, rfl⟩ := List.exists_cons_of_ne_nil hne
  have hfirst := length_runText names true r
  have hrest : ∀ r ∈ rs, (runText names false r).length =
      (names r.1).length + 1 + if runLength r > 1 then (names r.2).length + 1 else 0 := fun r _ => by
    simpa using length_runText names false r
  rw [if_pos rfl] at hfirst
  rw [runTexts, List.flatten_cons, List.length_append, ← List.flatMap_def, List.length_flatMap,
    List.map_congr_left hrest, confLength, List.map_cons, List.sum_cons, ← hfirst]
  omega

private theorem foldlM_rest (names : Nat → CString) (rs : List (Nat × Nat)) (s : CString × Int) :
    rs.foldlM (fun (s : (CString × Int) × Bool) r => do
      let printed ← catsPrint s.1 (catsItem names s.2 r.1 r.2 (r.2 + 1 - r.1))
      some (printed, false)) (s, false) =
      ((rs.map (runText names false)).foldlM catsPrint s).map fun s => (s, false) := by
  induction rs generalizing s with
  | nil => rfl
  | cons r rs ih =>
    rw [List.foldlM_cons, List.map_cons, List.foldlM_cons]
    change ((catsPrint s (runText names false r)).bind _).bind _ = _
    cases catsPrint s (runText names false r) with
    | none => rfl
    | some s => exact ih s

/-- The text is printed when its length fits an `int`. -/
theorem catsEbitmapToStr_eq (he : e.Canonical) (hne : ∃ i, i ∈ e) (names : Nat → CString) :
    catsEbitmapToStr e names =
      if confLength names (catsRuns e) < 2 ^ 31 then some (runTexts names (catsRuns e)).flatten else none := by
  have hlength := length_runTexts names (catsRuns_ne_nil he hne)
  have hloop : ∀ remaining : Int,
      catsLoop e (fun (s : (CString × Int) × Bool) start i range => do
          let printed ← catsPrint s.1 (catsItem names s.2 start i range)
          some (printed, false)) (([], remaining), true) =
        if ((runTexts names (catsRuns e)).flatten.length : Int) < remaining then
          some (((runTexts names (catsRuns e)).flatten,
            remaining - (runTexts names (catsRuns e)).flatten.length), false)
        else none := by
    intro remaining
    obtain ⟨r, rs, hrs⟩ := List.exists_cons_of_ne_nil (catsRuns_ne_nil he hne)
    have hprint := foldlM_catsPrint (show runTexts names (r :: rs) ≠ [] by simp [runTexts]) ([], remaining)
    rw [runTexts, List.foldlM_cons] at hprint
    rw [catsLoop_eq he, hrs, List.foldlM_cons, runTexts]
    change ((catsPrint ([], remaining) (runText names true r)).bind _).bind _ = _
    change (catsPrint ([], remaining) (runText names true r)).bind _ = _ at hprint
    cases hfirst : catsPrint ([], remaining) (runText names true r) with
    | none =>
      rw [hfirst] at hprint
      split at hprint
      · cases hprint
      · rw [if_neg ‹_›]
        rfl
    | some s =>
      rw [hfirst] at hprint
      change (rs.map (runText names false)).foldlM catsPrint s = _ at hprint
      refine (foldlM_rest names rs s).trans ?_
      rw [hprint]
      split <;> rfl
  rw [catsEbitmapToStr, catsEbitmapLen_eq he, hloop]
  dsimp only
  by_cases hlt : confLength names (catsRuns e) < 2 ^ 31
  · rw [sizeToInt_of_lt hlt, if_neg (by omega), if_neg (by omega), if_pos (by omega), if_pos hlt]
    rfl
  · have hint := sizeToInt_lt (confLength names (catsRuns e))
    rw [if_neg hlt]
    split_ifs with hzero hneg hfits
    · rfl
    · rfl
    · omega
    · rfl

end KernelToConf

end Sepol
