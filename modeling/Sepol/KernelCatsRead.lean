import Sepol.KernelCats

/-!
# Reading category sets back

The items of a printed category set are names and ranges of names.  When a text is printed it is read back as the set;
for CIL it is printed exactly when the names of the last categories of the runs are not longer than the names that are
counted in their place, as far as the lengths fit an `int`.
-/

namespace Sepol

open MaximalRuns (runs Linked Maximal)

variable {e : Ebitmap} {names : Nat → CString} {nprim : Nat} {r : Nat × Nat}

/-- An item of a category set. -/
inductive CatItem where
  | name (n : CString)
  | range (low high : CString)

/-- The categories of an item, among those that have values. -/
def CatItem.Has (names : Nat → CString) (nprim : Nat) : CatItem → Nat → Prop
  | .name n, v => names v = n
  | .range low high, v => ∃ a b, a < nprim ∧ b < nprim ∧ names a = low ∧ names b = high ∧ a ≤ v ∧ v ≤ b

/-- The categories have different names, which are free of the characters between items. -/
structure CatNames (names : Nat → CString) (nprim : Nat) : Prop where
  inj : ∀ i j, i < nprim → j < nprim → names i = names j → i = j
  free : ∀ i < nprim, ∀ c ∈ names i, c ≠ ' ' ∧ c ≠ '(' ∧ c ≠ ')' ∧ c ≠ ',' ∧ c ≠ '.'

/-- The items of a run: one category, two of them, or a range. -/
def runItems (names : Nat → CString) (r : Nat × Nat) : List CatItem :=
  if runLength r > 1 then
    if runLength r = 2 then [.name (names r.1), .name (names r.2)] else [.range (names r.1) (names r.2)]
  else [.name (names r.1)]

private theorem exists_runItems_iff (hn : CatNames names nprim) (hle : r.1 ≤ r.2) (hr : r.2 < nprim) {v : Nat}
    (hv : v < nprim) :
    (∃ item ∈ runItems names r, item.Has names nprim v) ↔ r.1 ≤ v ∧ v ≤ r.2 := by
  have hname : ∀ i < nprim, names v = names i ↔ v = i := fun i hi => ⟨hn.inj v i hv hi, congrArg names⟩
  unfold runItems runLength
  split_ifs with hmany htwo
  · simp only [List.mem_cons, List.not_mem_nil, or_false, exists_eq_or_imp, exists_eq_left, CatItem.Has,
      hname r.1 (by omega), hname r.2 hr]
    omega
  · simp only [List.mem_singleton, exists_eq_left, CatItem.Has]
    constructor
    · rintro ⟨a, b, ha, hb, hlow, hhigh, h1, h2⟩
      rw [← hn.inj a r.1 ha (by omega) hlow, ← hn.inj b r.2 hb hr hhigh]
      exact ⟨h1, h2⟩
    · rintro ⟨h1, h2⟩
      exact ⟨r.1, r.2, by omega, hr, rfl, rfl, h1, h2⟩
  · simp only [List.mem_singleton, exists_eq_left, CatItem.Has, hname r.1 (by omega)]
    omega

private theorem lt_of_mem_catsRuns (he : e.Canonical) (hlt : ∀ i, i ∈ e → i < nprim) (hr : r ∈ catsRuns e) :
    r.1 ≤ r.2 ∧ r.2 < nprim := by
  have hmax := MaximalRuns.maximal_of_mem_runs (catsMore_linked he) hr
  exact ⟨hmax.le, hlt r.2 ((mem_ebitmapPositiveBits he).1 (hmax.mem r.2 hmax.le (le_refl _)))⟩

private theorem exists_item_iff (he : e.Canonical) (hlt : ∀ i, i ∈ e → i < nprim) (hn : CatNames names nprim)
    {v : Nat}
    (hv : v < nprim) : (∃ item ∈ (catsRuns e).flatMap (runItems names), item.Has names nprim v) ↔ v ∈ e := by
  have hruns : (∃ r ∈ catsRuns e, r.1 ≤ v ∧ v ≤ r.2) ↔ v ∈ e :=
    (MaximalRuns.exists_mem_runs_iff (catsMore_linked he)).trans (mem_ebitmapPositiveBits he)
  rw [← hruns]
  simp only [List.mem_flatMap]
  constructor
  · rintro ⟨item, ⟨r, hr, hitem⟩, hhas⟩
    have hbound := lt_of_mem_catsRuns he hlt hr
    exact ⟨r, hr, (exists_runItems_iff hn hbound.1 hbound.2 hv).1 ⟨item, hitem, hhas⟩⟩
  · rintro ⟨r, hr, hrv⟩
    have hbound := lt_of_mem_catsRuns he hlt hr
    obtain ⟨item, hitem, hhas⟩ := (exists_runItems_iff hn hbound.1 hbound.2 hv).2 hrv
    exact ⟨item, ⟨r, hr, hitem⟩, hhas⟩

/-! ### CIL -/

namespace KernelToCil

/-- The words of a list of items; `(range` is followed by two names and a parenthesis. -/
def readWords : List CString → Option (List CatItem)
  | [] => some []
  | w :: ws =>
    if w = ['(', 'r', 'a', 'n', 'g', 'e'] then
      match ws with
      | low :: high :: rest =>
        if high.getLast? = some ')' then (readWords rest).map fun items => .range low high.dropLast :: items else none
      | _ => none
    else (readWords ws).map fun items => .name w :: items

private theorem readWords_name {w : CString} (h : w ≠ ['(', 'r', 'a', 'n', 'g', 'e']) (ws : List CString) :
    readWords (w :: ws) = (readWords ws).map fun items => .name w :: items := by
  rw [readWords.eq_def]
  exact if_neg h

/-- The items between two parentheses. -/
def readCats (text : CString) : Option (List CatItem) :=
  match text with
  | [] => none
  | c :: rest => if c = '(' ∧ rest.getLast? = some ')' then readWords (rest.dropLast.splitOn ' ') else none

def runWords (names : Nat → CString) (r : Nat × Nat) : List CString :=
  if runLength r > 1 then
    if runLength r = 2 then [names r.1, names r.2]
    else [['(', 'r', 'a', 'n', 'g', 'e'], names r.1, names r.2 ++ [')']]
  else [names r.1]

private theorem runText_eq (names : Nat → CString) (r : Nat × Nat) :
    runText names r = (runWords names r).flatMap (· ++ [' ']) := by
  unfold runText catsItem runWords runLength
  split_ifs <;> simp

private theorem runWords_ne_nil (names : Nat → CString) (r : Nat × Nat) : runWords names r ≠ [] := by
  unfold runWords
  split_ifs <;> simp

private theorem blank_not_mem_runWords (hn : CatNames names nprim) (hle : r.1 ≤ r.2) (hr : r.2 < nprim) :
    ∀ w ∈ runWords names r, ' ' ∉ w := by
  have hblank : ∀ i < nprim, ' ' ∉ names i := fun i hi hmem => (hn.free i hi _ hmem).1 rfl
  have hlow := hblank r.1 (by omega)
  have hhigh := hblank r.2 hr
  unfold runWords
  split_ifs <;> simp [hlow, hhigh]

private theorem readWords_append (hn : CatNames names nprim) (hle : r.1 ≤ r.2) (hr : r.2 < nprim)
    (ws : List CString) :
    readWords (runWords names r ++ ws) = (readWords ws).map fun items => runItems names r ++ items := by
  have hopen : ∀ i < nprim, names i ≠ ['(', 'r', 'a', 'n', 'g', 'e'] := by
    intro i hi heq
    exact (hn.free i hi '(' (by rw [heq]; simp)).2.1 rfl
  have hlow := hopen r.1 (by omega)
  have hhigh := hopen r.2 hr
  unfold runWords runItems
  split_ifs
  · simp only [List.cons_append, List.nil_append, readWords_name hlow, readWords_name hhigh, Option.map_map]
    rfl
  · simp only [List.cons_append, List.nil_append, readWords, if_true, List.getLast?_concat, List.dropLast_concat]
  · simp only [List.cons_append, List.nil_append, readWords_name hlow]

private theorem readWords_runs (hn : CatNames names nprim) {rs : List (Nat × Nat)}
    (hrs : ∀ r ∈ rs, r.1 ≤ r.2 ∧ r.2 < nprim) :
    readWords (rs.flatMap (runWords names)) = some (rs.flatMap (runItems names)) := by
  induction rs with
  | nil => rfl
  | cons r rs ih =>
    have hr := hrs r (by simp)
    rw [List.flatMap_cons, readWords_append hn hr.1 hr.2, ih fun r hr => hrs r (List.mem_cons_of_mem _ hr)]
    rfl

/-- The text of some runs is read as their items. -/
private theorem readCats_text (hn : CatNames names nprim) {rs : List (Nat × Nat)} (hne : rs ≠ [])
    (hrs : ∀ r ∈ rs, r.1 ≤ r.2 ∧ r.2 < nprim) :
    readCats ((['('] ++ rs.flatMap (runText names)).dropLast ++ [')']) = some (rs.flatMap (runItems names)) := by
  have hwords : rs.flatMap (runText names) = (rs.flatMap (runWords names)).flatMap (· ++ [' ']) := by
    rw [List.flatMap_assoc]
    exact List.flatMap_congr fun r _ => runText_eq names r
  have hblank : ∀ w ∈ rs.flatMap (runWords names), ' ' ∉ w := by
    intro w hw
    obtain ⟨r, hr, hw⟩ := List.mem_flatMap.1 hw
    exact blank_not_mem_runWords hn (hrs r hr).1 (hrs r hr).2 w hw
  have hnil : rs.flatMap (runWords names) ≠ [] := by
    obtain ⟨r, rs, rfl⟩ := List.exists_cons_of_ne_nil hne
    rw [List.flatMap_cons]
    exact List.append_ne_nil_of_left_ne_nil (runWords_ne_nil names r) _
  have hread := readWords_runs hn hrs
  -- the last word is followed by the parenthesis in place of its blank
  obtain ⟨init, last, hsplit⟩ : ∃ init last, rs.flatMap (runWords names) = init ++ [last] :=
    ⟨_, _, (List.dropLast_append_getLast hnil).symm⟩
  rw [hsplit] at hwords hblank hread
  have htext : (['('] ++ rs.flatMap (runText names)).dropLast ++ [')'] =
      '(' :: ((init.flatMap (· ++ [' ']) ++ last) ++ [')']) := by
    have hconcat : ['('] ++ rs.flatMap (runText names) =
        ('(' :: (init.flatMap (· ++ [' ']) ++ last)) ++ [' '] := by
      rw [hwords, List.flatMap_append]
      simp
    rw [hconcat, List.dropLast_concat]
    rfl
  rw [htext, readCats, if_pos ⟨rfl, List.getLast?_concat ..⟩, List.dropLast_concat, Delimited.splitOn_flatMap]
  · exact hread
  · exact fun w hw => hblank w (List.mem_append_left _ hw)
  · exact hblank last (by simp)

end KernelToCil

/-! ### policy.conf -/

namespace KernelToConf

/-- A name, or two of them with a dot between them. -/
def readWord (word : CString) : Option CatItem :=
  match word.splitOn '.' with
  | [n] => some (.name n)
  | [low, high] => some (.range low high)
  | _ => none

/-- The items between commas. -/
def readCats (text : CString) : Option (List CatItem) := (text.splitOn ',').mapM readWord

def runWords (names : Nat → CString) (r : Nat × Nat) : List CString :=
  if runLength r > 1 then
    if runLength r = 2 then [names r.1, names r.2] else [names r.1 ++ '.' :: names r.2]
  else [names r.1]

private theorem intercalate_cons (w : CString) (ws : List CString) :
    [','].intercalate (w :: ws) = w ++ ws.flatMap (',' :: ·) := by
  induction ws generalizing w with
  | nil => simp
  | cons v ws ih =>
    rw [List.flatMap_cons, List.cons_append, ← ih v]
    simp [List.intercalate]

private theorem runText_false_eq (names : Nat → CString) (r : Nat × Nat) :
    runText names false r = (runWords names r).flatMap (',' :: ·) := by
  by_cases hmany : r.2 + 1 - r.1 > 1
  · by_cases htwo : r.2 + 1 - r.1 = 2 <;> simp [runText, catsItem, runWords, runLength, hmany, htwo]
  · simp [runText, catsItem, runWords, runLength, hmany]

private theorem runText_true_eq (names : Nat → CString) (r : Nat × Nat) :
    ∃ w ws, runWords names r = w :: ws ∧ runText names true r = w ++ ws.flatMap (',' :: ·) := by
  by_cases hmany : r.2 + 1 - r.1 > 1
  · by_cases htwo : r.2 + 1 - r.1 = 2
    · exact ⟨names r.1, [names r.2], by simp [runWords, runLength, htwo], by simp [runText, catsItem, htwo]⟩
    · refine ⟨names r.1 ++ '.' :: names r.2, [], ?_, ?_⟩
      · simp [runWords, runLength, hmany, htwo]
      · simp [runText, catsItem, hmany, htwo]
  · exact ⟨names r.1, [], by simp [runWords, runLength, hmany], by simp [runText, catsItem, hmany]⟩

private theorem flatten_runTexts (names : Nat → CString) {rs : List (Nat × Nat)} (hne : rs ≠ []) :
    (runTexts names rs).flatten = [','].intercalate (rs.flatMap (runWords names)) := by
  obtain ⟨r, rs, rfl⟩ := List.exists_cons_of_ne_nil hne
  obtain ⟨w, ws, hwords, htext⟩ := runText_true_eq names r
  have hrest : rs.flatMap (runText names false) = (rs.flatMap (runWords names)).flatMap (',' :: ·) := by
    rw [List.flatMap_assoc]
    exact List.flatMap_congr fun r _ => runText_false_eq names r
  rw [runTexts, List.flatten_cons, ← List.flatMap_def, hrest, htext, List.flatMap_cons, hwords, List.cons_append,
    intercalate_cons, List.flatMap_append, List.append_assoc]

private theorem readWord_name {n : CString} (h : '.' ∉ n) : readWord n = some (.name n) := by
  rw [readWord, Delimited.splitOn_free h]

private theorem readWord_range {low high : CString} (hlow : '.' ∉ low) (hhigh : '.' ∉ high) :
    readWord (low ++ '.' :: high) = some (.range low high) := by
  rw [readWord, Delimited.splitOn_pair hlow hhigh]

private theorem comma_not_mem_runWords (hn : CatNames names nprim) (hle : r.1 ≤ r.2) (hr : r.2 < nprim) :
    ∀ w ∈ runWords names r, ',' ∉ w := by
  have hcomma : ∀ i < nprim, ',' ∉ names i := fun i hi hmem => (hn.free i hi _ hmem).2.2.2.1 rfl
  have hlow := hcomma r.1 (by omega)
  have hhigh := hcomma r.2 hr
  unfold runWords
  split_ifs <;> simp [hlow, hhigh]

private theorem readWords_run (hn : CatNames names nprim) (hle : r.1 ≤ r.2) (hr : r.2 < nprim) :
    (runWords names r).mapM readWord = some (runItems names r) := by
  have hdot : ∀ i < nprim, '.' ∉ names i := fun i hi hmem => (hn.free i hi _ hmem).2.2.2.2 rfl
  have hlow := hdot r.1 (by omega)
  have hhigh := hdot r.2 hr
  unfold runWords runItems
  split_ifs
  · simp [readWord_name hlow, readWord_name hhigh]
  · simp [readWord_range hlow hhigh]
  · simp [readWord_name hlow]

private theorem readWords_runs (hn : CatNames names nprim) {rs : List (Nat × Nat)}
    (hrs : ∀ r ∈ rs, r.1 ≤ r.2 ∧ r.2 < nprim) :
    (rs.flatMap (runWords names)).mapM readWord = some (rs.flatMap (runItems names)) := by
  induction rs with
  | nil => rfl
  | cons r rs ih =>
    have hr := hrs r (by simp)
    rw [List.flatMap_cons, List.mapM_append, readWords_run hn hr.1 hr.2,
      ih fun r hr => hrs r (List.mem_cons_of_mem _ hr)]
    rfl

private theorem readCats_text (hn : CatNames names nprim) {rs : List (Nat × Nat)} (hne : rs ≠ [])
    (hrs : ∀ r ∈ rs, r.1 ≤ r.2 ∧ r.2 < nprim) :
    readCats (runTexts names rs).flatten = some (rs.flatMap (runItems names)) := by
  have hnil : rs.flatMap (runWords names) ≠ [] := by
    obtain ⟨r, rs, rfl⟩ := List.exists_cons_of_ne_nil hne
    obtain ⟨w, ws, hwords, -⟩ := runText_true_eq names r
    rw [List.flatMap_cons, hwords]
    simp
  rw [readCats, flatten_runTexts names hne, List.splitOn_intercalate ',' _ hnil]
  · exact readWords_runs hn hrs
  · intro w hw
    obtain ⟨r, hr, hw⟩ := List.mem_flatMap.1 hw
    exact comma_not_mem_runWords hn (hrs r hr).1 (hrs r hr).2 w hw

end KernelToConf

/-! ### Printing without loss -/

/-- The text `str` for a buffer of `len` characters: it is there, it fits with its terminator, and its items are the
categories of the set. -/
def CatsLossless (e : Ebitmap) (names : Nat → CString) (nprim : Nat) (str : Option CString) (len : Nat)
    (readCats : CString → Option (List CatItem)) : Prop :=
  ∃ text, str = some text ∧ (text.length : Int) + 1 ≤ sizeToInt len ∧
    ∃ items, readCats text = some items ∧ ∀ v < nprim, (∃ item ∈ items, item.Has names nprim v) ↔ v ∈ e

def KernelToCil.Lossless (e : Ebitmap) (names : Nat → CString) (nprim : Nat) : Prop :=
  CatsLossless e names nprim (catsEbitmapToStr e names) (catsEbitmapLen e names) readCats

def KernelToConf.Lossless (e : Ebitmap) (names : Nat → CString) (nprim : Nat) : Prop :=
  CatsLossless e names nprim (catsEbitmapToStr e names) (catsEbitmapLen e names) readCats

/-- The text for CIL fits the number that is counted for it, with the names of the last categories but one of the runs
in place of the last ones, as an `int`. -/
def CilCatsFit (names : Nat → CString) (rs : List (Nat × Nat)) : Prop :=
  (firstLength names rs + lastLength names rs + 2 : Int) ≤
    sizeToInt (firstLength names rs + beforeLastLength names rs + 2)

private theorem KernelToCil.lossless_iff (he : e.Canonical) (hne : ∃ i, i ∈ e) (hlt : ∀ i, i ∈ e → i < nprim)
    (hn : CatNames names nprim) : Lossless e names nprim ↔ CilCatsFit names (catsRuns e) := by
  rw [Lossless, CatsLossless, catsEbitmapToStr_eq he hne]
  constructor
  · rintro ⟨text, htext, -⟩
    split at htext
    · assumption
    · cases htext
  · intro h
    rw [CilCatsFit] at h
    refine ⟨_, if_pos h, ?_, _, readCats_text hn (catsRuns_ne_nil he hne) fun r hr => lt_of_mem_catsRuns he hlt hr,
      fun v hv => exists_item_iff he hlt hn hv⟩
    rw [catsEbitmapLen_eq he hne]
    have hlength := length_flatMap_runText names (catsRuns e)
    simp only [List.length_append, List.length_dropLast, List.length_singleton]
    omega

private theorem KernelToConf.lossless_iff (he : e.Canonical) (hne : ∃ i, i ∈ e) (hlt : ∀ i, i ∈ e → i < nprim)
    (hn : CatNames names nprim) : Lossless e names nprim ↔ confLength names (catsRuns e) < 2 ^ 31 := by
  rw [Lossless, CatsLossless, catsEbitmapToStr_eq he hne]
  constructor
  · rintro ⟨text, htext, -⟩
    split at htext
    · assumption
    · cases htext
  · intro h
    refine ⟨_, if_pos h, ?_, _, readCats_text hn (catsRuns_ne_nil he hne) fun r hr => lt_of_mem_catsRuns he hlt hr,
      fun v hv => exists_item_iff he hlt hn hv⟩
    have hlength := length_runTexts names (catsRuns_ne_nil he hne)
    rw [catsEbitmapLen_eq he, sizeToInt_of_lt h]
    omega

/-- When both texts are printed without loss. -/
theorem cats_lossless_iff (he : e.Canonical) (hne : ∃ i, i ∈ e) (hlt : ∀ i, i ∈ e → i < nprim)
    (hn : CatNames names nprim) :
    KernelToCil.Lossless e names nprim ∧ KernelToConf.Lossless e names nprim ↔
      CilCatsFit names (catsRuns e) ∧ confLength names (catsRuns e) < 2 ^ 31 :=
  and_congr (KernelToCil.lossless_iff he hne hlt hn) (KernelToConf.lossless_iff he hne hlt hn)

theorem cats_lossless_iff_example :
    KernelToCil.Lossless (ebitmapOfList [1, 3, 4, 6, 7, 8]) (fun i => List.replicate i 'c') 10 ∧
        KernelToConf.Lossless (ebitmapOfList [1, 3, 4, 6, 7, 8]) (fun i => List.replicate i 'c') 10 ↔
      CilCatsFit (fun i => List.replicate i 'c') (catsRuns (ebitmapOfList [1, 3, 4, 6, 7, 8])) ∧
        confLength (fun i => List.replicate i 'c') (catsRuns (ebitmapOfList [1, 3, 4, 6, 7, 8])) < 2 ^ 31 := by
  have hmem := mem_ebitmapOfList (l := [1, 3, 4, 6, 7, 8]) (by decide)
  refine cats_lossless_iff (ebitmapOfList_canonical _) ⟨3, (hmem 3).2 (by simp)⟩ (fun i hi => ?_) ⟨?_, ?_⟩
  · exact (by decide : ∀ i ∈ [1, 3, 4, 6, 7, 8], i < 10) i ((hmem i).1 hi)
  · intro i j _ _ heq
    simpa using congrArg List.length heq
  · intro i _ c hc
    rw [List.eq_of_mem_replicate hc]
    decide

/-- The names `c9` and `c10` of a run of two: the first one is counted twice. -/
def numberedCat (i : Nat) : CString := 'c' :: Nat.toDigits 10 i

/-- A run of `c9` and `c10` is not printed for CIL, and its level is printed with a null string. -/
theorem not_cats_lossless_c9_c10 :
    ¬ KernelToCil.Lossless (ebitmapOfList [9, 10]) numberedCat 11 ∧
      KernelToCil.levelToStr ['s', '0'] (ebitmapOfList [9, 10]) numberedCat =
        ['(', 's', '0', ' ', '(', 'n', 'u', 'l', 'l', ')', ')'] := by
  have hnone : KernelToCil.catsEbitmapToStr (ebitmapOfList [9, 10]) numberedCat = none := by decide +kernel
  refine ⟨?_, ?_⟩
  · rintro ⟨text, htext, -⟩
    rw [hnone] at htext
    cases htext
  · rw [KernelToCil.levelToStr, hnone]
    decide +kernel

end Sepol
