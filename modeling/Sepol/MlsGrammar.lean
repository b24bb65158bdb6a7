import Sepol.Mls

/-!
# The grammar of MLS ranges

The texts `mls_context_to_sid` is meant for: a level is a sensitivity, optionally followed by `:` and a
comma-separated list of categories and ranges of categories; a range is a level or two levels with `-` between them.
The relations also say what a text denotes, an interval `[lo, hi)` of bitmap positions for each element of a category
list.  The parser takes the texts of the grammar whose intervals fit in a bitmap, and besides those the texts that go
on after the categories of the high level with `-` and anything.
-/

namespace Sepol

open Delimited (Free scan)

variable {p : Policydb} {s t u rest : CString} {lo hi sens : Nat} {ivs : List (Nat × Nat)} {cat cat' : Ebitmap}

/-- The characters that separate the parts of a range. -/
def mlsSeparator (c : Char) : Bool := c = ':' || c = '-' || c = ',' || c = '.'

/-- The names of sensitivities and categories are free of separators, and the values of categories are values of
a `uint32_t` from 1 on. -/
structure MlsNames (p : Policydb) : Prop where
  sens : ∀ e ∈ p.pLevels.table, Free mlsSeparator e.1
  cat : ∀ e ∈ p.pCats.table, Free mlsSeparator e.1
  value : ∀ e ∈ p.pCats.table, 1 ≤ e.2.value ∧ e.2.value < 2 ^ 32

/-- A category, or a range `c1.c2` with increasing values. -/
inductive CatElem (p : Policydb) : CString → Nat → Nat → Prop where
  | single {t : CString} {d : CatDatum} : hashtabSearch p.pCats.table t = some d → CatElem p t (d.value - 1) d.value
  | range {t u : CString} {d d' : CatDatum} : hashtabSearch p.pCats.table t = some d →
      hashtabSearch p.pCats.table u = some d' → d.value < d'.value →
      CatElem p (t ++ '.' :: u) (d.value - 1) d'.value

/-- A comma-separated list of at least one element. -/
inductive CatList (p : Policydb) : CString → List (Nat × Nat) → Prop where
  | single {t : CString} {lo hi : Nat} : CatElem p t lo hi → CatList p t [(lo, hi)]
  | cons {t u : CString} {lo hi : Nat} {ivs : List (Nat × Nat)} : CatElem p t lo hi → CatList p u ivs →
      CatList p (t ++ ',' :: u) ((lo, hi) :: ivs)

/-- A sensitivity, optionally followed by a colon and a category list. -/
inductive LevelText (p : Policydb) : CString → Nat → List (Nat × Nat) → Prop where
  | bare {t : CString} {d : LevelDatum} : hashtabSearch p.pLevels.table t = some d → LevelText p t d.level.sens []
  | cats {t u : CString} {d : LevelDatum} {ivs : List (Nat × Nat)} : hashtabSearch p.pLevels.table t = some d →
      CatList p u ivs → LevelText p (t ++ ':' :: u) d.level.sens ivs

/-- All intervals end within the positions a bitmap can have. -/
def Fits (ivs : List (Nat × Nat)) : Prop := ∀ iv ∈ ivs, iv.2 ≤ 2 ^ 32 - 64

/-! ### The separators in the texts -/

private theorem free_of_hashtabSearch {α : Type} {table : List (CString × α)} {stop : Char → Bool}
    (h : ∀ e ∈ table, Free stop e.1) {d : α} (ht : hashtabSearch table t = some d) : Free stop t := by
  obtain ⟨e, he, rfl⟩ := Option.map_eq_some_iff.1 ht
  have hkey : e.1 = t := by simpa using List.find?_some he
  exact hkey ▸ h e (List.mem_of_find?_eq_some he)

private theorem free_mono {stop stop' : Char → Bool} (h : ∀ c, stop' c = true → stop c = true)
    (ht : Free stop t) : Free stop' t := fun c hc => by
  cases hs : stop' c with
  | false => rfl
  | true => rw [← ht c hc]; exact (h c hs).symm

private theorem MlsNames.cat_free (h : MlsNames p) {d : CatDatum} (ht : hashtabSearch p.pCats.table t = some d) :
    Free mlsSeparator t := free_of_hashtabSearch h.cat ht

private theorem MlsNames.cat_value (h : MlsNames p) {d : CatDatum} (ht : hashtabSearch p.pCats.table t = some d) :
    1 ≤ d.value ∧ d.value < 2 ^ 32 := h.value _ (mem_of_hashtabSearch ht)

private theorem MlsNames.sens_free (h : MlsNames p) {d : LevelDatum} (ht : hashtabSearch p.pLevels.table t = some d) :
    Free mlsSeparator t := free_of_hashtabSearch h.sens ht

/-- The separators that cannot stand in an element of a category list. -/
def mlsElemSeparator (c : Char) : Bool := c = ':' || c = '-' || c = ','

/-- The separators that cannot stand in a category list. -/
def mlsListSeparator (c : Char) : Bool := c = ':' || c = '-'

private theorem elemSeparator_imp (c : Char) (h : mlsElemSeparator c = true) : mlsSeparator c = true := by
  simp only [mlsElemSeparator, mlsSeparator, Bool.or_eq_true] at h ⊢
  tauto

private theorem listSeparator_imp (c : Char) (h : mlsListSeparator c = true) : mlsElemSeparator c = true := by
  simp only [mlsElemSeparator, mlsListSeparator, Bool.or_eq_true] at h ⊢
  tauto

theorem CatElem.free (hp : MlsNames p) (h : CatElem p t lo hi) : Free mlsElemSeparator t := by
  cases h with
  | single hd => exact free_mono elemSeparator_imp (hp.cat_free hd)
  | range hd hd' =>
    exact (free_mono elemSeparator_imp (hp.cat_free hd)).append
      ((free_mono elemSeparator_imp (hp.cat_free hd')).cons (by decide))

theorem CatList.free (hp : MlsNames p) (h : CatList p t ivs) : Free mlsListSeparator t := by
  induction h with
  | single he => exact free_mono listSeparator_imp (he.free hp)
  | cons he _ ih => exact (free_mono listSeparator_imp (he.free hp)).append (ih.cons (by decide))

/-- A level has no dash. -/
theorem LevelText.free (hp : MlsNames p) (h : LevelText p t sens ivs) : Free (fun c => c = '-') t := by
  have hsep : ∀ c : Char, decide (c = '-') = true → mlsSeparator c = true := fun c hc => by
    simp only [mlsSeparator, Bool.or_eq_true]
    exact Or.inl (Or.inl (Or.inr hc))
  have hlist : ∀ c : Char, decide (c = '-') = true → mlsListSeparator c = true := fun c hc => by
    simp only [mlsListSeparator, Bool.or_eq_true]
    exact Or.inr hc
  cases h with
  | bare hd => exact free_mono hsep (hp.sens_free hd)
  | cats hd hl => exact (free_mono hsep (hp.sens_free hd)).append ((free_mono hlist (hl.free hp)).cons (by decide))

/-! ### Setting the bits of an interval -/

/-- `cat'` has the members of `cat` and the interval `[lo, hi)`. -/
def SetsInterval (cat cat' : Ebitmap) (lo hi : Nat) : Prop :=
  cat.Canonical → cat'.Canonical ∧ ∀ i, i ∈ cat' ↔ i ∈ cat ∨ lo ≤ i ∧ i < hi

private theorem ebitmapSetBit_interval (cat : Ebitmap) (bit : Nat) (hbit : bit < 2 ^ 32 - 64) :
    ∃ cat', ebitmapSetBit cat bit true = some cat' ∧ SetsInterval cat cat' bit (bit + 1) := by
  refine ⟨_, ebitmapSetBit_true hbit cat, fun h => ⟨h.setBit hbit (ebitmapSetBit_true hbit cat), fun i => ?_⟩⟩
  rw [mem_of_ebitmapSetBit h hbit (ebitmapSetBit_true hbit cat)]
  exact or_congr_right (by omega)

theorem ebitmapSetBit_none {bit : Nat} (h1 : 2 ^ 32 - 64 ≤ bit) (h2 : bit < 2 ^ 32) (cat : Ebitmap) :
    ebitmapSetBit cat bit true = none := by
  have : uint32 (bit - bit % mapsize + mapsize) = 0 := by
    simp only [uint32, mapsize]
    omega
  simp [ebitmapSetBit, this]

theorem lt_of_ebitmapSetBit {e e' : Ebitmap} {bit : Nat} (h : ebitmapSetBit e bit true = some e')
    (hbit : bit < 2 ^ 32) : bit < 2 ^ 32 - 64 := by
  by_contra hge
  rw [ebitmapSetBit_none (by omega) hbit] at h
  cases h

theorem SetsInterval.append {cat1 : Ebitmap} {mid : Nat} (h : SetsInterval cat cat1 lo mid)
    (h' : SetsInterval cat1 cat' mid hi) (hlo : lo ≤ mid) (hhi : mid ≤ hi) : SetsInterval cat cat' lo hi := by
  intro hc
  obtain ⟨hc1, hm1⟩ := h hc
  obtain ⟨hc2, hm2⟩ := h' hc1
  refine ⟨hc2, fun i => ?_⟩
  rw [hm2, hm1, or_assoc]
  exact or_congr_right (by omega)

private theorem foldlM_setBit (cat : Ebitmap) (lo n : Nat) (h : lo + n ≤ 2 ^ 32 - 64) :
    ∃ cat', (List.range' lo n).foldlM (fun cat i => ebitmapSetBit cat i true) cat = some cat' ∧
      SetsInterval cat cat' lo (lo + n) := by
  induction n generalizing lo cat with
  | zero => exact ⟨cat, rfl, fun hc => ⟨hc, fun i => (or_iff_left (by omega)).symm⟩⟩
  | succ n ih =>
    obtain ⟨cat1, e1, h1⟩ := ebitmapSetBit_interval cat lo (by omega)
    obtain ⟨cat2, e2, h2⟩ := ih cat1 (lo + 1) (by omega)
    refine ⟨cat2, ?_, ?_⟩
    · rw [List.range'_succ, List.foldlM_cons, e1]
      exact e2
    · rw [show lo + (n + 1) = lo + 1 + n by omega]
      exact h1.append h2 (by omega) (by omega)

private theorem foldlM_setBit_fits {cat : Ebitmap} (lo n : Nat) (hn : 0 < n) (hlt : lo + n < 2 ^ 32)
    (h : (List.range' lo n).foldlM (fun cat i => ebitmapSetBit cat i true) cat = some cat') :
    lo + n ≤ 2 ^ 32 - 64 := by
  induction n generalizing lo cat with
  | zero => omega
  | succ n ih =>
    rw [List.range'_succ, List.foldlM_cons] at h
    obtain ⟨cat1, e1, h1⟩ := Option.bind_eq_some_iff.1 h
    by_cases hn0 : n = 0
    · subst hn0
      by_contra hgt
      rw [ebitmapSetBit_none (by omega) (by omega)] at e1
      cases e1
    · have := ih (lo + 1) (by omega) (by omega) h1
      omega

/-! ### Elements, lists and levels -/

private theorem mlsParseCat_of_catElem (hp : MlsNames p) (h : CatElem p t lo hi) (hfit : hi ≤ 2 ^ 32 - 64)
    (cat : Ebitmap) : ∃ cat', mlsParseCat p cat t = some cat' ∧ SetsInterval cat cat' lo hi := by
  have hdot : ∀ {t : CString}, Free mlsSeparator t → Free (fun c => c = '.') t := fun hf => free_mono (fun c hc => by
    simp only [mlsSeparator, Bool.or_eq_true]; exact Or.inr hc) hf
  cases h with
  | @single t d hd =>
    have hv := hp.cat_value hd
    obtain ⟨cat1, e1, h1⟩ := ebitmapSetBit_interval cat (d.value - 1) (by omega)
    refine ⟨cat1, ?_, ?_⟩
    · rw [mlsParseCat, Delimited.scan_of_free (hdot (hp.cat_free hd))]
      simp [hd, e1]
    · rwa [show d.value - 1 + 1 = d.value by omega] at h1
  | @range t u d d' hd hd' hlt =>
    have hv := hp.cat_value hd
    obtain ⟨cat1, e1, h1⟩ := ebitmapSetBit_interval cat (d.value - 1) (by omega)
    obtain ⟨cat2, e2, h2⟩ := foldlM_setBit cat1 d.value (d'.value - d.value) (by omega)
    refine ⟨cat2, ?_, ?_⟩
    · rw [mlsParseCat, Delimited.scan_append_cons (hdot (hp.cat_free hd)) (by decide)]
      simp [hd, hd', e1, e2, Nat.not_le.2 hlt]
    · rw [show d.value - 1 + 1 = d.value by omega] at h1
      rw [show d.value + (d'.value - d.value) = d'.value by omega] at h2
      exact h1.append h2 (by omega) (by omega)

private theorem catElem_of_mlsParseCat (hp : MlsNames p) (h : mlsParseCat p cat t = some cat') :
    ∃ lo hi, CatElem p t lo hi ∧ hi ≤ 2 ^ 32 - 64 := by
  rcases Delimited.scan_cases (fun c => decide (c = '.')) t with ⟨_, e⟩ | ⟨name, dot, rng, _, hdot, rfl, e⟩
  · rw [mlsParseCat, e] at h
    obtain ⟨d, hd, h⟩ := Option.bind_eq_some_iff.1 h
    obtain ⟨cat1, e1, _⟩ := Option.bind_eq_some_iff.1 h
    have hv := hp.cat_value hd
    refine ⟨_, _, .single hd, ?_⟩
    by_contra hgt
    rw [ebitmapSetBit_none (by omega) (by omega)] at e1
    cases e1
  · obtain rfl : dot = '.' := by simpa using hdot
    rw [mlsParseCat, e] at h
    obtain ⟨d, hd, h⟩ := Option.bind_eq_some_iff.1 h
    obtain ⟨cat1, e1, h⟩ := Option.bind_eq_some_iff.1 h
    obtain ⟨d', hd', h⟩ := Option.bind_eq_some_iff.1 h
    have hv := hp.cat_value hd
    have hv' := hp.cat_value hd'
    by_cases hle : d.value ≥ d'.value
    · simp [hle] at h
    · have h : (List.range' d.value (d'.value - d.value)).foldlM (fun cat i => ebitmapSetBit cat i true) cat1 =
          some cat' := by simpa [hle] using h
      have := foldlM_setBit_fits _ _ (by omega) (by omega) h
      exact ⟨_, _, .range hd hd' (by omega), by omega⟩

/-- `cat'` has the members of `cat` and those of the intervals. -/
def SetsIntervals (cat cat' : Ebitmap) (ivs : List (Nat × Nat)) : Prop :=
  cat.Canonical → cat'.Canonical ∧ ∀ i, i ∈ cat' ↔ i ∈ cat ∨ ∃ iv ∈ ivs, iv.1 ≤ i ∧ i < iv.2

theorem SetsInterval.cons {cat1 : Ebitmap} (h : SetsInterval cat cat1 lo hi) (h' : SetsIntervals cat1 cat' ivs) :
    SetsIntervals cat cat' ((lo, hi) :: ivs) := by
  intro hc
  obtain ⟨hc1, hm1⟩ := h hc
  obtain ⟨hc2, hm2⟩ := h' hc1
  refine ⟨hc2, fun i => ?_⟩
  rw [hm2, hm1, or_assoc, List.exists_mem_cons_iff]

theorem SetsIntervals.nil : SetsIntervals cat cat [] := fun hc => ⟨hc, fun i => by simp⟩

/-- The stop characters of the scans in a category list. -/
private def catStop (c : Char) : Bool := c = ',' || c = '-'

private theorem catElem_catStop (hp : MlsNames p) (h : CatElem p t lo hi) : Free catStop t := by
  refine free_mono (fun c hc => ?_) (h.free hp)
  simp only [catStop, mlsElemSeparator, Bool.or_eq_true] at hc ⊢
  tauto

/-- The parser takes a category list that fits, at the end of the text and in front of a dash. -/
private theorem mlsParseCats_of_catList (hp : MlsNames p) (h : CatList p t ivs) (hfit : Fits ivs) (cat : Ebitmap) :
    ∃ cat', SetsIntervals cat cat' ivs ∧ ∀ fuel, t.length < fuel →
      mlsParseCats p fuel cat t = some (cat', none, []) ∧
      ∀ rest, mlsParseCats p fuel cat (t ++ '-' :: rest) = some (cat', some '-', rest) := by
  induction h generalizing cat with
  | @single t lo hi he =>
    obtain ⟨cat', e, hset⟩ := mlsParseCat_of_catElem hp he (hfit _ (List.mem_singleton_self _)) cat
    have hfree := catElem_catStop hp he
    refine ⟨cat', hset.cons .nil, fun fuel hfuel => ?_⟩
    obtain ⟨fuel, rfl⟩ := Nat.exists_eq_succ_of_ne_zero (Nat.ne_zero_of_lt hfuel)
    refine ⟨?_, fun rest => ?_⟩
    · rw [mlsParseCats, show scan (fun c => c = ',' || c = '-') t = (t, none, []) from Delimited.scan_of_free hfree]
      simp [e]
    · rw [mlsParseCats, show scan (fun c => c = ',' || c = '-') (t ++ '-' :: rest) = (t, some '-', rest) from
        Delimited.scan_append_cons hfree (by decide)]
      simp [e]
  | @cons t u lo hi ivs he _ ih =>
    obtain ⟨cat1, e, hset⟩ := mlsParseCat_of_catElem hp he (hfit _ (List.mem_cons_self ..)) cat
    obtain ⟨cat', hset', hrest⟩ := ih (fun iv hiv => hfit iv (List.mem_cons_of_mem _ hiv)) cat1
    have hfree := catElem_catStop hp he
    refine ⟨cat', hset.cons hset', fun fuel hfuel => ?_⟩
    obtain ⟨fuel, rfl⟩ := Nat.exists_eq_succ_of_ne_zero (Nat.ne_zero_of_lt hfuel)
    have hlen : u.length < fuel := by
      simp only [List.length_append, List.length_cons] at hfuel
      omega
    obtain ⟨h1, h2⟩ := hrest fuel hlen
    have hscan : ∀ r, scan (fun c => c = ',' || c = '-') (t ++ ',' :: r) = (t, some ',', r) := fun r =>
      Delimited.scan_append_cons hfree (by decide)
    refine ⟨?_, fun rest => ?_⟩
    · rw [mlsParseCats, hscan]
      simpa [e] using h1
    · rw [mlsParseCats, List.append_assoc, List.cons_append, hscan]
      simpa [e] using h2 rest

/-- What the parser takes as a category list is one. -/
private theorem catList_of_mlsParseCats (hp : MlsNames p) {fuel : Nat} {delim : Option Char}
    (h : mlsParseCats p fuel cat s = some (cat', delim, rest)) :
    ∃ t ivs, CatList p t ivs ∧ Fits ivs ∧
      (delim = none ∧ rest = [] ∧ s = t ∨ delim = some '-' ∧ s = t ++ '-' :: rest) := by
  induction fuel generalizing cat s with
  | zero => cases h
  | succ fuel ih =>
    rw [mlsParseCats] at h
    rcases Delimited.scan_cases (fun c => c = ',' || c = '-') s with ⟨_, e⟩ | ⟨t, d, r, _, hd, rfl, e⟩
    · rw [e] at h
      obtain ⟨cat1, e1, h⟩ := Option.bind_eq_some_iff.1 h
      obtain ⟨lo, hi, he, hfit⟩ := catElem_of_mlsParseCat hp e1
      simp only [reduceCtorEq, if_false] at h
      cases h
      exact ⟨s, _, .single he, fun iv hiv => by rw [List.mem_singleton.1 hiv]; exact hfit, Or.inl ⟨rfl, rfl, rfl⟩⟩
    · rw [e] at h
      obtain ⟨cat1, e1, h⟩ := Option.bind_eq_some_iff.1 h
      obtain ⟨lo, hi, he, hfit⟩ := catElem_of_mlsParseCat hp e1
      by_cases hcomma : d = ','
      · subst hcomma
        simp only [if_true] at h
        obtain ⟨u, ivs, hu, hfits, hend⟩ := ih h
        refine ⟨t ++ ',' :: u, _, .cons he hu, fun iv hiv => ?_, ?_⟩
        · rcases List.mem_cons.1 hiv with rfl | hiv
          · exact hfit
          · exact hfits iv hiv
        · rcases hend with ⟨hd, hr, rfl⟩ | ⟨hd, rfl⟩
          · exact Or.inl ⟨hd, hr, rfl⟩
          · exact Or.inr ⟨hd, by simp⟩
      · have hdash : d = '-' := by simpa [hcomma] using hd
        subst hdash
        simp only [Option.some.injEq, hcomma, if_false] at h
        cases h
        exact ⟨t, _, .single he, fun iv hiv => by rw [List.mem_singleton.1 hiv]; exact hfit, Or.inr ⟨rfl, rfl⟩⟩

/-- The stop characters of the scan for the sensitivity of the low level. -/
private def lowStop (c : Char) : Bool := c = ':' || c = '-'

private theorem sens_lowStop (hp : MlsNames p) {d : LevelDatum} (h : hashtabSearch p.pLevels.table t = some d) :
    Free lowStop t := by
  refine free_mono (fun c hc => ?_) (hp.sens_free h)
  simp only [lowStop, mlsSeparator, Bool.or_eq_true] at hc ⊢
  tauto

private theorem sens_colon (hp : MlsNames p) {d : LevelDatum} (h : hashtabSearch p.pLevels.table t = some d) :
    Free (fun c => decide (c = ':')) t := by
  refine free_mono (fun c hc => ?_) (hp.sens_free h)
  simp only [mlsSeparator, Bool.or_eq_true]
  tauto

variable {level level' : MlsLevel} {delim : Option Char}

/-- The scan for a sensitivity and the pass over the level. -/
def mlsScanLevel (p : Policydb) (stop : Char → Bool) (level : MlsLevel) (s : CString) :
    Option (MlsLevel × Option Char × CString) :=
  let (scontextp, delim, rest) := scan stop s
  mlsParseLevel p level scontextp delim rest

private theorem mlsParseLevel_bare {d : LevelDatum} (hd : hashtabSearch p.pLevels.table t = some d)
    (hdelim : delim ≠ some ':') :
    mlsParseLevel p level t delim rest = some (⟨d.level.sens, level.cat⟩, delim, rest) := by
  simp [mlsParseLevel, hd, hdelim]

private theorem mlsParseLevel_cats {d : LevelDatum} (hd : hashtabSearch p.pLevels.table t = some d)
    {delim' : Option Char} {rest' : CString}
    (h : mlsParseCats p (rest.length + 1) level.cat rest = some (cat', delim', rest')) :
    mlsParseLevel p level t (some ':') rest = some (⟨d.level.sens, cat'⟩, delim', rest') := by
  simp [mlsParseLevel, hd, h]

/-- The parser takes a level that fits: at the end of the text after both scans, in front of a dash after the scan
for the low level, and with categories after both. -/
private theorem mlsScanLevel_of_levelText (hp : MlsNames p) (h : LevelText p t sens ivs) (hfit : Fits ivs)
    (level : MlsLevel) :
    ∃ cat', SetsIntervals level.cat cat' ivs ∧
      (∀ stop, stop = lowStop ∨ stop = (fun c => decide (c = ':')) →
        mlsScanLevel p stop level t = some (⟨sens, cat'⟩, none, [])) ∧
      (∀ stop, stop = lowStop ∨ stop = (fun c => decide (c = ':')) ∧ ivs ≠ [] →
        ∀ rest, mlsScanLevel p stop level (t ++ '-' :: rest) = some (⟨sens, cat'⟩, some '-', rest)) := by
  cases h with
  | @bare t d hd =>
    refine ⟨level.cat, .nil, fun stop hstop => ?_, fun stop hstop rest => ?_⟩
    · have hfree : Free stop t := by
        rcases hstop with rfl | rfl
        · exact sens_lowStop hp hd
        · exact sens_colon hp hd
      rw [mlsScanLevel, Delimited.scan_of_free hfree]
      exact mlsParseLevel_bare hd (by simp)
    · obtain rfl : stop = lowStop := by
        rcases hstop with rfl | ⟨_, hne⟩
        · rfl
        · exact absurd rfl hne
      rw [mlsScanLevel, Delimited.scan_append_cons (sens_lowStop hp hd) (by decide)]
      exact mlsParseLevel_bare hd (by decide)
  | @cats t u d ivs hd hl =>
    obtain ⟨cat', hset, hparse⟩ := mlsParseCats_of_catList hp hl hfit level.cat
    have hscan : ∀ {stop : Char → Bool}, stop = lowStop ∨ stop = (fun c => decide (c = ':')) →
        ∀ r, scan stop (t ++ ':' :: r) = (t, some ':', r) := fun hstop r => by
      rcases hstop with rfl | rfl
      · exact Delimited.scan_append_cons (sens_lowStop hp hd) (by decide)
      · exact Delimited.scan_append_cons (sens_colon hp hd) (by decide)
    refine ⟨cat', hset, fun stop hstop => ?_, fun stop hstop rest => ?_⟩
    · rw [mlsScanLevel, hscan hstop]
      exact mlsParseLevel_cats hd (hparse _ (by omega)).1
    · rw [mlsScanLevel, List.append_assoc, List.cons_append, hscan (hstop.imp_right And.left)]
      refine mlsParseLevel_cats hd ((hparse _ ?_).2 rest)
      simp only [List.length_append, List.length_cons]
      omega

/-- What the parser takes as a level is one; after the scan for the high level only a level with categories can be
followed by a dash. -/
private theorem levelText_of_mlsScanLevel (hp : MlsNames p) {stop : Char → Bool}
    (hstop : stop = lowStop ∨ stop = fun c => decide (c = ':'))
    (h : mlsScanLevel p stop level s = some (level', delim, rest)) :
    ∃ t sens ivs, LevelText p t sens ivs ∧ Fits ivs ∧
      (delim = none ∧ s = t ∨
        delim = some '-' ∧ s = t ++ '-' :: rest ∧ (stop = lowStop ∨ ivs ≠ [])) := by
  have hfits : Fits [] := fun iv hiv => by cases hiv
  have hne : ∀ {u : CString} {ivs : List (Nat × Nat)}, CatList p u ivs → ivs ≠ [] := fun hl => by
    cases hl <;> simp
  rw [mlsScanLevel] at h
  rcases Delimited.scan_cases stop s with ⟨_, e⟩ | ⟨t, c, r, _, hc, rfl, e⟩
  · rw [e] at h
    obtain ⟨d, hd, h⟩ := Option.bind_eq_some_iff.1 h
    simp only [reduceCtorEq, if_false] at h
    cases h
    exact ⟨s, _, _, .bare hd, hfits, Or.inl ⟨rfl, rfl⟩⟩
  · rw [e] at h
    obtain ⟨d, hd, h⟩ := Option.bind_eq_some_iff.1 h
    by_cases hcolon : c = ':'
    · subst hcolon
      simp only [if_true] at h
      obtain ⟨⟨cat', delim', rest'⟩, hcats, h⟩ := Option.bind_eq_some_iff.1 h
      cases h
      obtain ⟨u, ivs, hu, hfit, hend⟩ := catList_of_mlsParseCats hp hcats
      refine ⟨t ++ ':' :: u, _, ivs, .cats hd hu, hfit, ?_⟩
      rcases hend with ⟨rfl, rfl, rfl⟩ | ⟨rfl, rfl⟩
      · exact Or.inl ⟨rfl, rfl⟩
      · exact Or.inr ⟨rfl, by simp, Or.inr (hne hu)⟩
    · have hlow : stop = lowStop ∧ c = '-' := by
        rcases hstop with rfl | rfl
        · exact ⟨rfl, by simpa [lowStop, hcolon] using hc⟩
        · exact absurd (by simpa using hc) hcolon
      obtain ⟨rfl, rfl⟩ := hlow
      simp only [Option.some.injEq, hcolon, if_false] at h
      cases h
      exact ⟨t, _, _, .bare hd, hfits, Or.inr ⟨rfl, rfl, Or.inl rfl⟩⟩

/-! ### Ranges -/

/-- A level, or two levels with a dash between them. -/
def RangeText (p : Policydb) (s : CString) : Prop :=
  (∃ sens ivs, LevelText p s sens ivs) ∨
    ∃ t u sens ivs sens' ivs', LevelText p t sens ivs ∧ LevelText p u sens' ivs' ∧ s = t ++ '-' :: u

/-- A text of the grammar all of whose categories fit in a bitmap. -/
def RangeTextFits (p : Policydb) (s : CString) : Prop :=
  (∃ sens ivs, LevelText p s sens ivs ∧ Fits ivs) ∨
    ∃ t u sens ivs sens' ivs', LevelText p t sens ivs ∧ Fits ivs ∧ LevelText p u sens' ivs' ∧ Fits ivs' ∧
      s = t ++ '-' :: u

/-- Two levels, the high one with categories, followed by a dash and any text. -/
def RangeTextTail (p : Policydb) (s : CString) : Prop :=
  ∃ t u rest sens ivs sens' ivs', LevelText p t sens ivs ∧ Fits ivs ∧ LevelText p u sens' ivs' ∧ Fits ivs' ∧
    ivs' ≠ [] ∧ s = t ++ '-' :: (u ++ '-' :: rest)

private theorem mlsContextToSid_eq (hm : p.mls = true) {oldc : Char} (hc : oldc ≠ '\x00') (s : CString)
    (c : Context) : mlsContextToSid p oldc s c = (mlsScanLevel p lowStop c.range.level0 s).bind fun r =>
      if r.2.1 = some '-' then
        (mlsScanLevel p (fun ch => decide (ch = ':')) c.range.level1 r.2.2).bind fun r' =>
          some ({ c with range := ⟨r.1, r'.1⟩ },
            (if r'.2.1 = some '-' then (scan (fun ch => decide (ch = ':')) r'.2.2).2.2 else r'.2.2).drop 1)
      else some ({ c with range := ⟨r.1, mlsLevelCpy r.1⟩ }, r.2.2.drop 1) := by
  simp only [mlsContextToSid, hm, hc]
  rfl

theorem mlsContextToSid_of_level (hp : MlsNames p) (hm : p.mls = true) {oldc : Char} (hc : oldc ≠ '\x00')
    (h : LevelText p s sens ivs) (hfit : Fits ivs) (c : Context) :
    ∃ cat rest, SetsIntervals c.range.level0.cat cat ivs ∧
      mlsContextToSid p oldc s c = some ({ c with range := ⟨⟨sens, cat⟩, ⟨sens, cat⟩⟩ }, rest) := by
  obtain ⟨cat, hset, hend, _⟩ := mlsScanLevel_of_levelText hp h hfit c.range.level0
  refine ⟨cat, [], hset, ?_⟩
  rw [mlsContextToSid_eq hm hc, hend _ (Or.inl rfl)]
  simp

theorem mlsContextToSid_of_levels (hp : MlsNames p) (hm : p.mls = true) {oldc : Char} (hc : oldc ≠ '\x00')
    {sens' : Nat} {ivs' : List (Nat × Nat)} (h : LevelText p t sens ivs) (hfit : Fits ivs)
    (h' : LevelText p u sens' ivs') (hfit' : Fits ivs') (c : Context) :
    ∃ cat cat' rest, SetsIntervals c.range.level0.cat cat ivs ∧ SetsIntervals c.range.level1.cat cat' ivs' ∧
      mlsContextToSid p oldc (t ++ '-' :: u) c = some ({ c with range := ⟨⟨sens, cat⟩, ⟨sens', cat'⟩⟩ }, rest) := by
  obtain ⟨cat, hset, _, hdash⟩ := mlsScanLevel_of_levelText hp h hfit c.range.level0
  obtain ⟨cat', hset', hend, _⟩ := mlsScanLevel_of_levelText hp h' hfit' c.range.level1
  refine ⟨cat, cat', [], hset, hset', ?_⟩
  rw [mlsContextToSid_eq hm hc, hdash _ (Or.inl rfl), Option.bind_some, if_pos rfl, hend _ (Or.inr rfl)]
  rfl

/-- The texts that the parser takes. -/
private theorem mlsContextToSid_isSome_iff (hp : MlsNames p) (hm : p.mls = true) {oldc : Char} (hc : oldc ≠ '\x00')
    (s : CString) (c : Context) :
    (mlsContextToSid p oldc s c).isSome = true ↔ RangeTextFits p s ∨ RangeTextTail p s := by
  constructor
  · intro h
    obtain ⟨r, hr⟩ := Option.isSome_iff_exists.1 h
    rw [mlsContextToSid_eq hm hc] at hr
    obtain ⟨⟨level0, delim, rest⟩, h0, hrest⟩ := Option.bind_eq_some_iff.1 hr
    obtain ⟨t, sens, ivs, ht, hfit, hend⟩ := levelText_of_mlsScanLevel hp (Or.inl rfl) h0
    rcases hend with ⟨rfl, rfl⟩ | ⟨rfl, rfl, _⟩
    · exact Or.inl (Or.inl ⟨sens, ivs, ht, hfit⟩)
    · rw [if_pos rfl] at hrest
      obtain ⟨⟨level1, delim, rest'⟩, h1, _⟩ := Option.bind_eq_some_iff.1 hrest
      obtain ⟨u, sens', ivs', hu, hfit', hend'⟩ := levelText_of_mlsScanLevel hp (Or.inr rfl) h1
      rcases hend' with ⟨_, rfl⟩ | ⟨_, rfl, hne⟩
      · exact Or.inl (Or.inr ⟨t, rest, sens, ivs, sens', ivs', ht, hfit, hu, hfit', rfl⟩)
      · have hne : ivs' ≠ [] := hne.resolve_left fun e => by
          have := congrFun e '-'
          revert this
          decide
        exact Or.inr ⟨t, u, rest', sens, ivs, sens', ivs', ht, hfit, hu, hfit', hne, rfl⟩
  · rintro ((⟨sens, ivs, ht, hfit⟩ | ⟨t, u, sens, ivs, sens', ivs', ht, hfit, hu, hfit', rfl⟩) |
      ⟨t, u, rest, sens, ivs, sens', ivs', ht, hfit, hu, hfit', hne, rfl⟩)
    · obtain ⟨cat, rest, _, e⟩ := mlsContextToSid_of_level hp hm hc ht hfit c
      rw [e]; rfl
    · obtain ⟨cat, cat', rest, _, _, e⟩ := mlsContextToSid_of_levels hp hm hc ht hfit hu hfit' c
      rw [e]; rfl
    · -- the dash behind the categories of the high level ends its list, and what follows is not looked at
      obtain ⟨cat, _, _, hdash⟩ := mlsScanLevel_of_levelText hp ht hfit c.range.level0
      obtain ⟨cat', _, _, hdash'⟩ := mlsScanLevel_of_levelText hp hu hfit' c.range.level1
      rw [mlsContextToSid_eq hm hc, hdash _ (Or.inl rfl), Option.bind_some, if_pos rfl, hdash' _ (Or.inr ⟨rfl, hne⟩)]
      rfl

private theorem RangeText.count_le (hp : MlsNames p) (h : RangeText p s) : s.count '-' ≤ 1 := by
  have hzero : ∀ {t : CString} {sens : Nat} {ivs : List (Nat × Nat)}, LevelText p t sens ivs → t.count '-' = 0 := by
    intro t sens ivs ht
    rw [List.count_eq_zero]
    intro hmem
    have := ht.free hp '-' hmem
    revert this
    decide
  rcases h with ⟨sens, ivs, ht⟩ | ⟨t, u, sens, ivs, sens', ivs', ht, hu, rfl⟩
  · rw [hzero ht]; omega
  · rw [List.count_append, List.count_cons_self, hzero ht, hzero hu]

/-- The parser decides the grammar exactly for the texts that do not go on behind the categories of the high level and
whose categories fit in a bitmap. -/
theorem mlsContextToSid_grammar_iff (hp : MlsNames p) (hm : p.mls = true) {oldc : Char} (hc : oldc ≠ '\x00')
    (s : CString) (c : Context) :
    ((mlsContextToSid p oldc s c).isSome = true ↔ RangeText p s) ↔
      ¬ RangeTextTail p s ∧ (RangeText p s → RangeTextFits p s) := by
  have hfits : RangeTextFits p s → RangeText p s := by
    rintro (⟨sens, ivs, ht, _⟩ | ⟨t, u, sens, ivs, sens', ivs', ht, _, hu, _, e⟩)
    · exact Or.inl ⟨sens, ivs, ht⟩
    · exact Or.inr ⟨t, u, sens, ivs, sens', ivs', ht, hu, e⟩
  have htail : RangeTextTail p s → ¬ RangeText p s := by
    rintro ⟨t, u, rest, sens, ivs, sens', ivs', _, _, _, _, _, rfl⟩ hs
    have := hs.count_le hp
    simp only [List.count_append, List.count_cons_self] at this
    omega
  rw [mlsContextToSid_isSome_iff hp hm hc]
  by_cases ht : RangeTextTail p s
  · exact iff_of_false (fun h => htail ht (h.1 (Or.inr ht))) fun h => h.1 ht
  · simp only [ht, or_false, not_false_eq_true, true_and]
    exact ⟨fun h => h.2, fun h => ⟨hfits, h⟩⟩

/-- A policy with the sensitivities `s0`, `s1` and the categories `c0` to `c2`. -/
def twoLevelPolicy : Policydb where
  __ := policydbInit
  mls := true
  pLevels := ⟨[(['s', '0'], ⟨1, ebitmapInit⟩), (['s', '1'], ⟨2, ebitmapInit⟩)], 2⟩
  pCats := ⟨[(['c', '0'], ⟨1⟩), (['c', '1'], ⟨2⟩), (['c', '2'], ⟨3⟩)], 3⟩

private theorem twoLevelPolicy_names : MlsNames twoLevelPolicy := ⟨by decide, by decide, by decide⟩

/-- The range `s0-s1:c0.c2`. -/
theorem mlsContextToSid_grammar_iff_range :
    ((mlsContextToSid twoLevelPolicy '$' ['s', '0', '-', 's', '1', ':', 'c', '0', '.', 'c', '2'] contextInit).isSome =
      true ↔ RangeText twoLevelPolicy ['s', '0', '-', 's', '1', ':', 'c', '0', '.', 'c', '2']) ↔
    ¬ RangeTextTail twoLevelPolicy ['s', '0', '-', 's', '1', ':', 'c', '0', '.', 'c', '2'] ∧
      (RangeText twoLevelPolicy ['s', '0', '-', 's', '1', ':', 'c', '0', '.', 'c', '2'] →
        RangeTextFits twoLevelPolicy ['s', '0', '-', 's', '1', ':', 'c', '0', '.', 'c', '2']) :=
  mlsContextToSid_grammar_iff twoLevelPolicy_names rfl (by decide) _ _

/-- The text `s0-s1:c0-x` is accepted although no range ends with `-x`. -/
theorem mlsContextToSid_accepts_tail :
    ¬ ∀ (p : Policydb) (oldc : Char) (s : CString) (c : Context), MlsNames p → p.mls = true → oldc ≠ '\x00' →
      ((mlsContextToSid p oldc s c).isSome = true ↔ RangeText p s) := by
  intro h
  have hs := (h twoLevelPolicy '$' ['s', '0', '-', 's', '1', ':', 'c', '0', '-', 'x'] contextInit
    twoLevelPolicy_names rfl (by decide)).1 (by decide +kernel)
  have := hs.count_le twoLevelPolicy_names
  revert this
  decide

end Sepol
