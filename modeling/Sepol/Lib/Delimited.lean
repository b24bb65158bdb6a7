import Mathlib

/-!
# Delimited text

Scanning a text up to the first delimiter.  The scan of a text without delimiters takes all of it, and the scan of
such a text followed by a delimiter stops there; these are the only results a scan can have.
-/

namespace Delimited

variable {α : Type*} {stop : α → Bool} {s t r : List α} {d : α}

/-- The text before the first delimiter, the delimiter (`none` at the end of the text), and the text behind it. -/
def scan (stop : α → Bool) (s : List α) : List α × Option α × List α :=
  match s.dropWhile fun c => !stop c with
  | [] => (s, none, [])
  | d :: rest => (s.takeWhile fun c => !stop c, some d, rest)

/-- No character of the text is a delimiter. -/
def Free (stop : α → Bool) (s : List α) : Prop := ∀ c ∈ s, stop c = false

instance (stop : α → Bool) (s : List α) : Decidable (Free stop s) :=
  inferInstanceAs (Decidable (∀ c ∈ s, stop c = false))

theorem Free.append (hs : Free stop s) (ht : Free stop t) : Free stop (s ++ t) := fun c hc =>
  (List.mem_append.1 hc).elim (hs c) (ht c)

theorem Free.cons (hd : stop d = false) (hs : Free stop s) : Free stop (d :: s) := fun c hc => by
  rcases List.mem_cons.1 hc with rfl | hc
  · exact hd
  · exact hs c hc

theorem scan_of_free (h : Free stop s) : scan stop s = (s, none, []) := by
  have hdrop : (s.dropWhile fun c => !stop c) = [] := by
    rw [List.dropWhile_eq_nil_iff]
    intro c hc
    simp [h c hc]
  rw [scan, hdrop]

theorem scan_append_cons (h : Free stop t) (hd : stop d = true) : scan stop (t ++ d :: r) = (t, some d, r) := by
  have hall : ∀ c ∈ t, (!stop c) = true := fun c hc => by simp [h c hc]
  have hdrop : ((t ++ d :: r).dropWhile fun c => !stop c) = d :: r := by
    rw [List.dropWhile_append_of_pos hall, List.dropWhile_cons_of_neg (by simp [hd])]
  have htake : ((t ++ d :: r).takeWhile fun c => !stop c) = t := by
    rw [List.takeWhile_append_of_pos hall, List.takeWhile_cons_of_neg (by simp [hd]), List.append_nil]
  rw [scan, hdrop]
  simp only [htake]

/-- What a scan can find. -/
theorem scan_cases (stop : α → Bool) (s : List α) :
    (Free stop s ∧ scan stop s = (s, none, [])) ∨
      ∃ t d r, Free stop t ∧ stop d = true ∧ s = t ++ d :: r ∧ scan stop s = (t, some d, r) := by
  cases hdrop : s.dropWhile fun c => !stop c with
  | nil =>
    have hfree : Free stop s := fun c hc => by simpa using List.dropWhile_eq_nil_iff.1 hdrop c hc
    exact Or.inl ⟨hfree, scan_of_free hfree⟩
  | cons d r =>
    have hfree : Free stop (s.takeWhile fun c => !stop c) := fun c hc => by
      simpa using List.mem_takeWhile_imp hc
    have hd : stop d = true := by
      have := List.head?_dropWhile_not (fun c => !stop c) s
      rw [hdrop] at this
      simpa using this
    have hs : s = (s.takeWhile fun c => !stop c) ++ d :: r := by rw [← hdrop, List.takeWhile_append_dropWhile]
    refine Or.inr ⟨_, d, r, hfree, hd, hs, ?_⟩
    rw [scan, hdrop]

/-! ### Words -/

/-- Words with a separator behind each of them, and a last word. -/
theorem splitOn_flatMap [BEq α] [LawfulBEq α] {sep : α} {words : List (List α)} {last : List α}
    (hwords : ∀ w ∈ words, sep ∉ w) (hlast : sep ∉ last) :
    (words.flatMap (· ++ [sep]) ++ last).splitOn sep = words ++ [last] := by
  have htext : words.flatMap (· ++ [sep]) ++ last = [sep].intercalate (words ++ [last]) := by
    clear hwords
    induction words with
    | nil => simp
    | cons w words ih =>
      rw [List.flatMap_cons, List.append_assoc, ih]
      cases words <;> simp [List.intercalate]
  rw [htext]
  refine List.splitOn_intercalate sep (fun w hw => ?_) (by simp)
  rcases List.mem_append.1 hw with hw | hw
  · exact hwords w hw
  · rw [List.mem_singleton.1 hw]
    exact hlast

theorem splitOn_free [BEq α] [LawfulBEq α] {sep : α} {w : List α} (h : sep ∉ w) : w.splitOn sep = [w] := by
  have hsplit := splitOn_flatMap (show ∀ v ∈ ([] : List (List α)), sep ∉ v by simp) h
  simpa using hsplit

theorem splitOn_pair [BEq α] [LawfulBEq α] {sep : α} {v w : List α} (hv : sep ∉ v) (hw : sep ∉ w) :
    (v ++ sep :: w).splitOn sep = [v, w] := by
  have hsplit := splitOn_flatMap (show ∀ u ∈ [v], sep ∉ u by simpa using hv) hw
  simpa using hsplit

end Delimited
