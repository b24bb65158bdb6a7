import Mathlib

/-!
# Texts as tokens

A text is cut into words, which are as long as possible, and separators, each of which is a list of tokens by itself.
A printed text is lexed piece by piece: what ends with a separator leaves the rest of the text alone (`Cuts`), and
what ends with a word does so when a separator follows (`Lexes`).
-/

namespace Lexing

/-- The characters of words, the token of a word, and the tokens of a separator; other characters are errors. -/
structure Lexer (τ : Type) where
  isWord : Char → Bool
  word : List Char → τ
  separator : Char → Option (List τ)

variable {τ : Type} {L : Lexer τ} {s s' w : List Char} {ts ts' : List τ} {c : Char}

/-- The token of a word that ends. -/
def Lexer.flush (L : Lexer τ) (w : List Char) : List τ := if w.isEmpty then [] else [L.word w]

/-- Lexes a text behind the characters `w` of a word. -/
def Lexer.lexFrom (L : Lexer τ) : List Char → List Char → Option (List τ)
  | w, [] => some (L.flush w)
  | w, c :: s =>
    if L.isWord c then L.lexFrom (w ++ [c]) s
    else (L.separator c).bind fun ts => (L.lexFrom [] s).map fun rest => L.flush w ++ ts ++ rest

def Lexer.lex (L : Lexer τ) (s : List Char) : Option (List τ) := L.lexFrom [] s

/-- The text does not go on with a word. -/
def Delimited (L : Lexer τ) (s : List Char) : Prop := ∀ c, s.head? = some c → L.isWord c = false

/-- The text stands for the tokens where a separator or the end follows. -/
def Lexes (L : Lexer τ) (s : List Char) (ts : List τ) : Prop :=
  ∀ rest, Delimited L rest → L.lexFrom [] (s ++ rest) = (L.lexFrom [] rest).map (ts ++ ·)

/-- The text stands for the tokens whatever follows. -/
def Cuts (L : Lexer τ) (s : List Char) (ts : List τ) : Prop :=
  ∀ rest, L.lexFrom [] (s ++ rest) = (L.lexFrom [] rest).map (ts ++ ·)

theorem Lexes.lex_eq (h : Lexes L s ts) : L.lex s = some ts := by
  have hend := h [] (by intro c hc; cases hc)
  simpa [Lexer.lex, Lexer.lexFrom, Lexer.flush] using hend

theorem Cuts.lexes (h : Cuts L s ts) : Lexes L s ts := fun rest _ => h rest

theorem Cuts.congr (h : Cuts L s ts) (hs : s = s') (hts : ts = ts') : Cuts L s' ts' := hs ▸ hts ▸ h

theorem Cuts.nil : Cuts L [] [] := by
  intro rest
  simp

theorem Cuts.append_lexes (h : Cuts L s ts) (h' : Lexes L s' ts') : Lexes L (s ++ s') (ts ++ ts') := by
  intro rest hrest
  rw [List.append_assoc, h, h' rest hrest, Option.map_map]
  congr 1
  funext r
  exact (List.append_assoc ts ts' r).symm

theorem Cuts.append (h : Cuts L s ts) (h' : Cuts L s' ts') : Cuts L (s ++ s') (ts ++ ts') := by
  intro rest
  rw [List.append_assoc, h, h' rest, Option.map_map]
  congr 1
  funext r
  exact (List.append_assoc ts ts' r).symm

theorem Cuts.separator (hc : L.isWord c = false) (hts : L.separator c = some ts) : Cuts L [c] ts := by
  intro rest
  rw [List.singleton_append, Lexer.lexFrom, if_neg (by simp [hc]), hts]
  simp [Lexer.flush]

/-- Separators with a token each. -/
theorem Cuts.separators {f : Char → τ} (h : ∀ c ∈ s, L.isWord c = false ∧ L.separator c = some [f c]) :
    Cuts L s (s.map f) := by
  induction s with
  | nil => exact Cuts.nil
  | cons c s ih =>
    obtain ⟨hc, hts⟩ := h c (by simp)
    exact (Cuts.separator hc hts).append (ih fun d hd => h d (List.mem_cons_of_mem _ hd))

/-- A separator ends what is in front of it. -/
theorem Lexes.append_separator (h : Lexes L s ts) (hc : L.isWord c = false) (hts : L.separator c = some ts') :
    Cuts L (s ++ [c]) (ts ++ ts') := by
  intro rest
  have hdelimited : Delimited L ([c] ++ rest) := by
    intro d hd
    obtain rfl : c = d := by simpa using hd
    exact hc
  rw [List.append_assoc, h _ hdelimited, Cuts.separator hc hts rest, Option.map_map]
  congr 1
  funext r
  exact (List.append_assoc ts ts' r).symm

theorem lexFrom_word (hw : ∀ c ∈ s, L.isWord c = true) {rest : List Char} (hrest : Delimited L rest) (w : List Char) :
    L.lexFrom w (s ++ rest) = (L.lexFrom [] rest).map (L.flush (w ++ s) ++ ·) := by
  induction s generalizing w with
  | nil =>
    rw [List.nil_append, List.append_nil]
    cases rest with
    | nil => simp [Lexer.lexFrom, Lexer.flush]
    | cons d rest =>
      have hd := hrest d rfl
      rw [Lexer.lexFrom, Lexer.lexFrom, if_neg (by simp [hd]), if_neg (by simp [hd])]
      cases L.separator d with
      | none => rfl
      | some ts => simp [Lexer.flush, Function.comp_def]
  | cons d s ih =>
    rw [List.cons_append, Lexer.lexFrom, if_pos (hw d (by simp)), ih fun c hc => hw c (List.mem_cons_of_mem _ hc),
      List.append_assoc, List.singleton_append]

theorem Lexes.word (hne : s ≠ []) (hw : ∀ c ∈ s, L.isWord c = true) : Lexes L s [L.word s] := by
  intro rest hrest
  rw [lexFrom_word hw hrest, List.nil_append, Lexer.flush, if_neg (by simpa using hne)]

/-- Texts with a separator between them. -/
def joined (c : Char) : List (List Char) → List Char
  | [] => []
  | [s] => s
  | s :: s' :: texts => s ++ [c] ++ joined c (s' :: texts)

/-- Words with a separator between them. -/
theorem Lexes.joined (hc : L.isWord c = false) (hts : L.separator c = some []) {words : List (List Char)}
    (hwords : ∀ s ∈ words, s ≠ [] ∧ ∀ d ∈ s, L.isWord d = true) : Lexes L (joined c words) (words.map L.word) := by
  induction words with
  | nil => exact Cuts.nil.lexes
  | cons s words ih =>
    obtain ⟨hne, hs⟩ := hwords s (by simp)
    cases words with
    | nil => exact Lexes.word hne hs
    | cons s' words =>
      have hrest := ih fun t ht => hwords t (List.mem_cons_of_mem _ ht)
      have hfirst := (Lexes.word hne hs).append_separator hc hts
      rw [List.append_nil] at hfirst
      exact hfirst.append_lexes hrest

end Lexing
