import Mathlib

/-!
# Nested lists and their text

Forests of nested lists of words, and the text that prints them with parentheses.  Reading a text keeps the lists that
are still open; it is the inverse of printing, on both sides: a text is read as a forest exactly when it prints that
forest.  So two forests of one text are the same.
-/

namespace NestedText

variable {α : Type}

/-- A word, or the list of what stands between two parentheses. -/
inductive Nested (α : Type) where
  | word (a : α)
  | list (children : List (Nested α))

/-- The pieces of a text. -/
inductive Piece (α : Type) where
  | opening
  | closing
  | word (a : α)
  deriving DecidableEq

mutual

def Nested.print : Nested α → List (Piece α)
  | .word a => [.word a]
  | .list children => .opening :: (printAll children ++ [.closing])

/-- The text of a forest. -/
def printAll : List (Nested α) → List (Piece α)
  | [] => []
  | n :: forest => n.print ++ printAll forest

end

/-- Reads a text in the list `current`, with the lists `outer` still open around it, innermost first. -/
def readFrom : List (List (Nested α)) → List (Nested α) → List (Piece α) → Option (List (Nested α))
  | [], current, [] => some current
  | _ :: _, _, [] => none
  | outer, current, .opening :: text => readFrom (current :: outer) [] text
  | [], _, .closing :: _ => none
  | parent :: outer, current, .closing :: text => readFrom outer (parent ++ [.list current]) text
  | outer, current, .word a :: text => readFrom outer (current ++ [.word a]) text

/-- The forest that a text denotes. -/
def read (text : List (Piece α)) : Option (List (Nested α)) := readFrom [] [] text

@[simp] theorem printAll_nil : printAll ([] : List (Nested α)) = [] := by simp only [printAll]

@[simp] theorem printAll_append (forest₁ forest₂ : List (Nested α)) :
    printAll (forest₁ ++ forest₂) = printAll forest₁ ++ printAll forest₂ := by
  induction forest₁ with
  | nil => simp
  | cons n forest ih => simp only [List.cons_append, printAll, ih, List.append_assoc]

theorem printAll_word (a : α) : printAll [Nested.word a] = [.word a] := by simp [printAll, Nested.print]

theorem printAll_list (children : List (Nested α)) :
    printAll [Nested.list children] = .opening :: (printAll children ++ [.closing]) := by
  simp [printAll, Nested.print]

/-- The text of the lists that are open: each is preceded by its parenthesis. -/
def openText : List (List (Nested α)) → List (Piece α)
  | [] => []
  | parent :: outer => openText outer ++ printAll parent ++ [.opening]

/-- What is read is what is printed: the text before it is that of the open lists. -/
private theorem printAll_of_readFrom {outer : List (List (Nested α))} {current : List (Nested α)}
    {text : List (Piece α)} {forest : List (Nested α)} (h : readFrom outer current text = some forest) :
    printAll forest = openText outer ++ printAll current ++ text := by
  induction text generalizing outer current with
  | nil =>
    cases outer with
    | nil =>
      simp only [readFrom, Option.some.injEq] at h
      simp [h, openText]
    | cons parent outer => simp [readFrom] at h
  | cons piece text ih =>
    cases piece with
    | opening =>
      simp only [readFrom] at h
      rw [ih h]
      simp [openText]
    | closing =>
      cases outer with
      | nil => simp [readFrom] at h
      | cons parent outer =>
        simp only [readFrom] at h
        rw [ih h]
        simp [openText, printAll_list]
    | word a =>
      simp only [readFrom] at h
      rw [ih h]
      simp [printAll_word]

mutual

private theorem readFrom_print (n : Nested α) (outer : List (List (Nested α))) (current : List (Nested α))
    (text : List (Piece α)) : readFrom outer current (n.print ++ text) = readFrom outer (current ++ [n]) text := by
  cases n with
  | word a => simp only [Nested.print, List.singleton_append, readFrom]
  | list children =>
    have hchildren := readFrom_printAll children (current :: outer) [] (.closing :: text)
    simp only [Nested.print, List.cons_append, List.append_assoc, List.nil_append, readFrom]
    rw [hchildren]
    simp only [List.nil_append, readFrom]

private theorem readFrom_printAll (forest : List (Nested α)) (outer : List (List (Nested α)))
    (current : List (Nested α)) (text : List (Piece α)) :
    readFrom outer current (printAll forest ++ text) = readFrom outer (current ++ forest) text := by
  cases forest with
  | nil => simp
  | cons n forest =>
    have hn := readFrom_print n outer current (printAll forest ++ text)
    have hforest := readFrom_printAll forest outer (current ++ [n]) text
    simp only [printAll, List.append_assoc]
    rw [hn, hforest]
    simp

end

/-- Reading and printing are inverse. -/
theorem read_eq_some_iff {text : List (Piece α)} {forest : List (Nested α)} :
    read text = some forest ↔ printAll forest = text := by
  constructor
  · intro h
    simpa [openText] using printAll_of_readFrom h
  · intro h
    have hread := readFrom_printAll forest [] [] []
    rw [← h]
    simpa [read, readFrom] using hread

end NestedText
