import Mathlib

/-!
# Writing text to a buffer

A buffer has a fixed number of cells and a position.  A character is written only in a cell of the buffer; a string is
written with a terminator behind it, which the next write replaces.  `Filled` says what a buffer holds: the text up to
the position, and the terminator in its last cell.
-/

namespace TextBuffer

variable {α : Type} {nul : α} {n : Nat} {text s : List α}

/-- The cells of a buffer, of which those that are `none` were not written, and the position. -/
structure Buffer (α : Type) where
  cells : List (Option α)
  pos : Nat

def put (c : α) (b : Buffer α) : Option (Buffer α) :=
  if b.pos < b.cells.length then some ⟨b.cells.set b.pos (some c), b.pos + 1⟩ else none

/-- A string with its terminator; the position is behind the string. -/
def puts (nul : α) : List α → Buffer α → Option (Buffer α)
  | [], b => (put nul b).map fun b' => ⟨b'.cells, b.pos⟩
  | c :: s, b => (put c b).bind (puts nul s)

/-- A buffer of `n` cells that ends with the terminator. -/
def create (nul : α) (n : Nat) : Buffer α := ⟨(List.replicate n none).set (n - 1) (some nul), 0⟩

structure Filled (nul : α) (n : Nat) (text : List α) (b : Buffer α) : Prop where
  length : b.cells.length = n
  pos : b.pos = text.length
  text : b.cells.take text.length = text.map some
  last : b.cells[n - 1]? = some (some nul)

theorem take_set_succ {l : List (Option α)} {k : Nat} (hk : k < l.length) (c : Option α) :
    (l.set k c).take (k + 1) = l.take k ++ [c] := by
  rw [List.take_succ_eq_append_getElem (by rwa [List.length_set]), List.getElem_set_self,
    List.take_set_of_le (Nat.le_refl k)]

/-- A character before the last cell. -/
theorem Filled.put {b : Buffer α} (h : Filled nul n text b) (c : α) (hn : text.length + 1 < n) :
    ∃ b', TextBuffer.put c b = some b' ∧ Filled nul n (text ++ [c]) b' := by
  have hpos : b.pos < b.cells.length := by
    rw [h.pos, h.length]
    omega
  refine ⟨_, if_pos hpos, ?_, ?_, ?_, ?_⟩
  · rw [List.length_set, h.length]
  · simp only [h.pos, List.length_append, List.length_singleton]
  · simp only [List.length_append, List.length_singleton, ← h.pos]
    rw [take_set_succ hpos, h.pos, h.text, List.map_append]
    rfl
  · rw [List.getElem?_set_ne (by rw [h.pos]; omega), h.last]

/-- A string for which there is room before the last cell. -/
theorem Filled.puts {b : Buffer α} (h : Filled nul n text b) (hn : text.length + s.length < n) :
    ∃ b', TextBuffer.puts nul s b = some b' ∧ Filled nul n (text ++ s) b' := by
  induction s generalizing text b with
  | nil =>
    have hpos : b.pos < b.cells.length := by
      rw [h.pos, h.length]
      exact hn
    refine ⟨⟨b.cells.set b.pos (some nul), b.pos⟩, by rw [TextBuffer.puts, TextBuffer.put, if_pos hpos]; rfl, ?_⟩
    rw [List.append_nil]
    refine ⟨by rw [List.length_set, h.length], h.pos, ?_, ?_⟩
    · rw [h.pos, List.take_set_of_le (Nat.le_refl _), h.text]
    · -- the terminator may be written in the last cell, which holds one already
      by_cases hlast : b.pos = n - 1
      · rw [hlast, List.getElem?_set_self (by rw [← hlast]; exact hpos)]
      · rw [List.getElem?_set_ne hlast, h.last]
  | cons c s ih =>
    rw [List.length_cons] at hn
    obtain ⟨b', hput, hb'⟩ := h.put c (by omega)
    obtain ⟨b'', hputs, hb''⟩ := ih hb' (by rw [List.length_append, List.length_singleton]; omega)
    refine ⟨b'', by rw [TextBuffer.puts, hput]; exact hputs, ?_⟩
    rw [List.append_cons]
    exact hb''

end TextBuffer
