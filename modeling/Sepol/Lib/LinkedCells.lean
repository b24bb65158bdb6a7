import Mathlib

/-!
# Cells linked by pointers

A heap of cells, each with a value and the address of the next cell.  `Segment` states the cells from one pointer to
another one as a list.  A segment is determined by its ends when it leads to the null pointer, so that no cell of it
comes twice, and a link that is changed outside of a segment does not matter to it.
-/

namespace LinkedCells

structure Cell (ι α : Type*) where
  value : α
  next : Option ι
deriving DecidableEq

/-- An address without a cell is not to be dereferenced. -/
abbrev Heap (ι α : Type*) := ι → Option (Cell ι α)

variable {ι α : Type*}

/-- The assignment `i->next = p`. -/
def setNext [DecidableEq ι] (h : Heap ι α) (i : ι) (p : Option ι) : Heap ι α :=
  Function.update h i ((h i).map fun c => { c with next := p })

/-- The cells on the way from the pointer `p` to the pointer `q` are those of the list. -/
def Segment (h : Heap ι α) : Option ι → List (ι × α) → Option ι → Prop
  | p, [], q => p = q
  | p, (i, a) :: l, q => p = some i ∧ ∃ r, h i = some ⟨a, r⟩ ∧ Segment h r l q

variable {h : Heap ι α} {p q r : Option ι} {i : ι} {a : α} {l l' : List (ι × α)}

@[simp] theorem segment_nil : Segment h p [] q ↔ p = q := Iff.rfl

@[simp] theorem segment_cons :
    Segment h p ((i, a) :: l) q ↔ p = some i ∧ ∃ r, h i = some ⟨a, r⟩ ∧ Segment h r l q := Iff.rfl

theorem segment_append : Segment h p (l ++ l') q ↔ ∃ r, Segment h p l r ∧ Segment h r l' q := by
  induction l generalizing p with
  | nil => simp
  | cons x l ih =>
    obtain ⟨i, a⟩ := x
    simp only [List.cons_append, segment_cons, ih]
    constructor
    · rintro ⟨hp, s, hi, r, hl, hl'⟩
      exact ⟨r, ⟨hp, s, hi, hl⟩, hl'⟩
    · rintro ⟨r, ⟨hp, s, hi, hl⟩, hl'⟩
      exact ⟨hp, s, hi, r, hl, hl'⟩

/-- What leads to the null pointer is determined by the heap. -/
theorem Segment.eq (hl : Segment h p l none) (hl' : Segment h p l' none) : l = l' := by
  induction l generalizing p l' with
  | nil =>
    rw [segment_nil] at hl
    subst hl
    cases l' with
    | nil => rfl
    | cons x l' => exact absurd hl'.1 (by simp)
  | cons x l ih =>
    obtain ⟨i, a⟩ := x
    obtain ⟨rfl, r, hi, hl⟩ := hl
    cases l' with
    | nil => exact absurd hl' (by simp)
    | cons y l' =>
      obtain ⟨j, b⟩ := y
      obtain ⟨hj, r', hi', hl'⟩ := hl'
      obtain rfl := Option.some.inj hj
      rw [hi, Option.some.injEq, Cell.mk.injEq] at hi'
      obtain ⟨rfl, rfl⟩ := hi'
      rw [ih hl hl']

/-- A cell that came twice would start two ways of different lengths to the null pointer. -/
theorem Segment.nodup (hl : Segment h p l none) : (l.map Prod.fst).Nodup := by
  induction l generalizing p with
  | nil => exact List.nodup_nil
  | cons x l ih =>
    obtain ⟨i, a⟩ := x
    have hwhole := hl
    obtain ⟨rfl, r, hi, hrest⟩ := hl
    rw [List.map_cons, List.nodup_cons]
    refine ⟨fun hmem => ?_, ih hrest⟩
    obtain ⟨⟨j, b⟩, hx, rfl⟩ := List.mem_map.1 hmem
    obtain ⟨l₁, l₂, rfl⟩ := List.append_of_mem hx
    obtain ⟨s, -, hsecond⟩ := segment_append.1 hrest
    obtain rfl := hsecond.1
    have heq := congrArg List.length (hwhole.eq hsecond)
    simp only [List.length_cons, List.length_append] at heq
    omega

section Assignment

variable [DecidableEq ι]

@[simp] theorem setNext_self : setNext h i p i = (h i).map fun c => { c with next := p } := by
  simp [setNext]

theorem setNext_of_ne {j : ι} (hj : j ≠ i) : setNext h i p j = h j := by
  simp [setNext, hj]

theorem segment_setNext (hi : i ∉ l.map Prod.fst) : Segment (setNext h i r) p l q ↔ Segment h p l q := by
  induction l generalizing p with
  | nil => exact Iff.rfl
  | cons x l ih =>
    obtain ⟨j, b⟩ := x
    simp only [List.map_cons, List.mem_cons, not_or] at hi
    simp only [segment_cons, setNext_of_ne (Ne.symm hi.1), ih hi.2]

/-- The last cell of a segment is given another successor. -/
theorem Segment.setNext_last (hl : Segment h p (l ++ [(i, a)]) q) (hi : i ∉ l.map Prod.fst) :
    Segment (setNext h i r) p (l ++ [(i, a)]) r := by
  obtain ⟨s, hfirst, rfl, t, hcell, -⟩ := segment_append.1 hl
  refine segment_append.2 ⟨some i, (segment_setNext hi).2 hfirst, rfl, r, ?_, rfl⟩
  rw [setNext_self, hcell]
  rfl

end Assignment

end LinkedCells
