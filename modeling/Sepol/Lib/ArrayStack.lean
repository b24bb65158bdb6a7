import Mathlib

/-!
# Stacks in arrays

A stack kept in an array of a fixed size with the index of its top, which is -1 when the stack is empty.  Reading and
writing outside the array has no result.  `Holds` says which list the array stands for, the top of the stack first.
-/

namespace ArrayStack

variable {n : Nat} {V : Type*}

structure Stack (n : Nat) (V : Type*) where
  slots : Fin n → V
  sp : Int

def Stack.read (st : Stack n V) (i : Int) : Option V :=
  if h : 0 ≤ i ∧ i < n then some (st.slots ⟨i.toNat, by omega⟩) else none

def Stack.write (st : Stack n V) (i : Int) (v : V) : Option (Stack n V) :=
  if h : 0 ≤ i ∧ i < n then some { st with slots := Function.update st.slots ⟨i.toNat, by omega⟩ v } else none

structure Holds (st : Stack n V) (l : List V) : Prop where
  sp : st.sp = l.length - 1
  le : l.length ≤ n
  slots : ∀ i : Fin n, (i : Nat) < l.length → l[l.length - 1 - i]? = some (st.slots i)

variable {st : Stack n V} {l : List V} {a b v : V}

theorem holds_nil (slots : Fin n → V) : Holds ⟨slots, -1⟩ [] :=
  ⟨rfl, Nat.zero_le n, fun i hi => absurd hi (Nat.not_lt_zero i)⟩

/-- A new top, where the array has room for it. -/
theorem Holds.push (h : Holds st l) (hlt : l.length < n) (v : V) :
    ∃ st', { st with sp := st.sp + 1 }.write (st.sp + 1) v = some st' ∧ Holds st' (v :: l) := by
  have hsp := h.sp
  refine ⟨_, dif_pos (by omega), ?_, ?_, fun i hi => ?_⟩
  · rw [List.length_cons]
    dsimp only
    omega
  · rw [List.length_cons]
    omega
  · rw [List.length_cons] at hi ⊢
    dsimp only
    have htop : (st.sp + 1).toNat = l.length := by omega
    by_cases hil : (i : Nat) = l.length
    · have hidx : i = ⟨(st.sp + 1).toNat, by omega⟩ := Fin.ext (hil.trans htop.symm)
      rw [hidx, Function.update_self, Nat.add_sub_cancel]
      simp only [htop, Nat.sub_self, List.getElem?_cons_zero]
    · have hne : i ≠ ⟨(st.sp + 1).toNat, by omega⟩ := fun heq => hil ((congrArg Fin.val heq).trans htop)
      have hidx : l.length + 1 - 1 - i = (l.length - 1 - i) + 1 := by omega
      rw [Function.update_of_ne hne, hidx, List.getElem?_cons_succ]
      exact h.slots i (by omega)

theorem Holds.read_top (h : Holds st (a :: l)) : st.read st.sp = some a := by
  have hsp := h.sp
  have hle := h.le
  rw [List.length_cons] at hsp hle
  rw [Stack.read, dif_pos (by omega)]
  have htop := h.slots ⟨st.sp.toNat, by omega⟩ (by rw [List.length_cons]; dsimp only; omega)
  have hidx : (a :: l).length - 1 - st.sp.toNat = 0 := by rw [List.length_cons]; omega
  rw [← htop]
  dsimp only
  rw [hidx, List.getElem?_cons_zero]

/-- Another top. -/
theorem Holds.write_top (h : Holds st (a :: l)) (v : V) :
    ∃ st', st.write st.sp v = some st' ∧ Holds st' (v :: l) := by
  have hsp := h.sp
  have hle := h.le
  rw [List.length_cons] at hsp hle
  refine ⟨_, dif_pos (by omega), ?_, ?_, fun i hi => ?_⟩
  · rw [List.length_cons]
    exact hsp
  · rwa [List.length_cons]
  · rw [List.length_cons] at hi
    have hold := h.slots i (by rwa [List.length_cons])
    rw [List.length_cons] at hold ⊢
    dsimp only
    by_cases hil : (i : Nat) = l.length
    · have hidx : i = ⟨st.sp.toNat, by omega⟩ := Fin.ext (by dsimp only; omega)
      rw [hidx, Function.update_self]
      have hzero : l.length + 1 - 1 - st.sp.toNat = 0 := by omega
      dsimp only
      rw [hzero, List.getElem?_cons_zero]
    · have hne : i ≠ ⟨st.sp.toNat, by omega⟩ := by
        intro heq
        have hval := congrArg Fin.val heq
        dsimp only at hval
        omega
      have hidx : l.length + 1 - 1 - i = (l.length - 1 - i) + 1 := by omega
      rw [Function.update_of_ne hne, ← hold, hidx, List.getElem?_cons_succ, List.getElem?_cons_succ]

/-- The index goes down; what was the top can still be read behind it. -/
theorem Holds.pop (h : Holds st (b :: l)) : Holds { st with sp := st.sp - 1 } l ∧
    { st with sp := st.sp - 1 }.read (st.sp - 1 + 1) = some b := by
  refine ⟨⟨?_, ?_, fun i hi => ?_⟩, ?_⟩
  · have hsp := h.sp
    rw [List.length_cons] at hsp
    dsimp only
    omega
  · have hle := h.le
    rw [List.length_cons] at hle
    omega
  · have hold := h.slots i (by rw [List.length_cons]; omega)
    have hidx : (b :: l).length - 1 - i = (l.length - 1 - i) + 1 := by rw [List.length_cons]; omega
    rwa [hidx, List.getElem?_cons_succ] at hold
  · rw [Int.sub_add_cancel]
    exact h.read_top

theorem Holds.read_bottom (h : Holds st l) (hne : l ≠ []) : st.read 0 = l.getLast? := by
  have hpos := List.length_pos_iff.2 hne
  have hle := h.le
  rw [Stack.read, dif_pos (by omega), List.getLast?_eq_getElem?]
  have hbottom := h.slots ⟨0, by omega⟩ hpos
  exact hbottom.symm

end ArrayStack
