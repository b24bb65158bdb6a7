import Mathlib

/-!
# Truth tables

An assignment of a list of Boolean variables is a number: bit `j` is the value of variable `j`.  A function of the
variables is then the table of its values at these numbers, and a table for one order of the variables can be read in
another one.
-/

namespace TruthTable

variable {α : Type*} {vars vars' : List α} {σ τ : α → Bool}

/-- The number of an assignment. -/
def index (σ : α → Bool) : List α → Nat
  | [] => 0
  | v :: vars => (σ v).toNat + 2 * index σ vars

theorem index_lt (σ : α → Bool) (vars : List α) : index σ vars < 2 ^ vars.length := by
  induction vars with
  | nil => exact Nat.one_pos
  | cons v vars ih =>
    have hv := Bool.toNat_lt (σ v)
    rw [index, List.length_cons, Nat.pow_succ]
    omega

theorem index_congr (h : ∀ v ∈ vars, σ v = τ v) : index σ vars = index τ vars := by
  induction vars with
  | nil => rfl
  | cons v vars ih =>
    rw [index, index, h v (List.mem_cons_self ..), ih fun w hw => h w (List.mem_cons_of_mem _ hw)]

private theorem testBit_zero_index (b : Bool) (n : Nat) : (b.toNat + 2 * n).testBit 0 = b := by
  cases b <;> simp [Nat.testBit_zero]

private theorem testBit_succ_index (b : Bool) (n j : Nat) : (b.toNat + 2 * n).testBit (j + 1) = n.testBit j := by
  have hb := Bool.toNat_lt b
  rw [Nat.testBit_succ, show (b.toNat + 2 * n) / 2 = n by omega]

variable [DecidableEq α]

/-- The assignment that a number stands for. -/
def assign (vars : List α) (i : Nat) (v : α) : Bool := i.testBit (vars.idxOf v)

/-- The number of an assignment stands for the assignment. -/
theorem assign_index {v : α} (hv : v ∈ vars) : assign vars (index σ vars) v = σ v := by
  induction vars with
  | nil => cases hv
  | cons w vars ih =>
    rw [assign, index]
    by_cases hw : w = v
    · rw [hw, List.idxOf_cons_self, testBit_zero_index]
    · rw [List.idxOf_cons_ne _ hw, testBit_succ_index]
      exact ih ((List.mem_cons.1 hv).resolve_left (Ne.symm hw))

/-- Every number below `2 ^ vars.length` is the number of the assignment it stands for. -/
theorem index_assign (hvars : vars.Nodup) {i : Nat} (hi : i < 2 ^ vars.length) : index (assign vars i) vars = i := by
  induction vars generalizing i with
  | nil =>
    have hzero : i = 0 := by simpa using hi
    rw [hzero]
    rfl
  | cons v vars ih =>
    have hvars' := List.nodup_cons.1 hvars
    rw [List.length_cons, Nat.pow_succ] at hi
    have hrest : index (assign (v :: vars) i) vars = i / 2 := by
      rw [← ih hvars'.2 (show i / 2 < 2 ^ vars.length by omega)]
      refine index_congr fun w hw => ?_
      have hne : v ≠ w := fun h => hvars'.1 (h ▸ hw)
      rw [assign, assign, List.idxOf_cons_ne _ hne, Nat.testBit_succ]
    have hhead : (assign (v :: vars) i v).toNat = i % 2 := by
      rw [assign, List.idxOf_cons_self, Nat.testBit_zero]
      have : i % 2 = 0 ∨ i % 2 = 1 := by omega
      rcases this with h | h <;> simp [h]
    rw [index, hrest, hhead]
    omega

/-- The number, for the order `vars'`, of the assignment that has the number `i` for the order `vars`. -/
def reindex (vars vars' : List α) (i : Nat) : Nat := index (assign vars i) vars'

theorem reindex_index (h : ∀ v ∈ vars', v ∈ vars) : reindex vars vars' (index σ vars) = index σ vars' :=
  index_congr fun v hv => assign_index (h v hv)

/-- A table for one order of the variables and a table for another one say the same of every assignment exactly when
they agree up to the change of the order. -/
theorem forall_index_iff (hvars : vars.Nodup) (h : ∀ v ∈ vars', v ∈ vars) (t t' : Nat → Prop) :
    (∀ σ : α → Bool, t (index σ vars) ↔ t' (index σ vars')) ↔
      ∀ i < 2 ^ vars.length, t i ↔ t' (reindex vars vars' i) := by
  constructor
  · intro hσ i hi
    have hi' := hσ (assign vars i)
    rwa [index_assign hvars hi] at hi'
  · intro hi σ
    have hσ := hi _ (index_lt σ vars)
    rwa [reindex_index h] at hσ

end TruthTable
