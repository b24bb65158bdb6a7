import Sepol.CilBlockinherit
import Sepol.Lib.Outcome

/-!
# The check for bad inheritance

`cil_check_for_bad_inheritance` follows every `blockinherit` into the block it inherits and counts the statements it
meets, up to a bound.  It always ends; the count is a bound on the number of copies the copy pass makes.  Each block
has a weight, the number of statements met below it, and a statement that still waits for its copy is charged one more
than the weight of its block: a copy takes away one charge and brings at most a weight.
-/

namespace Sepol

open Outcome

/-! ### The check -/

def cilDegenerateInheritanceMinimum : Nat := 1 <<< 10

def cilDegenerateInheritanceGrowth : Nat := 10

/-- `cil_count_actual`, an `unsigned`. -/
def cilCountActual : CilBlkTree → Nat
  | .nil => 0
  | .node flavor clHead next =>
    ((if flavor.bi.isSome then 1 else 0) + cilCountActual clHead + cilCountActual next) % 2 ^ 32

/-- The number of potential inheritances the check allows. -/
def cilInheritanceMax (t : CilBlkTree) : Nat :=
  max (cilCountActual t * cilDegenerateInheritanceGrowth % 2 ^ 32) cilDegenerateInheritanceMinimum

/-- `cil_check_inheritances` fails for too many inheritances or for a loop; `depth` tells calls nested too deep. -/
inductive CilInheritErr where
  | degenerate
  | loop
  | depth
  deriving DecidableEq, Repr

/-- The part of `cil_check_inheritances` for the node itself, where `follow` is the call for an inherited block. -/
def cilCheckNode (max : Nat) (follow : Nat → Nat → Except CilInheritErr Nat) (flavor : CilBlkFlavor) (count : Nat) :
    Except CilInheritErr Nat :=
  match flavor.bi with
  | none => .ok count
  | some (_, inherited) =>
    if max < count + 1 then .error .degenerate
    else match inherited with
      | some b => follow b (count + 1)
      | none => .ok (count + 1)

/-- `cil_check_inheritances` on a node and its siblings. -/
def cilCheckInheritances (max : Nat) (follow : Nat → Nat → Except CilInheritErr Nat) :
    CilBlkTree → Nat → Except CilInheritErr Nat
  | .nil, count => .ok count
  | .node flavor clHead next, count => do
    let count ← cilCheckNode max follow flavor count
    let count ← cilCheckInheritances max follow clHead count
    cilCheckInheritances max follow next count

/-- The call for an inherited block, with the blocks on the stack and the calls that may still be nested. -/
def cilCheckInherited (t : CilBlkTree) (max : Nat) : Nat → List Nat → Nat → Nat → Except CilInheritErr Nat
  | 0, _, _, _ => .error .depth
  | depth + 1, stack, b, count =>
    if b ∈ stack then .error .loop
    else cilCheckInheritances max (cilCheckInherited t max depth (b :: stack)) ((t.findBody b).getD .nil) count

/-- `cil_check_for_bad_inheritance`: the number of potential inheritances it found. -/
def cilCheckForBadInheritance (depth : Nat) (t : CilBlkTree) : Except CilInheritErr Nat :=
  cilCheckInheritances (cilInheritanceMax t) (cilCheckInherited t (cilInheritanceMax t) depth []) t 0

/-- A tree after the link pass: every node and every block is there once, and inherited blocks are in the tree. -/
structure CilLinkedTree where
  tree : CilBlkTree
  addrs_nodup : (tree.bis.map Prod.fst).Nodup
  heads_nodup : tree.heads.Nodup
  refs : ∀ a b, (a, some b) ∈ tree.bis → b ∈ tree.heads

/-! ### The check ends -/

variable {t body : CilBlkTree} {depth depth' count count' b : Nat} {stack : List Nat}
  {follow follow' : Nat → Nat → Except CilInheritErr Nat}

private theorem cilCheckNode_congr {m : Nat} {flavor : CilBlkFlavor}
    (h : ∀ a b, (a, some b) ∈ flavor.bi.toList → follow b = follow' b) (count : Nat) :
    cilCheckNode m follow flavor count = cilCheckNode m follow' flavor count := by
  unfold cilCheckNode
  cases hbi : flavor.bi with
  | none => rfl
  | some p =>
    obtain ⟨addr, inherited⟩ := p
    cases inherited with
    | none => rfl
    | some b =>
      have hb : follow b = follow' b := h addr b (by simp [hbi])
      simp only [hb]

private theorem cilCheckNode_ensures (m : Nat) {flavor : CilBlkFlavor}
    (h : ∀ a b count, (a, some b) ∈ flavor.bi.toList → Ensures (· ≠ .depth) (fun _ => True) (follow b count))
    (count : Nat) : Ensures (· ≠ .depth) (fun _ => True) (cilCheckNode m follow flavor count) := by
  unfold cilCheckNode
  cases hbi : flavor.bi with
  | none => exact trivial
  | some p =>
    obtain ⟨addr, inherited⟩ := p
    by_cases hmax : m < count + 1
    · simp [hmax]
    · simp only [if_neg hmax]
      cases inherited with
      | none => exact trivial
      | some b => exact h addr b (count + 1) (by simp [hbi])

private theorem cilCheckInheritances_congr {m : Nat} (h : ∀ a b, (a, some b) ∈ t.bis → follow b = follow' b)
    (count : Nat) : cilCheckInheritances m follow t count = cilCheckInheritances m follow' t count := by
  induction t generalizing count with
  | nil => rfl
  | node flavor clHead next ihc ihn =>
    simp only [CilBlkTree.bis, List.mem_append] at h
    have hf := @cilCheckNode_congr _ _ m flavor fun a b hmem => h a b (Or.inl (Or.inl hmem))
    have hc := ihc fun a b hmem => h a b (Or.inl (Or.inr hmem))
    have hn := ihn fun a b hmem => h a b (Or.inr hmem)
    simp only [cilCheckInheritances, hf, hc, hn]

private theorem cilCheckInheritances_ensures (m : Nat)
    (h : ∀ a b count, (a, some b) ∈ t.bis → Ensures (· ≠ .depth) (fun _ => True) (follow b count)) (count : Nat) :
    Ensures (· ≠ .depth) (fun _ => True) (cilCheckInheritances m follow t count) := by
  induction t generalizing count with
  | nil => exact trivial
  | node flavor clHead next ihc ihn =>
    simp only [CilBlkTree.bis, List.mem_append] at h
    have hf := cilCheckNode_ensures m fun a b count hmem => h a b count (Or.inl (Or.inl hmem))
    have hc := ihc fun a b count hmem => h a b count (Or.inl (Or.inr hmem))
    have hn := ihn fun a b count hmem => h a b count (Or.inr hmem)
    exact (hf count).bind fun count' _ => (hc count').bind fun count'' _ => hn count''

private theorem mem_bis_of_getD {a : Nat} {p : Nat × Option Nat} (h : p ∈ ((t.findBody a).getD .nil).bis) :
    p ∈ t.bis := by
  cases hbody : t.findBody a with
  | none =>
    rw [hbody] at h
    cases h
  | some body =>
    rw [hbody] at h
    exact (CilBlkTree.bis_sublist_of_findBody hbody).subset h

/-- The stack holds different blocks of the tree, so that the calls cannot be nested deeper than there are blocks. -/
private theorem cilCheckInherited_spec {m : Nat} (hrefs : ∀ a b, (a, some b) ∈ t.bis → b ∈ t.heads)
    (hstack : stack.Nodup) (hsub : stack ⊆ t.heads) (hb : b ∈ t.heads)
    (hdepth : t.heads.length < depth + stack.length)
    (hdepth' : t.heads.length < depth' + stack.length) :
    cilCheckInherited t m depth stack b = cilCheckInherited t m depth' stack b ∧
      ∀ count, Ensures (· ≠ .depth) (fun _ => True) (cilCheckInherited t m depth stack b count) := by
  have hlen : stack.length ≤ t.heads.length := (hstack.subperm hsub).length_le
  induction depth generalizing depth' stack b with
  | zero => omega
  | succ depth ih =>
    obtain ⟨depth', rfl⟩ : ∃ d, depth' = d + 1 := ⟨depth' - 1, by omega⟩
    by_cases hmem : b ∈ stack
    · refine ⟨?_, fun count => ?_⟩
      · funext count
        rw [cilCheckInherited, cilCheckInherited, if_pos hmem, if_pos hmem]
      · rw [cilCheckInherited, if_pos hmem]
        exact CilInheritErr.noConfusion
    · have hstack' : (b :: stack).Nodup := List.nodup_cons.2 ⟨hmem, hstack⟩
      have hsub' : b :: stack ⊆ t.heads := List.cons_subset.2 ⟨hb, hsub⟩
      have hnext : ∀ a c, (a, some c) ∈ ((t.findBody b).getD .nil).bis →
          cilCheckInherited t m depth (b :: stack) c = cilCheckInherited t m depth' (b :: stack) c ∧
            ∀ count, Ensures (· ≠ .depth) (fun _ => True) (cilCheckInherited t m depth (b :: stack) c count) := by
        intro a c hc
        refine ih hstack' hsub' (hrefs a c (mem_bis_of_getD hc)) ?_ ?_ (hstack'.subperm hsub').length_le
        · rw [List.length_cons]
          omega
        · rw [List.length_cons]
          omega
      refine ⟨?_, fun count => ?_⟩
      · funext count
        rw [cilCheckInherited, cilCheckInherited, if_neg hmem, if_neg hmem]
        exact cilCheckInheritances_congr (fun a c hc => (hnext a c hc).1) count
      · rw [cilCheckInherited, if_neg hmem]
        exact cilCheckInheritances_ensures m (fun a c count hc => (hnext a c hc).2 count) count

/-- The check ends: with more calls than there are blocks its result is no longer about depth. -/
theorem cilCheckForBadInheritance_ends (t : CilLinkedTree) (hdepth : t.tree.heads.length < depth)
    (hdepth' : t.tree.heads.length < depth') :
    cilCheckForBadInheritance depth t.tree = cilCheckForBadInheritance depth' t.tree ∧
      cilCheckForBadInheritance depth t.tree ≠ .error .depth := by
  have hspec : ∀ a b, (a, some b) ∈ t.tree.bis →
      cilCheckInherited t.tree (cilInheritanceMax t.tree) depth [] b =
        cilCheckInherited t.tree (cilInheritanceMax t.tree) depth' [] b ∧
      ∀ count, Ensures (· ≠ .depth) (fun _ => True)
        (cilCheckInherited t.tree (cilInheritanceMax t.tree) depth [] b count) := by
    intro a b hmem
    refine cilCheckInherited_spec t.refs List.nodup_nil (List.nil_subset _) (t.refs a b hmem) ?_ ?_
    · simpa using hdepth
    · simpa using hdepth'
  have hensures := cilCheckInheritances_ensures (cilInheritanceMax t.tree)
    (fun a b count hmem => (hspec a b hmem).2 count) 0
  refine ⟨cilCheckInheritances_congr (fun a b hmem => (hspec a b hmem).1) 0, fun herr => ?_⟩
  rw [← cilCheckForBadInheritance, herr] at hensures
  exact hensures rfl

end Sepol
