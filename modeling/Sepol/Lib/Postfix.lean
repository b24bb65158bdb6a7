import Mathlib

/-!
# Postfix expressions

Expressions with operands, unary and binary operators as trees and as lists of tokens in reverse Polish notation.  A
stack machine with a limit on its stack evaluates a list; the same machine with trees for values reads the tree back,
and with no values at all it only counts the entries of the stack.  So a list that the counter accepts is that of
exactly one tree, and every machine with the same limit leaves the value of this tree.
-/

namespace Postfix

variable {α β γ V : Type*}

inductive Token (α β γ : Type*) where
  | operand (a : α)
  | unary (u : β)
  | binary (o : γ)

inductive Tree (α β γ : Type*) where
  | leaf (a : α)
  | unary (u : β) (t : Tree α β γ)
  | binary (o : γ) (l r : Tree α β γ)

def Tree.tokens : Tree α β γ → List (Token α β γ)
  | .leaf a => [.operand a]
  | .unary u t => t.tokens ++ [.unary u]
  | .binary o l r => l.tokens ++ r.tokens ++ [.binary o]

/-- The meaning of operands and operators. -/
structure Interp (α β γ V : Type*) where
  leaf : α → V
  unary : β → V → V
  binary : γ → V → V → V

def Tree.eval (I : Interp α β γ V) : Tree α β γ → V
  | .leaf a => I.leaf a
  | .unary u t => I.unary u (t.eval I)
  | .binary o l r => I.binary o (l.eval I) (r.eval I)

/-- The stack machine, top of the stack first. -/
def run (I : Interp α β γ V) (limit : Nat) : List V → List (Token α β γ) → Option (List V)
  | s, [] => some s
  | s, .operand a :: ts => if s.length < limit then run I limit (I.leaf a :: s) ts else none
  | a :: s, .unary u :: ts => run I limit (I.unary u a :: s) ts
  | b :: a :: s, .binary o :: ts => run I limit (I.binary o a b :: s) ts
  | _, _ => none

/-- The counter of the entries of the stack. -/
def depth (limit : Nat) : Nat → List (Token α β γ) → Option Nat
  | d, [] => some d
  | d, .operand _ :: ts => if d < limit then depth limit (d + 1) ts else none
  | d + 1, .unary _ :: ts => depth limit (d + 1) ts
  | d + 2, .binary _ :: ts => depth limit (d + 1) ts
  | _, _ => none

/-- Trees as values. -/
def treeInterp : Interp α β γ (Tree α β γ) := ⟨.leaf, .unary, .binary⟩

@[simp] theorem eval_treeInterp (t : Tree α β γ) : t.eval treeInterp = t := by
  induction t with
  | leaf a => rfl
  | unary u t ih => exact congrArg (Tree.unary u) ih
  | binary o l r ihl ihr => exact congrArg₂ (Tree.binary o) ihl ihr

variable {I : Interp α β γ V} {limit : Nat} {s s' : List V} {ts : List (Token α β γ)} {t t' : Tree α β γ}

theorem depth_length (I : Interp α β γ V) (limit : Nat) (s : List V) (ts : List (Token α β γ)) :
    depth limit s.length ts = (run I limit s ts).map List.length := by
  induction ts generalizing s with
  | nil => rfl
  | cons tok ts ih =>
    cases tok with
    | operand a =>
      rw [depth, run]
      split
      · exact ih (I.leaf a :: s)
      · rfl
    | unary u =>
      cases s with
      | nil => rfl
      | cons a s => exact ih (I.unary u a :: s)
    | binary o =>
      match s with
      | [] => rfl
      | [_] => rfl
      | b :: a :: s => exact ih (I.binary o a b :: s)

/-- What was read is what the trees on the stack stand for. -/
theorem flatMap_tokens {s s' : List (Tree α β γ)} (h : run treeInterp limit s ts = some s') :
    s'.reverse.flatMap Tree.tokens = s.reverse.flatMap Tree.tokens ++ ts := by
  induction ts generalizing s with
  | nil =>
    obtain rfl := Option.some.inj h
    rw [List.append_nil]
  | cons tok ts ih =>
    cases tok with
    | operand a =>
      rw [run] at h
      split at h
      · rw [ih h]
        simp [treeInterp, Tree.tokens]
      · cases h
    | unary u =>
      cases s with
      | nil => cases h
      | cons t s =>
        rw [ih h]
        simp [treeInterp, Tree.tokens]
    | binary o =>
      match s with
      | [] => cases h
      | [_] => cases h
      | r :: l :: s =>
        rw [ih h]
        simp [treeInterp, Tree.tokens]

/-- The machine on the list of a tree, where the limit allows it, puts the value of the tree on the stack. -/
theorem run_tokens_append (h : run I limit s (t.tokens ++ ts) = some s') :
    run I limit (t.eval I :: s) ts = some s' := by
  induction t generalizing s ts with
  | leaf a =>
    rw [Tree.tokens, List.singleton_append, run] at h
    split at h
    · exact h
    · cases h
  | unary u t ih =>
    rw [Tree.tokens, List.append_assoc] at h
    exact ih h
  | binary o l r ihl ihr =>
    rw [Tree.tokens, List.append_assoc, List.append_assoc] at h
    exact ihr (ihl h)

/-- The list of a tree adds one entry to the stack, where the limit allows it. -/
theorem depth_tokens {d k : Nat} (h : depth limit d t.tokens = some k) : k = d + 1 := by
  -- the counter is the machine without values
  let I : Interp α β γ Unit := ⟨fun _ => (), fun _ _ => (), fun _ _ _ => ()⟩
  have hlen := depth_length I limit (List.replicate d ()) t.tokens
  rw [List.length_replicate, h, eq_comm, Option.map_eq_some_iff] at hlen
  obtain ⟨s', hrun, rfl⟩ := hlen
  have hstack : run I limit (t.eval I :: List.replicate d ()) [] = some s' :=
    run_tokens_append (by rwa [List.append_nil])
  obtain rfl := Option.some.inj hstack
  simp

/-- A list that leaves one entry is that of a tree, -/
theorem exists_tree (h : depth limit 0 ts = some 1) : ∃ t, Tree.tokens t = ts := by
  have hlen := depth_length treeInterp limit [] ts
  rw [List.length_nil, h, eq_comm, Option.map_eq_some_iff] at hlen
  obtain ⟨s', hrun, hone⟩ := hlen
  obtain ⟨t, rfl⟩ := List.length_eq_one_iff.1 hone
  have hts := flatMap_tokens hrun
  exact ⟨t, by simpa using hts⟩

/-- and every machine leaves the value of the tree, -/
theorem run_tokens (h : depth limit 0 t.tokens = some 1) (I : Interp α β γ V) :
    run I limit [] t.tokens = some [t.eval I] := by
  have hlen := depth_length I limit [] t.tokens
  rw [List.length_nil, h, eq_comm, Option.map_eq_some_iff] at hlen
  obtain ⟨s', hrun, _⟩ := hlen
  have hstack : run I limit [t.eval I] [] = some s' := run_tokens_append (by rwa [List.append_nil])
  rw [run] at hstack
  rw [hrun, ← hstack]

/-- so that the tree is the only one. -/
theorem tokens_inj (h : depth limit 0 t.tokens = some 1) (heq : t.tokens = t'.tokens) : t = t' := by
  have hrun := run_tokens h treeInterp
  rw [heq] at h hrun
  rw [run_tokens h treeInterp] at hrun
  simpa using (Option.some.inj hrun).symm

end Postfix
