import Mathlib

/-!
# Rules that are covered by other rules

A rule applies to some points and yields some atoms, and a set of rules grants at a point what its rules that apply
there yield.  A rule that is covered by the other ones may be removed, and what they cover of a rule may be taken away
from it (`Shrinks`), without a change of what is granted; so this may be done again and again, each time with the
rules that are left.
-/

namespace Coverage

variable {Rule Point Atom : Type*} (applies : Rule → Point → Prop) (yields : Rule → Atom → Prop)

/-- What a set of rules grants at a point. -/
def Granted (R : Set Rule) (x : Point) (a : Atom) : Prop := ∃ r ∈ R, applies r x ∧ yields r a

/-- The rules of `Q` grant all that `r` yields where it applies. -/
def Covered (Q : Set Rule) (r : Rule) : Prop := ∀ x a, applies r x → yields r a → Granted applies yields Q x a

/-- The rule `r'` applies where `r` does and yields a part of what `r` does; the rules of `Q` grant the other part. -/
structure Shrinks (Q : Set Rule) (r r' : Rule) : Prop where
  applies_iff : ∀ x, applies r' x ↔ applies r x
  yields_of : ∀ a, yields r' a → yields r a
  rest : ∀ x a, applies r x → yields r a → yields r' a ∨ Granted applies yields Q x a

variable {applies yields} {Q Q' R R' : Set Rule} {r r' r'' : Rule} {x : Point} {a : Atom}

theorem Granted.mono (h : Granted applies yields R x a) (hsub : R ⊆ R') : Granted applies yields R' x a := by
  obtain ⟨r, hr, hra⟩ := h
  exact ⟨r, hsub hr, hra⟩

theorem granted_union :
    Granted applies yields (R ∪ R') x a ↔ Granted applies yields R x a ∨ Granted applies yields R' x a := by
  constructor
  · rintro ⟨r, hr | hr, hra⟩
    · exact Or.inl ⟨r, hr, hra⟩
    · exact Or.inr ⟨r, hr, hra⟩
  · rintro (h | h)
    · exact h.mono Set.subset_union_left
    · exact h.mono Set.subset_union_right

theorem Covered.mono (h : Covered applies yields Q r) (hsub : Q ⊆ Q') : Covered applies yields Q' r :=
  fun x a hx ha => (h x a hx ha).mono hsub

theorem Shrinks.mono (h : Shrinks applies yields Q r r') (hsub : Q ⊆ Q') : Shrinks applies yields Q' r r' :=
  ⟨h.applies_iff, h.yields_of, fun x a hx ha => (h.rest x a hx ha).imp_right fun hg => hg.mono hsub⟩

theorem Shrinks.refl (Q : Set Rule) (r : Rule) : Shrinks applies yields Q r r :=
  ⟨fun _ => Iff.rfl, fun _ => id, fun _ _ _ ha => Or.inl ha⟩

theorem Shrinks.trans (h : Shrinks applies yields Q r r') (h' : Shrinks applies yields Q r' r'') :
    Shrinks applies yields Q r r'' :=
  ⟨fun x => (h'.applies_iff x).trans (h.applies_iff x),
    fun a ha => h.yields_of a (h'.yields_of a ha), fun x a hx ha =>
    (h.rest x a hx ha).elim (fun ha' => h'.rest x a ((h.applies_iff x).2 hx) ha') Or.inr⟩

/-- When what is left of a rule is covered, the rule is. -/
theorem Shrinks.covered (h : Shrinks applies yields Q r r') (h' : Covered applies yields Q r') :
    Covered applies yields Q r := fun x a hx ha =>
  (h.rest x a hx ha).elim (fun ha' => h' x a ((h.applies_iff x).2 hx) ha') id

/-- A covered rule may be removed. -/
theorem granted_remove (h : Covered applies yields R r) :
    Granted applies yields (insert r R) x a ↔ Granted applies yields R x a := by
  constructor
  · rintro ⟨r', rfl | hr, hx, ha⟩
    · exact h x a hx ha
    · exact ⟨r', hr, hx, ha⟩
  · exact fun hg => hg.mono (Set.subset_insert ..)

/-- A rule may be shrunk by what the other ones cover. -/
theorem granted_shrink (h : Shrinks applies yields R r r') :
    Granted applies yields (insert r R) x a ↔ Granted applies yields (insert r' R) x a := by
  constructor
  · rintro ⟨q, rfl | hq, hx, ha⟩
    · rcases h.rest x a hx ha with ha' | hg
      · exact ⟨r', Set.mem_insert .., (h.applies_iff x).2 hx, ha'⟩
      · exact hg.mono (Set.subset_insert ..)
    · exact ⟨q, Set.mem_insert_of_mem _ hq, hx, ha⟩
  · rintro ⟨q, rfl | hq, hx, ha⟩
    · exact ⟨r, Set.mem_insert .., (h.applies_iff x).1 hx, h.yields_of a ha⟩
    · exact ⟨q, Set.mem_insert_of_mem _ hq, hx, ha⟩

end Coverage
