import Sepol.Lib.CycleDetector
import Sepol.Policydb

/-!
# Bounds and aliases of CIL symbols

`__cil_verify_type`, `__cil_verify_role` and `__cil_verify_user_pre_eval` follow the bounds of a symbol, and
`cil_resolve_alias_to_actual` follows the symbols an alias stands for.  All of them detect a cycle with one remembered
symbol, which is moved after a number of steps that doubles each time.  The numbers of steps are `int`s, which do not
overflow when there are fewer than 2^30 - 1 symbols.
-/

namespace Sepol

open CycleDetector (Found detect EntersCycle EndsAt Settles)

variable {α τ δ ρ : Type} [DecidableEq α] [DecidableEq τ]

/-! ### Bounds -/

inductive CilBoundsError (α : Type) where
  | noDefaultLevel
  | noLevelRange
  | circular (datum : α)

/-- The loop of the three functions; `none` also stands for the overflow of `limit`.  The number of steps is never
above `limit`. -/
def cilBoundsLoop (bounds : α → Option α) : Nat → α → Option α → Nat → Nat → Option (Except (CilBoundsError α) Unit)
  | 0, _, _, _, _ => none
  | _ + 1, _, none, _, _ => some (.ok ())
  | fuel + 1, t1, some t2, steps, limit =>
    if t1 = t2 then some (.error (.circular t1))
    else if steps = limit then if limit * 2 ≤ intMax then cilBoundsLoop bounds fuel t2 (bounds t2) 1 (limit * 2)
      else none
    else cilBoundsLoop bounds fuel t1 (bounds t2) (steps + 1) limit

def cilVerifyType (bounds : α → Option α) (fuel : Nat) (type : α) : Option (Except (CilBoundsError α) Unit) :=
  cilBoundsLoop bounds fuel type (bounds type) 0 2

def cilVerifyRole (bounds : α → Option α) (fuel : Nat) (role : α) : Option (Except (CilBoundsError α) Unit) :=
  cilBoundsLoop bounds fuel role (bounds role) 0 2

/-- The fields of a `cil_user` that are read here. -/
structure CilBoundedUser (α δ ρ : Type) where
  bounds : Option α
  dftlevel : Option δ
  range : Option ρ

/-- `__cil_verify_user_pre_eval`. -/
def cilVerifyUserPreEval (users : α → CilBoundedUser α δ ρ) (fuel : Nat) (user : α) :
    Option (Except (CilBoundsError α) Unit) :=
  if (users user).dftlevel.isNone then some (.error .noDefaultLevel)
  else if (users user).range.isNone then some (.error .noLevelRange)
  else if (users user).bounds.isSome then
    cilBoundsLoop (fun u => (users u).bounds) fuel user (users user).bounds 0 2
  else some (.ok ())

/-! ### Aliases -/

inductive CilAliasError (α τ : Type) where
  | notUsed
  | referencesUnused (datum : α)
  | circular (datums : List (α ⊕ τ))

/-- A symbol is an alias or a symbol of the flavor that is looked for; only an alias has an actual symbol. -/
def cilAliasNext (actual : α → Option (α ⊕ τ)) : α ⊕ τ → Option (α ⊕ τ)
  | .inl a => actual a
  | .inr _ => none

/-- The loop that logs the symbols of a cycle behind `a2`. -/
def cilAliasCycle (actual : α → Option (α ⊕ τ)) : Nat → α ⊕ τ → Option (α ⊕ τ) → Option (List (α ⊕ τ))
  | 0, _, _ => none
  | _ + 1, _, none => none
  | fuel + 1, a2, some a1 =>
    if a1 = a2 then some [] else (cilAliasCycle actual fuel a2 (cilAliasNext actual a1)).map fun datums =>
      a1 :: datums

/-- The loop of `cil_resolve_alias_to_actual`; `logFuel` is for the loop that logs a cycle, and `none` also stands for
the overflow of `limit`. -/
def cilAliasLoop (actual : α → Option (α ⊕ τ)) (logFuel : Nat) :
    Nat → α ⊕ τ → α ⊕ τ → Nat → Nat → Option (Except (CilAliasError α τ) τ)
  | 0, _, _, _, _ => none
  | _ + 1, .inr t, _, _, _ => some (.ok t)
  | fuel + 1, .inl a, a2, steps, limit =>
    match actual a with
    | none => some (.error (.referencesUnused a))
    | some a1 =>
      let steps := steps + 1
      if a1 = a2 then
        (cilAliasCycle actual logFuel a2 (cilAliasNext actual a1)).map fun datums => .error (.circular (a1 :: datums))
      else if steps = limit then
        if limit * 2 ≤ intMax then cilAliasLoop actual logFuel fuel a1 a1 0 (limit * 2) else none
      else cilAliasLoop actual logFuel fuel a1 a2 steps limit

/-- `cil_resolve_alias_to_actual`; the result is the new `actual` of all aliases. -/
def cilResolveAliasToActual (actual : α → Option (α ⊕ τ)) (fuel : Nat) (current : α) :
    Option (Except (CilAliasError α τ) (α → Option (α ⊕ τ))) :=
  match actual current with
  | none => some (.error .notUsed)
  | some _ =>
    (cilAliasLoop actual fuel fuel (.inl current) (.inl current) 0 2).map fun result =>
      result.map fun t => Function.update actual current (some (.inr t))

/-! ### The loops and the detector -/

def boundsResult : Found α → Except (CilBoundsError α) Unit
  | .ends _ => .ok ()
  | .cycle t => .error (.circular t)

private theorem cilBoundsLoop_eq (bounds : α → Option α) (fuel : Nat) (t1 x : α) (steps limit : Nat) :
    cilBoundsLoop bounds fuel t1 (bounds x) steps limit =
      (detect bounds intMax fuel t1 x steps limit).map boundsResult := by
  induction fuel generalizing t1 x steps limit with
  | zero => rfl
  | succ fuel ih =>
    rw [detect]
    cases hx : bounds x with
    | none => rfl
    | some y =>
      rw [cilBoundsLoop]
      by_cases heq : t1 = y
      · rw [if_pos heq]
        dsimp only
        rw [if_pos heq]
        rfl
      · by_cases hlimit : steps = limit
        · simp only [if_neg heq, if_pos hlimit]
          split
          · exact ih y y 1 (limit * 2)
          · rfl
        · simp only [if_neg heq, if_neg hlimit]
          exact ih t1 y (steps + 1) limit

/-- What the loop makes of what is found. -/
def aliasResult (actual : α → Option (α ⊕ τ)) (logFuel : Nat) : Found (α ⊕ τ) → Option (Except (CilAliasError α τ) τ)
  | .ends (.inr t) => some (.ok t)
  | .ends (.inl a) => some (.error (.referencesUnused a))
  | .cycle x =>
    (cilAliasCycle actual logFuel x (cilAliasNext actual x)).map fun datums => .error (.circular (x :: datums))

private theorem cilAliasLoop_eq (actual : α → Option (α ⊕ τ)) (logFuel fuel : Nat) (a1 a2 : α ⊕ τ)
    (steps limit : Nat) : cilAliasLoop actual logFuel fuel a1 a2 steps limit =
      (detect (cilAliasNext actual) intMax fuel a2 a1 (steps + 1) limit).bind (aliasResult actual logFuel) := by
  induction fuel generalizing a1 a2 steps limit with
  | zero => rfl
  | succ fuel ih =>
    cases a1 with
    | inr t => rfl
    | inl a =>
      rw [cilAliasLoop, detect, cilAliasNext]
      cases ha : actual a with
      | none => rfl
      | some y =>
        by_cases heq : a2 = y
        · subst heq
          simp only [if_true]
          rfl
        · by_cases hlimit : steps + 1 = limit
          · simp only [if_neg heq, if_neg (Ne.symm heq), if_pos hlimit]
            split
            · exact ih y y 0 (limit * 2)
            · rfl
          · simp only [if_neg heq, if_neg (Ne.symm heq), if_neg hlimit]
            exact ih y a2 (steps + 1) limit

/-! ### The results -/

/-- From some fuel on the run fails. -/
def Fails {ε β : Type} (run : Nat → Option (Except ε β)) : Prop := ∃ e, Settles run (.error e)

omit [DecidableEq α] [DecidableEq τ] in
private theorem not_fails_of_ok {ε β : Type} {run : Nat → Option (Except ε β)} {b : β} (h : Settles run (.ok b)) :
    ¬ Fails run := by
  rintro ⟨e, he⟩
  cases h.eq he

private theorem cilBoundsLoop_settles [Finite α] (hcard : 2 * Nat.card α + 2 ≤ intMax) (bounds : α → Option α)
    (s : α) : (∃ result, Settles (fun fuel => cilBoundsLoop bounds fuel s (bounds s) 0 2) result) ∧
      (Fails (fun fuel => cilBoundsLoop bounds fuel s (bounds s) 0 2) ↔ EntersCycle bounds s) := by
  obtain ⟨found, hright, hsettles⟩ := CycleDetector.detect_settles bounds hcard s (show 0 ≤ 1 by decide)
  have hrun : Settles (fun fuel => cilBoundsLoop bounds fuel s (bounds s) 0 2) (boundsResult found) := by
    simpa only [cilBoundsLoop_eq] using hsettles.map boundsResult
  refine ⟨⟨_, hrun⟩, ?_⟩
  cases found with
  | ends z => exact iff_of_false (not_fails_of_ok hrun) (EndsAt.not_entersCycle hright)
  | cycle z => exact iff_of_true ⟨_, hrun⟩ ⟨z, hright⟩

omit [DecidableEq α] [DecidableEq τ] in
private theorem settles_const {ρ : Type} (r : ρ) : Settles (fun _ => some r) r := ⟨0, fun _ _ => rfl⟩

/-- A user without a default level or a range fails at once. -/
private theorem cilVerifyUserPreEval_settles [Finite α] (hcard : 2 * Nat.card α + 2 ≤ intMax)
    (users : α → CilBoundedUser α δ ρ) (s : α) :
    (∃ result, Settles (fun fuel => cilVerifyUserPreEval users fuel s) result) ∧
      (Fails (fun fuel => cilVerifyUserPreEval users fuel s) ↔
        (users s).dftlevel = none ∨ (users s).range = none ∨ EntersCycle (fun u => (users u).bounds) s) := by
  have hloop := cilBoundsLoop_settles hcard (fun u => (users u).bounds) s
  unfold cilVerifyUserPreEval
  cases hlevel : (users s).dftlevel with
  | none =>
    simp only [Option.isNone_none, if_true, true_or, iff_true]
    exact ⟨⟨_, settles_const _⟩, _, settles_const _⟩
  | some l =>
    cases hrange : (users s).range with
    | none =>
      simp only [Option.isNone_some, Option.isNone_none, Bool.false_eq_true, if_true, if_false, true_or, or_true,
        iff_true]
      exact ⟨⟨_, settles_const _⟩, _, settles_const _⟩
    | some r =>
      simp only [Option.isNone_some, Bool.false_eq_true, if_false, reduceCtorEq, false_or]
      cases hbounds : (users s).bounds with
      | none =>
        -- the loop would end at once as well
        rw [hbounds] at hloop
        have hend : EndsAt (fun u => (users u).bounds) s s := ⟨Relation.ReflTransGen.refl, hbounds⟩
        simp only [Option.isSome_none, Bool.false_eq_true, if_false]
        exact ⟨⟨_, settles_const _⟩, iff_of_false (not_fails_of_ok (settles_const _)) hend.not_entersCycle⟩
      | some b =>
        rw [hbounds] at hloop
        simp only [Option.isSome_some, if_true]
        exact hloop

/-- The symbols of a cycle are logged to the end. -/
private theorem exists_cilAliasCycle (actual : α → Option (α ⊕ τ)) {x y : α ⊕ τ}
    (h : Relation.ReflTransGen (CycleDetector.Follows (cilAliasNext actual)) y x) :
    ∃ datums, Settles (fun fuel => cilAliasCycle actual fuel x (some y)) datums := by
  induction h using Relation.ReflTransGen.head_induction_on with
  | refl =>
    refine ⟨[], 1, fun fuel hfuel => ?_⟩
    obtain ⟨fuel, rfl⟩ : ∃ m, fuel = m + 1 := ⟨fuel - 1, by omega⟩
    simp [cilAliasCycle]
  | @head y z hstep _ ih =>
    by_cases heq : y = x
    · refine ⟨[], 1, fun fuel hfuel => ?_⟩
      obtain ⟨fuel, rfl⟩ : ∃ m, fuel = m + 1 := ⟨fuel - 1, by omega⟩
      simp [cilAliasCycle, heq]
    · obtain ⟨datums, n, hn⟩ := ih
      refine ⟨y :: datums, n + 1, fun fuel hfuel => ?_⟩
      obtain ⟨fuel, rfl⟩ : ∃ m, fuel = m + 1 := ⟨fuel - 1, by omega⟩
      have hnext : cilAliasNext actual y = some z := hstep
      have hrest := hn fuel (by omega)
      dsimp only at hrest ⊢
      rw [cilAliasCycle, if_neg heq, hnext, hrest]
      rfl

/-- Following the symbols an alias stands for. -/
private theorem cilAliasLoop_settles [Finite α] [Finite τ] (hcard : 2 * Nat.card (α ⊕ τ) + 2 ≤ intMax)
    (actual : α → Option (α ⊕ τ)) (a : α) :
    (∃ t, EndsAt (cilAliasNext actual) (.inl a) (.inr t) ∧
        Settles (fun fuel => cilAliasLoop actual fuel fuel (.inl a) (.inl a) 0 2) (.ok t)) ∨
      ((EntersCycle (cilAliasNext actual) (.inl a) ∨ ∃ b, EndsAt (cilAliasNext actual) (.inl a) (.inl b)) ∧
        Fails fun fuel => cilAliasLoop actual fuel fuel (.inl a) (.inl a) 0 2) := by
  obtain ⟨found, hright, hsettles⟩ :=
    CycleDetector.detect_settles (cilAliasNext actual) hcard (.inl a) (show 1 ≤ 1 by decide)
  simp only [cilAliasLoop_eq, Nat.zero_add]
  cases found with
  | ends x =>
    cases x with
    | inl b => exact Or.inr ⟨Or.inr ⟨b, hright⟩, _, hsettles.bind (settles_const _)⟩
    | inr t => exact Or.inl ⟨t, hright, hsettles.bind (settles_const _)⟩
  | cycle x =>
    obtain ⟨y, hy, hrest⟩ := Relation.TransGen.head'_iff.1 hright.2
    obtain ⟨datums, hdatums⟩ := exists_cilAliasCycle actual hrest
    have hlog : Settles (fun fuel => aliasResult actual fuel (.cycle x)) (.error (.circular (x :: datums))) := by
      have hnext : cilAliasNext actual x = some y := hy
      simpa only [aliasResult, hnext] using hdatums.map fun datums =>
        Except.error (CilAliasError.circular (x :: datums))
    exact Or.inr ⟨Or.inl ⟨x, hright⟩, _, hsettles.bind hlog⟩

private theorem cilResolveAliasToActual_settles [Finite α] [Finite τ] (hcard : 2 * Nat.card (α ⊕ τ) + 2 ≤ intMax)
    (actual : α → Option (α ⊕ τ)) (a : α) :
    (∃ t, EndsAt (cilAliasNext actual) (.inl a) (.inr t) ∧
        Settles (fun fuel => cilResolveAliasToActual actual fuel a)
        (.ok (Function.update actual a (some (.inr t))))) ∨
      ((EntersCycle (cilAliasNext actual) (.inl a) ∨ ∃ b, EndsAt (cilAliasNext actual) (.inl a) (.inl b)) ∧
        Fails fun fuel => cilResolveAliasToActual actual fuel a) := by
  unfold cilResolveAliasToActual
  cases ha : actual a with
  | none =>
    have hend : EndsAt (cilAliasNext actual) (.inl a) (.inl a) := ⟨Relation.ReflTransGen.refl, ha⟩
    exact Or.inr ⟨Or.inr ⟨a, hend⟩, _, settles_const _⟩
  | some x =>
    dsimp only
    rcases cilAliasLoop_settles hcard actual a with ⟨t, hend, hrun⟩ | ⟨hbad, e, hrun⟩
    · exact Or.inl ⟨t, hend, hrun.map _⟩
    · exact Or.inr ⟨hbad, e, hrun.map _⟩

/-- Cycles of bounds and of aliases are found exactly: the functions end, those for types and roles fail when
following the bounds enters a cycle, the one for users also when the user has no default level or no range, and an
alias is linked to the symbol at the end of its chain unless the chain is cyclic or leads to an alias that is not
bound. -/
theorem cilVerifyBounds_exact [Finite α] [Finite τ] (hcard : Nat.card α + Nat.card τ < 2 ^ 30 - 1) :
    (∀ (bounds : α → Option α) (s : α),
      (∃ result, Settles (fun fuel => cilVerifyType bounds fuel s) result) ∧
        (Fails (fun fuel => cilVerifyType bounds fuel s) ↔ EntersCycle bounds s)) ∧
    (∀ (bounds : α → Option α) (s : α),
      (∃ result, Settles (fun fuel => cilVerifyRole bounds fuel s) result) ∧
        (Fails (fun fuel => cilVerifyRole bounds fuel s) ↔ EntersCycle bounds s)) ∧
    (∀ (users : α → CilBoundedUser α δ ρ) (s : α),
      (∃ result, Settles (fun fuel => cilVerifyUserPreEval users fuel s) result) ∧
        (Fails (fun fuel => cilVerifyUserPreEval users fuel s) ↔
          (users s).dftlevel = none ∨ (users s).range = none ∨ EntersCycle (fun u => (users u).bounds) s)) ∧
    ∀ (actual : α → Option (α ⊕ τ)) (a : α),
      (∃ result, Settles (fun fuel => cilResolveAliasToActual actual fuel a) result) ∧
        (Fails (fun fuel => cilResolveAliasToActual actual fuel a) ↔
          EntersCycle (cilAliasNext actual) (.inl a) ∨ ∃ b, EndsAt (cilAliasNext actual) (.inl a) (.inl b)) ∧
        ∀ t, EndsAt (cilAliasNext actual) (.inl a) (.inr t) →
          Settles (fun fuel => cilResolveAliasToActual actual fuel a)
            (.ok (Function.update actual a (some (.inr t)))) := by
  have hint : intMax = 2 ^ 31 - 1 := rfl
  have hone : 2 * Nat.card α + 2 ≤ intMax := by omega
  have hsum : 2 * Nat.card (α ⊕ τ) + 2 ≤ intMax := by
    rw [Nat.card_sum]
    omega
  refine ⟨cilBoundsLoop_settles hone, cilBoundsLoop_settles hone, cilVerifyUserPreEval_settles hone,
    fun actual a => ?_⟩
  rcases cilResolveAliasToActual_settles hsum actual a with ⟨t, hend, hrun⟩ | ⟨hbad, e, hrun⟩
  · refine ⟨⟨_, hrun⟩, iff_of_false (not_fails_of_ok hrun) ?_, fun t' hend' => ?_⟩
    · rintro (hcycle | ⟨b, hend'⟩)
      · exact hend.not_entersCycle hcycle
      · cases hend.eq hend'
    · cases hend.eq hend'
      exact hrun
  · refine ⟨⟨_, hrun⟩, iff_of_true ⟨e, hrun⟩ hbad, fun t hend => ?_⟩
    rcases hbad with hcycle | ⟨b, hend'⟩
    · exact absurd hcycle hend.not_entersCycle
    · cases hend.eq hend'

/-- The first type is bounded by the second one, which is bounded by itself. -/
def selfBounded (s : Fin 3) : Option (Fin 3) := if s = 2 then none else some 1

theorem cilVerifyBounds_exact_example :
    (∃ result, Settles (fun fuel => cilVerifyType selfBounded fuel 0) result) ∧
      (Fails (fun fuel => cilVerifyType selfBounded fuel 0) ↔ EntersCycle selfBounded 0) :=
  (@cilVerifyBounds_exact (Fin 3) (Fin 2) Unit Unit _ _ _ _ (by simp)).1 selfBounded 0

/-- A user that has neither bounds nor a default level fails, and there is no cycle. -/
theorem not_cilVerifyUser_iff :
    ¬ (Fails (fun fuel =>
        cilVerifyUserPreEval (fun _ : Unit => (⟨none, none, none⟩ : CilBoundedUser Unit Unit Unit)) fuel ()) ↔
      EntersCycle (fun _ : Unit => (none : Option Unit)) ()) := by
  intro h
  have hend : EndsAt (fun _ : Unit => (none : Option Unit)) () () := ⟨Relation.ReflTransGen.refl, rfl⟩
  exact hend.not_entersCycle (h.1 ⟨.noDefaultLevel, 0, fun _ _ => rfl⟩)

end Sepol
