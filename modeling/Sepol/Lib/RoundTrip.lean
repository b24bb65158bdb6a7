import Mathlib

/-!
# What survives being written and read

A writer puts symbols or refuses; a reader takes a value off the front of its input or fails.  `SurvivesIff c w r P`
says that the condition `c` decides the fate of what `w` puts: under `c` the reader `r` gives a value with `P`,
whatever follows in the input, and stops behind what was put; without `c` nothing that it gives has `P`.  The rules
follow the shape of a writer and of its reader, so that the condition of a record is the conjunction of those of its
parts, also where a part that was lost makes the reader go on at a wrong place.
-/

namespace RoundTrip

variable {β α γ : Type}

/-- A reader: the value read and the rest of the input. -/
abbrev Reader (β α : Type) : Type := StateT (List β) Option α

/-- What a writer puts, or `none` where it refuses. -/
abbrev Put (β : Type) : Type := Option (List β)

/-- Writers one after the other. -/
def putAll : List (Put β) → Put β
  | [] => some []
  | w :: ws => Option.bind w fun front => (putAll ws).map fun back => front ++ back

/-- A writer that refuses unless `p` holds, and puts nothing. -/
def putCheck (p : Prop) [Decidable p] : Put β := if p then some [] else none

structure SurvivesIff (c : Prop) (w : Put β) (r : Reader β α) (P : α → Prop) : Prop where
  restores : c → ∃ out, w = some out ∧ ∀ rest, ∃ a, P a ∧ r (out ++ rest) = some (a, rest)
  loses : ¬ c → ∀ out, w = some out → ∀ rest a rest', r (out ++ rest) = some (a, rest') → ¬ P a

/-- What holds of every value that a reader gives. -/
def Ends (r : Reader β α) (R : α → Prop) : Prop := ∀ input a rest, r input = some (a, rest) → R a

/-! ### Sequences -/

theorem bind_eq_some {r : Reader β α} {k : α → Reader β γ} {input rest : List β} {y : γ} :
    (r >>= k) input = some (y, rest) ↔ ∃ a mid, r input = some (a, mid) ∧ k a mid = some (y, rest) := by
  show (r input).bind (fun p => k p.1 p.2) = some (y, rest) ↔ _
  rw [Option.bind_eq_some_iff]
  constructor
  · rintro ⟨⟨a, mid⟩, hr, hk⟩
    exact ⟨a, mid, hr, hk⟩
  · rintro ⟨a, mid, hr, hk⟩
    exact ⟨(a, mid), hr, hk⟩

theorem pure_eq_some {a b : α} {input rest : List β} :
    (pure a : Reader β α) input = some (b, rest) ↔ a = b ∧ input = rest := by
  show some (a, input) = some (b, rest) ↔ _
  rw [Option.some_inj, Prod.mk.injEq]

theorem guard_eq_some {p : Prop} [Decidable p] {u : Unit} {input rest : List β} :
    (guard p : Reader β Unit) input = some (u, rest) ↔ p ∧ input = rest := by
  by_cases hp : p
  · simp only [guard, hp, ↓reduceIte, pure_eq_some, true_and]
  · simp only [guard, hp, ↓reduceIte, false_and, iff_false]
    exact fun h => nomatch h

/-- A reader that fails when fewer than `n` symbols are left. -/
def checkAvailable (n : Nat) : Reader β Unit := fun input => if n ≤ input.length then some ((), input) else none

theorem checkAvailable_eq_some {n : Nat} {u : Unit} {input rest : List β} :
    (checkAvailable n : Reader β Unit) input = some (u, rest) ↔ n ≤ input.length ∧ input = rest := by
  unfold checkAvailable
  split
  · rename_i hn
    simp only [Option.some_inj, Prod.mk.injEq, true_and, hn]
  · rename_i hn
    simp only [reduceCtorEq, hn, false_and]

theorem putAll_cons_eq_some {w : Put β} {ws : List (Put β)} {out : List β} :
    putAll (w :: ws) = some out ↔ ∃ front back, w = some front ∧ putAll ws = some back ∧ front ++ back = out := by
  simp only [putAll, Option.bind_eq_some_iff, Option.map_eq_some_iff]
  constructor
  · rintro ⟨front, hfront, back, hback, rfl⟩
    exact ⟨front, back, hfront, hback, rfl⟩
  · rintro ⟨front, back, hfront, hback, rfl⟩
    exact ⟨front, hfront, back, hback, rfl⟩

theorem putAll_singleton (w : Put β) : putAll [w] = w := by
  cases w with
  | none => rfl
  | some out => exact congrArg some (List.append_nil out)

namespace Ends

variable {r : Reader β α} {k : α → Reader β γ} {R : γ → Prop}

theorem pure {a : γ} (h : R a) : Ends (Pure.pure a : Reader β γ) R := by
  intro input b rest hb
  exact (pure_eq_some.1 hb).1 ▸ h

theorem bind (h : ∀ a, Ends (k a) R) : Ends (r >>= k) R := by
  intro input y rest hy
  obtain ⟨a, mid, _, hk⟩ := bind_eq_some.1 hy
  exact h a mid y rest hk

theorem failed : Ends (failure : Reader β γ) R := fun _ _ _ h => nomatch h

theorem ite {p : Prop} [Decidable p] {r' : Reader β γ} {r : Reader β γ} (h : p → Ends r R) (h' : ¬ p → Ends r' R) :
    Ends (if p then r else r') R := by
  split
  · exact h ‹_›
  · exact h' ‹_›

end Ends

namespace SurvivesIff

variable {c c₁ c₂ p : Prop} {w : Put β} {ws : List (Put β)} {r : Reader β α} {k : α → Reader β γ} {P : α → Prop}
  {Q : γ → Prop}

theorem congr (h : SurvivesIff c₁ w r P) (hc : c₁ ↔ c₂) : SurvivesIff c₂ w r P :=
  ⟨fun h₂ => h.restores (hc.2 h₂), fun h₂ => h.loses fun h₁ => h₂ (hc.1 h₁)⟩

theorem imp {P' : α → Prop} (h : SurvivesIff c w r P) (hP : ∀ a, P a ↔ P' a) : SurvivesIff c w r P' :=
  ⟨fun hc =>
    let ⟨out, hw, hr⟩ := h.restores hc
    ⟨out, hw, fun rest => let ⟨a, ha, hrun⟩ := hr rest; ⟨a, (hP a).1 ha, hrun⟩⟩,
    fun hc out hw rest a rest' hrun ha => h.loses hc out hw rest a rest' hrun ((hP a).2 ha)⟩

/-- A value that is always read back. -/
theorem of_reads {a : α} {out : List β} (hw : w = some out) (hr : ∀ rest, r (out ++ rest) = some (a, rest)) :
    SurvivesIff True w r fun x => x = a :=
  ⟨fun _ => ⟨out, hw, fun rest => ⟨a, rfl, hr rest⟩⟩, fun h => absurd trivial h⟩

/-- Nothing is left to write or to read. -/
theorem done {a : γ} (h : Q a) : SurvivesIff True (putAll []) (pure a : Reader β γ) Q :=
  ⟨fun _ => ⟨[], rfl, fun _ => ⟨a, h, rfl⟩⟩, fun h => absurd trivial h⟩

/-- Nothing is left to write or to read, and the value is right under the condition. -/
theorem done_iff {a : γ} (h : c ↔ Q a) : SurvivesIff c (putAll []) (pure a : Reader β γ) Q := by
  refine ⟨fun hc => ⟨[], rfl, fun _ => ⟨a, h.1 hc, rfl⟩⟩, fun hc out _ rest b rest' hb hQ => hc (h.2 ?_)⟩
  exact (pure_eq_some.1 hb).1 ▸ hQ

/-- A part and what comes behind it.  The last hypothesis says that what comes behind cannot mend a part that is
wrong; it may use what holds of all that the reader of the part gives. -/
theorem cons_of_ends {R : α → Prop} (h₁ : SurvivesIff c₁ w r P) (h₂ : ∀ a, P a → SurvivesIff c₂ (putAll ws) (k a) Q)
    (hR : Ends r R) (hkeep : ∀ a, R a → Ends (k a) fun y => Q y → P a) :
    SurvivesIff (c₁ ∧ c₂) (putAll (w :: ws)) (r >>= k) Q := by
  constructor
  · rintro ⟨hc₁, hc₂⟩
    obtain ⟨front, hfront, hr⟩ := h₁.restores hc₁
    obtain ⟨a₀, ha₀, _⟩ := hr []
    obtain ⟨back, hback, _⟩ := (h₂ a₀ ha₀).restores hc₂
    refine ⟨front ++ back, putAll_cons_eq_some.2 ⟨front, back, hfront, hback, rfl⟩, fun rest => ?_⟩
    obtain ⟨a, ha, hrun⟩ := hr (back ++ rest)
    obtain ⟨back', hback', hk⟩ := (h₂ a ha).restores hc₂
    obtain rfl : back = back' := Option.some.inj (hback.symm.trans hback')
    obtain ⟨y, hy, hrest⟩ := hk rest
    exact ⟨y, hy, bind_eq_some.2 ⟨a, back ++ rest, by rw [List.append_assoc, hrun], hrest⟩⟩
  · intro hc out hout rest y rest' hrun hy
    obtain ⟨front, back, hfront, hback, rfl⟩ := putAll_cons_eq_some.1 hout
    obtain ⟨a, mid, hr, hk⟩ := bind_eq_some.1 hrun
    rw [List.append_assoc] at hr
    have ha : P a := hkeep a (hR _ a mid hr) mid y rest' hk hy
    -- the first part came out right, so it was not lost and the reader stands behind it
    have hc₁ : c₁ := by
      by_contra hc₁
      exact h₁.loses hc₁ front hfront (back ++ rest) a mid hr ha
    obtain ⟨front', hfront', hread⟩ := h₁.restores hc₁
    obtain rfl : front = front' := Option.some.inj (hfront.symm.trans hfront')
    obtain ⟨a', _, hr'⟩ := hread (back ++ rest)
    obtain ⟨rfl, rfl⟩ := Prod.mk.inj (Option.some.inj (hr.symm.trans hr'))
    exact (h₂ a ha).loses (fun hc₂ => hc ⟨hc₁, hc₂⟩) back hback rest y rest' hk hy

theorem cons (h₁ : SurvivesIff c₁ w r P) (h₂ : ∀ a, P a → SurvivesIff c₂ (putAll ws) (k a) Q)
    (hkeep : ∀ a, Ends (k a) fun y => Q y → P a) : SurvivesIff (c₁ ∧ c₂) (putAll (w :: ws)) (r >>= k) Q :=
  cons_of_ends (R := fun _ => True) h₁ h₂ (fun _ _ _ _ => trivial) fun a _ => hkeep a

/-- A part that is always read back. -/
theorem exact {a : α} (h₁ : SurvivesIff True w r fun x => x = a) (h₂ : SurvivesIff c (putAll ws) (k a) Q) :
    SurvivesIff c (putAll (w :: ws)) (r >>= k) Q := by
  obtain ⟨front, hfront, hread⟩ := h₁.restores trivial
  have hr : ∀ rest, r (front ++ rest) = some (a, rest) := fun rest => by
    obtain ⟨b, rfl, hb⟩ := hread rest
    exact hb
  constructor
  · intro hc
    obtain ⟨back, hback, hk⟩ := h₂.restores hc
    refine ⟨front ++ back, putAll_cons_eq_some.2 ⟨front, back, hfront, hback, rfl⟩, fun rest => ?_⟩
    obtain ⟨y, hy, hrun⟩ := hk rest
    exact ⟨y, hy, bind_eq_some.2 ⟨a, back ++ rest, by rw [List.append_assoc, hr], hrun⟩⟩
  · intro hc out hout rest y rest' hrun
    obtain ⟨front', back, hfront', hback, rfl⟩ := putAll_cons_eq_some.1 hout
    obtain rfl : front = front' := Option.some.inj (hfront.symm.trans hfront')
    obtain ⟨b, mid, hb, hk⟩ := bind_eq_some.1 hrun
    rw [List.append_assoc, hr] at hb
    obtain ⟨rfl, rfl⟩ := Prod.mk.inj (Option.some.inj hb)
    exact h₂.loses hc back hback rest y rest' hk

/-- A part that is read back as it is or not at all. -/
theorem cons_eq {a : α} (h₁ : SurvivesIff c₁ w r fun x => x = a) (hkeep : ∀ x, Ends (k x) fun y => Q y → x = a)
    (h₂ : SurvivesIff c₂ (putAll ws) (k a) Q) : SurvivesIff (c₁ ∧ c₂) (putAll (w :: ws)) (r >>= k) Q := by
  refine cons h₁ (fun x hx => ?_) hkeep
  rw [hx]
  exact h₂

/-- A value that is made of what was read. -/
theorem map {f : α → γ} (h : SurvivesIff c w r P) (hQ : ∀ a, Q (f a) ↔ P a) :
    SurvivesIff c w (r >>= fun a => pure (f a)) Q := by
  constructor
  · intro hc
    obtain ⟨out, hout, hr⟩ := h.restores hc
    refine ⟨out, hout, fun rest => ?_⟩
    obtain ⟨a, ha, hrun⟩ := hr rest
    exact ⟨f a, (hQ a).2 ha, bind_eq_some.2 ⟨a, rest, hrun, rfl⟩⟩
  · intro hc out hout rest y rest' hrun hy
    obtain ⟨a, mid, hr, hpure⟩ := bind_eq_some.1 hrun
    obtain ⟨rfl, _⟩ := pure_eq_some.1 hpure
    exact h.loses hc out hout rest a mid hr ((hQ a).1 hy)

/-- A check of the reader. -/
theorem guarded [Decidable p] {k : Unit → Reader β γ} (h : p → SurvivesIff c w (k ()) Q) :
    SurvivesIff (p ∧ c) w (guard p >>= k) Q := by
  constructor
  · rintro ⟨hp, hc⟩
    obtain ⟨out, hout, hr⟩ := (h hp).restores hc
    refine ⟨out, hout, fun rest => ?_⟩
    obtain ⟨y, hy, hrun⟩ := hr rest
    exact ⟨y, hy, bind_eq_some.2 ⟨(), out ++ rest, guard_eq_some.2 ⟨hp, rfl⟩, hrun⟩⟩
  · intro hc out hout rest y rest' hrun
    obtain ⟨_, mid, hguard, hk⟩ := bind_eq_some.1 hrun
    obtain ⟨hp, rfl⟩ := guard_eq_some.1 hguard
    exact (h hp).loses (fun hc' => hc ⟨hp, hc'⟩) out hout rest y rest' hk

/-- A check that enough of the input is left, which what was put passes. -/
theorem available {n : Nat} {k : Unit → Reader β γ} (hn : ∀ out, w = some out → n ≤ out.length)
    (h : SurvivesIff c w (k ()) Q) : SurvivesIff c w (checkAvailable n >>= k) Q := by
  constructor
  · intro hc
    obtain ⟨out, hout, hr⟩ := h.restores hc
    refine ⟨out, hout, fun rest => ?_⟩
    obtain ⟨y, hy, hrun⟩ := hr rest
    have hle : n ≤ (out ++ rest).length := by
      have := hn out hout
      rw [List.length_append]
      omega
    exact ⟨y, hy, bind_eq_some.2 ⟨(), out ++ rest, checkAvailable_eq_some.2 ⟨hle, rfl⟩, hrun⟩⟩
  · intro hc out hout rest y rest' hrun
    obtain ⟨_, mid, hcheck, hk⟩ := bind_eq_some.1 hrun
    obtain ⟨_, rfl⟩ := checkAvailable_eq_some.1 hcheck
    exact h.loses hc out hout rest y rest' hk

/-- A check of the writer. -/
theorem checked [Decidable p] {r : Reader β γ} (h : p → SurvivesIff c (putAll ws) r Q) :
    SurvivesIff (p ∧ c) (putAll (putCheck p :: ws)) r Q := by
  by_cases hp : p
  · have hput : putAll (putCheck p :: ws) = putAll ws := by
      simp only [putAll, putCheck, hp, ↓reduceIte, Option.bind_some, List.nil_append, Option.map_id']
    rw [hput]
    exact (h hp).congr (by simp only [hp, true_and])
  · refine ⟨fun hc => absurd hc.1 hp, fun _ out hout => ?_⟩
    simp only [putAll, putCheck, hp, ↓reduceIte, Option.bind_none, reduceCtorEq] at hout

/-- Nothing survives a reader that fails. -/
theorem failed (hc : ¬ c) {r : Reader β γ} (h : ∀ input, r input = none) : SurvivesIff c w r Q :=
  ⟨fun h => absurd h hc, fun _ out _ rest a rest' hrun => by rw [h] at hrun; cases hrun⟩

theorem singleton (h : SurvivesIff c w r P) : SurvivesIff c (putAll [w]) r P := (putAll_singleton w).symm ▸ h

theorem of_singleton (h : SurvivesIff c (putAll [w]) r P) : SurvivesIff c w r P := putAll_singleton w ▸ h

/-- A value that was put is read back, with nothing left over, exactly under the condition. -/
theorem iff (h : SurvivesIff c w r P) : (∃ out a, w = some out ∧ r out = some (a, []) ∧ P a) ↔ c := by
  constructor
  · rintro ⟨out, a, hw, hr, ha⟩
    by_contra hc
    rw [← List.append_nil out] at hr
    exact h.loses hc out hw [] a [] hr ha
  · intro hc
    obtain ⟨out, hw, hread⟩ := h.restores hc
    obtain ⟨a, ha, hr⟩ := hread []
    rw [List.append_nil] at hr
    exact ⟨out, a, hw, hr, ha⟩

end SurvivesIff

/-! ### Lists -/

/-- Reading a number of values. -/
def readMany (r : Reader β α) : Nat → Reader β (List α)
  | 0 => pure []
  | n + 1 => do
    let a ← r
    let as ← readMany r n
    return a :: as

theorem ends_readMany_length {r : Reader β α} {n : Nat} : Ends (readMany r n) fun as => as.length = n := by
  induction n with
  | zero => exact .pure rfl
  | succ n ih =>
    intro input as rest h
    rw [readMany] at h
    obtain ⟨a, mid, _, h⟩ := bind_eq_some.1 h
    obtain ⟨as', mid', has, h⟩ := bind_eq_some.1 h
    obtain ⟨rfl, _⟩ := pure_eq_some.1 h
    rw [List.length_cons, ih _ _ _ has]

section

variable {δ : Type} {c : δ → Prop} {w : δ → Put β} {r : Reader β α} {same : δ → α → Prop}

/-- A list survives when its elements do. -/
theorem SurvivesIff.many {as : List δ} (h : ∀ a ∈ as, SurvivesIff (c a) (w a) r (same a)) :
    SurvivesIff (∀ a ∈ as, c a) (putAll (as.map w)) (readMany r as.length) (List.Forall₂ same as) := by
  induction as with
  | nil => exact (SurvivesIff.done .nil).congr (by simp only [List.not_mem_nil, false_imp_iff, implies_true])
  | cons a as ih =>
    have htail := ih fun b hb => h b (List.mem_cons_of_mem _ hb)
    have hcons : ∀ x xs, List.Forall₂ same (a :: as) (x :: xs) ↔ same a x ∧ List.Forall₂ same as xs :=
      fun _ _ => List.forall₂_cons
    refine .congr (.cons (h a (List.mem_cons_self ..)) (fun x hx => .map htail fun xs => ?_)
      fun x => .bind fun xs => .pure fun hall => ((hcons x xs).1 hall).1) (by simp only [List.forall_mem_cons])
    rw [hcons, and_iff_right hx]

/-- A list that is read with a number of elements: another number than its length loses it. -/
theorem SurvivesIff.counted {as : List δ} {n : Nat} (h : ∀ a ∈ as, SurvivesIff (c a) (w a) r (same a)) :
    SurvivesIff (n = as.length ∧ ∀ a ∈ as, c a) (putAll (as.map w)) (readMany r n) (List.Forall₂ same as) := by
  by_cases hn : n = as.length
  · subst hn
    exact (SurvivesIff.many h).congr (by simp only [true_and])
  · refine ⟨fun hc => absurd hc.1 hn, fun _ out _ rest xs rest' hrun hall => hn ?_⟩
    rw [← ends_readMany_length _ _ _ hrun, hall.length_eq]

end

/-- Reading a number of records, each of them into the state that the ones before it have made. -/
def readInto {σ : Type} (r : σ → Reader β σ) : Nat → σ → Reader β σ
  | 0, s => pure s
  | n + 1, s => do
    let s ← r s
    readInto r n s

/-- Records that were put one after the other: `Inv` says what the state is made of. -/
theorem readInto_flatMap {σ δ : Type} {w : δ → List β} {r : σ → Reader β σ} (Inv : List δ → σ → Prop) {all : List δ}
    (hstep : ∀ done a after s rest, done ++ a :: after = all → Inv done s →
      ∃ s', r s (w a ++ rest) = some (s', rest) ∧ Inv (done ++ [a]) s')
    {done as : List δ} {s : σ} (hall : done ++ as = all) (hs : Inv done s) (rest : List β) :
    ∃ s', readInto r as.length s (as.flatMap w ++ rest) = some (s', rest) ∧ Inv all s' := by
  induction as generalizing done s with
  | nil =>
    rw [List.append_nil] at hall
    exact ⟨s, rfl, hall ▸ hs⟩
  | cons a as ih =>
    obtain ⟨s₁, hread, hs₁⟩ := hstep done a as s (as.flatMap w ++ rest) hall hs
    obtain ⟨s', hrest, hs'⟩ := ih (by rw [List.append_assoc, List.singleton_append, hall]) hs₁
    refine ⟨s', ?_, hs'⟩
    rw [List.length_cons, List.flatMap_cons, List.append_assoc, readInto]
    exact bind_eq_some.2 ⟨s₁, _, hread, hrest⟩

/-- Reading the elements of an array. -/
def readFin (r : Reader β α) : (n : Nat) → Reader β (Fin n → α)
  | 0 => pure Fin.elim0
  | n + 1 => do
    let a ← r
    let f ← readFin r n
    return Fin.cons a f

/-- An array whose elements are read back as they are. -/
theorem SurvivesIff.fin {n : Nat} {w : Fin n → Put β} {r : Reader β α} {f : Fin n → α}
    (h : ∀ i, SurvivesIff True (w i) r fun x => x = f i) :
    SurvivesIff True (putAll (List.ofFn w)) (readFin r n) fun x => x = f := by
  induction n with
  | zero =>
    rw [List.ofFn_zero]
    exact .done (Subsingleton.elim ..)
  | succ n ih =>
    rw [List.ofFn_succ]
    refine .exact (h 0) ?_
    rw [← putAll_singleton (putAll (List.ofFn fun i => w i.succ))]
    exact .exact (ih fun i => h i.succ) (.done (Fin.cons_self_tail f))

/-- A list whose elements are read back as they are. -/
theorem forall₂_eq_iff {as bs : List α} : List.Forall₂ (fun a x => x = a) as bs ↔ bs = as := by
  constructor
  · intro h
    induction h with
    | nil => rfl
    | cons hab _ ih => rw [hab, ih]
  · rintro rfl
    exact List.forall₂_same.2 fun _ _ => rfl

end RoundTrip
