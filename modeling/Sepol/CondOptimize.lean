import Sepol.Lib.LinkedCells
import Sepol.AvtabRead

/-!
# Type rules first

`cond_optimize` moves the type rules of a list to its top by changing the links of the cells while it walks through
them.  What is behind `p` is not yet seen; the cells from `top` to `p` hold the rules that are, and the last one of
them is linked to `cur`.
-/

namespace Sepol

open LinkedCells

/-- The cells of `cond_av_list_t`, each with the rule that its `node` points to. -/
abbrev CondAvHeap : Type := Heap Nat AvtabNode

def isTypeRule (node : AvtabNode) : Bool := hasSpecified node.key.specified avtabType

/-- The variables of `cond_optimize` next to the cells. -/
structure CondOptimizeState where
  heap : CondAvHeap
  top : Option Nat
  p : Option Nat
  cur : Option Nat

/-- The body of the loop, with no result where a pointer without a cell is dereferenced. -/
def condOptimizeStep (s : CondOptimizeState) (cur : Nat) : Option CondOptimizeState := do
  let c ← s.heap cur
  if isTypeRule c.value ∧ s.top ≠ some cur then
    let p ← s.p
    let _ ← s.heap p
    let heap := setNext (setNext s.heap p c.next) cur s.top
    let prev ← heap p
    some ⟨heap, some cur, s.p, prev.next⟩
  else
    some ⟨s.heap, s.top, some cur, c.next⟩

/-- The loop, with no result either where the fuel is used up. -/
def condOptimizeLoop : Nat → CondOptimizeState → Option CondOptimizeState
  | fuel, s =>
    match s.cur with
    | none => some s
    | some cur =>
      match fuel with
      | 0 => none
      | fuel + 1 => (condOptimizeStep s cur).bind (condOptimizeLoop fuel)

/-- `cond_optimize`: the cells and the first one of the list. -/
def condOptimize (fuel : Nat) (heap : CondAvHeap) (l : Option Nat) : Option (CondAvHeap × Option Nat) :=
  (condOptimizeLoop fuel ⟨heap, l, l, l⟩).map fun s => (s.heap, s.top)

/-! ### The order of the rules -/

abbrev CondAvCells : Type := List (Nat × AvtabNode)

/-- A type rule is put in front of the rules seen before, another rule behind them. -/
def placeRule (placed : CondAvCells) (x : Nat × AvtabNode) : CondAvCells :=
  if isTypeRule x.2 then x :: placed else placed ++ [x]

/-- Every type rule is in front of every other rule. -/
def TypeRulesFirst (rules : CondAvCells) : Prop := rules.Pairwise fun x y => isTypeRule y.2 → isTypeRule x.2

private theorem placeRule_perm (placed : CondAvCells) (x : Nat × AvtabNode) :
    (placeRule placed x).Perm (placed ++ [x]) := by
  unfold placeRule
  split
  · exact (List.perm_append_singleton x placed).symm
  · exact List.Perm.refl _

private theorem foldl_placeRule_perm (rules placed : CondAvCells) :
    (rules.foldl placeRule placed).Perm (placed ++ rules) := by
  induction rules generalizing placed with
  | nil => simp
  | cons x rules ih =>
    have h := (placeRule_perm placed x).append_right rules
    rw [List.append_assoc] at h
    exact (ih (placeRule placed x)).trans h

private theorem TypeRulesFirst.placeRule {placed : CondAvCells} (h : TypeRulesFirst placed) (x : Nat × AvtabNode) :
    TypeRulesFirst (placeRule placed x) := by
  unfold Sepol.placeRule
  split
  · rename_i hx
    exact List.pairwise_cons.2 ⟨fun _ _ _ => hx, h⟩
  · rename_i hx
    refine List.pairwise_append.2 ⟨h, List.pairwise_singleton _ _, fun y _ z hz htype => ?_⟩
    rw [List.mem_singleton.1 hz] at htype
    exact absurd htype hx

private theorem TypeRulesFirst.foldl_placeRule {placed : CondAvCells} (h : TypeRulesFirst placed)
    (rules : CondAvCells) : TypeRulesFirst (rules.foldl Sepol.placeRule placed) := by
  induction rules generalizing placed with
  | nil => exact h
  | cons x rules ih => exact ih (h.placeRule x)

/-! ### The loop -/

/-- The rules seen so far are linked from `top` to `p`, and `p` to the rules that are left.  Other cells are those of
the heap at the start. -/
structure Optimizing (heap : CondAvHeap) (placed rest : CondAvCells) (s : CondOptimizeState) : Prop where
  seen : Segment s.heap s.top placed s.cur
  unseen : Segment s.heap s.cur rest none
  last : ∀ x, placed.getLast? = some x → s.p = some x.1
  nodup : ((placed ++ rest).map Prod.fst).Nodup
  frame : ∀ i, i ∉ (placed ++ rest).map Prod.fst → s.heap i = heap i

variable {heap : CondAvHeap} {placed rest : CondAvCells} {s : CondOptimizeState} {cur : Nat} {node : AvtabNode}

private theorem map_fst_placeRule_perm (placed rest : CondAvCells) (x : Nat × AvtabNode) :
    ((placeRule placed x ++ rest).map Prod.fst).Perm ((placed ++ x :: rest).map Prod.fst) := by
  have h := ((placeRule_perm placed x).append_right rest).map Prod.fst
  rwa [List.append_assoc, List.singleton_append] at h

private theorem Optimizing.stay (h : Optimizing heap placed ((cur, node) :: rest) s)
    (hplace : placeRule placed (cur, node) = placed ++ [(cur, node)]) {next : Option Nat}
    (hcell : s.heap cur = some ⟨node, next⟩) :
    Optimizing heap (placeRule placed (cur, node)) rest ⟨s.heap, s.top, some cur, next⟩ := by
  obtain ⟨hcur, r, hr, hrest⟩ := h.unseen
  rw [hcell, Option.some.injEq, Cell.mk.injEq] at hr
  obtain ⟨-, rfl⟩ := hr
  have hperm := map_fst_placeRule_perm placed rest (cur, node)
  refine ⟨?_, hrest, ?_, hperm.nodup_iff.2 h.nodup, fun i hi => h.frame i fun hmem => hi (hperm.mem_iff.2 hmem)⟩
  · rw [hplace]
    exact segment_append.2 ⟨s.cur, h.seen, hcur, next, hcell, rfl⟩
  · intro x hx
    rw [hplace, List.getLast?_concat] at hx
    exact congrArg (fun y => some y.1) (Option.some.inj hx)

/-- A type rule behind other rules is taken out and put in front of them. -/
private theorem Optimizing.move (h : Optimizing heap placed ((cur, node) :: rest) s) {prev : Nat} {b : AvtabNode}
    (hlast : placed.getLast? = some (prev, b)) {c : Cell Nat AvtabNode} (hcur : s.heap cur = some c)
    (htype : isTypeRule node) :
    Optimizing heap (placeRule placed (cur, node)) rest
      ⟨setNext (setNext s.heap prev c.next) cur s.top, some cur, some prev, c.next⟩ := by
  obtain ⟨hat, r, hr, hrest⟩ := h.unseen
  rw [hcur, Option.some.injEq] at hr
  subst hr
  -- the rule `prev` is the last one of those in front
  obtain ⟨front, hplaced⟩ := List.getLast?_eq_some_iff.1 hlast
  subst hplaced
  have hperm := map_fst_placeRule_perm (front ++ [(prev, b)]) rest (cur, node)
  have hnodup := h.nodup
  simp only [List.map_append, List.map_cons, List.append_assoc, List.cons_append,
    List.nil_append, List.nodup_append, List.nodup_cons, List.mem_cons, not_or] at hnodup
  obtain ⟨-, ⟨⟨hprevcur, hprevrest⟩, hcurrest, -⟩, hdisjoint⟩ := hnodup
  have hprevfront : prev ∉ front.map Prod.fst := fun hmem => hdisjoint prev hmem prev (Or.inl rfl) rfl
  have hcurfront : cur ∉ front.map Prod.fst := fun hmem => hdisjoint cur hmem cur (Or.inr (Or.inl rfl)) rfl
  have hcurplaced : cur ∉ (front ++ [(prev, b)]).map Prod.fst := by
    simp only [List.map_append, List.map_cons, List.map_nil, List.mem_append, List.mem_singleton, not_or]
    exact ⟨hcurfront, Ne.symm hprevcur⟩
  have hcell : setNext s.heap prev r cur = some ⟨node, r⟩ := by
    rw [setNext_of_ne (Ne.symm hprevcur), hcur]
  rw [placeRule, if_pos htype] at hperm ⊢
  constructor
  · refine ⟨rfl, s.top, ?_, (segment_setNext hcurplaced).2 (h.seen.setNext_last hprevfront)⟩
    dsimp only
    rw [setNext_self, hcell]
    rfl
  · exact (segment_setNext hcurrest).2 ((segment_setNext hprevrest).2 hrest)
  · intro x hx
    rw [← List.cons_append, List.getLast?_concat] at hx
    exact congrArg (fun y => some y.1) (Option.some.inj hx)
  · exact hperm.nodup_iff.2 h.nodup
  · intro i hi
    rw [hperm.mem_iff] at hi
    have hne : i ≠ cur ∧ i ≠ prev := by
      constructor
      · rintro rfl; exact hi (by simp)
      · rintro rfl; exact hi (by simp)
    dsimp only
    rw [setNext_of_ne hne.1, setNext_of_ne hne.2, h.frame i hi]

private theorem Optimizing.top_ne (h : Optimizing heap placed ((cur, node) :: rest) s) (hplaced : placed ≠ []) :
    s.top ≠ some cur := by
  cases placed with
  | nil => exact absurd rfl hplaced
  | cons x placed =>
    obtain ⟨i, b⟩ := x
    rw [h.seen.1]
    intro heq
    have hnodup := h.nodup
    simp only [List.cons_append, List.map_cons, List.nodup_cons] at hnodup
    exact hnodup.1 (by simp [Option.some.inj heq])

/-- The first rule is the top of the list while it is looked at; another type rule is moved. -/
theorem Optimizing.step (h : Optimizing heap placed ((cur, node) :: rest) s)
    (hfirst : placed = [] → s.top = some cur) :
    ∃ s', condOptimizeStep s cur = some s' ∧ Optimizing heap (placeRule placed (cur, node)) rest s' := by
  obtain ⟨-, next, hcell, -⟩ := h.unseen
  by_cases hplaced : placed = []
  · have hplace : placeRule placed (cur, node) = placed ++ [(cur, node)] := by
      simp [placeRule, hplaced]
    exact ⟨_, by simp [condOptimizeStep, hcell, hfirst hplaced], h.stay hplace hcell⟩
  by_cases htype : isTypeRule node = true
  · have htop := h.top_ne hplaced
    obtain ⟨⟨prev, b⟩, hlast⟩ : ∃ x, placed.getLast? = some x :=
      Option.ne_none_iff_exists'.1 fun hnil => hplaced (List.getLast?_eq_none_iff.1 hnil)
    have hp : s.p = some prev := h.last _ hlast
    obtain ⟨front, hfront⟩ := List.getLast?_eq_some_iff.1 hlast
    obtain ⟨q, -, -, r, hprev, hr⟩ := segment_append.1 (hfront ▸ h.seen)
    have hne : prev ≠ cur := by
      rintro rfl
      have hnodup := h.nodup
      rw [hfront] at hnodup
      simp [List.nodup_append] at hnodup
    refine ⟨_, ?_, h.move hlast hcell htype⟩
    simp [condOptimizeStep, hcell, hp, hprev, htype, htop, setNext_of_ne hne]
  · have hplace : placeRule placed (cur, node) = placed ++ [(cur, node)] := if_neg htype
    exact ⟨_, by simp [condOptimizeStep, hcell, htype], h.stay hplace hcell⟩

private theorem placeRule_ne_nil (placed : CondAvCells) (x : Nat × AvtabNode) : placeRule placed x ≠ [] := by
  unfold placeRule
  split <;> simp

theorem Optimizing.loop (h : Optimizing heap placed rest s) (hfirst : placed = [] → s.top = s.cur) {fuel : Nat}
    (hfuel : rest.length ≤ fuel) :
    ∃ s', condOptimizeLoop fuel s = some s' ∧ Optimizing heap (rest.foldl placeRule placed) [] s' := by
  induction rest generalizing placed s fuel with
  | nil =>
    have hcur : s.cur = none := h.unseen
    exact ⟨s, by unfold condOptimizeLoop; rw [hcur], h⟩
  | cons x rest ih =>
    obtain ⟨cur, node⟩ := x
    have hcur : s.cur = some cur := h.unseen.1
    obtain ⟨s', hstep, hnext⟩ := h.step fun hnil => (hfirst hnil).trans hcur
    cases fuel with
    | zero => simp at hfuel
    | succ fuel =>
      have hne := placeRule_ne_nil placed (cur, node)
      obtain ⟨s'', hloop, hdone⟩ := ih hnext (fun hnil => absurd hnil hne) (Nat.le_of_succ_le_succ hfuel)
      refine ⟨s'', ?_, hdone⟩
      unfold condOptimizeLoop
      rw [hcur]
      simp [hstep, hloop]

/-- A list that leads to the null pointer is walked through once; then its cells hold the same rules and lead to the
null pointer, the type rules first, and all other cells are as before. -/
theorem condOptimize_reorders (heap : CondAvHeap) (l : Option Nat) (rules : CondAvCells)
    (h : Segment heap l rules none) (fuel : Nat) (hfuel : rules.length ≤ fuel) :
    ∃ heap' top rules', condOptimize fuel heap l = some (heap', top) ∧ Segment heap' top rules' none ∧
      rules'.Perm rules ∧ TypeRulesFirst rules' ∧ ∀ i, i ∉ rules.map Prod.fst → heap' i = heap i := by
  have hstart : Optimizing heap [] rules ⟨heap, l, l, l⟩ :=
    ⟨rfl, h, fun x hx => absurd hx (by simp), h.nodup, fun _ _ => rfl⟩
  obtain ⟨s, hloop, hdone⟩ := hstart.loop (fun _ => rfl) hfuel
  have hperm : (rules.foldl placeRule []).Perm rules := foldl_placeRule_perm rules []
  have hcur : s.cur = none := hdone.unseen
  refine ⟨s.heap, s.top, rules.foldl placeRule [], by rw [condOptimize, hloop]; rfl, hcur ▸ hdone.seen, hperm, ?_,
    fun i hi => hdone.frame i ?_⟩
  · exact TypeRulesFirst.foldl_placeRule (List.Pairwise.nil) rules
  · rw [List.append_nil, (hperm.map Prod.fst).mem_iff]
    exact hi

def condRule (specified : BitVec 16) (addr : Nat) : AvtabNode :=
  ⟨⟨1, 1, 1, specified⟩, ⟨0, avtabExtendedPermsInit⟩, addr⟩

/-- An access-vector rule, a type rule, an access-vector rule and a type rule. -/
def fourRules : CondAvHeap
  | 1 => some ⟨condRule avtabAllowed 1, some 2⟩
  | 2 => some ⟨condRule avtabTransition 2, some 3⟩
  | 3 => some ⟨condRule avtabAuditallow 3, some 4⟩
  | 4 => some ⟨condRule avtabChange 4, none⟩
  | _ => none

theorem condOptimize_reorders_four :
    ∃ heap' top rules', condOptimize 4 fourRules (some 1) = some (heap', top) ∧ Segment heap' top rules' none ∧
      rules'.Perm [(1, condRule avtabAllowed 1), (2, condRule avtabTransition 2), (3, condRule avtabAuditallow 3),
        (4, condRule avtabChange 4)] ∧ TypeRulesFirst rules' ∧
      ∀ i, i ∉ [1, 2, 3, 4] → heap' i = fourRules i :=
  condOptimize_reorders fourRules (some 1) [(1, condRule avtabAllowed 1), (2, condRule avtabTransition 2),
      (3, condRule avtabAuditallow 3), (4, condRule avtabChange 4)]
    ⟨rfl, _, rfl, rfl, _, rfl, rfl, _, rfl, rfl, _, rfl, rfl⟩ 4 (Nat.le_refl 4)

end Sepol
