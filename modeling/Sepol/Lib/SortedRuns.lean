import Mathlib

/-!
# Sorting by a key

A comparison function orders by a key when it is a preorder whose ties are the pairs of the same key.  Comparison
functions are put together from those of single fields.  In a list sorted by such a function the elements of one key
stand together, so that one element for each key is kept by looking at neighbours only.
-/

namespace SortedRuns

variable {α κ κ' : Type*}

/-! ### Comparison functions -/

/-- `cmp` orders by `key`. -/
structure OrdersBy (cmp : α → α → Ordering) (key : α → κ) : Prop where
  eq_iff : ∀ a b, cmp a b = .eq ↔ key a = key b
  swap : ∀ a b, (cmp a b).swap = cmp b a
  trans : ∀ a b c, cmp a b ≠ .gt → cmp b c ≠ .gt → cmp a c ≠ .gt

variable {cmp cmp' : α → α → Ordering} {key : α → κ} {key' : α → κ'}

/-- The order of a field. -/
theorem OrdersBy.field [Ord κ] [Std.TransOrd κ] [Std.LawfulEqOrd κ] (f : α → κ) :
    OrdersBy (fun a b => compare (f a) (f b)) f where
  eq_iff _ _ := Std.LawfulEqCmp.compare_eq_iff_eq
  swap _ _ := Std.OrientedCmp.eq_swap.symm
  trans a b c hab hbc := by
    have hab' := Ordering.isLE_iff_ne_gt.2 hab
    have hbc' := Ordering.isLE_iff_ne_gt.2 hbc
    exact Ordering.isLE_iff_ne_gt.1 (Std.TransCmp.isLE_trans hab' hbc')

/-- The order the other way. -/
theorem OrdersBy.flip (h : OrdersBy cmp key) : OrdersBy (fun a b => (cmp a b).swap) key where
  eq_iff a b := by
    rw [Ordering.swap_eq_eq, h.eq_iff]
  swap a b := by
    rw [h.swap, h.swap]
  trans a b c hab hbc := by
    rw [h.swap] at hab hbc ⊢
    exact h.trans c b a hbc hab

theorem OrdersBy.eq_of_le_of_le (h : OrdersBy cmp key) {a b : α} (hab : cmp a b ≠ .gt) (hba : cmp b a ≠ .gt) :
    key a = key b := by
  rw [← h.eq_iff]
  have hs := h.swap a b
  cases hc : cmp a b with
  | eq => rfl
  | gt => exact absurd hc hab
  | lt =>
    rw [hc] at hs
    exact absurd hs.symm hba

/-- Ties may be put in the place of each other. -/
theorem OrdersBy.congr_left (h : OrdersBy cmp key) {a b : α} (hab : key a = key b) (c : α) : cmp a c = cmp b c := by
  have hle : cmp a b ≠ .gt := by rw [(h.eq_iff a b).2 hab]; decide
  have hge : cmp b a ≠ .gt := by rw [(h.eq_iff b a).2 hab.symm]; decide
  have hgt : cmp a c = .gt ↔ cmp b c = .gt := by
    constructor
    · intro hc
      by_contra hn
      exact h.trans a b c hle hn hc
    · intro hc
      by_contra hn
      exact h.trans b a c hge hn hc
  have heq : cmp a c = .eq ↔ cmp b c = .eq := by
    rw [h.eq_iff, h.eq_iff, hab]
  cases ha : cmp a c with
  | lt => cases hb : cmp b c <;> simp_all
  | eq => exact (heq.1 ha).symm
  | gt => exact (hgt.1 ha).symm

/-- One order, and another one among its ties. -/
theorem OrdersBy.then (h : OrdersBy cmp key) (h' : OrdersBy cmp' key') :
    OrdersBy (fun a b => (cmp a b).then (cmp' a b)) fun a => (key a, key' a) where
  eq_iff a b := by
    rw [Ordering.then_eq_eq, h.eq_iff, h'.eq_iff, Prod.mk.injEq]
  swap a b := by
    rw [Ordering.swap_then, h.swap, h'.swap]
  trans a b c hab hbc := by
    have hne : ∀ x y : Ordering, x.then y ≠ .gt ↔ x = .lt ∨ x = .eq ∧ y ≠ .gt := by decide
    rw [hne] at hab hbc ⊢
    rcases hab with hab | ⟨hab, hab'⟩
    · left
      rcases hbc with hbc | ⟨hbc, -⟩
      · have hac := h.trans a b c (by rw [hab]; decide) (by rw [hbc]; decide)
        cases hc : cmp a c with
        | lt => rfl
        | gt => exact absurd hc hac
        | eq =>
          rw [h.congr_left ((h.eq_iff a c).1 hc) b, ← h.swap b c, hbc] at hab
          cases hab
      · have hkey := ((h.eq_iff b c).1 hbc).symm
        rw [← h.swap c a, h.congr_left hkey a, h.swap b a, hab]
    · rw [h.congr_left ((h.eq_iff a b).1 hab) c]
      rcases hbc with hbc | ⟨hbc, hbc'⟩
      · exact .inl hbc
      · exact .inr ⟨hbc, h'.trans a b c hab' hbc'⟩

theorem OrdersBy.congr (h : OrdersBy cmp key) (hcmp : ∀ a b, cmp' a b = cmp a b)
    (hkey : ∀ a b, key a = key b ↔ key' a = key' b) : OrdersBy cmp' key' where
  eq_iff a b := by rw [hcmp, h.eq_iff, hkey]
  swap a b := by rw [hcmp, hcmp, h.swap]
  trans a b c hab hbc := by
    rw [hcmp] at hab hbc ⊢
    exact h.trans a b c hab hbc

/-- No order: every two elements are a tie. -/
theorem OrdersBy.none : OrdersBy (fun _ _ : α => .eq) fun _ => () where
  eq_iff _ _ := ⟨fun _ => rfl, fun _ => rfl⟩
  swap _ _ := rfl
  trans _ _ _ _ _ := by decide

/-- A field that is compared in both directions comes before the rest. -/
theorem ite_lt_ite_gt [Ord κ] [LT κ] [LE κ] [Std.LawfulOrderOrd κ] [Std.LawfulOrderLT κ] [DecidableLT κ]
    (x y : κ) (o : Ordering) : (if x < y then .lt else if y < x then .gt else o) = (compare x y).then o := by
  by_cases h1 : x < y
  · rw [if_pos h1, Std.compare_eq_lt.2 h1]
    rfl
  · by_cases h2 : y < x
    · rw [if_neg h1, if_pos h2, Std.compare_eq_gt.2 h2]
      rfl
    · have hc : compare x y = .eq := by
        cases hc : compare x y with
        | lt => exact absurd (Std.compare_eq_lt.1 hc) h1
        | eq => rfl
        | gt => exact absurd (Std.compare_eq_gt.1 hc) h2
      rw [if_neg h1, if_neg h2, hc]
      rfl

theorem OrdersBy.ite [Ord κ'] [LT κ'] [LE κ'] [Std.LawfulOrderOrd κ'] [Std.LawfulOrderLT κ'] [DecidableLT κ']
    [Std.TransOrd κ'] [Std.LawfulEqOrd κ'] (f : α → κ') (h : OrdersBy cmp key) :
    OrdersBy (fun a b => if f a < f b then .lt else if f b < f a then .gt else cmp a b) fun a => (f a, key a) :=
  ((OrdersBy.field f).then h).congr (fun a b => ite_lt_ite_gt (f a) (f b) (cmp a b)) fun _ _ => Iff.rfl

/-! ### Sorted lists -/

/-- The elements of one key stand together. -/
def Together (key : α → κ) (l : List α) : Prop := ∀ a b c, [a, b, c].Sublist l → key a = key c → key a = key b

theorem OrdersBy.together (h : OrdersBy cmp key) {l : List α} (hl : l.Pairwise fun a b => cmp a b ≠ .gt) :
    Together key l := by
  intro a b c hsub hac
  have hab : cmp a b ≠ .gt := List.pairwise_iff_forall_sublist.1 hl (List.Sublist.trans (by simp) hsub)
  have hbc : cmp b c ≠ .gt := List.pairwise_iff_forall_sublist.1 hl (List.Sublist.trans (by simp) hsub)
  refine h.eq_of_le_of_le hab ?_
  rw [← h.swap, h.congr_left hac b, h.swap]
  exact hbc

/-- An element with another key than its neighbour has another key than all before it. -/
theorem Together.ne_of_ne {pre rest : List α} {a b : α} (h : Together key (pre ++ [a] ++ b :: rest))
    (hne : key a ≠ key b) : ∀ c ∈ pre ++ [a], key c ≠ key b := by
  intro c hc heq
  rcases List.mem_append.1 hc with hc | hc
  · have hsub : [c, a, b].Sublist (pre ++ [a] ++ b :: rest) := by
      rw [List.append_assoc]
      have hpre : [c].Sublist pre := List.singleton_sublist.2 hc
      have hrest : [a, b].Sublist ([a] ++ b :: rest) := by simp
      exact hpre.append hrest
    have hca := h c a b hsub heq
    exact hne (hca ▸ heq)
  · obtain rfl := List.mem_singleton.1 hc
    exact hne heq

/-- One element of `l` for each key of `l`. -/
structure OnePerKey (key : α → κ) (l kept : List α) : Prop where
  subset : kept ⊆ l
  apart : kept.Pairwise fun a b => key a ≠ key b
  exists_mem : ∀ a ∈ l, ∃ b ∈ kept, key b = key a

variable {l l' kept : List α} {rep a b : α} {R : α → α → Prop}

theorem OnePerKey.perm (h : OnePerKey key l kept) (hl : l.Perm l') : OnePerKey key l' kept where
  subset := List.Subset.trans h.subset hl.subset
  apart := h.apart
  exists_mem a ha := h.exists_mem a (hl.mem_iff.2 ha)

theorem OnePerKey.single (key : α → κ) (a : α) : OnePerKey key [a] [a] where
  subset := List.Subset.refl _
  apart := List.pairwise_singleton _ _
  exists_mem b hb := ⟨b, hb, rfl⟩

/-- An element of a new key is kept. -/
theorem OnePerKey.append_new (h : OnePerKey key l kept) (hb : ∀ a ∈ l, key a ≠ key b) :
    OnePerKey key (l ++ [b]) (kept ++ [b]) where
  subset := List.append_subset.2 ⟨fun c hc => List.mem_append_left _ (h.subset hc), List.subset_append_right _ _⟩
  apart := by
    rw [List.pairwise_append]
    refine ⟨h.apart, List.pairwise_singleton _ _, ?_⟩
    intro a ha c hc
    obtain rfl := List.mem_singleton.1 hc
    exact hb a (h.subset ha)
  exists_mem a ha := by
    rcases List.mem_append.1 ha with ha | ha
    · obtain ⟨c, hc, hkey⟩ := h.exists_mem a ha
      exact ⟨c, List.mem_append_left _ hc, hkey⟩
    · exact ⟨a, List.mem_append_right _ ha, rfl⟩

/-- An element of the last key takes the place of the one kept for it. -/
theorem OnePerKey.append_same (h : OnePerKey key l (kept ++ [rep])) (hb : key rep = key b) :
    OnePerKey key (l ++ [b]) (kept ++ [b]) where
  subset := by
    intro c hc
    rcases List.mem_append.1 hc with hc | hc
    · exact List.mem_append_left _ (h.subset (List.mem_append_left _ hc))
    · exact List.mem_append_right _ hc
  apart := by
    obtain ⟨hkept, -, hrep⟩ := List.pairwise_append.1 h.apart
    rw [List.pairwise_append]
    refine ⟨hkept, List.pairwise_singleton _ _, ?_⟩
    intro a ha c hc
    obtain rfl := List.mem_singleton.1 hc
    rw [← hb]
    exact hrep a ha rep (List.mem_singleton.2 rfl)
  exists_mem a ha := by
    have hlast : b ∈ kept ++ [b] := List.mem_append_right _ (List.mem_singleton.2 rfl)
    rcases List.mem_append.1 ha with ha | ha
    · obtain ⟨c, hc, hkey⟩ := h.exists_mem a ha
      rcases List.mem_append.1 hc with hc | hc
      · exact ⟨c, List.mem_append_left _ hc, hkey⟩
      · obtain rfl := List.mem_singleton.1 hc
        exact ⟨b, hlast, hb.symm.trans hkey⟩
    · obtain rfl := List.mem_singleton.1 ha
      exact ⟨a, hlast, rfl⟩

/-! ### Merging neighbours -/

/-- Any two elements of one key agree. -/
def Agreeing (key : α → κ) (R : α → α → Prop) (l : List α) : Prop := l.Pairwise fun a b => key a = key b → R a b

theorem Agreeing.perm (hsymm : ∀ a b, R a b → R b a) (hl : l.Perm l') (h : Agreeing key R l) : Agreeing key R l' :=
  (hl.pairwise_iff fun hab heq => hsymm _ _ (hab heq.symm)).1 h

/-- The elements of `l` are merged to `kept` and, for the key of the last one, `rep`; those of one key agree. -/
structure Merged (key : α → κ) (R : α → α → Prop) (l kept : List α) (rep : α) : Prop where
  onePerKey : OnePerKey key l (kept ++ [rep])
  agreeing : Agreeing key R l
  rep_agrees : ∀ a ∈ l, key a = key rep → a = rep ∨ R a rep
  last : ∃ pre a, l = pre ++ [a] ∧ key a = key rep

theorem Merged.single (key : α → κ) (R : α → α → Prop) (a : α) : Merged key R [a] [] a where
  onePerKey := OnePerKey.single key a
  agreeing := List.pairwise_singleton _ _
  rep_agrees _ hb _ := .inl (List.mem_singleton.1 hb)
  last := ⟨[], a, rfl, rfl⟩

/-- The next element has a new key. -/
theorem Merged.append_new {rest : List α} (h : Merged key R l kept rep) (ht : Together key (l ++ b :: rest))
    (hne : key rep ≠ key b) : Merged key R (l ++ [b]) (kept ++ [rep]) b := by
  obtain ⟨pre, a, rfl, ha⟩ := h.last
  have hnew := ht.ne_of_ne (ha ▸ hne)
  refine ⟨h.onePerKey.append_new hnew, ?_, ?_, pre ++ [a], b, rfl, rfl⟩
  · refine List.pairwise_append.2 ⟨h.agreeing, List.pairwise_singleton _ _, ?_⟩
    intro c hc d hd heq
    obtain rfl := List.mem_singleton.1 hd
    exact absurd heq (hnew c hc)
  · intro c hc heq
    rcases List.mem_append.1 hc with hc | hc
    · exact absurd heq (hnew c hc)
    · exact .inl (List.mem_singleton.1 hc)

/-- The next element has the same key and agrees. -/
theorem Merged.append_same (htrans : ∀ a b c, R a b → R b c → R a c) (h : Merged key R l kept rep)
    (heq : key rep = key b) (hb : R rep b) : Merged key R (l ++ [b]) kept b := by
  have hagree : ∀ a ∈ l, key a = key b → R a b := by
    intro a ha hab
    rcases h.rep_agrees a ha (hab.trans heq.symm) with rfl | har
    · exact hb
    · exact htrans a rep b har hb
  refine ⟨h.onePerKey.append_same heq, ?_, ?_, l, b, rfl, rfl⟩
  · refine List.pairwise_append.2 ⟨h.agreeing, List.pairwise_singleton _ _, ?_⟩
    intro c hc d hd
    obtain rfl := List.mem_singleton.1 hd
    exact hagree c hc
  · intro c hc hcb
    rcases List.mem_append.1 hc with hc | hc
    · exact .inr (hagree c hc hcb)
    · exact .inl (List.mem_singleton.1 hc)

theorem Merged.agrees {rest : List α} (h : Merged key R l kept rep) (hall : Agreeing key R (l ++ b :: rest))
    (heq : key rep = key b) : R rep b := by
  have hrep : rep ∈ l := h.onePerKey.subset (List.mem_append_right _ (List.mem_singleton.2 rfl))
  exact (List.pairwise_append.1 hall).2.2 rep hrep b (List.mem_cons_self ..) heq

/-! ### Orders of the members of a list -/

/-- `cmp` is a total preorder of the members of `l`. -/
structure ConsistentOn (cmp : α → α → Ordering) (l : List α) : Prop where
  swap : ∀ a ∈ l, ∀ b ∈ l, (cmp a b).swap = cmp b a
  trans : ∀ a ∈ l, ∀ b ∈ l, ∀ c ∈ l, cmp a b ≠ .gt → cmp b c ≠ .gt → cmp a c ≠ .gt

/-- `cmp` is a total preorder of the members of `l` whose ties are the pairs of the same key. -/
structure OrdersOn (cmp : α → α → Ordering) (key : α → κ) (l : List α) : Prop extends ConsistentOn cmp l where
  eq_iff : ∀ a ∈ l, ∀ b ∈ l, cmp a b = .eq ↔ key a = key b

theorem ConsistentOn.perm (h : ConsistentOn cmp l) (hl : l.Perm l') : ConsistentOn cmp l' where
  swap a ha b hb := h.swap a (hl.mem_iff.2 ha) b (hl.mem_iff.2 hb)
  trans a ha b hb c hc := h.trans a (hl.mem_iff.2 ha) b (hl.mem_iff.2 hb) c (hl.mem_iff.2 hc)

theorem OrdersBy.ordersOn (h : OrdersBy cmp key) (l : List α) : OrdersOn cmp key l where
  swap a _ b _ := h.swap a b
  trans a _ b _ c _ := h.trans a b c
  eq_iff a _ b _ := h.eq_iff a b

/-- A comparison that agrees with an order on the members of `l`. -/
theorem OrdersBy.ordersOn_congr (h : OrdersBy cmp key) (hcmp : ∀ a ∈ l, ∀ b ∈ l, cmp' a b = cmp a b)
    (hkey : ∀ a ∈ l, ∀ b ∈ l, key a = key b ↔ key' a = key' b) : OrdersOn cmp' key' l where
  swap a ha b hb := by rw [hcmp a ha b hb, hcmp b hb a ha, h.swap]
  trans a ha b hb c hc := by
    rw [hcmp a ha b hb, hcmp b hb c hc, hcmp a ha c hc]
    exact h.trans a b c
  eq_iff a ha b hb := by rw [hcmp a ha b hb, h.eq_iff, hkey a ha b hb]

/-- The order of the members as elements of their own type. -/
theorem OrdersOn.subtype (h : OrdersOn cmp key l) :
    OrdersBy (fun a b : {a // a ∈ l} => cmp a b) fun a => key a where
  eq_iff a b := h.eq_iff a a.2 b b.2
  swap a b := h.swap a a.2 b b.2
  trans a b c := h.trans a a.2 b b.2 c c.2

/-- A member that none is sorted before. -/
theorem ConsistentOn.exists_min (h : ConsistentOn cmp l) (hl : l ≠ []) : ∃ m ∈ l, ∀ a ∈ l, cmp m a ≠ .gt := by
  have hself : ∀ a ∈ l, cmp a a ≠ .gt := by
    intro a ha hgt
    have hs := h.swap a ha a ha
    rw [hgt] at hs
    cases hs
  have hsub : ∀ l' : List α, l' ≠ [] → l' ⊆ l → ∃ m ∈ l', ∀ a ∈ l', cmp m a ≠ .gt := by
    intro l'
    induction l' with
    | nil => exact fun hne _ => absurd rfl hne
    | cons b l' ih =>
      intro _ hsub
      obtain ⟨hb, hsub'⟩ := List.cons_subset.1 hsub
      by_cases hnil : l' = []
      · subst hnil
        refine ⟨b, List.mem_singleton.2 rfl, fun a ha => ?_⟩
        rw [List.mem_singleton.1 ha]
        exact hself b hb
      · obtain ⟨m, hm, hmin⟩ := ih hnil hsub'
        by_cases hbm : cmp b m = .gt
        · refine ⟨m, List.mem_cons_of_mem _ hm, fun a ha => ?_⟩
          rcases List.mem_cons.1 ha with rfl | ha
          · rw [← h.swap a hb m (hsub' hm), hbm]
            decide
          · exact hmin a ha
        · refine ⟨b, List.mem_cons_self .., fun a ha => ?_⟩
          rcases List.mem_cons.1 ha with rfl | ha
          · exact hself a hb
          · exact h.trans b hb m (hsub' hm) a (hsub' ha) hbm (hmin a ha)
  exact hsub l hl (List.Subset.refl l)

/-- Two sorted arrangements have the same keys in the same places. -/
theorem OrdersBy.map_key_eq (h : OrdersBy cmp key) (hp : l.Perm l') (hl : l.Pairwise fun a b => cmp a b ≠ .gt)
    (hl' : l'.Pairwise fun a b => cmp a b ≠ .gt) : l.map key = l'.map key := by
  have hmap : ∀ {m : List α}, (m.Pairwise fun a b => cmp a b ≠ .gt) →
      (m.map key).Pairwise fun x y => ∃ a b, key a = x ∧ key b = y ∧ cmp a b ≠ .gt := by
    intro m hm
    exact List.pairwise_map.2 (hm.imp fun hab => ⟨_, _, rfl, rfl, hab⟩)
  refine (hp.map key).eq_of_pairwise ?_ (hmap hl) (hmap hl')
  rintro x y - - ⟨a, b, rfl, rfl, hab⟩ ⟨c, d, hcb, hda, hcd⟩
  refine h.eq_of_le_of_le hab ?_
  rw [h.congr_left hcb d, ← h.swap, h.congr_left hda b, h.swap] at hcd
  exact hcd

theorem OrdersOn.map_key_eq {l₁ l₂ : List α} (h : OrdersOn cmp key l) (h₁ : l₁.Perm l) (h₂ : l₂.Perm l)
    (hs₁ : l₁.Pairwise fun a b => cmp a b ≠ .gt) (hs₂ : l₂.Pairwise fun a b => cmp a b ≠ .gt) :
    l₁.map key = l₂.map key := by
  have hm₁ : ∀ a ∈ l₁, a ∈ l := fun a ha => h₁.subset ha
  have hm₂ : ∀ a ∈ l₂, a ∈ l := fun a ha => h₂.subset ha
  lift l₁ to List {a // a ∈ l} using hm₁
  lift l₂ to List {a // a ∈ l} using hm₂
  have hp : l₁.Perm l₂ := (List.map_perm_map_iff Subtype.val_injective).1 (h₁.trans h₂.symm)
  have hkeys := h.subtype.map_key_eq hp (List.pairwise_map.1 hs₁) (List.pairwise_map.1 hs₂)
  rw [List.map_map, List.map_map]
  exact hkeys

/-! ### First matches -/

section FirstMatch

variable {p : α → Bool} {size : α → Nat} {l : List α}

/-- The first element that satisfies `p` has the least size of all that do. -/
def FirstLeast (p : α → Bool) (size : α → Nat) (l : List α) : Prop :=
  ∀ a, l.find? p = some a → ∀ b ∈ l, p b → size a ≤ size b

/-- Where of two elements that satisfy `p` the larger one comes before the smaller one, a third one that satisfies `p`
comes before both. -/
def LargerBehind (before : α → α → Prop) (p : α → Bool) (size : α → Nat) (l : List α) : Prop :=
  ∀ a ∈ l, ∀ b ∈ l, p a → p b → size b < size a → before a b → ∃ c ∈ l, p c ∧ before c a

theorem firstLeast_map {β : Type*} (f : β → α) (l : List β) :
    FirstLeast p size (l.map f) ↔ FirstLeast (p ∘ f) (size ∘ f) l := by
  simp [FirstLeast, List.find?_map]

theorem LargerBehind.perm {before : α → α → Prop} {l l' : List α} (hperm : l.Perm l')
    (h : LargerBehind before p size l) : LargerBehind before p size l' := by
  intro a ha b hb hpa hpb hsize hbefore
  obtain ⟨c, hc, hpc, hca⟩ := h a (hperm.mem_iff.2 ha) b (hperm.mem_iff.2 hb) hpa hpb hsize hbefore
  exact ⟨c, hperm.mem_iff.1 hc, hpc, hca⟩

/-- In a sorted list nothing that satisfies `p` is before the first one. -/
theorem OrdersBy.find?_ne_gt (h : OrdersBy cmp key) (hl : l.Pairwise fun a b => cmp a b ≠ .gt) {a : α}
    (ha : l.find? p = some a) : ∀ b ∈ l, p b → cmp a b ≠ .gt := by
  induction l with
  | nil => cases ha
  | cons x l ih =>
    rw [List.pairwise_cons] at hl
    intro b hb hpb
    rw [List.find?_cons] at ha
    split at ha
    · obtain rfl := Option.some.inj ha
      rcases List.mem_cons.1 hb with rfl | hb
      · rw [(h.eq_iff b b).2 rfl]
        decide
      · exact hl.1 b hb
    · rename_i hx
      rcases List.mem_cons.1 hb with rfl | hb
      · rw [hx] at hpb
        cases hpb
      · exact ih hl.2 ha b hb hpb

/-- In a sorted list the first match is the least one exactly when larger ones are behind. -/
theorem OrdersBy.firstLeast_iff (h : OrdersBy cmp key) (hl : l.Pairwise fun a b => cmp a b ≠ .gt)
    (hsize : ∀ a b, key a = key b → size a = size b) :
    FirstLeast p size l ↔ LargerBehind (fun a b => cmp a b = .lt) p size l := by
  have hlt : ∀ a b, size a ≠ size b → cmp a b ≠ .gt → cmp a b = .lt := by
    intro a b hab hgt
    have hne : cmp a b ≠ .eq := fun heq => hab (hsize a b ((h.eq_iff a b).1 heq))
    cases hc : cmp a b with
    | lt => rfl
    | eq => exact absurd hc hne
    | gt => exact absurd hc hgt
  constructor
  · intro hfirst a ha b hb hpa hpb hab _
    obtain ⟨c, hc⟩ : ∃ c, l.find? p = some c := Option.isSome_iff_exists.1 (List.find?_isSome.2 ⟨a, ha, hpa⟩)
    have hcb := hfirst c hc b hb hpb
    have hca := h.find?_ne_gt hl hc a ha hpa
    exact ⟨c, List.mem_of_find?_eq_some hc, List.find?_some hc, hlt c a (by omega) hca⟩
  · intro hbehind a ha b hb hpb
    by_contra hab
    have hmem := List.mem_of_find?_eq_some ha
    have hbefore := hlt a b (by omega) (h.find?_ne_gt hl ha b hb hpb)
    obtain ⟨c, hc, hpc, hca⟩ := hbehind a hmem b hb (List.find?_some ha) hpb (by omega) hbefore
    -- nothing that matches is before the first match
    have hac := h.find?_ne_gt hl ha c hc hpc
    rw [← h.swap, hca] at hac
    exact hac rfl

end FirstMatch

end SortedRuns
