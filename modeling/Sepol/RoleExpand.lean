import Sepol.RoleAttribute

/-!
# When the expansion of role attributes ends

A call ends exactly when no cycle of attributes that were not expanded before can be reached from its attribute, apart
from cycles through the attribute itself; then the set of the attribute has all regular roles that can be reached.
-/

namespace Sepol

open Relation Worklist

/-- The roles of an array with other sets. -/
def withRoles (roleValToStruct : Nat → Option LinkRole) (sets : Nat → Ebitmap) (i : Nat) : Option LinkRole :=
  (roleValToStruct i).map fun role => { role with roles := sets i }

variable {base : RoleSymtab} {roleValToStruct : Nat → Option LinkRole} {sets : Nat → Ebitmap} {pre bits : List Nat}
  {x i j a b : Nat} {todo : List (CString × Nat)} {e : Ebitmap} {c c' : RoleConfig}

private theorem setRoles_withRoles (roleValToStruct : Nat → Option LinkRole) (sets : Nat → Ebitmap) (x : Nat)
    (e : Ebitmap) :
    setRoles (withRoles roleValToStruct sets) x e = withRoles roleValToStruct (Function.update sets x e) := by
  funext i
  unfold setRoles withRoles
  by_cases hi : i = x
  · subst hi
    rw [Function.update_self, Function.update_self, Option.map_map]
    rfl
  · rw [Function.update_of_ne hi, Function.update_of_ne hi]

private theorem mem_lt (h : e.Canonical) (hi : i ∈ e) : i < 2 ^ 32 - 64 := by
  obtain ⟨n, hn, k, hk, rfl, _⟩ := (h.mem_iff_node i).1 hi
  have hbound := h.bound n hn
  have haligned := h.aligned n hn
  omega

/-! ### The graph -/

private theorem attributeEdge_iff {role : LinkRole} (hrole : roleValToStruct a = some role) :
    AttributeEdge roleValToStruct a b ↔ b ∈ role.roles ∧ IsRoleAttribute roleValToStruct b := by
  unfold AttributeEdge HasRole
  rw [hrole]
  simp

/-- A regular role that is reachable from an attribute without passing through another one. -/
def ReachesAvoiding (roleValToStruct : Nat → Option LinkRole) (x b j : Nat) : Prop :=
  ¬ IsRoleAttribute roleValToStruct j ∧ ∃ c,
    ReflTransGen (fun a b => AttributeEdge roleValToStruct a b ∧ b ≠ x) b c ∧ HasRole roleValToStruct c j

private theorem ReachesAvoiding.reachesRole (h : ReachesAvoiding roleValToStruct x b j) :
    ReachesRole roleValToStruct b j := by
  obtain ⟨hj, c, hreach, hc⟩ := h
  exact ⟨hj, c, ReflTransGen.mono (fun _ _ h => h.1) _ _ hreach, hc⟩

private theorem reachesAvoiding_of_reaches (hreach : ReflTransGen (AttributeEdge roleValToStruct) x b) :
    ReflTransGen (fun a b => AttributeEdge roleValToStruct a b ∧ b ≠ x) x b := by
  induction hreach with
  | refl => exact ReflTransGen.refl
  | @tail b c _ hbc ih =>
    by_cases hc : c = x
    · rw [hc]
    · exact ih.tail ⟨hbc, hc⟩

private theorem ReachesRole.avoiding (h : ReachesRole roleValToStruct x j) :
    ReachesAvoiding roleValToStruct x x j := by
  obtain ⟨hj, c, hreach, hc⟩ := h
  exact ⟨hj, c, reachesAvoiding_of_reaches hreach, hc⟩

theorem ReachesAvoiding.cases (h : ReachesAvoiding roleValToStruct x b j) : HasRole roleValToStruct b j ∨
    ∃ c, AttributeEdge roleValToStruct b c ∧ c ≠ x ∧ ReachesAvoiding roleValToStruct x c j := by
  obtain ⟨hj, d, hreach, hd⟩ := h
  rcases ReflTransGen.cases_head hreach with heq | ⟨c, hbc, hcd⟩
  · rw [heq]
    exact Or.inl hd
  · exact Or.inr ⟨c, hbc.1, hbc.2, hj, d, hcd, hd⟩

/-! ### The sets during a run -/

/-- The sets before a call: the attributes of the first calls have the regular roles that they reach, and the other
roles have their own sets. -/
structure ExpandedRoles (base : RoleSymtab) (pre : List Nat) (sets : Nat → Ebitmap) : Prop where
  canonical : ∀ i, (sets i).Canonical
  done : ∀ a ∈ pre, IsRoleAttribute base.roleValToStruct a → ∀ j, j ∈ sets a ↔ ReachesRole base.roleValToStruct a j
  rest : ∀ a role, base.roleValToStruct a = some role → a ∉ pre ∨ role.flavor ≠ .attrib → sets a = role.roles

/-- The set of an attribute in its scan, and the positions that the scan has still to visit. -/
structure Scan (base : RoleSymtab) (x : Nat) (e : Ebitmap) (bits : List Nat) : Prop where
  canonical : e.Canonical
  exist : ∀ j ∈ e, ∃ role, base.roleValToStruct j = some role
  reaches : ∀ b ∈ e, IsRoleAttribute base.roleValToStruct b → ReflTransGen (AttributeEdge base.roleValToStruct) x b
  regular : ∀ j ∈ e, ¬ IsRoleAttribute base.roleValToStruct j → ReachesRole base.roleValToStruct x j
  complete : ∀ j, ReachesRole base.roleValToStruct x j → j ∈ e ∨
    ∃ b ∈ e, IsRoleAttribute base.roleValToStruct b ∧ b ≠ x ∧ ReachesAvoiding base.roleValToStruct x b j
  mem : ∀ b ∈ bits, b ∈ e
  pending : ∀ b ∈ e, IsRoleAttribute base.roleValToStruct b → b ∈ bits
  nodup : bits.Nodup

private theorem ExpandedRoles.mem_sets (h : ExpandedRoles base pre sets) (hi : IsRoleAttribute base.roleValToStruct i)
    (hj : j ∈ sets i) :
    (IsRoleAttribute base.roleValToStruct j → i ∉ pre ∧ AttributeEdge base.roleValToStruct i j) ∧
      (¬ IsRoleAttribute base.roleValToStruct j → ReachesRole base.roleValToStruct i j) := by
  obtain ⟨role, hrole, _⟩ := id hi
  by_cases hpre : i ∈ pre
  · have hreach := (h.done i hpre hi j).1 hj
    exact ⟨fun hattr => absurd hattr hreach.1, fun _ => hreach⟩
  · rw [h.rest i role hrole (Or.inl hpre)] at hj
    have hrole' : HasRole base.roleValToStruct i j := ⟨role, hrole, hj⟩
    exact ⟨fun hattr => ⟨hpre, hrole', hattr⟩, fun hattr => ⟨hattr, i, ReflTransGen.refl, hrole'⟩⟩

private theorem RoleSymtab.Ok.exists_of_reaches (hok : base.Ok) (h : ReachesRole base.roleValToStruct a j) :
    ∃ role, base.roleValToStruct j = some role := by
  obtain ⟨_, b, _, hb⟩ := h
  exact hok.exist b j hb

/-- The state of a scan. -/
def scanConfig (base : RoleSymtab) (todo : List (CString × Nat)) (sets : Nat → Ebitmap) (x : Nat) (e : Ebitmap)
    (bits : List Nat) : RoleConfig :=
  ⟨withRoles base.roleValToStruct (Function.update sets x e), todo, some (x, bits)⟩

theorem ReachesRole.trans (hab : ReflTransGen (AttributeEdge roleValToStruct) a b)
    (h : ReachesRole roleValToStruct b j) : ReachesRole roleValToStruct a j := by
  obtain ⟨hj, c, hreach, hc⟩ := h
  exact ⟨hj, c, hab.trans hreach, hc⟩

theorem Scan.skip (h : Scan base x e (i :: bits)) (hi : ¬ IsRoleAttribute base.roleValToStruct i) :
    Scan base x e bits := by
  refine ⟨h.canonical, h.exist, h.reaches, h.regular, h.complete, fun b hb => h.mem b (List.mem_cons_of_mem _ hb),
    fun b hb hattr => ?_, (List.nodup_cons.1 h.nodup).2⟩
  rcases List.mem_cons.1 (h.pending b hb hattr) with heq | hb
  · exact absurd (heq ▸ hattr) hi
  · exact hb

/-- The own bit of the attribute is dropped. -/
theorem Scan.drop (h : Scan base x e (x :: bits)) (hx : IsRoleAttribute base.roleValToStruct x) {e' : Ebitmap}
    (he' : e'.Canonical) (hmem : ∀ j, j ∈ e' ↔ j ∈ e ∧ j ≠ x) : Scan base x e' bits := by
  obtain ⟨hnot, hnodup⟩ := List.nodup_cons.1 h.nodup
  refine ⟨he', fun j hj => h.exist j ((hmem j).1 hj).1, fun b hb => h.reaches b ((hmem b).1 hb).1,
    fun j hj => h.regular j ((hmem j).1 hj).1, fun j hj => ?_, fun b hb => ?_, fun b hb hattr => ?_, hnodup⟩
  · rcases h.complete j hj with hje | ⟨b, hb, hattr, hne, havoid⟩
    · exact Or.inl ((hmem j).2 ⟨hje, fun heq => hj.1 (heq ▸ hx)⟩)
    · exact Or.inr ⟨b, (hmem b).2 ⟨hb, hne⟩, hattr, hne, havoid⟩
  · exact (hmem b).2 ⟨h.mem b (List.mem_cons_of_mem _ hb), fun heq => hnot (heq ▸ hb)⟩
  · obtain ⟨hb, hne⟩ := (hmem b).1 hb
    exact (List.mem_cons.1 (h.pending b hb hattr)).resolve_left hne

/-- Another attribute is replaced by its set. -/
theorem Scan.expand (hok : base.Ok) (hsets : ExpandedRoles base pre sets) (h : Scan base x e (i :: bits))
    (hi : IsRoleAttribute base.roleValToStruct i) {e' : Ebitmap} (he' : e'.Canonical)
    (hmem : ∀ j, j ∈ e' ↔ j ∈ e ∧ j ≠ i ∨ j ∈ sets i) : Scan base x e' (ebitmapPositiveBits e') := by
  have hreach := h.reaches i (h.mem i (List.mem_cons_self ..)) hi
  refine ⟨he', fun j hj => ?_, fun b hb hattr => ?_, fun j hj hattr => ?_, fun j hj => ?_, fun b hb => ?_,
    fun b hb _ => (mem_ebitmapPositiveBits he').2 hb, ?_⟩
  · rcases (hmem j).1 hj with hj | hj
    · exact h.exist j hj.1
    · by_cases hattr : IsRoleAttribute base.roleValToStruct j
      · obtain ⟨role, hrole, _⟩ := hattr
        exact ⟨role, hrole⟩
      · exact hok.exists_of_reaches ((hsets.mem_sets hi hj).2 hattr)
  · rcases (hmem b).1 hb with hb | hb
    · exact h.reaches b hb.1 hattr
    · exact hreach.tail ((hsets.mem_sets hi hb).1 hattr).2
  · rcases (hmem j).1 hj with hj | hj
    · exact h.regular j hj.1 hattr
    · exact ReachesRole.trans hreach ((hsets.mem_sets hi hj).2 hattr)
  · rcases h.complete j hj with hje | ⟨b, hb, hattr, hne, havoid⟩
    · exact Or.inl ((hmem j).2 (Or.inl ⟨hje, fun heq => hj.1 (heq ▸ hi)⟩))
    · by_cases hbi : b = i
      · -- the path goes through the attribute that is replaced
        subst hbi
        by_cases hpre : b ∈ pre
        · exact Or.inl ((hmem j).2 (Or.inr ((hsets.done b hpre hi j).2 havoid.reachesRole)))
        · obtain ⟨role, hrole, _⟩ := hi
          have hown : sets b = role.roles := hsets.rest b role hrole (Or.inl hpre)
          rcases havoid.cases with hbj | ⟨c, hbc, hcx, hcj⟩
          · obtain ⟨role', hrole', hjr⟩ := hbj
            obtain rfl := Option.some.inj (hrole'.symm.trans hrole)
            exact Or.inl ((hmem j).2 (Or.inr (hown ▸ hjr)))
          · have hc : c ∈ sets b := by
              rw [hown]
              exact ((attributeEdge_iff hrole).1 hbc).1
            exact Or.inr ⟨c, (hmem c).2 (Or.inr hc), hbc.2, hcx, hcj⟩
      · exact Or.inr ⟨b, (hmem b).2 (Or.inl ⟨hb, hbi⟩), hattr, hne, havoid⟩
  · exact (mem_ebitmapPositiveBits he').1 hb
  · exact (ebitmapPositiveBits_sorted he').imp fun hlt => Nat.ne_of_lt hlt

/-- One position of a scan. -/
private theorem Scan.step_cases (hok : base.Ok) (hsets : ExpandedRoles base pre sets)
    (hx : IsRoleAttribute base.roleValToStruct x)
    (h : Scan base x e (i :: bits)) (todo : List (CString × Nat)) :
    (¬ IsRoleAttribute base.roleValToStruct i ∧ Scan base x e bits ∧
      expandRoleAttributesStep (scanConfig base todo sets x e (i :: bits)) =
      .ok (scanConfig base todo sets x e bits)) ∨
    (i = x ∧ freesNode e x = true ∧
      expandRoleAttributesStep (scanConfig base todo sets x e (i :: bits)) = .error .undefined) ∨
    (i = x ∧ freesNode e x = false ∧ ∃ e', (∀ j, j ∈ e' ↔ j ∈ e ∧ j ≠ x) ∧ Scan base x e' bits ∧
      expandRoleAttributesStep (scanConfig base todo sets x e (i :: bits)) =
      .ok (scanConfig base todo sets x e' bits)) ∨
    (IsRoleAttribute base.roleValToStruct i ∧ i ≠ x ∧ ∃ e', (∀ j, j ∈ e' ↔ j ∈ e ∧ j ≠ i ∨ j ∈ sets i) ∧
      Scan base x e' (ebitmapPositiveBits e') ∧
      expandRoleAttributesStep (scanConfig base todo sets x e (i :: bits)) =
        .ok (scanConfig base todo sets x e' (ebitmapPositiveBits e'))) := by
  obtain ⟨role, hrole, hflavor⟩ := hx
  obtain ⟨subAttr, hsub⟩ := h.exist i (h.mem i (List.mem_cons_self ..))
  have hi : i ∈ e := h.mem i (List.mem_cons_self ..)
  have hx' : withRoles base.roleValToStruct (Function.update sets x e) x = some { role with roles := e } := by
    unfold withRoles
    rw [hrole, Function.update_self]
    rfl
  have hi' : withRoles base.roleValToStruct (Function.update sets x e) i =
      some { subAttr with roles := Function.update sets x e i } := by
    unfold withRoles
    rw [hsub]
    rfl
  have hattr : IsRoleAttribute base.roleValToStruct i ↔ subAttr.flavor = .attrib := by
    unfold IsRoleAttribute
    rw [hsub]
    simp
  have hset : ∀ e', (⟨setRoles (withRoles base.roleValToStruct (Function.update sets x e)) x e', todo,
      some (x, bits)⟩ : RoleConfig) = scanConfig base todo sets x e' bits := fun e' => by
    rw [setRoles_withRoles, Function.update_idem]
    rfl
  obtain ⟨cleared, hclear, hcanonical, hmem⟩ := ebitmapSetBit_false h.canonical (mem_lt h.canonical hi)
  unfold expandRoleAttributesStep scanConfig
  dsimp only
  rw [hx', hi']
  dsimp only
  by_cases hflavor' : subAttr.flavor = .attrib
  · rw [if_neg (not_not_intro hflavor'), hclear]
    dsimp only
    by_cases hown : i = x
    · subst hown
      obtain rfl : role = subAttr := Option.some.inj (hrole.symm.trans hsub)
      rw [if_pos rfl]
      cases hfree : freesNode e i with
      | true =>
        right; left
        exact ⟨rfl, rfl, rfl⟩
      | false =>
        right; right; left
        refine ⟨rfl, rfl, cleared, hmem, h.drop ⟨role, hrole, hflavor⟩ hcanonical hmem, ?_⟩
        rw [if_neg (by decide), hset]
        rfl
    · right; right; right
      have hvalue : subAttr.value ≠ role.value := by
        rw [hok.value i subAttr hsub, hok.value x role hrole]
        omega
      have hunion : ∀ j, j ∈ ebitmapUnion cleared (sets i) ↔ j ∈ e ∧ j ≠ i ∨ j ∈ sets i := fun j => by
        rw [mem_ebitmapUnion hcanonical (hsets.canonical i), hmem]
      refine ⟨hattr.2 hflavor', hown, ebitmapUnion cleared (sets i), hunion, ?_, ?_⟩
      · exact Scan.expand hok hsets h (hattr.2 hflavor') (hcanonical.union (hsets.canonical i)) hunion
      · rw [if_neg hvalue, Function.update_of_ne hown, setRoles_withRoles, Function.update_idem]
  · left
    refine ⟨fun hno => hflavor' (hattr.1 hno), h.skip fun hno => hflavor' (hattr.1 hno), ?_⟩
    rw [if_pos hflavor']

/-- At the end of the scan the set has the regular roles that the attribute reaches. -/
theorem Scan.finish (h : Scan base x e []) (j : Nat) : j ∈ e ↔ ReachesRole base.roleValToStruct x j := by
  have hno : ∀ b ∈ e, ¬ IsRoleAttribute base.roleValToStruct b := fun b hb hattr => by cases h.pending b hb hattr
  constructor
  · intro hj
    exact h.regular j hj (hno j hj)
  · intro hj
    rcases h.complete j hj with hj | ⟨b, hb, hattr, _⟩
    · exact hj
    · exact absurd hattr (hno b hb)

theorem ExpandedRoles.next (h : ExpandedRoles base pre sets) (hx : IsRoleAttribute base.roleValToStruct x)
    (he : e.Canonical)
    (hmem : ∀ j, j ∈ e ↔ ReachesRole base.roleValToStruct x j) :
    ExpandedRoles base (pre ++ [x]) (Function.update sets x e) := by
  refine ⟨fun i => ?_, fun a ha hattr j => ?_, fun a role hrole ha => ?_⟩
  · by_cases hi : i = x
    · rw [hi, Function.update_self]
      exact he
    · rw [Function.update_of_ne hi]
      exact h.canonical i
  · by_cases hax : a = x
    · rw [hax, Function.update_self]
      exact hmem j
    · rw [Function.update_of_ne hax]
      exact h.done a ((List.mem_append.1 ha).resolve_right fun h => hax (List.mem_singleton.1 h)) hattr j
  · have hax : a ≠ x := by
      intro heq
      obtain ⟨role', hrole', hflavor⟩ := hx
      rw [heq, hrole'] at hrole
      obtain rfl := Option.some.inj hrole
      rcases ha with ha | ha
      · exact ha (List.mem_append_right _ (List.mem_singleton.2 heq))
      · exact ha hflavor
    rw [Function.update_of_ne hax]
    exact h.rest a role hrole (ha.imp (fun h hpre => h (List.mem_append_left _ hpre)) id)

theorem ExpandedRoles.skip (h : ExpandedRoles base pre sets) (hx : ¬ IsRoleAttribute base.roleValToStruct x) :
    ExpandedRoles base (pre ++ [x]) sets := by
  refine ⟨h.canonical, fun a ha hattr j => ?_, fun a role hrole ha => ?_⟩
  · refine h.done a ((List.mem_append.1 ha).resolve_right fun h => hx ?_) hattr j
    rwa [← List.mem_singleton.1 h]
  · exact h.rest a role hrole (ha.imp (fun h hpre => h (List.mem_append_left _ hpre)) id)

/-! ### A call ends, or it does not -/

private theorem not_leadsToCycle_of_mem {done : List Nat} (ha : a ∈ done) :
    ¬ LeadsToCycle (LaterEdge roleValToStruct done) a := by
  intro h
  obtain ⟨b, hab, _⟩ := h.exists_succ
  exact hab.1 ha

open Classical in
/-- The attributes in a set. -/
noncomputable def attributesOf (base : RoleSymtab) (e : Ebitmap) : Finset Nat :=
  (Finset.range (2 ^ 32)).filter fun b => b ∈ e ∧ IsRoleAttribute base.roleValToStruct b

private theorem mem_attributesOf (he : e.Canonical) :
    b ∈ attributesOf base e ↔ b ∈ e ∧ IsRoleAttribute base.roleValToStruct b := by
  classical
  unfold attributesOf
  rw [Finset.mem_filter, Finset.mem_range, and_iff_right_iff_imp]
  intro hb
  have hlt := mem_lt he hb.1
  omega

/-- The scan ends when no later cycle can be reached from the set, and no own bit is the only one of its node. -/
private theorem scan_ends (hok : base.Ok) (hsets : ExpandedRoles base pre sets)
    (hx : IsRoleAttribute base.roleValToStruct x) (todo : List (CString × Nat)) (h : Scan base x e bits)
    (hcycle : ∀ b ∈ e, IsRoleAttribute base.roleValToStruct b →
      ¬ LeadsToCycle (LaterEdge base.roleValToStruct (pre ++ [x])) b)
    (hfree : ∀ c, ReflTransGen RoleStep (scanConfig base todo sets x e bits) c → ¬ c.FreesOwn) :
    ∃ e', Scan base x e' [] ∧
      ReflTransGen RoleStep (scanConfig base todo sets x e bits) (scanConfig base todo sets x e' []) := by
  classical
  have hrange : ∀ a b, LaterEdge base.roleValToStruct (pre ++ [x]) a b → b ∈ Finset.range (2 ^ 32) := by
    intro a b hab
    obtain ⟨role, hrole, hb⟩ := hab.2.1
    have hlt := mem_lt (hok.canonical a role hrole) hb
    rw [Finset.mem_range]
    omega
  obtain ⟨w, hw⟩ := exists_weight _ hrange
  -- the weight of the attributes in the set goes down with every one that is dropped or replaced
  induction hn : ∑ b ∈ attributesOf base e, w b using Nat.strong_induction_on generalizing e bits with
  | _ n ih =>
    induction bits with
    | nil => exact ⟨e, h, ReflTransGen.refl⟩
    | cons i bits ihbits =>
      have hi : i ∈ e := h.mem i (List.mem_cons_self ..)
      rcases h.step_cases hok hsets hx todo with ⟨_, hscan, hstep⟩ | ⟨hix, hfreed, _⟩ |
        ⟨hix, _, e', hmem, hscan, hstep⟩ |
          ⟨hattr, hix, e', hmem, hscan, hstep⟩
      · obtain ⟨e', hscan', hrun⟩ := ihbits hscan fun c hc => hfree c (ReflTransGen.head hstep hc)
        exact ⟨e', hscan', ReflTransGen.head hstep hrun⟩
      · obtain ⟨role, hrole, hflavor⟩ := hx
        refine absurd ⟨x, bits, { role with roles := e }, ?_, ?_, hflavor, hfreed⟩ (hfree _ ReflTransGen.refl)
        · rw [hix]
          rfl
        · unfold scanConfig withRoles
          dsimp only
          rw [hrole, Function.update_self]
          rfl
      · subst hix
        have hnone : ¬ LeadsToCycle (LaterEdge base.roleValToStruct (pre ++ [i])) i :=
          not_leadsToCycle_of_mem (by simp)
        have hlt : ∑ b ∈ attributesOf base e', w b < n := by
          rw [← hn]
          refine weight_replace_lt ((mem_attributesOf h.canonical).2 ⟨hi, hx⟩) (hw i hnone) fun b hb => ?_
          obtain ⟨hb, hattr⟩ := (mem_attributesOf hscan.canonical).1 hb
          refine Finset.mem_union_left _ (Finset.mem_erase.2 ⟨((hmem b).1 hb).2, ?_⟩)
          exact (mem_attributesOf h.canonical).2 ⟨((hmem b).1 hb).1, hattr⟩
        obtain ⟨e'', hscan', hrun⟩ := ih _ hlt hscan (fun b hb => hcycle b ((hmem b).1 hb).1)
          (fun c hc => hfree c (ReflTransGen.head hstep hc)) rfl
        exact ⟨e'', hscan', ReflTransGen.head hstep hrun⟩
      · have hlater : ∀ b ∈ sets i, IsRoleAttribute base.roleValToStruct b →
            LaterEdge base.roleValToStruct (pre ++ [x]) i b := by
          intro b hb hattr'
          obtain ⟨hpre, hedge⟩ := (hsets.mem_sets hattr hb).1 hattr'
          exact ⟨by simp [hpre, hix], hedge⟩
        have hlt : ∑ b ∈ attributesOf base e', w b < n := by
          rw [← hn]
          refine weight_replace_lt ((mem_attributesOf h.canonical).2 ⟨hi, hattr⟩)
            (hw i (hcycle i hi hattr)) fun b hb => ?_
          obtain ⟨hb, hattr'⟩ := (mem_attributesOf hscan.canonical).1 hb
          rcases (hmem b).1 hb with hb | hb
          · refine Finset.mem_union_left _ (Finset.mem_erase.2 ⟨hb.2, ?_⟩)
            exact (mem_attributesOf h.canonical).2 ⟨hb.1, hattr'⟩
          · have hedge := hlater b hb hattr'
            exact Finset.mem_union_right _ (Finset.mem_filter.2 ⟨hrange i b hedge, hedge⟩)
        have hcycle' : ∀ b ∈ e', IsRoleAttribute base.roleValToStruct b →
            ¬ LeadsToCycle (LaterEdge base.roleValToStruct (pre ++ [x])) b := by
          intro b hb hattr' hleads
          rcases (hmem b).1 hb with hb | hb
          · exact hcycle b hb.1 hattr' hleads
          · exact hcycle i hi hattr (hleads.of_rel (hlater b hb hattr'))
        obtain ⟨e'', hscan', hrun⟩ := ih _ hlt hscan hcycle' (fun c hc => hfree c (ReflTransGen.head hstep hc)) rfl
        exact ⟨e'', hscan', ReflTransGen.head hstep hrun⟩

/-- A state of the scan of an attribute whose set has an attribute from which a later cycle can be reached. -/
def Stuck (base : RoleSymtab) (pre : List Nat) (todo : List (CString × Nat)) (sets : Nat → Ebitmap) (x : Nat)
    (c : RoleConfig) : Prop :=
  ∃ e bits, c = scanConfig base todo sets x e bits ∧ Scan base x e bits ∧
    ∃ b ∈ e, IsRoleAttribute base.roleValToStruct b ∧
      LeadsToCycle (LaterEdge base.roleValToStruct (pre ++ [x])) b

/-- Such a state leads to another one only. -/
theorem Stuck.step (hok : base.Ok) (hsets : ExpandedRoles base pre sets) (hx : IsRoleAttribute base.roleValToStruct x)
    (h : Stuck base pre todo sets x c) :
    (∀ c', RoleStep c c' → Stuck base pre todo sets x c') ∧
      ∀ roles, expandRoleAttributesStep c ≠ .error (.returned roles) := by
  obtain ⟨e, bits, rfl, hscan, b, hb, hattr, hleads⟩ := h
  have hne : b ≠ x := by
    intro heq
    exact not_leadsToCycle_of_mem (by simp) (heq ▸ hleads)
  unfold RoleStep
  cases bits with
  | nil => exact absurd (hscan.pending b hb hattr) (List.not_mem_nil)
  | cons i bits =>
    rcases hscan.step_cases hok hsets hx todo with ⟨_, hscan', hstep⟩ | ⟨_, _, hstep⟩ |
      ⟨_, _, e', hmem, hscan', hstep⟩ |
        ⟨hiattr, hix, e', hmem, hscan', hstep⟩
    · rw [hstep]
      refine ⟨fun c' hc' => ?_, fun roles hroles => by cases hroles⟩
      rw [← Except.ok.inj hc']
      exact ⟨e, bits, rfl, hscan', b, hb, hattr, hleads⟩
    · rw [hstep]
      exact ⟨fun c' hc' => (by cases hc'), fun roles hroles => (by cases hroles)⟩
    · rw [hstep]
      refine ⟨fun c' hc' => ?_, fun roles hroles => by cases hroles⟩
      rw [← Except.ok.inj hc']
      exact ⟨e', bits, rfl, hscan', b, (hmem b).2 ⟨hb, hne⟩, hattr, hleads⟩
    · rw [hstep]
      refine ⟨fun c' hc' => ?_, fun roles hroles => by cases hroles⟩
      rw [← Except.ok.inj hc']
      by_cases hbi : b = i
      · -- the attribute is replaced by its set, which has the next one on the way to the cycle
        subst hbi
        obtain ⟨d, hbd, hleads'⟩ := hleads.exists_succ
        have hpre : b ∉ pre := fun hmem => hbd.1 (List.mem_append_left _ hmem)
        obtain ⟨role, hrole, _⟩ := id hiattr
        have hd : d ∈ sets b := by
          rw [hsets.rest b role hrole (Or.inl hpre)]
          exact ((attributeEdge_iff hrole).1 hbd.2).1
        exact ⟨e', _, rfl, hscan', d, (hmem d).2 (Or.inr hd), hbd.2.2, hleads'⟩
      · exact ⟨e', _, rfl, hscan', b, (hmem b).2 (Or.inl ⟨hb, hbi⟩), hattr, hleads⟩

private theorem Stuck.not_returns (hok : base.Ok) (hsets : ExpandedRoles base pre sets)
    (hx : IsRoleAttribute base.roleValToStruct x)
    (h : Stuck base pre todo sets x c) (roles : Nat → Option LinkRole) : ¬ c.Returns roles := by
  intro hreturns
  obtain ⟨c', hreach, hend⟩ := hreturns
  have hstuck : Stuck base pre todo sets x c' := by
    clear hend
    induction hreach with
    | refl => exact h
    | tail _ hstep ih => exact (ih.step hok hsets hx).1 _ hstep
  exact (hstuck.step hok hsets hx).2 roles hend

/-! ### Runs -/

private theorem RoleConfig.Returns.of_reaches {roles : Nat → Option LinkRole} (h : c.Returns roles)
    (hreach : ReflTransGen RoleStep c c') : c'.Returns roles := by
  induction hreach with
  | refl => exact h
  | tail _ hstep ih =>
    obtain ⟨d, hrun, hend⟩ := ih
    rcases ReflTransGen.cases_head hrun with heq | ⟨e, hstep', hrun⟩
    · unfold RoleStep at hstep
      rw [heq, hend] at hstep
      cases hstep
    · obtain rfl : e = _ := Except.ok.inj (hstep'.symm.trans hstep)
      exact ⟨d, hrun, hend⟩

/-- A run that returns reads no freed node. -/
private theorem RoleConfig.Returns.not_freesOwn {roles : Nat → Option LinkRole} (h : c.Returns roles)
    (hreach : ReflTransGen RoleStep c c') : ¬ c'.FreesOwn := by
  intro hfree
  obtain ⟨x, bits, role, hcur, hrole, hflavor, hfreed⟩ := hfree
  have herror : ∃ e, expandRoleAttributesStep c' = .error e ∧ ∀ roles, e ≠ .returned roles := by
    unfold expandRoleAttributesStep
    rw [hcur]
    dsimp only
    rw [hrole]
    dsimp only
    rw [if_neg (not_not_intro hflavor)]
    cases ebitmapSetBit role.roles x false with
    | none => exact ⟨_, rfl, fun _ h => by cases h⟩
    | some _ =>
      dsimp only
      rw [if_pos rfl, if_pos hfreed]
      exact ⟨_, rfl, fun _ h => by cases h⟩
  obtain ⟨e, herror, hne⟩ := herror
  obtain ⟨d, hrun, hend⟩ := h.of_reaches hreach
  rcases ReflTransGen.cases_head hrun with heq | ⟨d', hstep, _⟩
  · rw [← heq, herror] at hend
    exact hne roles (Except.error.inj hend)
  · unfold RoleStep at hstep
    rw [herror] at hstep
    cases hstep

/-! ### The walk over the table -/

/-- The state between two calls. -/
def callConfig (base : RoleSymtab) (todo : List (CString × Nat)) (sets : Nat → Ebitmap) : RoleConfig :=
  ⟨withRoles base.roleValToStruct sets, todo, none⟩

private theorem call_skip (hok : base.Ok) {id : CString} (hentry : (id, x) ∈ base.table)
    (hx : ¬ IsRoleAttribute base.roleValToStruct x) (todo : List (CString × Nat)) (sets : Nat → Ebitmap) :
    RoleStep (callConfig base ((id, x) :: todo) sets) (callConfig base todo sets) := by
  obtain ⟨role, hrole⟩ := hok.entry _ hentry
  have hflavor : role.flavor ≠ .attrib := fun hflavor => hx ⟨role, hrole, hflavor⟩
  have hx' : withRoles base.roleValToStruct sets x = some { role with roles := sets x } := by
    unfold withRoles
    dsimp only at hrole
    rw [hrole]
    rfl
  unfold RoleStep expandRoleAttributesStep callConfig
  dsimp only
  rw [hx']
  dsimp only
  rw [if_pos hflavor, ite_self]

/-- The start of the scan of an attribute. -/
private theorem call_scan (hok : base.Ok) (hsets : ExpandedRoles base pre sets) {id : CString}
    (hentry : (id, x) ∈ base.table)
    (hx : IsRoleAttribute base.roleValToStruct x) (hpre : x ∉ pre) (todo : List (CString × Nat)) :
    RoleStep (callConfig base ((id, x) :: todo) sets)
        (scanConfig base todo sets x (sets x) (ebitmapPositiveBits (sets x))) ∧
      Scan base x (sets x) (ebitmapPositiveBits (sets x)) := by
  have hattr := hx
  obtain ⟨role, hrole, hflavor⟩ := hattr
  have hown : sets x = role.roles := hsets.rest x role hrole (Or.inl hpre)
  have hx' : withRoles base.roleValToStruct sets x = some { role with roles := sets x } := by
    unfold withRoles
    rw [hrole]
    rfl
  have hcanonical := hsets.canonical x
  constructor
  · unfold RoleStep expandRoleAttributesStep callConfig scanConfig
    dsimp only
    rw [hx']
    dsimp only
    rw [if_neg fun hobject => hok.object _ hentry hobject hx, if_neg (not_not_intro hflavor), Function.update_eq_self]
  · have hmem : ∀ j, j ∈ sets x ↔ HasRole base.roleValToStruct x j := by
      intro j
      unfold HasRole
      rw [hown, hrole]
      simp
    refine ⟨hcanonical, fun j hj => hok.exist x j ((hmem j).1 hj), fun b hb hattr => ?_, fun j hj hattr => ?_,
      fun j hj => ?_, fun b hb => (mem_ebitmapPositiveBits hcanonical).1 hb,
      fun b hb _ => (mem_ebitmapPositiveBits hcanonical).2 hb,
      (ebitmapPositiveBits_sorted hcanonical).imp fun hlt => Nat.ne_of_lt hlt⟩
    · exact ReflTransGen.single ⟨(hmem b).1 hb, hattr⟩
    · exact ⟨hattr, x, ReflTransGen.refl, (hmem j).1 hj⟩
    · rcases hj.avoiding.cases with hxj | ⟨c, hxc, hcx, hcj⟩
      · exact Or.inl ((hmem j).2 hxj)
      · exact Or.inr ⟨c, (hmem c).2 hxc.1, hxc.2, hcx, hcj⟩

private theorem not_mem_of_table (hok : base.Ok) {done : List (CString × Nat)} {id : CString}
    (htable : base.table = done ++ (id, x) :: todo) : x ∉ done.map Prod.snd := by
  have hnodup := hok.nodup
  rw [htable, List.map_append, List.map_cons] at hnodup
  intro hx
  exact (List.nodup_append.1 hnodup).2.2 x hx x (List.mem_cons_self ..) rfl

private theorem call_ends (hok : base.Ok) (hsets : ExpandedRoles base pre sets) {id : CString}
    (hentry : (id, x) ∈ base.table)
    (hx : IsRoleAttribute base.roleValToStruct x) (hpre : x ∉ pre) (todo : List (CString × Nat))
    (hcycle : ∀ b, AttributeEdge base.roleValToStruct x b →
      ¬ LeadsToCycle (LaterEdge base.roleValToStruct (pre ++ [x])) b)
    (hfree : ∀ c, ReflTransGen RoleStep (callConfig base ((id, x) :: todo) sets) c → ¬ c.FreesOwn) :
    ∃ sets', ExpandedRoles base (pre ++ [x]) sets' ∧
      ReflTransGen RoleStep (callConfig base ((id, x) :: todo) sets) (callConfig base todo sets') := by
  obtain ⟨hstart, hscan⟩ := call_scan hok hsets hentry hx hpre todo
  have hown : ∀ b ∈ sets x, IsRoleAttribute base.roleValToStruct b →
      ¬ LeadsToCycle (LaterEdge base.roleValToStruct (pre ++ [x])) b :=
    fun b hb hattr => hcycle b ((hsets.mem_sets hx hb).1 hattr).2
  obtain ⟨e, hend, hrun⟩ := scan_ends hok hsets hx todo hscan hown fun c hc => hfree c (ReflTransGen.head hstart hc)
  have hlast : RoleStep (scanConfig base todo sets x e []) (callConfig base todo (Function.update sets x e)) := rfl
  exact ⟨_, hsets.next hx hend.canonical hend.finish, ReflTransGen.head hstart (hrun.tail hlast)⟩

/-- The calls for the rest of the table end. -/
private theorem calls_end (hok : base.Ok) {done : List (CString × Nat)} (htable : base.table = done ++ todo)
    (hsets : ExpandedRoles base (done.map Prod.snd) sets) (hcycle : base.NoLaterCycle)
    (hfree : ∀ c, ReflTransGen RoleStep (callConfig base todo sets) c → ¬ c.FreesOwn) :
    ∃ sets', ExpandedRoles base (base.table.map Prod.snd) sets' ∧
      ReflTransGen RoleStep (callConfig base todo sets) (callConfig base [] sets') := by
  induction todo generalizing done sets with
  | nil =>
    rw [List.append_nil] at htable
    exact ⟨sets, htable ▸ hsets, ReflTransGen.refl⟩
  | cons entry todo ih =>
    obtain ⟨id, x⟩ := entry
    have hentry : (id, x) ∈ base.table := by
      rw [htable]
      simp
    have hnext : base.table = (done ++ [(id, x)]) ++ todo := by
      rw [htable, List.append_assoc, List.singleton_append]
    have hmap : (done ++ [(id, x)]).map Prod.snd = done.map Prod.snd ++ [x] := by simp
    obtain ⟨sets', hsets', hrun⟩ : ∃ sets', ExpandedRoles base (done.map Prod.snd ++ [x]) sets' ∧
        ReflTransGen RoleStep (callConfig base ((id, x) :: todo) sets) (callConfig base todo sets') := by
      by_cases hx : IsRoleAttribute base.roleValToStruct x
      · exact call_ends hok hsets hentry hx (not_mem_of_table hok htable) todo (hcycle done id x todo htable hx) hfree
      · exact ⟨sets, hsets.skip hx, ReflTransGen.single (call_skip hok hentry hx todo sets)⟩
    obtain ⟨sets'', hsets'', hrun'⟩ := ih hnext (hmap ▸ hsets') fun c hc => hfree c (hrun.trans hc)
    exact ⟨sets'', hsets'', hrun.trans hrun'⟩

private theorem call_not_leads (hok : base.Ok) {done : List (CString × Nat)} {id : CString}
    (htable : base.table = done ++ (id, x) :: todo) (hsets : ExpandedRoles base (done.map Prod.snd) sets)
    {roles : Nat → Option LinkRole} (h : (callConfig base ((id, x) :: todo) sets).Returns roles)
    (hx : IsRoleAttribute base.roleValToStruct x) (hb : AttributeEdge base.roleValToStruct x b) :
    ¬ LeadsToCycle (LaterEdge base.roleValToStruct (done.map Prod.snd ++ [x])) b := by
  intro hleads
  have hentry : (id, x) ∈ base.table := by
    rw [htable]
    simp
  have hpre := not_mem_of_table hok htable
  obtain ⟨hstart, hscan⟩ := call_scan hok hsets hentry hx hpre todo
  have hbx : b ∈ sets x := by
    obtain ⟨⟨role, hrole, hmem⟩, _⟩ := hb
    rwa [hsets.rest x role hrole (Or.inl hpre)]
  have hstuck : Stuck base (done.map Prod.snd) todo sets x (scanConfig base todo sets x (sets x) _) :=
    ⟨_, _, rfl, hscan, b, hbx, hb.2, hleads⟩
  exact hstuck.not_returns hok hsets hx roles (h.of_reaches (ReflTransGen.single hstart))

/-- Calls that return have no later cycle. -/
private theorem calls_not_lead (hok : base.Ok) {done : List (CString × Nat)} (htable : base.table = done ++ todo)
    (hsets : ExpandedRoles base (done.map Prod.snd) sets) {roles : Nat → Option LinkRole}
    (h : (callConfig base todo sets).Returns roles) {mid post : List (CString × Nat)} {id : CString}
    (hmid : todo = mid ++ (id, x) :: post) (hx : IsRoleAttribute base.roleValToStruct x)
    (hb : AttributeEdge base.roleValToStruct x b) :
    ¬ LeadsToCycle (LaterEdge base.roleValToStruct ((done ++ mid).map Prod.snd ++ [x])) b := by
  induction todo generalizing done sets mid with
  | nil => exact absurd hmid.symm (by simp)
  | cons entry todo ih =>
    obtain ⟨key, y⟩ := entry
    cases mid with
    | nil =>
      rw [List.nil_append, List.cons.injEq] at hmid
      rw [hmid.1] at h htable
      rw [List.append_nil]
      exact call_not_leads hok htable hsets h hx hb
    | cons entry' mid =>
      rw [List.cons_append, List.cons.injEq] at hmid
      obtain ⟨rfl, hmid⟩ := hmid
      have hentry : (key, y) ∈ base.table := by
        rw [htable]
        simp
      have hnext : base.table = (done ++ [(key, y)]) ++ todo := by
        rw [htable, List.append_assoc, List.singleton_append]
      have hmap : (done ++ [(key, y)]).map Prod.snd = done.map Prod.snd ++ [y] := by simp
      obtain ⟨sets', hsets', hrun⟩ : ∃ sets', ExpandedRoles base (done.map Prod.snd ++ [y]) sets' ∧
          ReflTransGen RoleStep (callConfig base ((key, y) :: todo) sets) (callConfig base todo sets') := by
        by_cases hy : IsRoleAttribute base.roleValToStruct y
        · exact call_ends hok hsets hentry hy (not_mem_of_table hok htable) todo
            (fun b hb => call_not_leads hok htable hsets h hy hb) fun c hc => h.not_freesOwn hc
        · exact ⟨sets, hsets.skip hy, ReflTransGen.single (call_skip hok hentry hy todo sets)⟩
      have hrest := ih hnext (hmap ▸ hsets') (h.of_reaches hrun) hmid
      rwa [List.append_assoc, List.singleton_append] at hrest

/-- The sets of the base. -/
def ownSets (base : RoleSymtab) (i : Nat) : Ebitmap := ((base.roleValToStruct i).map LinkRole.roles).getD ebitmapInit

theorem start_eq (base : RoleSymtab) : base.start = callConfig base base.table (ownSets base) := by
  have hroles : withRoles base.roleValToStruct (ownSets base) = base.roleValToStruct := by
    funext i
    unfold withRoles ownSets
    cases base.roleValToStruct i <;> rfl
  unfold RoleSymtab.start callConfig
  rw [hroles]

private theorem ownSets_expanded (hok : base.Ok) : ExpandedRoles base [] (ownSets base) := by
  refine ⟨fun i => ?_, fun a ha => absurd ha (List.not_mem_nil), fun a role hrole _ => ?_⟩
  · unfold ownSets
    cases hrole : base.roleValToStruct i with
    | none => exact Ebitmap.Canonical.init
    | some role => exact hok.canonical i role hrole
  · unfold ownSets
    rw [hrole]
    rfl

/-- The calls return, with the roles that can be reached in the sets of the attributes, exactly when no attribute
reaches a cycle of attributes that come after it, and when no scan meets the own bit of the attribute as the only one
of its node. -/
theorem expandRoleAttributes_iff (hok : base.Ok) :
    (∃ roles, base.start.Returns roles ∧ ∀ x role, roles x = some role → role.flavor = .attrib →
      ¬ TransGen (AttributeEdge base.roleValToStruct) x x →
        ∀ j, j ∈ role.roles ↔ ReachesRole base.roleValToStruct x j) ↔
      base.NoLaterCycle ∧ ∀ c, ReflTransGen RoleStep base.start c → ¬ c.FreesOwn := by
  rw [start_eq]
  constructor
  · intro hreturns
    obtain ⟨roles, hreturns, _⟩ := hreturns
    refine ⟨fun pre id x post htable hx b hb => ?_, fun c hc => hreturns.not_freesOwn hc⟩
    exact calls_not_lead hok (List.nil_append _).symm (ownSets_expanded hok) hreturns htable hx hb
  · intro hcond
    obtain ⟨sets, hsets, hrun⟩ := calls_end hok (List.nil_append _).symm (ownSets_expanded hok) hcond.1 hcond.2
    refine ⟨withRoles base.roleValToStruct sets, ⟨_, hrun, rfl⟩, fun x role hrole hflavor _ j => ?_⟩
    unfold withRoles at hrole
    obtain ⟨own, hown, rfl⟩ := Option.map_eq_some_iff.1 hrole
    exact hsets.done x (hok.complete x ⟨own, hown, hflavor⟩) ⟨own, hown, hflavor⟩ j

/-! ### Examples -/

/-- Roles with the values from 1 on, given by their names, flavors and sets. -/
def rolesOfList (l : List (CString × RoleFlavor × List Nat)) : RoleSymtab where
  table := l.zipIdx.map fun e => (e.1.1, e.2)
  roleValToStruct i := l[i]?.map fun e => ⟨e.2.1, i + 1, ebitmapOfList e.2.2⟩

private theorem rolesOfList_ok {l : List (CString × RoleFlavor × List Nat)} (hlength : l.length < 2 ^ 32 - 64)
    (hmem : ∀ e ∈ l, ∀ j ∈ e.2.2, j < l.length) (hobject : ∀ e ∈ l, e.1 ≠ objectR) : (rolesOfList l).Ok := by
  have hrole : ∀ i role, (rolesOfList l).roleValToStruct i = some role →
      ∃ e ∈ l, l[i]? = some e ∧ role = ⟨e.2.1, i + 1, ebitmapOfList e.2.2⟩ := by
    intro i role h
    obtain ⟨e, he, hrole⟩ := Option.map_eq_some_iff.1 h
    exact ⟨e, List.mem_of_getElem? he, he, hrole.symm⟩
  have hentry : ∀ e ∈ (rolesOfList l).table, l[e.2]?.map Prod.fst = some e.1 := by
    intro e he
    obtain ⟨⟨a, i⟩, ha, rfl⟩ := List.mem_map.1 he
    rw [List.mem_zipIdx_iff_getElem?] at ha
    dsimp only at ha ⊢
    rw [ha]
    rfl
  have hsnd : (rolesOfList l).table.map Prod.snd = List.range l.length := by
    unfold rolesOfList
    rw [List.map_map]
    change l.zipIdx.map Prod.snd = _
    rw [List.zipIdx_map_snd, List.range_eq_range']
  refine ⟨fun i role h => ?_, fun i role h => ?_, fun i j h => ?_, fun e he => ?_, ?_, fun i h => ?_,
    fun e he hobj => ?_⟩
  · obtain ⟨e, _, _, rfl⟩ := hrole i role h
    exact ebitmapOfList_canonical _
  · obtain ⟨e, _, _, rfl⟩ := hrole i role h
    rfl
  · obtain ⟨role, h, hj⟩ := h
    obtain ⟨e, he, _, rfl⟩ := hrole i role h
    have hlt : ∀ j ∈ e.2.2, j < 2 ^ 32 - 64 := fun j hj => by
      have := hmem e he j hj
      omega
    have hj := hmem e he j ((mem_ebitmapOfList hlt j).1 hj)
    refine ⟨⟨l[j].2.1, j + 1, ebitmapOfList l[j].2.2⟩, ?_⟩
    change l[j]?.map _ = _
    rw [List.getElem?_eq_getElem hj]
    rfl
  · have h := hentry e he
    cases hget : l[e.2]? with
    | none =>
      rw [hget] at h
      cases h
    | some a =>
      refine ⟨⟨a.2.1, e.2 + 1, ebitmapOfList a.2.2⟩, ?_⟩
      change l[e.2]?.map _ = _
      rw [hget]
      rfl
  · rw [hsnd]
    exact List.nodup_range
  · rw [hsnd, List.mem_range]
    obtain ⟨role, h, _⟩ := h
    obtain ⟨e, _, he, _⟩ := hrole i role h
    exact (List.getElem?_eq_some_iff.1 he).1
  · have h := hentry e he
    obtain ⟨a, ha, hkey⟩ := Option.map_eq_some_iff.1 h
    exact absurd (hkey.trans hobj) (hobject a (List.mem_of_getElem? ha))

/-- The attributes `a`, with the role `r` and the attribute `b`, and `b`, with the role `s`. -/
def chainRoles : RoleSymtab := rolesOfList
  [(['a'], .attrib, [1, 2]), (['b'], .attrib, [3]), (['r'], .role, []), (['s'], .role, [])]

theorem expandRoleAttributes_example :
    (∃ roles, chainRoles.start.Returns roles ∧ ∀ x role, roles x = some role → role.flavor = .attrib →
      ¬ TransGen (AttributeEdge chainRoles.roleValToStruct) x x →
        ∀ j, j ∈ role.roles ↔ ReachesRole chainRoles.roleValToStruct x j) ↔
      chainRoles.NoLaterCycle ∧ ∀ c, ReflTransGen RoleStep chainRoles.start c → ¬ c.FreesOwn :=
  expandRoleAttributes_iff (rolesOfList_ok (by decide) (by decide) (by decide))

/-- The attributes `b` and `c` have each other, and the attribute `a`, which comes first, has `b`. -/
def cycleRoles : RoleSymtab := rolesOfList
  [(['a'], .attrib, [1]), (['b'], .attrib, [2]), (['c'], .attrib, [1])]

/-- The attribute `a` has itself and nothing else. -/
def selfRoles : RoleSymtab := rolesOfList [(['a'], .attrib, [0])]

/-- The call for an attribute that has one of two attributes with each other in their sets does not end; that for an
attribute with only itself in its set reads a freed node. -/
theorem expandRoleAttributes_not : (cycleRoles.Ok ∧ ¬ ∃ roles, cycleRoles.start.Returns roles) ∧
    selfRoles.Ok ∧ ¬ ∃ roles, selfRoles.start.Returns roles := by
  have hcycle : cycleRoles.Ok := rolesOfList_ok (by decide) (by decide) (by decide)
  have hself : selfRoles.Ok := rolesOfList_ok (by decide) (by decide) (by decide)
  refine ⟨⟨hcycle, ?_⟩, hself, ?_⟩
  · intro hreturns
    obtain ⟨roles, hreturns⟩ := hreturns
    have hattr : ∀ i < 3, IsRoleAttribute cycleRoles.roleValToStruct i := by
      intro i hi
      have hsome : ∀ i < 3, ((cycleRoles.roleValToStruct i).map LinkRole.flavor) = some .attrib := by decide
      exact Option.map_eq_some_iff.1 (hsome i hi)
    have hedge : ∀ a b, b < 3 → b ∈ ownSets cycleRoles a → a < 3 → AttributeEdge cycleRoles.roleValToStruct a b := by
      intro a b hb hab ha
      obtain ⟨role, hrole, _⟩ := hattr a ha
      unfold ownSets at hab
      rw [hrole] at hab
      exact ⟨⟨role, hrole, hab⟩, hattr b hb⟩
    rw [start_eq] at hreturns
    have hno := calls_not_lead hcycle (List.nil_append _).symm (ownSets_expanded hcycle) hreturns
      (show cycleRoles.table = [] ++ (['a'], 0) :: [(['b'], 1), (['c'], 2)] by decide) (hattr 0 (by decide))
      (hedge 0 1 (by decide) (by decide) (by decide))
    have h12 : LaterEdge cycleRoles.roleValToStruct [0] 1 2 :=
      ⟨by decide, hedge 1 2 (by decide) (by decide) (by decide)⟩
    have h21 : LaterEdge cycleRoles.roleValToStruct [0] 2 1 :=
      ⟨by decide, hedge 2 1 (by decide) (by decide) (by decide)⟩
    exact hno ⟨1, ReflTransGen.refl, TransGen.head h12 (TransGen.single h21)⟩
  · intro hreturns
    obtain ⟨roles, hreturns⟩ := hreturns
    have hstep : RoleStep selfRoles.start ⟨selfRoles.roleValToStruct, [], some (0, [0])⟩ := by
      have hbits : ebitmapPositiveBits (ebitmapOfList [0]) = [0] := by decide
      unfold RoleStep expandRoleAttributesStep RoleSymtab.start
      change (if ['a'] = objectR then _ else _) = _
      rw [if_neg (by decide)]
      change Except.ok (⟨selfRoles.roleValToStruct, [],
        some (0, ebitmapPositiveBits (ebitmapOfList [0]))⟩ : RoleConfig) = _
      rw [hbits]
    refine hreturns.not_freesOwn (ReflTransGen.single hstep)
      ⟨0, [], ⟨.attrib, 1, ebitmapOfList [0]⟩, rfl, rfl, rfl, ?_⟩
    decide

end Sepol
