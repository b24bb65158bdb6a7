import Sepol.CilInheritance

/-!
# Block inheritance stays finite

A tree that the inheritance check accepts: the copy pass makes at most as many copies as the check counted.
-/

namespace Sepol

open Outcome

variable {t body new : CilBlkTree} {m depth count count' a b fresh : Nat} {stack todo rest : List Nat}
  {follow : Nat → Nat → Except CilInheritErr Nat} {w w' : Nat → Nat} {pend pend' : Nat → Nat → Bool}

/-! ### Charges -/

/-- A statement that waits for its copy is charged for the copy and for the weight of the block. -/
def inheritCharge (w : Nat → Nat) (pend : Nat → Nat → Bool) : Nat × Option Nat → Nat
  | (_, none) => 0
  | (a, some b) => if pend a b then 1 + w b else 0

/-- The charges of all statements of a list. -/
def inheritCharges (w : Nat → Nat) (pend : Nat → Nat → Bool) (l : List (Nat × Option Nat)) : Nat :=
  (l.map (inheritCharge w pend)).sum

/-- Every statement waits. -/
def allPend : Nat → Nat → Bool := fun _ _ => true

@[simp] theorem inheritCharges_append (l l' : List (Nat × Option Nat)) :
    inheritCharges w pend (l ++ l') = inheritCharges w pend l + inheritCharges w pend l' := by
  simp [inheritCharges]

private theorem inheritCharges_congr {l : List (Nat × Option Nat)} (h : ∀ a b, (a, some b) ∈ l → w b = w' b) :
    inheritCharges w pend l = inheritCharges w' pend l := by
  unfold inheritCharges
  congr 1
  refine List.map_congr_left fun p hp => ?_
  obtain ⟨a, inherited⟩ := p
  cases inherited with
  | none => rfl
  | some b => rw [inheritCharge, inheritCharge, h a b hp]

private theorem inheritCharges_sublist {l l' : List (Nat × Option Nat)} (h : l.Sublist l') :
    inheritCharges w pend l ≤ inheritCharges w pend l' :=
  (h.map _).sum_le_sum fun _ _ => Nat.zero_le _

private theorem inheritCharge_mono {p : Nat × Option Nat} (h : ∀ a b, pend' a b → pend a b) :
    inheritCharge w pend' p ≤ inheritCharge w pend p := by
  obtain ⟨a, inherited⟩ := p
  cases inherited with
  | none => exact Nat.le_refl _
  | some b =>
    rw [inheritCharge, inheritCharge]
    by_cases hb : pend' a b
    · rw [if_pos hb, if_pos (h a b hb)]
    · rw [if_neg hb]
      exact Nat.zero_le _

private theorem le_inheritCharges {l : List (Nat × Option Nat)} (hmem : (a, some b) ∈ l) (hpend : pend a b) :
    1 + w b ≤ inheritCharges w pend l := by
  have hcharge : inheritCharge w pend (a, some b) = 1 + w b := by rw [inheritCharge, if_pos hpend]
  rw [← hcharge]
  exact List.single_le_sum (fun _ _ => Nat.zero_le _) _ (List.mem_map_of_mem hmem)

private theorem inheritCharges_mono {l : List (Nat × Option Nat)} (h : ∀ a b, pend' a b → pend a b) :
    inheritCharges w pend' l ≤ inheritCharges w pend l :=
  List.sum_le_sum fun _ _ => inheritCharge_mono h

private theorem inheritCharges_done {l : List (Nat × Option Nat)} (h : ∀ a b, pend' a b → pend a b)
    (hmem : (a, some b) ∈ l) (hpend : pend a b) (hdone : pend' a b = false) :
    inheritCharges w pend' l + (1 + w b) ≤ inheritCharges w pend l := by
  obtain ⟨l1, l2, rfl⟩ := List.append_of_mem hmem
  have h1 : inheritCharges w pend' l1 ≤ inheritCharges w pend l1 := inheritCharges_mono h
  have h2 : inheritCharges w pend' l2 ≤ inheritCharges w pend l2 := inheritCharges_mono h
  have hbefore : inheritCharge w pend (a, some b) = 1 + w b := by rw [inheritCharge, if_pos hpend]
  have hafter : inheritCharge w pend' (a, some b) = 0 := by
    rw [inheritCharge, if_neg (by simp [hdone])]
  simp only [inheritCharges, List.map_append, List.map_cons, List.sum_append, List.sum_cons, hbefore,
    hafter] at h1 h2 ⊢
  omega

/-! ### The weights of an accepted tree -/

/-- The number of statements below block `b`, followed to a depth. -/
def inheritWeight (t : CilBlkTree) : Nat → Nat → Nat
  | 0, _ => 0
  | depth + 1, b => inheritCharges (inheritWeight t depth) allPend ((t.findBody b).getD .nil).bis

/-- No walk into inherited blocks from `b` is longer than `depth`. -/
def InheritEnds (t : CilBlkTree) : Nat → Nat → Prop
  | 0, _ => False
  | depth + 1, b => ∀ a c, (a, some c) ∈ ((t.findBody b).getD .nil).bis → InheritEnds t depth c

private theorem inheritWeight_succ (h : InheritEnds t depth b) :
    inheritWeight t depth b = inheritWeight t (depth + 1) b := by
  induction depth generalizing b with
  | zero => exact absurd h id
  | succ depth ih =>
    rw [inheritWeight, inheritWeight]
    exact inheritCharges_congr fun a c hc => ih (h a c hc)

/-- A check that accepts followed every statement and counted what it found below them, up to the bound. -/
private theorem cilCheckNode_count {flavor : CilBlkFlavor} {ends : Nat → Prop}
    (hfollow : ∀ b count count', count ≤ m → follow b count = .ok count' →
      count + w b ≤ count' ∧ ends b ∧ count' ≤ m) (hm : count ≤ m)
    (h : cilCheckNode m follow flavor count = .ok count') :
    count + inheritCharges w allPend flavor.bi.toList ≤ count' ∧
      (∀ a b, (a, some b) ∈ flavor.bi.toList → ends b) ∧ count' ≤ m := by
  unfold cilCheckNode at h
  cases hbi : flavor.bi with
  | none =>
    rw [hbi] at h
    obtain rfl := Except.ok.inj h
    exact ⟨Nat.le_refl _, fun a b hmem => (by cases hmem), hm⟩
  | some p =>
    obtain ⟨addr, inherited⟩ := p
    simp only [hbi] at h
    split at h
    · cases h
    · rename_i hlt
      cases inherited with
      | none =>
        obtain rfl := Except.ok.inj h
        refine ⟨?_, fun a b hmem => by simp at hmem, by omega⟩
        simp [inheritCharges, inheritCharge]
      | some b =>
        obtain ⟨hle, hends, hm'⟩ := hfollow b _ _ (by omega) h
        refine ⟨?_, fun a c hmem => ?_, hm'⟩
        · simp only [inheritCharges, inheritCharge, allPend, Option.toList_some, List.map_cons, List.map_nil,
            List.sum_cons, List.sum_nil, if_true]
          omega
        · simp only [Option.toList_some, List.mem_singleton, Prod.mk.injEq, Option.some.injEq] at hmem
          exact hmem.2 ▸ hends

private theorem cilCheckInheritances_count {ends : Nat → Prop}
    (hfollow : ∀ b count count', count ≤ m → follow b count = .ok count' →
      count + w b ≤ count' ∧ ends b ∧ count' ≤ m) (hm : count ≤ m)
    (h : cilCheckInheritances m follow t count = .ok count') :
    count + inheritCharges w allPend t.bis ≤ count' ∧ (∀ a b, (a, some b) ∈ t.bis → ends b) ∧ count' ≤ m := by
  induction t generalizing count count' with
  | nil =>
    obtain rfl := Except.ok.inj h
    exact ⟨Nat.le_refl _, fun a b hmem => (by cases hmem), hm⟩
  | node flavor clHead next ihc ihn =>
    rw [cilCheckInheritances] at h
    cases hf : cilCheckNode m follow flavor count with
    | error e => rw [hf] at h; cases h
    | ok countf =>
      rw [hf] at h
      change cilCheckInheritances m follow clHead countf >>= _ = _ at h
      cases hc : cilCheckInheritances m follow clHead countf with
      | error e => rw [hc] at h; cases h
      | ok countc =>
        rw [hc] at h
        obtain ⟨hflavor, hfends, hmf⟩ := cilCheckNode_count hfollow hm hf
        obtain ⟨hchild, hcends, hmc⟩ := ihc hmf hc
        obtain ⟨hnext, hnends, hmn⟩ := ihn hmc h
        refine ⟨?_, fun a b hmem => ?_, hmn⟩
        · simp only [CilBlkTree.bis, inheritCharges_append]
          omega
        · simp only [CilBlkTree.bis, List.mem_append] at hmem
          rcases hmem with (hmem | hmem) | hmem
          · exact hfends a b hmem
          · exact hcends a b hmem
          · exact hnends a b hmem

private theorem cilCheckInherited_count (hm : count ≤ m)
    (h : cilCheckInherited t m depth stack b count = .ok count') :
    count + inheritWeight t depth b ≤ count' ∧ InheritEnds t depth b ∧ count' ≤ m := by
  induction depth generalizing stack b count count' with
  | zero => cases h
  | succ depth ih =>
    rw [cilCheckInherited] at h
    split at h
    · cases h
    · exact cilCheckInheritances_count (fun b count count' hm hb => ih hm hb) hm h

private theorem exists_inheritWeight (h : cilCheckForBadInheritance depth t = .ok count) :
    ∃ w, (∀ b body, t.findBody b = some body → inheritCharges w allPend body.bis = w b) ∧
      inheritCharges w allPend t.bis ≤ count ∧ count ≤ cilInheritanceMax t := by
  obtain ⟨hcount, hends, hmax⟩ := cilCheckInheritances_count
    (fun b count count' hm hb => cilCheckInherited_count hm hb) (Nat.zero_le _) h
  have hstable : ∀ a b, (a, some b) ∈ t.bis → inheritWeight t depth b = inheritWeight t (depth + 1) b :=
    fun a b hmem => inheritWeight_succ (hends a b hmem)
  refine ⟨inheritWeight t (depth + 1), fun b body hbody => ?_, ?_, hmax⟩
  · have hsub : body.bis ⊆ t.bis := (CilBlkTree.bis_sublist_of_findBody hbody).subset
    rw [inheritWeight, hbody, Option.getD_some]
    exact (inheritCharges_congr fun a c hc => hstable a c (hsub hc)).symm
  · rw [← inheritCharges_congr hstable]
    rwa [Nat.zero_add] at hcount

/-! ### The copy pass keeps within the count -/

/-- A statement waits when its block is still to be visited, or is the one being visited and the statement is in the
rest of its list. -/
def waiting (todo : List Nat) (b : Nat) (rest : List Nat) : Nat → Nat → Bool :=
  fun a c => decide (c ∈ todo) || (decide (c = b) && decide (a ∈ rest))

@[simp] theorem waiting_iff {c : Nat} : waiting todo b rest a c = true ↔ c ∈ todo ∨ c = b ∧ a ∈ rest := by
  simp [waiting]

@[simp] theorem mem_cilResolveBlockinheritLink : a ∈ cilResolveBlockinheritLink t b ↔ (a, some b) ∈ t.bis := by
  simp only [cilResolveBlockinheritLink, List.mem_filterMap]
  constructor
  · rintro ⟨⟨c, inherited⟩, hmem, h⟩
    split at h
    · rename_i heq
      obtain rfl := Option.some.inj h
      exact heq ▸ hmem
    · cases h
  · exact fun hmem => ⟨_, hmem, if_pos rfl⟩

private theorem nodup_cilResolveBlockinheritLink (h : (t.bis.map Prod.fst).Nodup) :
    (cilResolveBlockinheritLink t b).Nodup := by
  refine h.sublist ?_
  rw [cilResolveBlockinheritLink]
  induction t.bis with
  | nil => exact List.Sublist.refl _
  | cons p l ih =>
    rw [List.filterMap_cons, List.map_cons]
    by_cases hb : p.2 = some b
    · simpa [hb] using ih
    · simpa [hb] using ih.cons _

/-- A copy of a body that does not inherit `b` itself is charged no more than the body. -/
private theorem inheritCharges_copy {old new : List (Nat × Option Nat)} {next : Nat} {rest' : List Nat}
    (h : FreshCopy old new fresh next) (hself : ∀ a, (a, some b) ∉ old) :
    inheritCharges w (waiting todo b rest') new ≤ inheritCharges w (waiting todo b rest) old := by
  -- without statements for `b` the charge of a statement is one of its block
  let charge : Option Nat → Nat := fun inherited => inherited.elim 0 fun c => if c ∈ todo then 1 + w c else 0
  have hcharge : ∀ (l : List (Nat × Option Nat)) (rest : List Nat), some b ∉ l.map Prod.snd →
      inheritCharges w (waiting todo b rest) l = ((l.map Prod.snd).map charge).sum := by
    intro l rest hnot
    rw [inheritCharges, List.map_map]
    congr 1
    refine List.map_congr_left fun p hp => ?_
    obtain ⟨a, inherited⟩ := p
    cases inherited with
    | none => rfl
    | some c =>
      have hne : c ≠ b := fun heq => hnot (heq ▸ List.mem_map_of_mem hp)
      simp [inheritCharge, charge, hne]
  have hold : some b ∉ old.map Prod.snd := by
    intro hmem
    obtain ⟨⟨a, _⟩, hp, rfl⟩ := List.mem_map.1 hmem
    exact hself a hp
  rw [hcharge old rest hold, hcharge new rest' fun hmem => hold (h.refs.subset hmem)]
  exact (h.refs.map charge).sum_le_sum fun _ _ => Nat.zero_le _

/-- The copy pass between two copies; `live` are the blocks whose bodies may still be copied. -/
structure CilInheritState.Within (w : Nat → Nat) (count : Nat) (blocks live : List Nat) (pend : Nat → Nat → Bool)
    (s : CilInheritState) : Prop where
  heads : s.tree.heads = blocks
  nodup : (s.tree.bis.map Prod.fst).Nodup
  fresh : ∀ p ∈ s.tree.bis, p.1 < s.fresh
  links : ∀ b, (s.biNodes b).Perm (cilResolveBlockinheritLink s.tree b)
  bodies : ∀ b ∈ live, ∀ body, s.tree.findBody b = some body → inheritCharges w pend body.bis ≤ w b
  budget : s.copies + inheritCharges w pend s.tree.bis ≤ count

variable {s : CilInheritState} {blocks live live' : List Nat}

theorem CilInheritState.Within.mono (h : s.Within w count blocks live pend) (hlive : live' ⊆ live)
    (hpend : ∀ a b, pend' a b → pend a b) : s.Within w count blocks live' pend' where
  heads := h.heads
  nodup := h.nodup
  fresh := h.fresh
  links := h.links
  bodies := fun b hb body hbody => (inheritCharges_mono hpend).trans (h.bodies b (hlive hb) body hbody)
  budget := (Nat.add_le_add_left (inheritCharges_mono hpend) _).trans h.budget

private theorem inherited_unique {l : List (Nat × Option Nat)} {inherited inherited' : Option Nat}
    (h : (l.map Prod.fst).Nodup)
    (hmem : (a, inherited) ∈ l) (hmem' : (a, inherited') ∈ l) : inherited = inherited' :=
  congrArg Prod.snd (List.inj_on_of_nodup_map h hmem hmem' rfl)

private theorem inheritCharges_insertAt (hnodup : (t.bis.map Prod.fst).Nodup) (hmem : (a, some b) ∈ t.bis)
    (hpend : ∀ a b, pend' a b → pend a b) (hwait : pend a b) (hdone : pend' a b = false)
    (hnew : inheritCharges w pend' new.bis ≤ w b) :
    inheritCharges w pend' (CilBlkTree.insertAt a new t).bis + 1 ≤ inheritCharges w pend t.bis := by
  have hperm := @CilBlkTree.bis_insertAt_perm t new a hnodup (List.mem_map_of_mem hmem)
  have hsum : inheritCharges w pend' (CilBlkTree.insertAt a new t).bis =
      inheritCharges w pend' new.bis + inheritCharges w pend' t.bis := by
    rw [← inheritCharges_append]
    exact (hperm.map _).sum_eq
  have hback : inheritCharges w pend' t.bis + (1 + w b) ≤ inheritCharges w pend t.bis :=
    inheritCharges_done hpend hmem hwait hdone
  omega

private theorem cilCopyAst_eq (hbody : s.tree.findBody b = some body) (hout : a ∉ body.bis.map Prod.fst) :
    cilCopyAst b a s = some {
      tree := .insertAt a (cilCopyNodes body s.fresh).1 s.tree
      biNodes := fun c => s.biNodes c ++ cilResolveBlockinheritLink (cilCopyNodes body s.fresh).1 c
      fresh := (cilCopyNodes body s.fresh).2
      copies := s.copies + 1 } := by
  rw [cilCopyAst, hbody]
  exact if_neg hout

/-- The statements of the tree after a copy have different addresses below the next unused one. -/
theorem CilInheritState.Within.addrs (h : s.Within w count blocks live pend) {old new : List (Nat × Option Nat)}
    {next : Nat} (hcopy : FreshCopy old new s.fresh next) :
    ((new ++ s.tree.bis).map Prod.fst).Nodup ∧ ∀ p ∈ new ++ s.tree.bis, p.1 < next := by
  have hnew : ∀ p ∈ new, s.fresh ≤ p.1 ∧ p.1 < next := by
    intro p hp
    have hmem := hcopy.addrs ▸ List.mem_map_of_mem hp
    rw [hcopy.next_eq]
    simpa using hmem
  refine ⟨?_, fun p hp => ?_⟩
  · rw [List.map_append, List.nodup_append']
    refine ⟨hcopy.addrs ▸ List.nodup_range', h.nodup, fun c hc hold => ?_⟩
    obtain ⟨p, hp, rfl⟩ := List.mem_map.1 hc
    obtain ⟨q, hq, heq⟩ := List.mem_map.1 hold
    have hlt := h.fresh q hq
    have hge := (hnew p hp).1
    omega
  · rcases List.mem_append.1 hp with hp | hp
    · exact (hnew p hp).2
    · have hlt := h.fresh p hp
      rw [hcopy.next_eq]
      omega

/-- What one copy of the body of block `b` does. -/
theorem CilInheritState.Within.copy (h : s.Within w count blocks (b :: todo) (waiting todo b (a :: rest)))
    (hb : b ∉ todo) (ha : a ∉ rest) (hmem : a ∈ s.biNodes b) (hbody : s.tree.findBody b = some body)
    (hself : ∀ a, (a, some b) ∉ body.bis) :
    ∃ s', cilCopyAst b a s = some s' ∧ s'.Within w count blocks (b :: todo) (waiting todo b rest) ∧
      s'.tree.findBody b = some body ∧ s'.biNodes b = s.biNodes b ∧ s'.copies = s.copies + 1 := by
  have htree : (a, some b) ∈ s.tree.bis := mem_cilResolveBlockinheritLink.1 ((h.links b).subset hmem)
  have hout : a ∉ body.bis.map Prod.fst := by
    intro hin
    obtain ⟨⟨_, inherited⟩, hp, rfl⟩ := List.mem_map.1 hin
    obtain rfl := inherited_unique h.nodup ((CilBlkTree.bis_sublist_of_findBody hbody).subset hp) htree
    exact hself _ hp
  have hcopy := bis_cilCopyNodes body s.fresh
  have hheads : (cilCopyNodes body s.fresh).1.heads = [] := heads_cilCopyNodes body s.fresh
  have hperm := @CilBlkTree.bis_insertAt_perm s.tree (cilCopyNodes body s.fresh).1 a h.nodup
    (List.mem_map_of_mem htree)
  have hpend : ∀ a' c, waiting todo b rest a' c → waiting todo b (a :: rest) a' c := by
    intro a' c
    simp only [waiting_iff, List.mem_cons]
    exact Or.imp_right fun hc => ⟨hc.1, Or.inr hc.2⟩
  have hwait : waiting todo b (a :: rest) a b := by simp
  have hdone : waiting todo b rest a b = false := by simp [waiting, hb, ha]
  have hnew : inheritCharges w (waiting todo b rest) (cilCopyNodes body s.fresh).1.bis ≤ w b :=
    (inheritCharges_copy hcopy hself).trans (h.bodies b (List.mem_cons_self ..) body hbody)
  obtain ⟨hnodup, hfresh⟩ := h.addrs hcopy
  refine ⟨_, cilCopyAst_eq hbody hout, ?_, ?_, ?_, rfl⟩
  · constructor
    · rw [CilBlkTree.heads_insertAt hheads, h.heads]
    · exact (hperm.map Prod.fst).nodup_iff.2 hnodup
    · exact fun p hp => hfresh p (hperm.subset hp)
    · intro c
      exact ((h.links c).append_right _).trans
        (List.perm_append_comm.trans (List.filterMap_append ▸ (hperm.filterMap _).symm))
    · -- a body either holds the statement the copy was made for, or is unchanged
      intro c hc body' hbody'
      rw [CilBlkTree.findBody_insertAt hheads] at hbody'
      obtain ⟨old, hold, rfl⟩ := Option.map_eq_some_iff.1 hbody'
      have hsub := CilBlkTree.bis_sublist_of_findBody hold
      have hle := h.bodies c hc old hold
      by_cases hin : a ∈ old.bis.map Prod.fst
      · obtain ⟨⟨_, inherited⟩, hp, rfl⟩ := List.mem_map.1 hin
        obtain rfl := inherited_unique h.nodup (hsub.subset hp) htree
        have hpaid := inheritCharges_insertAt (h.nodup.sublist (hsub.map _)) hp hpend hwait hdone hnew
        exact (Nat.le_of_succ_le hpaid).trans hle
      · rw [CilBlkTree.insertAt_of_notMem hin]
        exact (inheritCharges_mono hpend).trans hle
    · have hpaid := inheritCharges_insertAt h.nodup htree hpend hwait hdone hnew
      have hbudget := h.budget
      show s.copies + 1 + inheritCharges w (waiting todo b rest) (CilBlkTree.insertAt a _ s.tree).bis ≤ count
      omega
  · show CilBlkTree.findBody b _ = _
    rw [CilBlkTree.findBody_insertAt hheads, hbody, Option.map_some, CilBlkTree.insertAt_of_notMem hout]
  · have hnone : cilResolveBlockinheritLink (cilCopyNodes body s.fresh).1 b = [] := by
      rw [List.eq_nil_iff_forall_not_mem]
      intro c hc
      have href := hcopy.refs.subset (List.mem_map_of_mem (mem_cilResolveBlockinheritLink.1 hc))
      obtain ⟨⟨c', _⟩, hp, rfl⟩ := List.mem_map.1 href
      exact hself c' hp
    show s.biNodes b ++ _ = _
    rw [hnone, List.append_nil]

/-- The loop over the list of block `b` from entry `i` on ends, with a copy for every entry. -/
theorem CilInheritState.Within.loop {fuel i : Nat} {nodes : List Nat}
    (h : s.Within w count blocks (b :: todo) (waiting todo b (nodes.drop i))) (hb : b ∉ todo)
    (hnodes : s.biNodes b = nodes) (hbody : s.tree.findBody b = some body) (hself : ∀ a, (a, some b) ∉ body.bis)
    (hfuel : count < fuel + s.copies) :
    ∃ s', cilResolveBlockinheritCopy b fuel i s = some s' ∧ s'.Within w count blocks todo (waiting todo b []) := by
  induction fuel generalizing i s with
  | zero =>
    have hbudget := h.budget
    omega
  | succ fuel ih =>
    rw [cilResolveBlockinheritCopy, hnodes]
    cases hi : nodes[i]? with
    | none =>
      rw [List.drop_eq_nil_of_le (List.getElem?_eq_none_iff.1 hi)] at h
      exact ⟨s, rfl, h.mono (List.subset_cons_self ..) fun _ _ => id⟩
    | some a =>
      obtain ⟨hlt, hget⟩ := List.getElem?_eq_some_iff.1 hi
      have hdrop : nodes.drop i = a :: nodes.drop (i + 1) := by
        rw [List.drop_eq_getElem_cons hlt, hget]
      have hnodup : (nodes.drop i).Nodup := by
        have hlinks := (h.links b).nodup_iff.2 (nodup_cilResolveBlockinheritLink h.nodup)
        exact (hnodes ▸ hlinks).sublist (List.drop_sublist ..)
      rw [hdrop] at h hnodup
      have hmem : a ∈ s.biNodes b := hnodes ▸ hget ▸ List.getElem_mem hlt
      obtain ⟨s1, hcopy, hwithin, hbody1, hnodes1, hcopies⟩ :=
        h.copy hb (List.nodup_cons.1 hnodup).1 hmem hbody hself
      obtain ⟨s', hs', hdone⟩ := ih hwithin (hnodes1.trans hnodes) hbody1 (by omega)
      refine ⟨s', ?_, hdone⟩
      show (cilCopyAst b a s).bind _ = _
      rw [hcopy]
      exact hs'

/-- The visits of the blocks end, each with all its copies made. -/
theorem CilInheritState.Within.visits {fuel : Nat} (h : s.Within w count blocks todo (waiting todo 0 []))
    (hnodup : todo.Nodup) (hsub : todo ⊆ blocks) (hfuel : count < fuel) :
    ∃ s', todo.foldlM (fun s b => cilResolveBlockinheritCopy b fuel 0 s) s = some s' ∧ s'.copies ≤ count := by
  induction todo generalizing s with
  | nil => exact ⟨s, rfl, (Nat.le_add_right ..).trans h.budget⟩
  | cons b todo ih =>
    obtain ⟨hb, hnodup⟩ := List.nodup_cons.1 hnodup
    obtain ⟨body, hbody⟩ := CilBlkTree.exists_findBody (h.heads ▸ hsub (List.mem_cons_self ..))
    have hself : ∀ a, (a, some b) ∉ body.bis := by
      intro a hmem
      have hwait : waiting (b :: todo) 0 [] a b := by simp
      have hcharge : 1 + w b ≤ inheritCharges w (waiting (b :: todo) 0 []) body.bis := le_inheritCharges hmem hwait
      have hle := h.bodies b (List.mem_cons_self ..) body hbody
      omega
    have hstart : s.Within w count blocks (b :: todo) (waiting todo b ((s.biNodes b).drop 0)) := by
      refine h.mono (List.Subset.refl _) fun a c => ?_
      simp only [waiting_iff, List.mem_cons]
      rintro (hc | ⟨rfl, _⟩)
      · exact Or.inl (Or.inr hc)
      · exact Or.inl (Or.inl rfl)
    obtain ⟨s1, hs1, hwithin⟩ := hstart.loop hb rfl hbody hself (Nat.lt_of_lt_of_le hfuel (Nat.le_add_right ..))
    have hnext : s1.Within w count blocks todo (waiting todo 0 []) :=
      hwithin.mono (List.Subset.refl _) fun a c => by simp
    obtain ⟨s', hs', hcopies⟩ := ih hnext hnodup fun c hc => hsub (List.mem_cons_of_mem _ hc)
    refine ⟨s', ?_, hcopies⟩
    rw [List.foldlM_cons, hs1]
    exact hs'

/-- The state after the link pass, of a tree of which optionals were taken out. -/
theorem CilInheritState.Within.init (t : CilLinkedTree)
    (hw : ∀ b body, t.tree.findBody b = some body → inheritCharges w allPend body.bis = w b)
    (hcount : inheritCharges w allPend t.tree.bis ≤ count) :
    (CilInheritState.init (cilDestroyDisabled t.tree)).Within w count (cilDestroyDisabled t.tree).heads
      (cilDestroyDisabled t.tree).heads (waiting (cilDestroyDisabled t.tree).heads 0 []) where
  heads := rfl
  nodup := t.addrs_nodup.sublist ((bis_cilDestroyDisabled t.tree).map _)
  fresh := by
    intro p hp
    have hle : ∀ l : List (Nat × Option Nat), p ∈ l → p.1 < (l.map fun p => p.1 + 1).foldr max 0 := by
      intro l hl
      induction l with
      | nil => cases hl
      | cons q l ih =>
        rw [List.map_cons, List.foldr_cons]
        rcases List.mem_cons.1 hl with rfl | hl
        · omega
        · have hrest := ih hl
          omega
    exact hle _ hp
  links := fun b => List.Perm.refl _
  bodies := by
    intro b _ body hbody
    obtain ⟨whole, hwhole, rfl⟩ := findBody_cilDestroyDisabled t.heads_nodup hbody
    rw [← hw b whole hwhole]
    exact (inheritCharges_mono fun _ _ _ => rfl).trans (inheritCharges_sublist (bis_cilDestroyDisabled whole))
  budget := by
    show 0 + _ ≤ count
    rw [Nat.zero_add]
    exact ((inheritCharges_mono fun _ _ _ => rfl).trans
      (inheritCharges_sublist (bis_cilDestroyDisabled t.tree))).trans
      hcount

/-- The check ends, and the copy pass of a tree it accepts ends after at most the allowed number of copies. -/
theorem cilCheckForBadInheritance_finite (t : CilLinkedTree) (hdepth : t.tree.heads.length < depth) :
    (∀ depth', t.tree.heads.length < depth' →
        cilCheckForBadInheritance depth' t.tree = cilCheckForBadInheritance depth t.tree) ∧
      cilCheckForBadInheritance depth t.tree ≠ .error .depth ∧
      ∀ count, cilCheckForBadInheritance depth t.tree = .ok count → ∀ fuel, cilInheritanceMax t.tree < fuel →
        ∃ s, cilBlockinheritCopyPass fuel (.init (cilDestroyDisabled t.tree)) = some s ∧
          s.copies ≤ cilInheritanceMax t.tree := by
  refine ⟨fun depth' hdepth' => (cilCheckForBadInheritance_ends t hdepth' hdepth).1,
    (cilCheckForBadInheritance_ends t hdepth hdepth).2, fun count hcheck fuel hfuel => ?_⟩
  obtain ⟨w, hw, hcount, hmax⟩ := exists_inheritWeight hcheck
  have hnodup := t.heads_nodup.sublist (heads_cilDestroyDisabled t.tree)
  obtain ⟨s, hs, hcopies⟩ := (CilInheritState.Within.init t hw hcount).visits hnodup (List.Subset.refl _)
    (Nat.lt_of_le_of_lt hmax hfuel)
  exact ⟨s, hs, hcopies.trans hmax⟩

private theorem inheritExample_ref {a b : Nat} (h : a = 0 ∧ b = 0 ∨ a = 1 ∧ b = 1 ∨ a = 2 ∧ b = 1) :
    b = 1 ∨ b = 0 := by
  omega

/-- A block that inherits a later one and is itself inherited twice, so that the list of the later one grows before
its own visit. -/
def inheritExample : CilLinkedTree where
  tree :=
    .node (.block (some 1)) (.node (.blockinherit 0 (some 0)) .nil .nil) <|
    .node (.block (some 0)) (.node .other .nil .nil) <|
    .node (.blockinherit 1 (some 1)) .nil <| .node (.blockinherit 2 (some 1)) .nil .nil
  addrs_nodup := by decide
  heads_nodup := by decide
  refs := by
    intro a b h
    simp only [CilBlkTree.bis, CilBlkFlavor.bi, List.mem_append] at h
    simp only [CilBlkTree.heads, CilBlkFlavor.head]
    simp at h ⊢
    exact inheritExample_ref h

theorem cilCheckForBadInheritance_finite_example :
    ∃ s, cilBlockinheritCopyPass 1025 (.init (cilDestroyDisabled inheritExample.tree)) = some s ∧
      s.copies ≤ cilInheritanceMax inheritExample.tree :=
  (@cilCheckForBadInheritance_finite 3 inheritExample (by decide)).2.2 5 (by decide) 1025 (by decide)

end Sepol
