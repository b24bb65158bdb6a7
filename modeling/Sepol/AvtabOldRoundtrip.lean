import Sepol.AvtabWriteOld

/-!
# Rule tables in the old format

`avtab_read` takes the records of `avtab_write` apart again: the table that is read has, for every pair of individual
types, class and specifier, one entry with the combination of the entries of the written table that stand for it, and
no entry where there are none.
-/

namespace Sepol

open Accumulate Grouping

variable {p : Policydb} {a expa h : Avtab} {k : AvtabKey} {n m cur : AvtabNode} {g l done : List AvtabNode}
  {rest : List Byte}

/-! ### Reading a record -/

private theorem le32ToCpu_append {pre : List Byte} {items : Nat} (hpre : pre.length = 4 * items) (d : BitVec 32)
    (post : List Byte) : le32ToCpu (pre ++ (cpuToLe32 d.toNat ++ post)) items = d.toNat := by
  rw [le32ToCpu, ← hpre, List.drop_left, List.take_left' (length_cpuToLe32 _)]
  exact ofBytes_cpuToLe32 d.isLt

/-- The loop over the specifiers reads the data of the nodes that the group has for them. -/
private theorem avtabReadSpecs_eq {σ : Type} (insertf : AvtabKey → AvtabDatum → σ → Option σ) (key : AvtabKey)
    (enabled val : BitVec 16) {items2 : Nat} {specs : List (BitVec 16)}
    (hval : ∀ s ∈ specs, hasSpecified val s = true ↔ (g.find? fun n => hasSpecified n.key.specified s).isSome = true)
    (hspec : ∀ s ∈ specs, ∀ n, g.find? (fun n => hasSpecified n.key.specified s) = some n →
      (keySlot n.key).specified = s) {pre post : List Byte} {items : Nat} (hpre : pre.length = 4 * items)
    (hitems : items + (specEntries g specs).length ≤ items2) (st : σ) :
    avtabReadSpecs insertf key enabled val
        (pre ++ ((specEntries g specs).flatMap (fun n => cpuToLe32 n.datum.data.toNat) ++ post))
          items2 specs items st =
      ((specEntries g specs).foldlM (fun st n => insertf
          { key with specified := (keySlot n.key).specified ||| enabled } ⟨n.datum.data, avtabExtendedPermsInit⟩ st)
        st).map fun st => (items + (specEntries g specs).length, st) := by
  induction specs generalizing pre items st with
  | nil => rfl
  | cons s specs ih =>
    have ih := @ih (fun a ha => hval a (List.mem_cons_of_mem _ ha)) (fun a ha => hspec a (List.mem_cons_of_mem _ ha))
    unfold avtabReadSpecs
    cases hfind : g.find? (fun n => hasSpecified n.key.specified s) with
    | none =>
      have hentries : specEntries g (s :: specs) = specEntries g specs := List.filterMap_cons_none hfind
      have hno : ¬ hasSpecified val s = true := by
        rw [hval s (List.mem_cons_self ..), hfind]
        decide
      rw [hentries] at hitems ⊢
      rw [if_neg hno, ih hpre hitems]
    | some n =>
      have hentries : specEntries g (s :: specs) = n :: specEntries g specs := List.filterMap_cons_some hfind
      have hyes : hasSpecified val s = true := by
        rw [hval s (List.mem_cons_self ..), hfind]
        rfl
      have hs := hspec s (List.mem_cons_self ..) n hfind
      rw [hentries, List.length_cons] at hitems
      rw [hentries, List.flatMap_cons, List.append_assoc, if_pos hyes, if_neg (by omega), le32ToCpu_append hpre,
        BitVec.ofNat_toNat, BitVec.setWidth_eq, List.foldlM_cons, hs]
      change _ = Option.map _ (Option.bind _ _)
      cases insertf { key with specified := s ||| enabled } ⟨n.datum.data, avtabExtendedPermsInit⟩ st with
      | none => rfl
      | some st =>
        have hpre' : (pre ++ cpuToLe32 n.datum.data.toNat).length = 4 * (items + 1) := by
          rw [List.length_append, hpre, length_cpuToLe32]
          omega
        have hrest := ih hpre' (by omega) st
        rw [List.append_assoc] at hrest
        dsimp only
        rw [hrest, List.length_cons, Option.bind_some]
        congr 1
        funext st
        rw [Nat.add_assoc, Nat.add_comm 1]

/-- The flag that the reader gives the entries of a record. -/
def groupEnabled (g : List AvtabNode) : BitVec 16 :=
  if g.any fun n => hasSpecified n.key.specified avtabEnabled then avtabEnabled else 0

/-- The key that the reader makes for a node of a group. -/
def readKey (g : List AvtabNode) (n : AvtabNode) : AvtabKey :=
  { n.key with specified := (keySlot n.key).specified ||| groupEnabled g }

private theorem keySlot_readKey (g : List AvtabNode) (n : AvtabNode) : keySlot (readKey g n) = keySlot n.key := by
  have hbits : ∀ x : BitVec 16, ((x &&& ~~~avtabEnabled) ||| groupEnabled g) &&& ~~~avtabEnabled =
      x &&& ~~~avtabEnabled := by
    have hor : ∀ x y : BitVec 16, (x ||| y) &&& ~~~avtabEnabled =
      (x &&& ~~~avtabEnabled) ||| (y &&& ~~~avtabEnabled) :=
      fun x y => by
        ext i hi
        simp only [BitVec.getElem_and, BitVec.getElem_or]
        cases x[i] <;> cases y[i] <;> cases (~~~avtabEnabled)[i] <;> rfl
    intro x
    have henabled : groupEnabled g &&& ~~~avtabEnabled = 0#16 := by
      unfold groupEnabled
      split <;> decide
    rw [hor, henabled, BitVec.or_zero, BitVec.and_assoc, BitVec.and_self]
  unfold keySlot readKey
  dsimp only [keySlot]
  rw [hbits]

private theorem testBit_groupWord (g : List AvtabNode) :
    (groupWord g).toNat.testBit avtabEnabledOldBit = g.any fun n => hasSpecified n.key.specified avtabEnabled := by
  have hnode : ∀ n : AvtabNode, (specWord n).getLsbD 31 = hasSpecified n.key.specified avtabEnabled := by
    intro n
    have hhigh : ((n.key.specified &&& ~~~avtabEnabled).setWidth 32).getLsbD 31 = false := by
      rw [BitVec.getLsbD_setWidth, BitVec.getLsbD_of_ge _ 31 (by decide), Bool.and_false]
    unfold specWord
    dsimp only
    cases hasSpecified n.key.specified avtabEnabled with
    | true =>
      rw [if_pos rfl, BitVec.getLsbD_or, hhigh]
      decide
    | false =>
      rw [if_neg (by decide)]
      exact hhigh
  rw [← BitVec.getLsbD, groupWord, Words.getLsbD_union, List.any_map]
  exact congrArg g.any (funext hnode)

private theorem hasSpecified_groupWord (g : List AvtabNode) (spec : BitVec 16) :
    hasSpecified (BitVec.ofNat 16 (groupWord g).toNat) spec = wordHas (groupWord g) spec := by
  have hword : BitVec.ofNat 16 (groupWord g).toNat = (groupWord g).setWidth 16 := by
    rw [BitVec.ofNat_toNat]
  have hlow : ((groupWord g).setWidth 16 &&& spec).setWidth 32 = groupWord g &&& spec.setWidth 32 := by
    ext i hi
    simp only [BitVec.getElem_setWidth, BitVec.getLsbD_and, BitVec.getLsbD_setWidth, BitVec.getElem_and]
    by_cases h16 : i < 16
    · simp [h16, BitVec.getLsbD_eq_getElem hi]
    · simp [BitVec.getLsbD_of_ge spec i (by omega)]
  rw [hword]
  unfold hasSpecified wordHas
  rw [decide_eq_decide, not_iff_not, ← hlow]
  constructor
  · intro hz
    rw [hz]
    rfl
  · intro hz
    have hback := congrArg (BitVec.setWidth 16) hz
    simpa using hback

theorem IsGroup.length_le (hg : IsGroup g) : g.length ≤ 3 := by
  cases g with
  | nil => exact Nat.zero_le _
  | cons cur l =>
    have hnodup : ((cur :: l).map fun n => (keySlot n.key).specified).Nodup :=
      List.Nodup.map_on (fun n hn m hm heq => hg.eq_of_specified hn hm heq) (List.Nodup.of_map _ hg.slots)
    have hcur : cur ∈ cur :: l := List.mem_cons_self ..
    have hkind : ∀ n ∈ cur :: l, IsAvSpec (keySlot n.key).specified ↔ IsAvSpec (keySlot cur.key).specified :=
      fun n hn => (keyGroup_eq_iff.1 (hg.same n hn cur hcur)).2
    rw [← List.length_map (fun n : AvtabNode => (keySlot n.key).specified)]
    by_cases hav : IsAvSpec (keySlot cur.key).specified
    · have hsub : ((cur :: l).map fun n => (keySlot n.key).specified) ⊆
          [avtabAllowed, avtabAuditdeny, avtabAuditallow] := by
        intro s hs
        obtain ⟨n, hn, rfl⟩ := List.mem_map.1 hs
        exact (hkind n hn).2 hav
      exact (List.Nodup.subperm hnodup hsub).length_le
    · have hsub : ((cur :: l).map fun n => (keySlot n.key).specified) ⊆
          [avtabTransition, avtabChange, avtabMember] := by
        intro s hs
        obtain ⟨n, hn, rfl⟩ := List.mem_map.1 hs
        exact (hg.old n hn).resolve_left fun h => hav ((hkind n hn).1 h)
      exact (List.Nodup.subperm hnodup hsub).length_le

/-- No node of a group is found for extended permissions. -/
theorem IsGroup.find?_xperms (hg : IsGroup g) {s : BitVec 16}
    (hs : s ∈ [avtabXpermsAllowed, avtabXpermsAuditallow, avtabXpermsDontaudit]) :
    g.find? (fun n => hasSpecified n.key.specified s) = none := by
  rw [List.find?_eq_none]
  intro n hn hhas
  have hx := (hg.old n hn).not_xperms
  have hsub : s &&& avtabXperms = s := by
    simp only [List.mem_cons, List.not_mem_nil, or_false] at hs
    rcases hs with h | h | h <;> rw [h] <;> decide
  unfold hasSpecified at hx hhas
  rw [decide_eq_false_iff_not, not_not] at hx
  rw [decide_eq_true_eq, ← hsub, BitVec.and_comm s, ← BitVec.and_assoc, hx] at hhas
  exact hhas BitVec.zero_and

private theorem specOrder_eq : specOrder = writeSpecOrder ++
    [avtabXpermsAllowed, avtabXpermsAuditallow, avtabXpermsDontaudit] :=
  rfl

private theorem IsGroup.specEntries_specOrder (hg : IsGroup g) : specEntries g specOrder = groupEntries g := by
  unfold groupEntries specEntries
  rw [specOrder_eq, List.filterMap_append, List.filterMap_eq_nil_iff.2 fun s hs => hg.find?_xperms hs,
    List.append_nil]

private theorem hasSpecified_groupWord_iff {s : BitVec 16} (hs : s ∈ specOrder) :
    hasSpecified (BitVec.ofNat 16 (groupWord g).toNat) s = true ↔
      (g.find? fun n => hasSpecified n.key.specified s).isSome = true := by
  have hmask : ~~~avtabEnabled &&& s = s := by
    unfold specOrder at hs
    simp only [List.mem_cons, List.not_mem_nil, or_false] at hs
    rcases hs with h | h | h | h | h | h | h | h | h <;> rw [h] <;> decide
  rw [hasSpecified_groupWord, wordHas_groupWord_iff, List.find?_isSome]
  refine exists_congr fun n => and_congr_right fun _ => ?_
  unfold keySlot hasSpecified
  dsimp only
  rw [BitVec.and_assoc, hmask]

private theorem IsGroup.specified_of_find? (hg : IsGroup g) {s : BitVec 16} (hs : s ∈ specOrder)
    (hfind : g.find? (fun n => hasSpecified n.key.specified s) = some n) : (keySlot n.key).specified = s := by
  rw [specOrder_eq, List.mem_append] at hs
  rcases hs with hs | hs
  · exact ((hg.find?_eq_some_iff hs).1 hfind).2
  · rw [hg.find?_xperms hs] at hfind
    cases hfind

private theorem foldlM_congr_of_mem {σ α : Type} {f f' : σ → α → Option σ} {l : List α}
    (h : ∀ a ∈ l, ∀ st, f st a = f' st a) (st : σ) : l.foldlM f st = l.foldlM f' st := by
  induction l generalizing st with
  | nil => rfl
  | cons a l ih =>
    rw [List.foldlM_cons, List.foldlM_cons, h a (List.mem_cons_self ..)]
    exact congrArg _ (funext fun st => ih (fun b hb => h b (List.mem_cons_of_mem _ hb)) st)

/-- A record is read back as the entries of its group. -/
private theorem avtabReadItemOld_recordBytes {σ : Type} (insertf : AvtabKey → AvtabDatum → σ → Option σ)
    (hg : IsGroup g) (hne : g ≠ []) (rest : List Byte) (st : σ) :
    avtabReadItemOld (recordBytes g ++ rest) insertf st =
      ((groupEntries g).foldlM (fun st n => insertf (readKey g n) ⟨n.datum.data, avtabExtendedPermsInit⟩ st) st).map
        fun st => (st, rest) := by
  obtain ⟨cur, l, rfl⟩ := List.exists_cons_of_ne_nil hne
  have hcur : cur ∈ cur :: l := List.mem_cons_self ..
  generalize hgl : cur :: l = g at *
  have hlen : (groupEntries g).length = g.length := hg.entries_perm.length_eq
  have hle := hg.length_le
  have hpos : 0 < g.length := List.length_pos_of_mem hcur
  have hsmall : ∀ x : BitVec 16, LittleEndian.ofBytes (cpuToLe32 x.toNat) = x.toNat := fun x =>
    ofBytes_cpuToLe32 (by have := x.isLt; omega)
  have hlt : ∀ x : BitVec 16, x.toNat < 2 ^ 16 := fun x => x.isLt
  obtain ⟨body, hbody⟩ : ∃ body, body = cpuToLe32 cur.key.sourceType.toNat ++ (cpuToLe32 cur.key.targetType.toNat ++
      (cpuToLe32 cur.key.targetClass.toNat ++ (cpuToLe32 (groupWord g).toNat ++
        (groupEntries g).flatMap fun n => cpuToLe32 n.datum.data.toNat))) := ⟨_, rfl⟩
  have hrecord : recordBytes g = cpuToLe32 (4 + (groupEntries g).length) ++ body := by
    rw [recordBytes_eq hgl, hbody]
    simp only [List.append_assoc]
  have hlength : body.length = 4 * (4 + (groupEntries g).length) := by
    rw [hbody]
    simp only [List.length_append, length_cpuToLe32, length_flatMap_cpuToLe32]
    omega
  -- the words of the record
  have hitems : le32ToCpu (cpuToLe32 (4 + (groupEntries g).length)) 0 = 4 + (groupEntries g).length := by
    have hzero := le32ToCpu_zero (length_cpuToLe32 (4 + (groupEntries g).length)) []
    rw [List.append_nil] at hzero
    rw [hzero, ofBytes_cpuToLe32 (by omega)]
  have h0 : le32ToCpu body 0 = cur.key.sourceType.toNat := by
    rw [hbody, le32ToCpu_zero (length_cpuToLe32 _), hsmall]
  have h1 : le32ToCpu body 1 = cur.key.targetType.toNat := by
    rw [hbody, le32ToCpu_succ (length_cpuToLe32 _), le32ToCpu_zero (length_cpuToLe32 _), hsmall]
  have h2 : le32ToCpu body 2 = cur.key.targetClass.toNat := by
    rw [hbody, le32ToCpu_succ (length_cpuToLe32 _), le32ToCpu_succ (length_cpuToLe32 _),
      le32ToCpu_zero (length_cpuToLe32 _), hsmall]
  have h3 : le32ToCpu body 3 = (groupWord g).toNat := by
    rw [hbody, le32ToCpu_succ (length_cpuToLe32 _), le32ToCpu_succ (length_cpuToLe32 _),
      le32ToCpu_succ (length_cpuToLe32 _), le32ToCpu_zero (length_cpuToLe32 _), ofBytes_cpuToLe32 (groupWord g).isLt]
  have hfirst : nextEntry (recordBytes g ++ rest) 4 =
    some (cpuToLe32 (4 + (groupEntries g).length), body ++ rest) := by
    have happend := nextEntry_append (cpuToLe32 (4 + (groupEntries g).length)) (body ++ rest)
    rw [length_cpuToLe32] at happend
    rw [hrecord, List.append_assoc, happend]
  have hsecond : nextEntry (body ++ rest) (4 * (4 + (groupEntries g).length)) = some (body, rest) := by
    rw [← hlength, nextEntry_append]
  obtain ⟨hany, hboth⟩ := hg.wordHas_kind hcur
  have hread : avtabReadSpecs insertf ⟨cur.key.sourceType, cur.key.targetType, cur.key.targetClass, 0⟩
    (groupEnabled g)
      (BitVec.ofNat 16 (groupWord g).toNat) body (4 + (groupEntries g).length) specOrder 4 st =
      ((groupEntries g).foldlM (fun st n => insertf (readKey g n) ⟨n.datum.data, avtabExtendedPermsInit⟩ st) st).map
        fun st => (4 + (groupEntries g).length, st) := by
    have hpre : (cpuToLe32 cur.key.sourceType.toNat ++ (cpuToLe32 cur.key.targetType.toNat ++
        (cpuToLe32 cur.key.targetClass.toNat ++ cpuToLe32 (groupWord g).toNat))).length = 4 * 4 := by
      simp only [List.length_append, length_cpuToLe32]
    have hread := @avtabReadSpecs_eq g σ insertf ⟨cur.key.sourceType, cur.key.targetType, cur.key.targetClass, 0⟩
      (groupEnabled g) (BitVec.ofNat 16 (groupWord g).toNat) (4 + (groupEntries g).length) specOrder
      (fun s hs => hasSpecified_groupWord_iff hs) (fun s hs n hfind => hg.specified_of_find? hs hfind) _ [] 4 hpre
      (by rw [hg.specEntries_specOrder]) st
    rw [hg.specEntries_specOrder, List.append_nil] at hread
    rw [hbody]
    simp only [List.append_assoc] at hread ⊢
    rw [hread]
    congr 1
    refine foldlM_congr_of_mem (fun n hn st => ?_) st
    obtain ⟨htypes, _⟩ := keyGroup_eq_iff.1 (hg.same n (hg.entries_perm.subset hn) cur hcur)
    unfold readKey
    rw [← htypes.1, ← htypes.2.1, ← htypes.2.2]
  have hself : ∀ x : BitVec 16, BitVec.ofNat 16 x.toNat = x := fun x => by simp
  have hflag : (if (g.any fun n => hasSpecified n.key.specified avtabEnabled) = true then avtabEnabled else 0) =
      groupEnabled g := rfl
  rw [← hasSpecified_groupWord] at hany
  rw [← hasSpecified_groupWord, ← hasSpecified_groupWord] at hboth
  unfold avtabReadItemOld
  simp only [hfirst, Option.bind_eq_bind, Option.bind_some, hitems, hsecond, h0, h1, h2, h3, testBit_groupWord, hself,
    hflag, hread, guard, if_pos hany, if_pos hboth, if_pos (hlt _)]
  rw [if_pos (by omega)]
  cases (groupEntries g).foldlM (fun st n => insertf (readKey g n) ⟨n.datum.data, avtabExtendedPermsInit⟩ st) st with
  | none => rfl
  | some st =>
    rw [Option.map_some, Option.map_some]
    simp only [pure, Option.bind_some, if_true]

/-! ### Reading the table -/

/-- The key, without the flag, and the data of a node. -/
def slotData (n : AvtabNode) : AvtabKey × BitVec 32 := (keySlot n.key, n.datum.data)

/-- The table that is read so far has the keys and the data of some nodes. -/
structure ReadBack (h : Avtab) (done : List AvtabNode) : Prop where
  filled : h.Filled
  perm : ((avtabNodes h).map slotData).Perm (done.map slotData)

theorem ReadBack.insert (hr : ReadBack h done) (hk : OldKey k) (hslot : keySlot k = keySlot n.key)
    (hnew : ∀ m ∈ done, keySlot m.key ≠ keySlot n.key) :
    ∃ h', avtabInsert h k ⟨n.datum.data, avtabExtendedPermsInit⟩ = some h' ∧ ReadBack h' (n :: done) := by
  have hnone : ¬ ∃ m ∈ avtabNodes h, matchesKey k m := by
    rintro ⟨m, hm, hmatch⟩
    have hsame := (matchesKey_iff_sameKey hk.singleBit (hr.filled.single m hm)).1 hmatch
    obtain ⟨m', hm', heq⟩ := List.mem_map.1 (hr.perm.subset (List.mem_map_of_mem hm))
    refine hnew m' hm' ?_
    rw [← hslot, keySlot_eq_iff.2 hsame]
    exact (Prod.mk.inj heq).1
  refine ⟨insertedTable h k ⟨n.datum.data, avtabExtendedPermsInit⟩, ?_,
    insertedTable_filled hr.filled hk.singleBit _, ?_⟩
  · rw [avtabInsert_eq hr.filled.alloc, if_neg fun hex => hnone hex.1]
  · refine ((avtabNodes_insertedTable hr.filled.alloc k _).map slotData).trans ?_
    rw [List.map_cons, List.map_cons]
    have hhead : slotData ⟨k, ⟨n.datum.data, avtabExtendedPermsInit⟩, h.fresh⟩ = slotData n := by
      unfold slotData
      rw [hslot]
    rw [hhead]
    exact hr.perm.cons _

private theorem oldKey_readKey (g : List AvtabNode) (hn : OldKey n.key) : OldKey (readKey g n) := by
  unfold OldKey
  rw [keySlot_readKey]
  exact hn

/-- The entries of a list are inserted, and come before those that were there. -/
private theorem ReadBack.insertAll (hr : ReadBack h done) (g : List AvtabNode) (hold : ∀ n ∈ l, OldKey n.key)
    (hnodup : ((l ++ done).map fun n => keySlot n.key).Nodup) :
    ∃ h', l.foldlM (fun h n => avtabInsert h (readKey g n) ⟨n.datum.data, avtabExtendedPermsInit⟩) h = some h' ∧
      ReadBack h' (l.reverse ++ done) := by
  induction l generalizing h done with
  | nil => exact ⟨h, rfl, hr⟩
  | cons n l ih =>
    rw [List.cons_append, List.map_cons, List.nodup_cons] at hnodup
    have hnew : ∀ m ∈ done, keySlot m.key ≠ keySlot n.key := fun m hm heq =>
      hnodup.1 (List.mem_map.2 ⟨m, List.mem_append_right _ hm, heq⟩)
    obtain ⟨h₁, hins, hr₁⟩ := hr.insert (oldKey_readKey g (hold n (List.mem_cons_self ..))) (keySlot_readKey g n) hnew
    have hnodup₁ : ((l ++ n :: done).map fun n => keySlot n.key).Nodup := by
      have hperm : (l ++ n :: done).Perm (n :: (l ++ done)) := List.perm_middle
      rw [(hperm.map _).nodup_iff, List.map_cons, List.nodup_cons]
      exact hnodup
    obtain ⟨h₂, hrun, hr₂⟩ := ih hr₁ (fun m hm => hold m (List.mem_cons_of_mem _ hm)) hnodup₁
    refine ⟨h₂, ?_, ?_⟩
    · rw [List.foldlM_cons, hins]
      exact hrun
    · rwa [List.reverse_cons, List.append_assoc, List.singleton_append]

theorem ReadBack.congr (hr : ReadBack h done) (hperm : done.Perm l) : ReadBack h l :=
  ⟨hr.filled, hr.perm.trans (hperm.map _)⟩

/-- The records of groups are read one after the other. -/
theorem avtabReadItems_records {gs : List (List AvtabNode)} {vers : Nat} (hvers : vers < policydbVersionAvtab)
    (hgroups : ∀ g ∈ gs, IsGroup g ∧ g ≠ []) (hnodup : ((gs.flatten ++ done).map fun n => keySlot n.key).Nodup)
    (hr : ReadBack h done) (rest : List Byte) :
    ∃ h', avtabReadItems vers (fun key datum h => avtabInsert h key datum) gs.length
        (gs.flatMap recordBytes ++ rest) h = some (h', rest) ∧ ReadBack h' (gs.flatten ++ done) := by
  induction gs generalizing h done with
  | nil => exact ⟨h, rfl, hr⟩
  | cons g gs ih =>
    obtain ⟨hg, hne⟩ := hgroups g (List.mem_cons_self ..)
    have hperm := hg.entries_perm
    rw [List.flatten_cons, List.append_assoc] at hnodup
    have hnodup₁ : ((groupEntries g ++ done).map fun n => keySlot n.key).Nodup := by
      have hsub : (g ++ done).Sublist (g ++ (gs.flatten ++ done)) :=
        (List.Sublist.refl g).append (List.sublist_append_right ..)
      exact (((hperm.append_right done).map _).nodup_iff).2 (hnodup.sublist (hsub.map _))
    obtain ⟨h₁, hins, hr₁⟩ := hr.insertAll g (fun n hn => hg.old n (hperm.subset hn)) hnodup₁
    have hr₁ : ReadBack h₁ (g ++ done) := hr₁.congr (((List.reverse_perm _).trans hperm).append_right done)
    have hmid : (gs.flatten ++ (g ++ done)).Perm (g ++ (gs.flatten ++ done)) := by
      rw [← List.append_assoc, ← List.append_assoc]
      exact List.perm_append_comm.append_right done
    obtain ⟨h₂, hrun, hr₂⟩ := ih (fun g hg => hgroups g (List.mem_cons_of_mem _ hg))
      (((hmid.map _).nodup_iff).2 hnodup) hr₁
    refine ⟨h₂, ?_, ?_⟩
    · have hitem : avtabReadItem (recordBytes g ++ (gs.flatMap recordBytes ++ rest)) vers
          (fun key datum h => avtabInsert h key datum) h = some (h₁, gs.flatMap recordBytes ++ rest) := by
        unfold avtabReadItem
        rw [if_pos hvers, avtabReadItemOld_recordBytes _ hg hne, hins]
        rfl
      rw [List.length_cons, List.flatMap_cons, List.append_assoc, avtabReadItems, hitem]
      exact hrun
    · rw [List.flatten_cons, List.append_assoc]
      exact hr₂.congr hmid

end Sepol
