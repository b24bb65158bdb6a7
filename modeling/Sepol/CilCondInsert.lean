import Sepol.CilBoolean
import Sepol.Lib.EarlyExit

/-!
# What a conditional block inserts

Every function that writes the rules of a block only adds nodes to `te_cond_avtab`, and it puts each of them in front
of the list of the block (`CilTables.Pushed`).  The functions are sequences of insertions, so it is enough to look at
one insertion and at the ways in which they are put together.
-/

namespace Sepol

variable {p : CilPolicydb} {db : CilBinaryDb} {condFlavor : Bool} {st st' st'' : CilTables}

/-- The nodes `gen` are added to `te_cond_avtab` and to the list of the flavor, and nothing else is changed. -/
structure CilTables.PushedBy (condFlavor : Bool) (gen : List AvtabNode) (st st' : CilTables) : Prop where
  filled : st'.teCondAvtab.Filled
  nodes : (avtabNodes st'.teCondAvtab).Perm (gen ++ avtabNodes st.teCondAvtab)
  nel : ∀ n ∈ gen, st.teCondAvtab.fresh ≤ n.addr
  list : st'.list condFlavor = gen ++ st.list condFlavor
  other : st'.list (!condFlavor) = st.list !condFlavor
  teAvtab : st'.teAvtab = st.teAvtab

def CilTables.Pushed (condFlavor : Bool) (st st' : CilTables) : Prop := ∃ gen, st.PushedBy condFlavor gen st'

theorem CilTables.Pushed.refl (h : st.teCondAvtab.Filled) : st.Pushed condFlavor st :=
  ⟨[], h, List.Perm.refl _, fun _ hn => (List.not_mem_nil hn).elim, rfl, rfl, rfl⟩

theorem CilTables.PushedBy.nel_eq {gen : List AvtabNode} (h : st.PushedBy condFlavor gen st')
    (hf : st.teCondAvtab.Filled) : st'.teCondAvtab.fresh = gen.length + st.teCondAvtab.fresh := by
  rw [h.filled.fresh, h.nodes.length_eq, List.length_append, ← hf.fresh]

theorem CilTables.Pushed.trans (hf : st.teCondAvtab.Filled) (h1 : st.Pushed condFlavor st')
    (h2 : st'.Pushed condFlavor st'') : st.Pushed condFlavor st'' := by
  obtain ⟨gen1, h1⟩ := h1
  obtain ⟨gen2, h2⟩ := h2
  refine ⟨gen2 ++ gen1, h2.filled, ?_, fun n hn => ?_, ?_, ?_, ?_⟩
  · rw [List.append_assoc]
    exact h2.nodes.trans (h1.nodes.append_left gen2)
  · rcases List.mem_append.1 hn with hn | hn
    · have := h2.nel n hn
      rw [h1.nel_eq hf] at this
      omega
    · exact h1.nel n hn
  · rw [h2.list, h1.list, List.append_assoc]
  · rw [h2.other, h1.other]
  · rw [h2.teAvtab, h1.teAvtab]

/-- A function that only pushes. -/
def Pushes (condFlavor : Bool) (f : CilTables → Option CilTables) : Prop :=
  ∀ st st', st.teCondAvtab.Filled → f st = some st' → st.Pushed condFlavor st'

private theorem pushes_some : Pushes condFlavor some := by
  intro st st' hf h
  rw [← Option.some.inj h]
  exact .refl hf

theorem Pushes.comp {f g : CilTables → Option CilTables} (hfun : Pushes condFlavor f) (hg : Pushes condFlavor g) :
    Pushes condFlavor fun st => f st >>= g := by
  intro st st'' hf h
  obtain ⟨st', h1, h2⟩ := Option.bind_eq_some_iff.1 h
  have hpush := hfun st st' hf h1
  obtain ⟨gen, hgen⟩ := hpush
  exact .trans hf ⟨gen, hgen⟩ (hg st' st'' hgen.filled h2)

theorem Pushes.bind {α : Type} {o : Option α} {f : α → CilTables → Option CilTables}
    (hfun : ∀ a, o = some a → Pushes condFlavor (f a)) : Pushes condFlavor fun st => o >>= fun a => f a st := by
  intro st st' hf h
  obtain ⟨a, ha, h⟩ := Option.bind_eq_some_iff.1 h
  exact hfun a ha st st' hf h

theorem Pushes.foldlM {α : Type} {l : List α} {f : CilTables → α → Option CilTables}
    (hfun : ∀ a ∈ l, Pushes condFlavor fun st => f st a) : Pushes condFlavor fun st => l.foldlM f st := by
  induction l with
  | nil => exact pushes_some
  | cons a l ih =>
    have hrest := ih fun b hb => hfun b (List.mem_cons_of_mem _ hb)
    exact (hfun a (List.mem_cons_self ..)).comp hrest

/-! ### One insertion -/

private theorem pushes_cilCondInsertRule {key : AvtabKey} (hkey : SingleBit key.specified) (datum : AvtabDatum) :
    Pushes condFlavor (cilCondInsertRule key datum condFlavor) := by
  intro st st' hf h
  rw [cilCondInsertRule, avtabInsertNonunique_eq hf.alloc, Option.map_some, Option.some_inj] at h
  subst h
  refine ⟨[⟨key, datum, st.teCondAvtab.fresh⟩], ?_⟩
  have hfilled := insertedTable_filled hf hkey datum
  have hnodes := avtabNodes_insertedTable hf.alloc key datum
  have hnel : ∀ n ∈ [(⟨key, datum, st.teCondAvtab.fresh⟩ : AvtabNode)], st.teCondAvtab.fresh ≤ n.addr := by
    intro n hn
    rw [List.mem_singleton.1 hn]
  cases condFlavor with
  | false => exact ⟨hfilled, hnodes, hnel, rfl, rfl, rfl⟩
  | true => exact ⟨hfilled, hnodes, hnel, rfl, rfl, rfl⟩

private theorem CilTypeRuleKind.singleBit (kind : CilTypeRuleKind) : SingleBit kind.specified := by
  cases kind
  · exact ⟨4, by decide, by decide⟩
  · exact ⟨6, by decide, by decide⟩
  · exact ⟨5, by decide, by decide⟩

private theorem pushes_cilInsertTypeRule (kind : CilTypeRuleKind) (src tgt obj res : Nat) :
    Pushes condFlavor (cilInsertTypeRule kind src tgt obj res (some condFlavor)) := by
  have hinsert := @pushes_cilCondInsertRule condFlavor (cilAvtabKey src tgt obj kind.specified) kind.singleBit
    ⟨BitVec.ofNat 32 res, avtabExtendedPermsInit⟩
  intro st st' hf h
  unfold cilInsertTypeRule at h
  dsimp only at h
  split at h
  · -- the rule stands outside conditionals already
    split at h
    · cases h
    · exact pushes_some st st' hf h
  · split at h
    · exact hinsert st st' hf h
    · split at h
      · split at h
        · cases h
        · split at h
          · exact pushes_some st st' hf h
          · exact hinsert st st' hf h
      · exact hinsert st st' hf h

theorem CilRuleKind.singleBit {kind : CilRuleKind} {specified : BitVec 16} (h : kind.specified = some specified) :
    SingleBit specified := by
  cases kind
  · obtain rfl := Option.some.inj h
    exact ⟨0, by decide, by decide⟩
  · obtain rfl := Option.some.inj h
    exact ⟨1, by decide, by decide⟩
  · obtain rfl := Option.some.inj h
    exact ⟨2, by decide, by decide⟩
  · cases h

private theorem pushes_cilInsertAvrule (kind : CilRuleKind) (src tgt obj : Nat) (data : BitVec 32) :
    Pushes condFlavor (cilInsertAvrule kind src tgt obj data (some condFlavor)) := by
  refine Pushes.bind fun specified hspec => ?_
  have hbit : SingleBit (cilAvtabKey src tgt obj specified).specified := CilRuleKind.singleBit hspec
  exact pushes_cilCondInsertRule hbit _

/-! ### Rules -/

private theorem pushes_cilAvruleToAvtab (rule : CilPolicyAvrule) :
    Pushes condFlavor (cilAvruleToAvtab p.toPolicydb db rule (some condFlavor)) := by
  rw [funext (cilAvruleToAvtab_eq rule)]
  exact Pushes.bind fun l _ => Pushes.foldlM fun i _ => pushes_cilInsertAvrule _ _ _ _ _

private theorem pushes_cilTypeRuleToAvtab (rule : CilTypeRule) :
    Pushes condFlavor (cilTypeRuleToAvtab p.toPolicydb db rule (some condFlavor)) := by
  refine Pushes.bind fun srcs _ => Pushes.bind fun result _ => Pushes.bind fun targets _ => Pushes.foldlM fun s _ =>
    ?_
  refine Pushes.bind fun sepolSrc _ => Pushes.foldlM fun t _ => Pushes.bind fun sepolTgt _ => ?_
  exact Pushes.foldlM fun c _ => Pushes.bind fun sepolObj _ => pushes_cilInsertTypeRule _ _ _ _ _

/-! ### Extended permissions -/

/-- Every key in the chains of a table has one specifier. -/
def KeysSingle (h : Hashtab AvtabKey Ebitmap) : Prop := ∀ i, ∀ e ∈ h.htable i, SingleBit e.1.specified

theorem KeysSingle.entries {h : Hashtab AvtabKey Ebitmap} (hh : KeysSingle h) :
    ∀ e ∈ h.entries, SingleBit e.1.specified := by
  intro e he
  obtain ⟨i, _, hi⟩ := List.mem_flatMap.1 he
  exact hh i e hi

private theorem keysSingle_moveNode {newSize : Nat} {chains : Nat → List (AvtabKey × Ebitmap)}
    {cur : AvtabKey × Ebitmap} (hcur : SingleBit cur.1.specified)
    (hchains : ∀ i, ∀ e ∈ chains i, SingleBit e.1.specified) :
    ∀ i, ∀ e ∈ Hashtab.moveNode avrulexOps newSize chains cur i, SingleBit e.1.specified := by
  intro i e he
  unfold Hashtab.moveNode at he
  by_cases hi : i = avrulexOps.hashValue newSize cur.1
  · rw [hi, Function.update_self] at he
    rcases List.mem_append.1 he with he | he
    · exact hchains _ e ((List.takeWhile_sublist _).subset he)
    · rcases List.mem_cons.1 he with rfl | he
      · exact hcur
      · exact hchains _ e (ChainedTable.mem_of_mem_ahead he)
  · rw [Function.update_of_ne hi] at he
    exact hchains i e he

private theorem keysSingle_checkResize {h : Hashtab AvtabKey Ebitmap} (hh : KeysSingle h) :
    KeysSingle (Hashtab.checkResize avrulexOps h true) := by
  unfold Hashtab.checkResize
  dsimp only
  split
  · exact hh
  · rw [if_pos rfl]
    show ∀ i, ∀ e ∈ (h.entries.foldl _ _ : Nat → List (AvtabKey × Ebitmap)) i, SingleBit e.1.specified
    have hentries := hh.entries
    have hempty : ∀ i, ∀ e ∈ (fun _ => [] : Nat → List (AvtabKey × Ebitmap)) i, SingleBit e.1.specified := by simp
    generalize h.entries = l at hentries ⊢
    generalize (fun _ => [] : Nat → List (AvtabKey × Ebitmap)) = chains at hempty ⊢
    induction l generalizing chains with
    | nil => exact hempty
    | cons cur l ih =>
      exact ih (fun e he => hentries e (List.mem_cons_of_mem _ he)) _
        (keysSingle_moveNode (hentries cur (List.mem_cons_self ..)) hempty)

private theorem keysSingle_insert {h : Hashtab AvtabKey Ebitmap} (hh : KeysSingle h) {key : AvtabKey}
    (hkey : SingleBit key.specified) (datum : Ebitmap) :
    KeysSingle (h.insert avrulexOps key datum true true).2 := by
  have hres := keysSingle_checkResize hh
  unfold Hashtab.insert
  split
  · exact hh
  · dsimp only
    split
    · exact hres
    · rw [if_pos rfl]
      intro i e he
      dsimp only at he
      by_cases hi : i = avrulexOps.hashValue (Hashtab.checkResize avrulexOps h true).size key
      · rw [hi, Function.update_self] at he
        rcases List.mem_append.1 he with he | he
        · exact hres _ e ((List.takeWhile_sublist _).subset he)
        · rcases List.mem_cons.1 he with rfl | he
          · exact hkey
          · exact hres _ e (ChainedTable.mem_of_mem_ahead he)
      · rw [Function.update_of_ne hi] at he
        exact hres i e he

private theorem keysSingle_union {h : Hashtab AvtabKey Ebitmap} (hh : KeysSingle h) (key : AvtabKey)
    (xperms : Ebitmap) : KeysSingle (hashtabUnion h key xperms) := by
  intro i e he
  unfold hashtabUnion at he
  dsimp only at he
  by_cases hi : i = avrulexOps.hashValue h.size key
  · rw [hi, Function.update_self] at he
    obtain ⟨e', he', rfl⟩ := List.mem_map.1 he
    have hsingle := hh _ e' he'
    split
    · exact hsingle
    · exact hsingle
  · rw [Function.update_of_ne hi] at he
    exact hh i e he

private theorem CilRuleKind.xpermSingleBit {kind : CilRuleKind} {specified : BitVec 16}
    (h : kind.xpermSpecified = some specified) : SingleBit specified := by
  cases kind
  · obtain rfl := Option.some.inj h
    exact ⟨8, by decide, by decide⟩
  · obtain rfl := Option.some.inj h
    exact ⟨9, by decide, by decide⟩
  · obtain rfl := Option.some.inj h
    exact ⟨10, by decide, by decide⟩
  · cases h

private theorem keysSingle_toHashtable {h h' : Hashtab AvtabKey Ebitmap} (hh : KeysSingle h) {kind : CilRuleKind}
    {src tgt obj : Nat} {xperms : Ebitmap}
    (heq : cilAvrulexXpermToHashtable h kind src tgt obj xperms = some h') : KeysSingle h' := by
  unfold cilAvrulexXpermToHashtable at heq
  obtain ⟨specified, hspec, heq⟩ := Option.bind_eq_some_iff.1 heq
  have hbit := CilRuleKind.xpermSingleBit hspec
  dsimp only at heq
  split at heq
  · obtain rfl := Option.some.inj heq
    exact keysSingle_union hh _ _
  · split at heq
    · obtain rfl := Option.some.inj heq
      exact keysSingle_insert hh hbit _
    · cases heq

/-- The keys in both tables have one specifier. -/
def CilXpermTables.Single (xt : CilXpermTables) : Prop := KeysSingle xt.ioctl ∧ KeysSingle xt.nlmsg

private theorem cilXpermTablesCreate_single : cilXpermTablesCreate.Single := by
  constructor
  · intro i e he
    cases he
  · intro i e he
    cases he

private theorem single_cilAvrulexToHashtable {rule : CilPolicyAvrulex} {xt xt' : CilXpermTables} (hxt : xt.Single)
    (h : cilAvrulexToHashtable p.toPolicydb db rule xt = some xt') : xt'.Single := by
  unfold cilAvrulexToHashtable at h
  split at h
  · obtain rfl := Option.some.inj h
    exact hxt
  · obtain ⟨pairs, _, h⟩ := Option.bind_eq_some_iff.1 h
    refine EarlyExit.inv_of_foldlM (fun xt pair xt' hxt h => ?_) hxt h
    unfold cilAvrulexToHashtableHelper at h
    obtain ⟨sepolSrc, _, h⟩ := Option.bind_eq_some_iff.1 h
    obtain ⟨sepolTgt, _, h⟩ := Option.bind_eq_some_iff.1 h
    refine EarlyExit.inv_of_foldlM (fun xt c xt' hxt h => ?_) hxt h
    obtain ⟨sepolObj, _, h⟩ := Option.bind_eq_some_iff.1 h
    split at h
    · obtain ⟨t, ht, h⟩ := Option.bind_eq_some_iff.1 h
      obtain rfl := Option.some.inj h
      exact ⟨keysSingle_toHashtable hxt.1 ht, hxt.2⟩
    · obtain ⟨t, ht, h⟩ := Option.bind_eq_some_iff.1 h
      obtain rfl := Option.some.inj h
      exact ⟨hxt.1, keysSingle_toHashtable hxt.2 ht⟩

private theorem pushes_cilXpermTablesToPolicydb {xt : CilXpermTables} (hxt : xt.Single) :
    Pushes condFlavor (cilXpermTablesToPolicydb p (some condFlavor) xt) := by
  have hentry : ∀ kind (e : AvtabKey × Ebitmap), SingleBit e.1.specified →
      Pushes condFlavor fun st => cilAvrulexXpermToPolicydb p kind (some condFlavor) st e := by
    intro kind e he
    refine Pushes.bind fun sepolObj _ => Pushes.bind fun data _ => Pushes.foldlM fun xperms _ => ?_
    exact pushes_cilCondInsertRule he _
  refine Pushes.comp (f := fun st => xt.ioctl.entries.foldlM
    (cilAvrulexXpermToPolicydb p .ioctl (some condFlavor)) st)
    (Pushes.foldlM fun e he => hentry _ e (hxt.1.entries e he)) ?_
  exact Pushes.foldlM fun e he => hentry _ e (hxt.2.entries e he)

/-! ### Blocks -/

private theorem pushed_of_map {f : CilTables → Option CilTables} (hfun : Pushes condFlavor f)
    {s s' : CilTables × CilXpermTables} (hf : s.1.teCondAvtab.Filled) (hxt : s.2.Single)
    (h : (f s.1).map (fun tables => (tables, s.2)) = some s') : s.1.Pushed condFlavor s'.1 ∧ s'.2.Single := by
  obtain ⟨tables, htables, rfl⟩ := Option.map_eq_some_iff.1 h
  exact ⟨hfun s.1 tables hf htables, hxt⟩

mutual

private theorem pushed_cilCondToPolicydb : ∀ (body : List CilCondStmt) (s s' : CilTables × CilXpermTables),
    s.1.teCondAvtab.Filled → s.2.Single → cilCondToPolicydb p db condFlavor body s = some s' →
    s.1.Pushed condFlavor s'.1 ∧ s'.2.Single
  | [], s, s', hf, hxt, h => by
    obtain rfl := Option.some.inj h
    exact ⟨.refl hf, hxt⟩
  | node :: rest, s, s', hf, hxt, h => by
    rw [cilCondToPolicydb] at h
    obtain ⟨s1, h1, h⟩ := Option.bind_eq_some_iff.1 h
    obtain ⟨⟨gen, hgen⟩, hxt1⟩ := pushed_cilCondToPolicydbHelper node s s1 hf hxt h1
    obtain ⟨hrest, hxt'⟩ := pushed_cilCondToPolicydb rest s1 s' hgen.filled hxt1 h
    exact ⟨.trans hf ⟨gen, hgen⟩ hrest, hxt'⟩

private theorem pushed_cilCondToPolicydbHelper : ∀ (node : CilCondStmt) (s s' : CilTables × CilXpermTables),
    s.1.teCondAvtab.Filled → s.2.Single → cilCondToPolicydbHelper p db condFlavor node s = some s' →
    s.1.Pushed condFlavor s'.1 ∧ s'.2.Single
  | .nametypetransition rule, s, s', hf, hxt, h => by
    rw [cilCondToPolicydbHelper] at h
    split at h
    · cases h
    · exact pushed_of_map (pushes_cilTypeRuleToAvtab _) hf hxt h
  | .typeRule rule, s, s', hf, hxt, h => by
    rw [cilCondToPolicydbHelper] at h
    exact pushed_of_map (pushes_cilTypeRuleToAvtab rule) hf hxt h
  | .avrule rule, s, s', hf, hxt, h => by
    rw [cilCondToPolicydbHelper] at h
    exact pushed_of_map (pushes_cilAvruleToAvtab rule) hf hxt h
  | .avrulex rule, s, s', hf, hxt, h => by
    rw [cilCondToPolicydbHelper] at h
    split at h
    · cases h
    · obtain ⟨xt, hrule, rfl⟩ := Option.map_eq_some_iff.1 h
      exact ⟨.refl hf, single_cilAvrulexToHashtable hxt hrule⟩
  | .call body, s, s', hf, hxt, h => by
    rw [cilCondToPolicydbHelper] at h
    exact pushed_cilCondToPolicydb body s s' hf hxt h
  | .tunableif body, s, s', hf, hxt, h => by
    rw [cilCondToPolicydbHelper] at h
    exact pushed_cilCondToPolicydb body s s' hf hxt h
  | .other, s, s', hf, hxt, h => by
    rw [cilCondToPolicydbHelper] at h
    cases h

end

theorem pushes_cilCondblockToPolicydb (block : Option (List CilCondStmt)) :
    Pushes condFlavor (cilCondblockToPolicydb p db condFlavor block) := by
  intro st st' hf h
  unfold cilCondblockToPolicydb at h
  cases block with
  | none => exact pushes_some st st' hf h
  | some body =>
    obtain ⟨s, hs, h⟩ := Option.bind_eq_some_iff.1 h
    obtain ⟨⟨gen, hgen⟩, hxt⟩ := pushed_cilCondToPolicydb body _ s hf cilXpermTablesCreate_single hs
    exact .trans hf ⟨gen, hgen⟩ (pushes_cilXpermTablesToPolicydb hxt s.1 st' hgen.filled h)

end Sepol
