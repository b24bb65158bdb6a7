import Sepol.CilBooleanExpr
import Sepol.CilCondInsert

/-!
# Conditional blocks keep their meaning

In a run over statements, each rule that a block generated stands in one list of one conditional, and this is the list
that is selected when the expression of the statement has the value of the block.  A statement whose expression meets
a conditional that is there already keeps this, as long as the truth tables of the two agree.
-/

namespace Sepol

variable {p : CilPolicydb} {db : CilBinaryDb} {α β : Type}

/-- The list of a conditional that is in force when the booleans have the states `σ`. -/
def CondNodeT.selected (σ : Nat → Bool) (cn : CondNodeT α β) : List β :=
  match condEvaluateExpr σ cn.expr with
  | some true => cn.trueList
  | some false => cn.falseList
  | none => []

/-- A rule is in the lists of one conditional, whose selected list has it exactly when the expression has the value of
the block. -/
def CilCondRules.PlacedIn (p : CilPolicydb) (rules : CilCondRules) (condList : List CilCondNode) (n : AvtabNode) :
    Prop :=
  ∃ (i : Nat) (cn : CilCondNode), condList[i]? = some cn ∧
    (∀ τ σ, p.Assigns τ σ → (n ∈ cn.selected σ ↔ rules.expr.value τ = rules.flavor)) ∧
    ∀ (j : Nat) (cn' : CilCondNode), condList[j]? = some cn' → n ∈ cn'.trueList ++ cn'.falseList → j = i

/-- The node that `cond_node_find` returns for the normalized expression of a statement, if it is an old one, has a
truth table that agrees with that of the expression. -/
def CilPassStmt.Agrees (p : CilPolicydb) (s : CilPassState) : CilPassStmt → Prop
  | .booleanif boolif => ∀ expr i b, cilCondExprToSepolExpr p boolif.datumExpr = some expr →
      condNodeFind s.boolState (condNormalizeExpr s.boolState (cilTmpCond expr)).2.2 s.condList = .inl i →
      s.condList[i]? = some b → TablesAgree (condNormalizeExpr s.boolState (cilTmpCond expr)).2.2 b
  | .avrule _ => True
  | .avrulex _ => True

/-- All the statements of a run agree with the conditionals that they meet. -/
def CilPassAgrees (p : CilPolicydb) (db : CilBinaryDb) : List CilPassStmt → CilPassState → Prop
  | [], _ => True
  | stmt :: rest, s => stmt.Agrees p s ∧
      ∀ s' rules, cilNodeToPolicydb p db s stmt = some (s', rules) → CilPassAgrees p db rest s'

/-! ### Places in a list of conditionals -/

section Places

variable {condList : List CilCondNode} {cn cnew : CilCondNode} {rules : CilCondRules} {n : AvtabNode} {place : Nat}

/-- A conditional without rules in front. -/
theorem CilCondRules.PlacedIn.cons (h : rules.PlacedIn p condList n) (htrue : cn.trueList = [])
    (hfalse : cn.falseList = []) : rules.PlacedIn p (cn :: condList) n := by
  obtain ⟨i, c, hi, hsel, huniq⟩ := h
  refine ⟨i + 1, c, by simpa using hi, hsel, fun j cn' hj hn => ?_⟩
  cases j with
  | zero =>
    obtain rfl : cn = cn' := by simpa using hj
    rw [htrue, hfalse] at hn
    cases hn
  | succ j =>
    have := huniq j cn' (by simpa using hj) hn
    omega

/-- Other rules are added to a conditional. -/
theorem CilCondRules.PlacedIn.set (h : rules.PlacedIn p condList n) (hplace : condList[place]? = some cn)
    (hexpr : cnew.expr = cn.expr) (htrue : n ∈ cnew.trueList ↔ n ∈ cn.trueList)
    (hfalse : n ∈ cnew.falseList ↔ n ∈ cn.falseList) : rules.PlacedIn p (condList.set place cnew) n := by
  obtain ⟨i, c, hi, hsel, huniq⟩ := h
  have hselected : ∀ σ, n ∈ cnew.selected σ ↔ n ∈ cn.selected σ := by
    intro σ
    unfold CondNodeT.selected
    rw [hexpr]
    split
    · exact htrue
    · exact hfalse
    · rfl
  have hlt : place < condList.length := (List.getElem?_eq_some_iff.1 hplace).1
  have huniq' : ∀ (j : Nat) (cn' : CilCondNode), (condList.set place cnew)[j]? = some cn' →
    n ∈ cn'.trueList ++ cn'.falseList → j = i := by
    intro j cn' hj hn
    rw [List.getElem?_set] at hj
    split at hj
    · rename_i hjp
      subst hjp
      obtain rfl := Option.some.inj hj
      refine huniq place cn hplace ?_
      rw [List.mem_append, htrue, hfalse, ← List.mem_append] at hn
      exact hn
    · exact huniq j cn' hj hn
  by_cases hip : place = i
  · subst hip
    obtain rfl : cn = c := Option.some.inj (hplace.symm.trans hi)
    refine ⟨place, cnew, ?_, fun τ σ hτ => ?_, huniq'⟩
    · rw [List.getElem?_set, if_pos rfl, if_pos hlt]
    · rw [hselected, hsel τ σ hτ]
  · refine ⟨i, c, ?_, hsel, huniq'⟩
    rw [List.getElem?_set, if_neg hip]
    exact hi

/-- A rule that was just put into one of the two lists of a conditional. -/
private theorem placedIn_new {x : CilBoolExpr} {swapped b : Bool} {first last : Nat}
    (hplace : place < condList.length)
    (hvalue : ∀ τ σ, p.Assigns τ σ → condEvaluateExpr σ cnew.expr = some (x.value τ ^^ swapped))
    (hin : n ∈ if b then cnew.trueList else cnew.falseList)
    (hout : n ∉ if b then cnew.falseList else cnew.trueList)
    (hold : ∀ c ∈ condList, n ∉ c.trueList ++ c.falseList) :
    CilCondRules.PlacedIn p ⟨x, b ^^ swapped, first, last⟩ (condList.set place cnew) n := by
  refine ⟨place, cnew, ?_, fun τ σ hτ => ?_, fun j cn' hj hn => ?_⟩
  · rw [List.getElem?_set, if_pos rfl, if_pos hplace]
  · have hselected : n ∈ cnew.selected σ ↔ (x.value τ ^^ swapped) = b := by
      unfold CondNodeT.selected
      rw [hvalue τ σ hτ]
      cases b <;> cases hv : x.value τ ^^ swapped <;> simp_all
    rw [hselected]
    show _ ↔ x.value τ = (b ^^ swapped)
    cases b <;> cases swapped <;> simp
  · rw [List.getElem?_set] at hj
    split at hj
    · rename_i hjp
      exact hjp.symm
    · exact absurd hn (hold cn' (List.mem_of_getElem? hj))

end Places

/-! ### One statement -/

/-- What holds after any statements. -/
structure CilPassState.Keeps (p : CilPolicydb) (s : CilPassState) (made : List CilCondRules) : Prop where
  filled : s.teCondAvtab.Filled
  nodes : ∀ cn ∈ s.condList, CondNormalized cn
  addr : ∀ cn ∈ s.condList, ∀ n ∈ cn.trueList ++ cn.falseList, n.addr < s.teCondAvtab.fresh
  last : ∀ rules ∈ made, rules.last ≤ s.teCondAvtab.fresh
  placed : ∀ rules ∈ made, ∀ n ∈ avtabNodes s.teCondAvtab, rules.first ≤ n.addr → n.addr < rules.last →
    rules.PlacedIn p s.condList n

private theorem keeps_init (teAvtab : Avtab) (boolState : Nat → Bool) :
    (cilPassInit teAvtab boolState).Keeps p [] where
  filled := avtabAlloc_filled (show maxAvtabSize ≠ 0 by decide)
  nodes := fun cn hcn => by cases hcn
  addr := fun cn hcn => by cases hcn
  last := fun rules hrules => by cases hrules
  placed := fun rules hrules => by cases hrules

/-- The place of the node of a statement, and what the node is. -/
structure NodeFor (condList condList' : List CilCondNode) (tmp : CilCondNode) (place : Nat) (cn : CilCondNode) :
    Prop where
  get : condList'[place]? = some cn
  origin : condList' = condList ∨ condList' = cn :: condList ∧ cn.trueList = [] ∧ cn.falseList = []
  normalized : CondNormalized cn
  value : ∀ σ, condEvaluateExpr σ cn.expr = condEvaluateExpr σ tmp.expr

section NodeFor

variable {condList condList' : List CilCondNode} {tmp cn : CilCondNode} {place : Nat}

theorem NodeFor.nodes (h : NodeFor condList condList' tmp place cn) (hnodes : ∀ c ∈ condList, CondNormalized c) :
    ∀ c ∈ condList', CondNormalized c := by
  rcases h.origin with rfl | ⟨rfl, -, -⟩
  · exact hnodes
  · exact List.forall_mem_cons.2 ⟨h.normalized, hnodes⟩

theorem NodeFor.addr {k : Nat} (h : NodeFor condList condList' tmp place cn)
    (hold : ∀ c ∈ condList, ∀ n ∈ c.trueList ++ c.falseList, n.addr < k) :
    ∀ c ∈ condList', ∀ n ∈ c.trueList ++ c.falseList, n.addr < k := by
  rcases h.origin with rfl | ⟨rfl, htrue, hfalse⟩
  · exact hold
  · refine List.forall_mem_cons.2 ⟨fun n hn => ?_, hold⟩
    rw [htrue, hfalse] at hn
    cases hn

private theorem NodeFor.placedIn {rules : CilCondRules} {n : AvtabNode} (h : NodeFor condList condList' tmp place cn)
    (hplaced : rules.PlacedIn p condList n) : rules.PlacedIn p condList' n := by
  rcases h.origin with rfl | ⟨rfl, htrue, hfalse⟩
  · exact hplaced
  · exact hplaced.cons htrue hfalse

end NodeFor

private theorem nodeFor_of_cilCondNode {state : Nat → Bool} {condList condList' : List CilCondNode}
    {tmp : CilCondNode}
    {place : Nat} (hnodes : ∀ cn ∈ condList, CondNormalized cn) (htmp : CondNormalized tmp) (hne : tmp.expr ≠ [])
    (hagree : ∀ i b, condNodeFind state tmp condList = .inl i → condList[i]? = some b → TablesAgree tmp b)
    (h : cilCondNode state tmp condList = some (place, condList')) :
    ∃ cn, NodeFor condList condList' tmp place cn := by
  unfold cilCondNode at h
  split at h
  · rename_i i hfind
    obtain ⟨rfl, rfl⟩ := Prod.mk.inj (Option.some.inj h)
    obtain ⟨b, hb, heq⟩ := condNodeFind_eq_inl hfind
    have hfind' : condNodeFind state tmp condList = .inl i := by
      unfold condNodeFind at hfind ⊢
      split at hfind
      · rename_i j hj
        rw [show condList.findIdx? (condExprEqual tmp) = some j from hj]
        exact hfind
      · cases hfind
    have hnorm := hnodes b (List.mem_of_getElem? hb)
    have hvalue := (condExprEqual_iff_tablesAgree htmp hnorm).2 (hagree i b hfind' hb) heq
    exact ⟨b, hb, Or.inl rfl, hnorm, fun σ => (hvalue σ).symm⟩
  · cases h
  · rename_i cn hfind
    obtain ⟨rfl, rfl⟩ := Prod.mk.inj (Option.some.inj h)
    have hcreate : condNodeCreate state { tmp with trueList := [] } = some cn := by
      unfold condNodeFind at hfind
      split at hfind
      · cases hfind
      · exact Sum.inr.inj hfind
    unfold condNodeCreate at hcreate
    rw [if_neg hne, Option.some_inj] at hcreate
    subst hcreate
    refine ⟨_, rfl, Or.inr ⟨rfl, rfl, rfl⟩, ?_, fun σ => rfl⟩
    -- only the first booleans are copied, and when the table is used there are no more
    have htake : tmp.nbools ≤ condMaxBools → tmp.boolIds.take (min tmp.nbools condMaxBools) = tmp.boolIds := by
      intro hmax
      rw [Nat.min_eq_left hmax, ← htmp.length hmax, List.take_length]
    refine ⟨fun hmax => ?_, fun hmax => ?_, fun hmax => ?_, fun hmax => ?_⟩
    · exact (congrArg List.length (htake hmax)).trans (htmp.length hmax)
    · dsimp only
      rw [htake hmax]
      exact htmp.nodup hmax
    · dsimp only
      rw [htake hmax]
      exact htmp.pos hmax
    · dsimp only
      rw [htake hmax]
      exact htmp.table hmax

/-- The two blocks of a statement push their rules to the lists of its node. -/
structure BlocksRun (s : CilPassState) (cn : CilCondNode) (gen1 gen2 : List AvtabNode) (st1 st2 : CilTables) :
    Prop where
  first : CilTables.PushedBy true gen1 ⟨s.teAvtab, s.teCondAvtab, cn.trueList, cn.falseList⟩ st1
  second : st1.PushedBy false gen2 st2

/-- A successful statement: its tree, its node, and what its blocks push. -/
private theorem cilBooleanifToPolicydb_cases {boolif : CilBooleanif} {s s' : CilPassState} {made : List CilCondRules}
    (hf : s.teCondAvtab.Filled) (hnodes : ∀ cn ∈ s.condList, CondNormalized cn)
    (hagree : CilPassStmt.Agrees p s (.booleanif boolif))
    (h : cilBooleanifToPolicydb p db boolif s = some (s', made)) :
    ∃ (swapped : Bool) (place : Nat) (condList : List CilCondNode) (tmp cn : CilCondNode) (gen1 gen2 : List AvtabNode)
      (st1 st2 : CilTables),
      (∀ τ σ, p.Assigns τ σ → condEvaluateExpr σ tmp.expr = some (boolif.datumExpr.value τ ^^ swapped)) ∧
      NodeFor s.condList condList tmp place cn ∧ BlocksRun s cn gen1 gen2 st1 st2 ∧
      s'.teCondAvtab = st2.teCondAvtab ∧
      s'.condList = condList.set place { cn with trueList := st2.trueList, falseList := st2.falseList } ∧
      made = [⟨boolif.datumExpr, true ^^ swapped, s.teCondAvtab.fresh, st1.teCondAvtab.fresh⟩,
        ⟨boolif.datumExpr, false ^^ swapped, st1.teCondAvtab.fresh, st2.teCondAvtab.fresh⟩] := by
  unfold cilBooleanifToPolicydb at h
  obtain ⟨expr, hexpr, h⟩ := Option.bind_eq_some_iff.1 h
  obtain ⟨t, rfl, ht⟩ := exists_tree_of_cilCondExpr hexpr
  split at h
  · cases h
  · rename_i hvalid
    have hdepth := (cilValidateCondExpr_iff_depth _).1 (by simpa using hvalid)
    obtain ⟨tmp, swapped, hnorm, hfor⟩ := condNormalizeExpr_tmpCond s.boolState hdepth ht.pos
    rw [hnorm] at h
    dsimp only at h
    rw [if_neg (by decide), hfor.exchanged] at h
    obtain ⟨⟨place, condList⟩, hnode, h⟩ := Option.bind_eq_some_iff.1 h
    have hagree' := hagree t.toExpr
    rw [hnorm] at hagree'
    obtain ⟨cn, hcn⟩ := nodeFor_of_cilCondNode hnodes hfor.normalized hfor.ne_nil
      (fun i b hfind hb => hagree' i b hexpr hfind hb) hnode
    dsimp only at h
    obtain ⟨cn', hcn', h⟩ := Option.bind_eq_some_iff.1 h
    obtain rfl : cn = cn' := Option.some.inj (hcn.get.symm.trans hcn')
    obtain ⟨st1, h1, h⟩ := Option.bind_eq_some_iff.1 h
    obtain ⟨st2, h2, h⟩ := Option.bind_eq_some_iff.1 h
    obtain ⟨rfl, rfl⟩ := Prod.mk.inj (Option.some.inj h)
    obtain ⟨gen1, hgen1⟩ := pushes_cilCondblockToPolicydb _ _ st1 hf h1
    obtain ⟨gen2, hgen2⟩ := pushes_cilCondblockToPolicydb _ st1 st2 hgen1.filled h2
    refine ⟨swapped, place, condList, tmp, cn, gen1, gen2, st1, st2, fun τ σ hτ => ?_, hcn, ⟨hgen1, hgen2⟩, rfl, rfl,
      rfl⟩
    rw [hfor.value σ, ht.value τ σ hτ]

section Blocks

variable {s : CilPassState} {cn : CilCondNode} {gen1 gen2 : List AvtabNode} {st1 st2 : CilTables} {n : AvtabNode}

theorem BlocksRun.trueList (h : BlocksRun s cn gen1 gen2 st1 st2) : st2.trueList = gen1 ++ cn.trueList :=
  h.second.other.trans h.first.list

theorem BlocksRun.falseList (h : BlocksRun s cn gen1 gen2 st1 st2) : st2.falseList = gen2 ++ cn.falseList :=
  h.second.list.trans (congrArg (gen2 ++ ·) h.first.other)

theorem BlocksRun.addr (h : BlocksRun s cn gen1 gen2 st1 st2) :
    (∀ n ∈ gen1, s.teCondAvtab.fresh ≤ n.addr ∧ n.addr < st1.teCondAvtab.fresh) ∧
      ∀ n ∈ gen2, st1.teCondAvtab.fresh ≤ n.addr ∧ n.addr < st2.teCondAvtab.fresh := by
  refine ⟨fun n hn => ⟨h.first.nel n hn, ?_⟩, fun n hn => ⟨h.second.nel n hn, ?_⟩⟩
  · exact h.first.filled.addrLt n (h.first.nodes.mem_iff.2 (List.mem_append_left _ hn))
  · exact h.second.filled.addrLt n (h.second.nodes.mem_iff.2 (List.mem_append_left _ hn))

private theorem BlocksRun.nel_le (h : BlocksRun s cn gen1 gen2 st1 st2) (hf : s.teCondAvtab.Filled) :
    s.teCondAvtab.fresh ≤ st1.teCondAvtab.fresh ∧ st1.teCondAvtab.fresh ≤ st2.teCondAvtab.fresh := by
  have h1 := h.first.nel_eq hf
  have h2 := h.second.nel_eq h.first.filled
  dsimp only at h1
  omega

private theorem BlocksRun.mem_cases (h : BlocksRun s cn gen1 gen2 st1 st2) (hn : n ∈ avtabNodes st2.teCondAvtab) :
    n ∈ gen2 ∨ n ∈ gen1 ∨ n ∈ avtabNodes s.teCondAvtab := by
  rcases List.mem_append.1 (h.second.nodes.mem_iff.1 hn) with hn | hn
  · exact Or.inl hn
  · exact Or.inr (List.mem_append.1 (h.first.nodes.mem_iff.1 hn))

private theorem BlocksRun.notMem_of_lt (h : BlocksRun s cn gen1 gen2 st1 st2) (hf : s.teCondAvtab.Filled)
    (hn : n.addr < s.teCondAvtab.fresh) : n ∉ gen1 ∧ n ∉ gen2 := by
  obtain ⟨haddr1, haddr2⟩ := h.addr
  obtain ⟨hle, -⟩ := h.nel_le hf
  refine ⟨fun hmem => ?_, fun hmem => ?_⟩
  · have := (haddr1 n hmem).1
    omega
  · have := (haddr2 n hmem).1
    omega

variable {condList : List CilCondNode} {place : Nat} {rules : CilCondRules}

/-- The addresses stay below the next one. -/
private theorem BlocksRun.set_addr (h : BlocksRun s cn gen1 gen2 st1 st2) (hf : s.teCondAvtab.Filled)
    (hold : ∀ c ∈ condList, ∀ n ∈ c.trueList ++ c.falseList, n.addr < s.teCondAvtab.fresh) (hcn : cn ∈ condList) :
    ∀ c ∈ condList.set place { cn with trueList := st2.trueList, falseList := st2.falseList },
      ∀ n ∈ c.trueList ++ c.falseList, n.addr < st2.teCondAvtab.fresh := by
  obtain ⟨haddr1, haddr2⟩ := h.addr
  obtain ⟨hle1, hle2⟩ := h.nel_le hf
  intro c hc n hn
  rcases List.mem_or_eq_of_mem_set hc with hc | rfl
  · have := hold c hc n hn
    omega
  · dsimp only at hn
    rw [h.trueList, h.falseList] at hn
    simp only [List.mem_append] at hn
    rcases hn with (hn | hn) | hn | hn
    · have := haddr1 n hn
      omega
    · have := hold cn hcn n (List.mem_append_left _ hn)
      omega
    · exact (haddr2 n hn).2
    · have := hold cn hcn n (List.mem_append_right _ hn)
      omega

private theorem BlocksRun.placedIn_old (h : BlocksRun s cn gen1 gen2 st1 st2) (hget : condList[place]? = some cn)
    (hplaced : rules.PlacedIn p condList n) (hn : n ∉ gen1 ∧ n ∉ gen2) :
    rules.PlacedIn p (condList.set place { cn with trueList := st2.trueList, falseList := st2.falseList }) n := by
  refine hplaced.set hget rfl ?_ ?_
  · show n ∈ st2.trueList ↔ n ∈ cn.trueList
    rw [h.trueList, List.mem_append]
    simp [hn.1]
  · show n ∈ st2.falseList ↔ n ∈ cn.falseList
    rw [h.falseList, List.mem_append]
    simp [hn.2]

variable {x : CilBoolExpr} {swapped : Bool} {first last : Nat}

/-- A rule that one of the blocks adds is in its list, and in no other one. -/
private theorem BlocksRun.placedIn_gen (h : BlocksRun s cn gen1 gen2 st1 st2) (hget : condList[place]? = some cn)
    (hvalue : ∀ τ σ, p.Assigns τ σ → condEvaluateExpr σ cn.expr = some (x.value τ ^^ swapped))
    (hfresh : ∀ c ∈ condList, n ∉ c.trueList ++ c.falseList) (b : Bool) (hin : n ∈ if b then gen1 else gen2)
    (hout : n ∉ if b then gen2 else gen1) :
    CilCondRules.PlacedIn p ⟨x, b ^^ swapped, first, last⟩
      (condList.set place { cn with trueList := st2.trueList, falseList := st2.falseList }) n := by
  have hcn := hfresh cn (List.mem_of_getElem? hget)
  rw [List.mem_append, not_or] at hcn
  refine placedIn_new (List.getElem?_eq_some_iff.1 hget).1 hvalue ?_ ?_ hfresh
  · dsimp only
    rw [h.trueList, h.falseList]
    cases b with
    | true => exact List.mem_append_left _ hin
    | false => exact List.mem_append_left _ hin
  · dsimp only
    rw [h.trueList, h.falseList]
    cases b with
    | true => exact List.mem_append.not.2 (not_or.2 ⟨hout, hcn.2⟩)
    | false => exact List.mem_append.not.2 (not_or.2 ⟨hout, hcn.1⟩)

end Blocks

/-- A statement adds its own rules in their places, and leaves those of the statements before where they were. -/
private theorem keeps_cilBooleanifToPolicydb {boolif : CilBooleanif} {s s' : CilPassState}
    {made new : List CilCondRules} (hs : s.Keeps p made) (hagree : CilPassStmt.Agrees p s (.booleanif boolif))
    (h : cilBooleanifToPolicydb p db boolif s = some (s', new)) : s'.Keeps p (made ++ new) := by
  obtain ⟨swapped, place, condList, tmp, cn, gen1, gen2, st1, st2, hvalue, hcn, hrun, htab, hlist, rfl⟩ :=
    cilBooleanifToPolicydb_cases hs.filled hs.nodes hagree h
  obtain ⟨hle1, hle2⟩ := hrun.nel_le hs.filled
  have hold := hcn.addr hs.addr
  have hmemcn := List.mem_of_getElem? hcn.get
  refine ⟨?_, ?_, ?_, ?_, ?_⟩
  · rw [htab]
    exact hrun.second.filled
  · rw [hlist]
    intro c hc
    rcases List.mem_or_eq_of_mem_set hc with hc | rfl
    · exact hcn.nodes hs.nodes c hc
    · exact ⟨hcn.normalized.length, hcn.normalized.nodup, hcn.normalized.pos, hcn.normalized.table⟩
  · rw [hlist, htab]
    exact hrun.set_addr hs.filled hold hmemcn
  · rw [htab]
    intro rules hrules
    rcases List.mem_append.1 hrules with hrules | hrules
    · have := hs.last rules hrules
      omega
    · simp only [List.mem_cons, List.not_mem_nil, or_false] at hrules
      rcases hrules with rfl | rfl
      · exact hle2
      · exact Nat.le_refl _
  · rw [htab, hlist]
    intro rules hrules n hn hfirst hlast
    have hvalue' : ∀ τ σ, p.Assigns τ σ →
        condEvaluateExpr σ cn.expr = some (boolif.datumExpr.value τ ^^ swapped) :=
      fun τ σ hτ => (hcn.value σ).trans (hvalue τ σ hτ)
    rcases List.mem_append.1 hrules with hrules | hrules
    · -- a rule of an earlier statement
      have hno := hrun.notMem_of_lt hs.filled (hlast.trans_le (hs.last rules hrules))
      have hmem : n ∈ avtabNodes s.teCondAvtab := ((hrun.mem_cases hn).resolve_left hno.2).resolve_left hno.1
      exact hrun.placedIn_old hcn.get (hcn.placedIn (hs.placed rules hrules n hmem hfirst hlast)) hno
    · -- a rule of this statement is new, so that no other list has it
      obtain ⟨haddr1, haddr2⟩ := hrun.addr
      have hge : s.teCondAvtab.fresh ≤ n.addr := by
        simp only [List.mem_cons, List.not_mem_nil, or_false] at hrules
        rcases hrules with rfl | rfl
        · exact hfirst
        · exact hle1.trans hfirst
      have hfresh : ∀ c ∈ condList, n ∉ c.trueList ++ c.falseList := fun c hc hmem =>
        absurd (hold c hc n hmem) (Nat.not_lt.2 hge)
      have hno : n ∉ avtabNodes s.teCondAvtab := fun hmem =>
        absurd (hs.filled.addrLt n hmem) (Nat.not_lt.2 hge)
      simp only [List.mem_cons, List.not_mem_nil, or_false] at hrules
      rcases hrules with rfl | rfl
      · have hn2 : n ∉ gen2 := fun hmem => absurd (haddr2 n hmem).1 (Nat.not_le.2 hlast)
        have hn1 : n ∈ gen1 := ((hrun.mem_cases hn).resolve_left hn2).resolve_right hno
        exact hrun.placedIn_gen hcn.get hvalue' hfresh true hn1 hn2
      · have hn1 : n ∉ gen1 := fun hmem => absurd (haddr1 n hmem).2 (Nat.not_lt.2 hfirst)
        have hn2 : n ∈ gen2 := (hrun.mem_cases hn).resolve_right fun h => h.elim hn1 hno
        exact hrun.placedIn_gen hcn.get hvalue' hfresh false hn2 hn1

/-! ### Runs -/

private theorem keeps_cilNodeToPolicydb {stmt : CilPassStmt} {s s' : CilPassState} {made new : List CilCondRules}
    (hs : s.Keeps p made) (hagree : stmt.Agrees p s) (h : cilNodeToPolicydb p db s stmt = some (s', new)) :
    s'.Keeps p (made ++ new) := by
  cases stmt with
  | booleanif boolif => exact keeps_cilBooleanifToPolicydb hs hagree h
  | avrule rule =>
    unfold cilNodeToPolicydb at h
    dsimp only at h
    split at h
    · obtain ⟨rfl, rfl⟩ := Prod.mk.inj (Option.some.inj h)
      rw [List.append_nil]
      exact hs
    · obtain ⟨st, hst, h⟩ := Option.map_eq_some_iff.1 h
      obtain ⟨rfl, rfl⟩ := Prod.mk.inj h
      have hcond : st.teCondAvtab = s.teCondAvtab := cilAvruleToAvtab_none_cond hst
      rw [List.append_nil]
      refine ⟨?_, hs.nodes, ?_, ?_, ?_⟩
      · exact hcond ▸ hs.filled
      · exact hcond ▸ hs.addr
      · exact hcond ▸ hs.last
      · exact hcond ▸ hs.placed
  | avrulex rule =>
    unfold cilNodeToPolicydb at h
    dsimp only at h
    split at h
    · obtain ⟨rfl, rfl⟩ := Prod.mk.inj (Option.some.inj h)
      rw [List.append_nil]
      exact hs
    · obtain ⟨xt, _, h⟩ := Option.map_eq_some_iff.1 h
      obtain ⟨rfl, rfl⟩ := Prod.mk.inj h
      rw [List.append_nil]
      exact ⟨hs.filled, hs.nodes, hs.addr, hs.last, hs.placed⟩

private theorem keeps_cilNodesToPolicydb {stmts : List CilPassStmt} {s s' : CilPassState}
    {made new : List CilCondRules} (hs : s.Keeps p made) (hagree : CilPassAgrees p db stmts s)
    (h : cilNodesToPolicydb p db stmts s = some (s', new)) : s'.Keeps p (made ++ new) := by
  induction stmts generalizing s made new with
  | nil =>
    obtain ⟨rfl, rfl⟩ := Prod.mk.inj (Option.some.inj h)
    rw [List.append_nil]
    exact hs
  | cons stmt rest ih =>
    rw [cilNodesToPolicydb] at h
    obtain ⟨⟨s1, new1⟩, h1, h⟩ := Option.bind_eq_some_iff.1 h
    obtain ⟨⟨s2, new2⟩, h2, h⟩ := Option.bind_eq_some_iff.1 h
    obtain ⟨rfl, rfl⟩ := Prod.mk.inj (Option.some.inj h)
    rw [← List.append_assoc]
    exact ih (keeps_cilNodeToPolicydb hs hagree.1 h1) (hagree.2 s1 new1 h1) h2

/-- In a run whose statements agree with the conditionals that they meet, every rule of every block stands in one
list, which is the selected one exactly when the expression of its statement has the value of the block. -/
theorem cilBooleanif_keeps_meaning (p : CilPolicydb) (db : CilBinaryDb) (stmts : List CilPassStmt) (teAvtab : Avtab)
    (boolState : Nat → Bool) (s : CilPassState) (made : List CilCondRules)
    (hrun : cilNodesToPolicydb p db stmts (cilPassInit teAvtab boolState) = some (s, made))
    (hagree : CilPassAgrees p db stmts (cilPassInit teAvtab boolState)) :
    ∀ rules ∈ made, ∀ n ∈ avtabNodes s.teCondAvtab, rules.first ≤ n.addr → n.addr < rules.last →
      rules.PlacedIn p s.condList n :=
  (keeps_cilNodesToPolicydb (keeps_init teAvtab boolState) hagree hrun).placed

/-! ### Two booleans -/

def twoBoolsPolicydb : CilPolicydb :=
  { policydbInit with
    pTypes := ⟨[(['t'], ⟨1, .type, 0⟩)], 1⟩
    pClasses := ⟨[(['c'], ⟨1, none, ⟨[(['p'], ⟨1⟩)], 1⟩⟩)], 1⟩
    pBools := ⟨[(['a'], ⟨1, false⟩), (['b'], ⟨2, false⟩)], 2⟩
    classValToStruct := fun _ => none
    boolsPos := by decide }

def oneTypeDb : CilBinaryDb where
  valToUser := fun _ => []
  valToRole := fun _ => []
  valToType := fun _ => ['t']
  classFqn := fun _ => ['c']
  numTypes := 1
  attrsExpandSize := 1
  disableDontaudit := false
  policyVersion := 34

/-- The rule `(allow t self (c (p)))`. -/
def allowSelf : CilCondStmt := .avrule ⟨.allowed, .value 0, .self, [.classperms ['c'] ⟨0⟩ [['p']] [⟨0, ['p']⟩]]⟩

def twoBoolsInit : CilPassState := cilPassInit (avtabAlloc maxAvtabSize) fun _ => false

/-- `(booleanif (not (and a b)) (true (allow t self (c (p)))) (false (allow t self (c (p)))))`. -/
def notAndIf : CilPassStmt :=
  .booleanif ⟨.not (.binary .and (.datum ['a']) (.datum ['b'])), [(true, [allowSelf]), (false, [allowSelf])]⟩

/-- `(booleanif (and b a) (true (allow t self (c (p)))))`. -/
def andIf : CilPassStmt :=
  .booleanif ⟨.binary .and (.datum ['b']) (.datum ['a']), [(true, [allowSelf])]⟩

private def bAndA : List CondExpr := [⟨condBool, 2⟩, ⟨condBool, 1⟩, ⟨condAnd, 0⟩]

/-- The second statement meets the conditional of the first one, and its table is the same. -/
private theorem agrees_andIf : CilPassAgrees twoBoolsPolicydb oneTypeDb [notAndIf, andIf] twoBoolsInit := by
  refine ⟨fun expr i b _ hfind => ?_, fun s rules hs => ⟨fun expr i b hexpr _ hb => ?_, fun _ _ _ => trivial⟩⟩
  -- there is no conditional before the first statement
  · obtain ⟨b, hb, _⟩ := condNodeFind_eq_inl hfind
    cases hb
  · have hstep : (cilNodeToPolicydb twoBoolsPolicydb oneTypeDb twoBoolsInit notAndIf).map (fun r =>
        let tmp := (condNormalizeExpr r.1.boolState (cilTmpCond bAndA)).2.2
        (tmp.nbools, tmp.boolIds, tmp.exprPreComp, r.1.condList.map CondNodeT.boolIds)) =
          some (2, [2, 1], 8, [[1, 2]]) := by decide +kernel
    have hdatum : cilCondExprToSepolExpr twoBoolsPolicydb (.binary .and (.datum ['b']) (.datum ['a'])) =
        some bAndA := by decide +kernel
    obtain rfl := Option.some.inj (hdatum.symm.trans hexpr)
    rw [hs, Option.map_some] at hstep
    obtain ⟨hnbools, hids, htable, hconds⟩ := by simpa only [Option.some.injEq, Prod.mk.injEq] using hstep
    have hidsb : b.boolIds = [1, 2] := by
      have := List.mem_map_of_mem (f := CondNodeT.boolIds) (List.mem_of_getElem? hb)
      rwa [hconds, List.mem_singleton] at this
    intro _ _ _ _ test htest
    -- only the entry with both booleans true is set, in either order of them
    have hsym : ∀ test < 2 ^ 2, (8 : BitVec 32).getLsbD test =
        (8 : BitVec 32).getLsbD (TruthTable.reindex [2, 1] [1, 2] test) := by decide
    rw [hids, htable, hidsb]
    rw [hnbools] at htest
    exact hsym test htest

/-- For two statements that share a conditional, where the lists of the first one are exchanged. -/
theorem cilBooleanif_keeps_meaning_notAnd :
    ∃ s made, cilNodesToPolicydb twoBoolsPolicydb oneTypeDb [notAndIf, andIf] twoBoolsInit = some (s, made) ∧
      made.length = 4 ∧ s.condList.length = 1 ∧
      ∀ rules ∈ made, ∀ n ∈ avtabNodes s.teCondAvtab, rules.first ≤ n.addr → n.addr < rules.last →
        rules.PlacedIn twoBoolsPolicydb s.condList n := by
  have hlen : (cilNodesToPolicydb twoBoolsPolicydb oneTypeDb [notAndIf, andIf] twoBoolsInit).map
      (fun r => (r.2.length, r.1.condList.length)) = some (4, 1) := by decide +kernel
  obtain ⟨⟨s, made⟩, hrun, hlen⟩ := Option.map_eq_some_iff.1 hlen
  obtain ⟨hmade, hconds⟩ := Prod.mk.inj hlen
  exact ⟨s, made, hrun, hmade, hconds, cilBooleanif_keeps_meaning twoBoolsPolicydb oneTypeDb [notAndIf, andIf] _ _ s
    made hrun agrees_andIf⟩

/-- `(booleanif (and x (not y)) (true (allow t self (c (p)))))`. -/
def andNotIf (x y : CString) : CilPassStmt :=
  .booleanif ⟨.binary .and (.datum x) (.not (.datum y)), [(true, [allowSelf])]⟩

/-- Only `a` is true. -/
private def onlyA (fqn : CString) : Bool := fqn = ['a']

/-- What a run leaves: the generated rules with the values of their expressions when only `a` is true, the lists of
the conditionals, and the chain of `te_cond_avtab` for the rule. -/
structure PassSummary where
  made : List (Nat × Nat × Bool × Bool)
  conds : List (List CondExpr × List AvtabNode)
  chain : List AvtabNode
  slot : Bool
deriving DecidableEq

private def passSummary (r : CilPassState × List CilCondRules) : PassSummary :=
  let slot := avtabHash ⟨1, 1, 1, avtabAllowed⟩ r.1.teCondAvtab.mask
  { made := r.2.map fun rules => (rules.first, rules.last, rules.flavor, rules.expr.value onlyA)
    conds := r.1.condList.map fun cn => (cn.expr, cn.trueList)
    chain := r.1.teCondAvtab.htable slot
    slot := slot < r.1.teCondAvtab.nslot }

private def allowSelfNode (addr : Nat) : AvtabNode := ⟨⟨1, 1, 1, avtabAllowed⟩, ⟨1, avtabExtendedPermsInit⟩, addr⟩

/-- After `a && !b` the statement `b && !a` finds the conditional of the first one, so that its rule is in force when
`a` is true and `b` is false. -/
theorem cilBooleanif_keeps_meaning_not :
    ∃ s made, cilNodesToPolicydb twoBoolsPolicydb oneTypeDb [andNotIf ['a'] ['b'], andNotIf ['b'] ['a']]
        twoBoolsInit =
        some (s, made) ∧
      ∃ rules ∈ made, ∃ n ∈ avtabNodes s.teCondAvtab, rules.first ≤ n.addr ∧ n.addr < rules.last ∧
        ¬ rules.PlacedIn twoBoolsPolicydb s.condList n := by
  have hrun : (cilNodesToPolicydb twoBoolsPolicydb oneTypeDb [andNotIf ['a'] ['b'], andNotIf ['b'] ['a']]
      twoBoolsInit).map passSummary = some {
        made := [(0, 1, true, true), (1, 1, false, true), (1, 2, true, false), (2, 2, false, false)]
        conds := [([⟨condBool, 1⟩, ⟨condBool, 2⟩, ⟨condNot, 0⟩, ⟨condAnd, 0⟩], [allowSelfNode 1, allowSelfNode 0])]
        chain := [allowSelfNode 1, allowSelfNode 0]
        slot := true } := by decide +kernel
  obtain ⟨⟨s, made⟩, hrun, hsummary⟩ := Option.map_eq_some_iff.1 hrun
  have hmade := congrArg PassSummary.made hsummary
  have hslot := congrArg PassSummary.slot hsummary
  have hchain := congrArg PassSummary.chain hsummary
  obtain ⟨cn, hcond, hcn⟩ := List.map_eq_singleton_iff.1 (congrArg PassSummary.conds hsummary)
  obtain ⟨hexpr, htrue⟩ := Prod.mk.inj hcn
  have hmem : (1, 2, true, false) ∈ made.map fun rules =>
      (rules.first, rules.last, rules.flavor, rules.expr.value onlyA) := by
    rw [show made.map _ = _ from hmade]
    decide
  obtain ⟨rules, hrules, heq⟩ := List.mem_map.1 hmem
  simp only [Prod.mk.injEq] at heq
  obtain ⟨hfirst, hlast, hflavor, hvalue⟩ := heq
  have hnode : allowSelfNode 1 ∈ avtabNodes s.teCondAvtab := by
    refine List.mem_flatMap.2 ⟨_, List.mem_range.2 (of_decide_eq_true hslot), ?_⟩
    rw [show s.teCondAvtab.htable _ = _ from hchain]
    exact List.mem_cons_self ..
  refine ⟨s, made, hrun, rules, hrules, allowSelfNode 1, hnode, ?_, ?_, ?_⟩
  · rw [hfirst]
    decide
  · rw [hlast]
    decide
  · rintro ⟨i, cn', hi, hsel, _⟩
    have hcn' := List.mem_of_getElem? hi
    dsimp only at hcond
    rw [hcond, List.mem_singleton] at hcn'
    subst hcn'
    have hassigns : twoBoolsPolicydb.Assigns onlyA fun i => i == 0 := by
      intro fqn b hb
      have := mem_of_hashtabSearch hb
      simp only [twoBoolsPolicydb, List.mem_cons, Prod.mk.injEq, List.not_mem_nil, or_false] at this
      rcases this with ⟨rfl, rfl⟩ | ⟨rfl, rfl⟩
      · rfl
      · rfl
    have hselected : allowSelfNode 1 ∈ cn'.selected fun i => i == 0 := by
      unfold CondNodeT.selected
      rw [hexpr, htrue]
      exact List.mem_cons_self ..
    have := (hsel onlyA (fun i => i == 0) hassigns).1 hselected
    rw [hvalue, hflavor] at this
    cases this

end Sepol
