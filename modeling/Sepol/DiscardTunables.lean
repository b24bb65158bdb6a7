import Sepol.CondCopy
import Sepol.CondDenote

/-!
# Discarding tunables

`discard_tunables` of `expand.c` collects the tunables of an expression in an array with `COND_EXPR_MAXDEPTH` entries.
The expressions that `validate_cond_expr` accepts are bounded in depth and not in length, so the function does what it
is for exactly when no expression has more operands to collect (`TunablesFit`).
-/

namespace Sepol

abbrev condBoolFlagsTunable : Nat := 0x01

/-- `flags &= ~mask`. -/
def clearFlags (flags mask : Nat) : Nat := flags ^^^ (flags &&& mask)

/-- The part of a declaration that `discard_tunables` works on. -/
structure CondDecl (α β : Type) where
  enabled : Bool
  avrules : List α
  condList : List (CondNodeT α β)

/-- How `discard_tunables` leaves its defined behaviour: a write behind the array, or an assertion. -/
inductive DiscardExit where
  | arrayBounds
  | assertFailed
  deriving DecidableEq

variable {α β : Type}

/-- The loop over an expression.  A boolean datum is named by its index in `bool_val_to_struct`, `flags` are those of
all of them, and `tmp` are the entries of the array that were written. -/
def discardCollect (flags : Nat → Nat) : List CondExpr → Nat → List Nat → Except DiscardExit (Nat × List Nat)
  | [], booleans, tmp => .ok (booleans, tmp)
  | curExpr :: next, booleans, tmp =>
    if curExpr.exprType ≠ condBool then discardCollect flags next booleans tmp
    else if flags (curExpr.boolean - 1) &&& condBoolFlagsTunable ≠ 0 then
      if tmp.length < condExprMaxdepth then discardCollect flags next booleans (tmp ++ [curExpr.boolean - 1])
      else .error .arrayBounds
    else discardCollect flags next (booleans + 1) tmp

/-- The loop that clears the flags of the collected tunables. -/
def discardClear (flags : Nat → Nat) (tmp : List Nat) : Nat → Nat :=
  tmp.foldl (fun flags i => Function.update flags i (clearFlags (flags i) condBoolFlagsTunable)) flags

/-- One round of the loop over the conditionals of a declaration: the flags of the booleans, the rules of the
declaration and the node. -/
def discardNode (preserveTunables : Bool) (state : Nat → Bool) (flags : Nat → Nat) (avrules : List α)
    (curNode : CondNodeT α β) : Except DiscardExit ((Nat → Nat) × List α × CondNodeT α β) :=
  match discardCollect flags curNode.expr 0 [] with
  | .error e => .error e
  | .ok (booleans, tmp) =>
    if !preserveTunables ∧ booleans ≠ 0 ∧ tmp ≠ [] then .error .assertFailed
    else if booleans ≠ 0 ∨ preserveTunables then
      .ok (discardClear flags tmp, avrules,
        { curNode with flags := clearFlags curNode.flags condNodeFlagsTunable })
    else
      let curNode := { curNode with flags := curNode.flags ||| condNodeFlagsTunable }
      match condEvaluateExpr state curNode.expr with
      | none => .ok (flags, avrules, curNode)
      | some true => .ok (flags, avrules ++ curNode.avtrueList, { curNode with avtrueList := [] })
      | some false => .ok (flags, avrules ++ curNode.avfalseList, { curNode with avfalseList := [] })

def discardNodes (preserveTunables : Bool) (state : Nat → Bool) :
    List (CondNodeT α β) → (Nat → Nat) → List α → Except DiscardExit ((Nat → Nat) × List α × List (CondNodeT α β))
  | [], flags, avrules => .ok (flags, avrules, [])
  | curNode :: next, flags, avrules =>
    match discardNode preserveTunables state flags avrules curNode with
    | .error e => .error e
    | .ok (flags, avrules, curNode) =>
      match discardNodes preserveTunables state next flags avrules with
      | .error e => .error e
      | .ok (flags, avrules, next) => .ok (flags, avrules, curNode :: next)

/-- `discard_tunables`, where a block is its pointer `enabled`. -/
def discardTunables (preserveTunables : Bool) (state : Nat → Bool) :
    List (Option (CondDecl α β)) → (Nat → Nat) → Except DiscardExit ((Nat → Nat) × List (Option (CondDecl α β)))
  | [], flags => .ok (flags, [])
  | block :: next, flags =>
    match block with
    | none => (discardTunables preserveTunables state next flags).map fun r => (r.1, none :: r.2)
    | some decl =>
      if !decl.enabled then (discardTunables preserveTunables state next flags).map fun r => (r.1, some decl :: r.2)
      else
        match discardNodes preserveTunables state decl.condList flags decl.avrules with
        | .error e => .error e
        | .ok (flags, avrules, condList) =>
          (discardTunables preserveTunables state next flags).map
            fun r => (r.1, some { decl with avrules := avrules, condList := condList } :: r.2)

variable {flags : Nat → Nat} {state : Nat → Bool} {expr : List CondExpr} {seen : List Nat} {preserve : Bool}

/-! ### What the function is for -/

/-- The booleans of an expression as often as they occur, by their index. -/
def operands (expr : List CondExpr) : List Nat :=
  (expr.filter fun e => e.exprType = condBool).map fun e => e.boolean - 1

def IsTunable (flags : Nat → Nat) (i : Nat) : Prop := flags i &&& condBoolFlagsTunable ≠ 0

instance (flags : Nat → Nat) (i : Nat) : Decidable (IsTunable flags i) := by
  unfold IsTunable
  infer_instance

/-- All operands of an expression are tunables, or none of them is. -/
def TunablesApart (flags : Nat → Nat) (expr : List CondExpr) : Prop :=
  (∀ i ∈ operands expr, IsTunable flags i) ∨ ∀ i ∈ operands expr, ¬ IsTunable flags i

/-- The conditional of a tunable is to be replaced by the branch that is selected. -/
def Discards (preserve : Bool) (flags : Nat → Nat) (expr : List CondExpr) : Bool :=
  !preserve && (operands expr).any fun i => decide (IsTunable flags i)

/-- The rules that a conditional gives to its declaration: those of the branch that is selected when it is the
conditional of a tunable, and none when tunables are kept as booleans or there is none. -/
def discardedRules (preserve : Bool) (state : Nat → Bool) (flags : Nat → Nat) (node : CondNodeT α β) : List α :=
  if Discards preserve flags node.expr then
    match condEvaluateExpr state node.expr with
    | some true => node.avtrueList
    | some false => node.avfalseList
    | none => []
  else []

/-- What becomes of a conditional: one with a tunable is marked and loses the branch that was selected, any other only
loses its mark, if it has one. -/
structure NodeDiscarded (preserve : Bool) (state : Nat → Bool) (flags : Nat → Nat) (node node' : CondNodeT α β) :
    Prop where
  discarded : Discards preserve flags node.expr = true → ∃ v : Bool, condEvaluateExpr state node.expr = some v ∧
    node' = { node with
      flags := node.flags ||| condNodeFlagsTunable
      avtrueList := if v then [] else node.avtrueList
      avfalseList := if v then node.avfalseList else [] }
  unmarked : Discards preserve flags node.expr = false →
    node' = { node with flags := clearFlags node.flags condNodeFlagsTunable }
  untouched : Discards preserve flags node.expr = false → node.flags &&& condNodeFlagsTunable = 0 → node' = node

/-- What becomes of a block: the rules of the conditionals of its enabled declaration are appended in their order. -/
inductive BlockDiscarded (preserve : Bool) (state : Nat → Bool) (flags : Nat → Nat) :
    Option (CondDecl α β) → Option (CondDecl α β) → Prop
  | none : BlockDiscarded preserve state flags none none
  | disabled {decl : CondDecl α β} : decl.enabled = false →
      BlockDiscarded preserve state flags (some decl) (some decl)
  | enabled {decl : CondDecl α β} {condList : List (CondNodeT α β)} : decl.enabled = true →
      List.Forall₂ (NodeDiscarded preserve state flags) decl.condList condList →
      BlockDiscarded preserve state flags (some decl) (some { decl with
        avrules := decl.avrules ++ decl.condList.flatMap (discardedRules preserve state flags)
        condList := condList })

/-- The conditionals of the enabled declarations. -/
def enabledNodes (blocks : List (Option (CondDecl α β))) : List (CondNodeT α β) :=
  blocks.flatMap fun block =>
    match block with
    | none => []
    | some decl => if decl.enabled then decl.condList else []

/-- The function has defined behaviour, every block becomes what it should, and a boolean stays a tunable exactly when
tunables are discarded or it occurs in no conditional. -/
def TunablesDiscarded (preserve : Bool) (state : Nat → Bool) (flags : Nat → Nat)
    (blocks : List (Option (CondDecl α β))) : Prop :=
  ∃ (flags' : Nat → Nat) (blocks' : List (Option (CondDecl α β))),
    discardTunables preserve state blocks flags = .ok (flags', blocks') ∧
      List.Forall₂ (BlockDiscarded preserve state flags) blocks blocks' ∧
      ∀ i, flags' i = if preserve ∧ i ∈ (enabledNodes blocks).flatMap (fun node => operands node.expr) then
        clearFlags (flags i) condBoolFlagsTunable else flags i

/-- No expression has more than `COND_EXPR_MAXDEPTH` operands that are tunables; when tunables are preserved, those
that occur in an earlier expression are booleans by then and do not count. -/
def TunablesFit (preserve : Bool) (flags : Nat → Nat) : List Nat → List (List CondExpr) → Prop
  | _, [] => True
  | seen, expr :: next =>
    ((operands expr).filter fun i => IsTunable flags i ∧ i ∉ seen).length ≤ condExprMaxdepth ∧
      TunablesFit preserve flags (if preserve then seen ++ operands expr else seen) next

/-! ### One conditional -/

private theorem clearFlags_and (f mask : Nat) : clearFlags f mask &&& mask = 0 := by
  refine Nat.eq_of_testBit_eq fun i => ?_
  simp only [clearFlags, Nat.testBit_and, Nat.testBit_xor, Nat.zero_testBit]
  cases f.testBit i <;> cases mask.testBit i <;> rfl

private theorem clearFlags_of_and {f mask : Nat} (h : f &&& mask = 0) : clearFlags f mask = f := by
  rw [clearFlags, h, Nat.xor_zero]

/-- The flags when the tunables in `seen` have become booleans. -/
def seenFlags (flags : Nat → Nat) (seen : List Nat) (i : Nat) : Nat :=
  if i ∈ seen then clearFlags (flags i) condBoolFlagsTunable else flags i

private theorem isTunable_seenFlags (i : Nat) :
    IsTunable (seenFlags flags seen) i ↔ IsTunable flags i ∧ i ∉ seen := by
  unfold IsTunable seenFlags
  by_cases h : i ∈ seen
  · simp only [h, if_true, clearFlags_and, not_true_eq_false, ne_eq, and_false]
  · simp only [h, if_false, not_false_eq_true, and_true]

private theorem discardCollect_eq (flags : Nat → Nat) (expr : List CondExpr) (booleans : Nat) (tmp : List Nat)
    (htmp : tmp.length ≤ condExprMaxdepth) :
    discardCollect flags expr booleans tmp =
      if tmp.length + ((operands expr).filter fun i => IsTunable flags i).length ≤ condExprMaxdepth then
        .ok (booleans + ((operands expr).filter fun i => ¬ IsTunable flags i).length,
          tmp ++ (operands expr).filter fun i => IsTunable flags i)
      else .error .arrayBounds := by
  induction expr generalizing booleans tmp with
  | nil => simp [discardCollect, operands, htmp]
  | cons e expr ih =>
    rw [discardCollect]
    by_cases hbool : e.exprType = condBool
    · have hops : operands (e :: expr) = (e.boolean - 1) :: operands expr := by simp [operands, hbool]
      rw [if_neg (not_not.2 hbool), hops]
      by_cases htun : IsTunable flags (e.boolean - 1)
      · rw [if_pos (show flags _ &&& _ ≠ 0 from htun),
          List.filter_cons_of_pos (by simpa using htun), List.filter_cons_of_neg (by simpa using htun),
          List.length_cons]
        split
        · rw [ih booleans _ (by rw [List.length_append, List.length_singleton]; omega), List.length_append,
            List.length_singleton, List.append_assoc, List.singleton_append]
          congr 2
          omega
        · rw [if_neg (by omega)]
      · rw [if_neg (show ¬ flags _ &&& _ ≠ 0 from htun), List.filter_cons_of_neg (by simpa using htun),
          List.filter_cons_of_pos
          (by simpa using htun), List.length_cons, ih (booleans + 1) tmp htmp, Nat.add_right_comm, Nat.add_assoc]
    · have hops : operands (e :: expr) = operands expr := by simp [operands, hbool]
      rw [if_pos hbool, hops, ih booleans tmp htmp]

/-- Once the collected tunables are cleared, every operand of the expression is a boolean. -/
private theorem discardClear_eq (flags : Nat → Nat) (seen : List Nat) (ops : List Nat) :
    discardClear (seenFlags flags seen) (ops.filter fun i => IsTunable (seenFlags flags seen) i) =
      seenFlags flags (seen ++ ops) := by
  have hclear : ∀ (tmp : List Nat) (f : Nat → Nat) (i : Nat),
      discardClear f tmp i = if i ∈ tmp then clearFlags (f i) condBoolFlagsTunable else f i := by
    intro tmp
    unfold discardClear
    induction tmp with
    | nil => exact fun f i => by simp
    | cons j tmp ih =>
      intro f i
      rw [List.foldl_cons, ih]
      by_cases hij : i = j
      · subst hij
        rw [Function.update_self, clearFlags_of_and (clearFlags_and _ _)]
        simp
      · rw [Function.update_of_ne hij]
        simp [hij]
  funext i
  rw [hclear]
  simp only [List.mem_filter, decide_eq_true_iff]
  by_cases hseen : i ∈ seen
  · simp [seenFlags, hseen, isTunable_seenFlags]
  · by_cases hops : i ∈ ops
    · by_cases htun : IsTunable flags i
      · simp [seenFlags, hseen, hops, isTunable_seenFlags, htun]
      · have hzero : clearFlags (flags i) condBoolFlagsTunable = flags i := clearFlags_of_and (not_not.1 htun)
        simp [seenFlags, hseen, hops, isTunable_seenFlags, htun, hzero]
    · simp [seenFlags, hseen, hops]

private theorem operands_ne_nil (h : (condEvaluateExpr state expr).isSome) : operands expr ≠ [] := by
  intro hnil
  cases expr with
  | nil => cases h
  | cons e expr =>
    have hbool : e.exprType ≠ condBool := by
      intro hbool
      rw [operands, List.filter_cons_of_pos (by simpa using hbool)] at hnil
      cases hnil
    have hnone : condEvaluateStep state e [] = none := by
      obtain ⟨exprType, boolean⟩ := e
      unfold condEvaluateStep
      rcases exprType with _ | _ | _ | _ | _ | _ | _ | _ | exprType
      case succ.zero => exact absurd rfl hbool
      all_goals rfl
    unfold condEvaluateExpr at h
    rw [List.foldlM_cons, hnone] at h
    cases h

private theorem seenFlags_nil (flags : Nat → Nat) : seenFlags flags [] = flags := by
  funext i
  simp [seenFlags]

/-- A conditional becomes what it should when its tunables fit the array. -/
private theorem discardNode_spec (state : Nat → Bool) {node : CondNodeT α β} (avrules : List α)
    (hdef : ExprDefined node.expr) (hapart : TunablesApart flags node.expr) (hseen : preserve = false → seen = []) :
    (((operands node.expr).filter fun i => IsTunable flags i ∧ i ∉ seen).length ≤ condExprMaxdepth →
      ∃ node', discardNode preserve state (seenFlags flags seen) avrules node =
          .ok (seenFlags flags (if preserve then seen ++ operands node.expr else seen),
            avrules ++ discardedRules preserve state flags node, node') ∧
        NodeDiscarded preserve state flags node node') ∧
    (¬ ((operands node.expr).filter fun i => IsTunable flags i ∧ i ∉ seen).length ≤ condExprMaxdepth →
      discardNode preserve state (seenFlags flags seen) avrules node = .error .arrayBounds) := by
  have hcollect := discardCollect_eq (seenFlags flags seen) node.expr 0 [] (Nat.zero_le _)
  simp only [List.length_nil, Nat.zero_add, List.nil_append] at hcollect
  have hfilter : ((operands node.expr).filter fun i => IsTunable (seenFlags flags seen) i) =
      (operands node.expr).filter fun i => IsTunable flags i ∧ i ∉ seen := by
    simp only [isTunable_seenFlags]
  rw [← hfilter]
  constructor
  · intro hfit
    rw [if_pos hfit] at hcollect
    unfold discardNode
    rw [hcollect]
    dsimp only
    cases preserve with
    | true =>
      -- tunables become booleans, whatever the operands are
      rw [if_neg (by simp), if_pos (Or.inr rfl), if_pos rfl, discardClear_eq]
      refine ⟨_, by rw [show discardedRules true state flags node = [] from rfl, List.append_nil], ?_⟩
      exact ⟨fun h => (by cases h), fun _ => rfl, fun _ h => by rw [clearFlags_of_and h]⟩
    | false =>
      rw [hseen rfl, seenFlags_nil]
      rcases hapart with hall | hnone
      · have hplain : ((operands node.expr).filter fun i => ¬ IsTunable flags i) = [] := by
          rw [List.filter_eq_nil_iff]
          intro i hi
          simpa using hall i hi
        obtain ⟨v, hv⟩ := Option.isSome_iff_exists.1 (hdef state)
        have hdisc : Discards false flags node.expr = true := by
          obtain ⟨i, hi⟩ := List.exists_mem_of_ne_nil _ (operands_ne_nil (hdef state))
          rw [Discards, Bool.not_false, Bool.true_and, List.any_eq_true]
          exact ⟨i, hi, decide_eq_true (hall i hi)⟩
        have hrules : discardedRules false state flags node = if v then node.avtrueList else node.avfalseList := by
          rw [discardedRules, if_pos hdisc, hv]
          cases v <;> rfl
        rw [hplain, if_neg (by simp), if_neg (by simp), hrules]
        simp only [hv]
        cases v with
        | true =>
          refine ⟨_, rfl, fun _ => ⟨true, hv, rfl⟩, fun h => ?_, fun h => ?_⟩
          · rw [hdisc] at h
            cases h
          · rw [hdisc] at h
            cases h
        | false =>
          refine ⟨_, rfl, fun _ => ⟨false, hv, rfl⟩, fun h => ?_, fun h => ?_⟩
          · rw [hdisc] at h
            cases h
          · rw [hdisc] at h
            cases h
      · have htun : ((operands node.expr).filter fun i => IsTunable flags i) = [] := by
          rw [List.filter_eq_nil_iff]
          intro i hi
          simpa using hnone i hi
        have hplain : ((operands node.expr).filter fun i => ¬ IsTunable flags i).length ≠ 0 := by
          rw [List.filter_eq_self.2 fun i hi => by simpa using hnone i hi]
          exact fun h => operands_ne_nil (hdef state) (List.length_eq_zero_iff.1 h)
        have hdisc : Discards false flags node.expr = false := by
          rw [Discards, Bool.not_false, Bool.true_and, List.any_eq_false]
          intro i hi
          simpa using hnone i hi
        rw [htun, if_neg (by simp), if_pos (Or.inl hplain)]
        have hrules : discardedRules false state flags node = [] := by
          rw [discardedRules, hdisc]
          rfl
        rw [hrules, List.append_nil, if_neg Bool.false_ne_true, seenFlags_nil]
        refine ⟨_, rfl, fun h => ?_, fun _ => rfl, fun _ h => by rw [clearFlags_of_and h]⟩
        rw [hdisc] at h
        cases h
  · intro hover
    rw [if_neg hover] at hcollect
    unfold discardNode
    rw [hcollect]

/-! ### The loops -/

/-- The conditionals of a declaration, one after the other. -/
private theorem discardNodes_spec (state : Nat → Bool) (nodes : List (CondNodeT α β)) (seen : List Nat)
    (avrules : List α)
    (hdef : ∀ node ∈ nodes, ExprDefined node.expr) (hapart : ∀ node ∈ nodes, TunablesApart flags node.expr)
    (hseen : preserve = false → seen = []) (rest : List (List CondExpr)) :
    (∃ condList, TunablesFit preserve flags seen (nodes.map (fun node => node.expr) ++ rest) =
        TunablesFit preserve flags
          (if preserve then seen ++ nodes.flatMap (fun node => operands node.expr) else seen) rest ∧
      discardNodes preserve state nodes (seenFlags flags seen) avrules =
        .ok (seenFlags flags (if preserve then seen ++ nodes.flatMap (fun node => operands node.expr) else seen),
          avrules ++ nodes.flatMap (discardedRules preserve state flags), condList) ∧
      List.Forall₂ (NodeDiscarded preserve state flags) nodes condList) ∨
    ¬ TunablesFit preserve flags seen (nodes.map (fun node => node.expr) ++ rest) ∧
      discardNodes preserve state nodes (seenFlags flags seen) avrules = .error .arrayBounds := by
  induction nodes generalizing seen avrules with
  | nil =>
    refine Or.inl ⟨[], ?_, ?_, List.Forall₂.nil⟩
    · cases preserve <;> simp
    · cases preserve <;> simp [discardNodes]
  | cons node nodes ih =>
    obtain ⟨hok, hover⟩ := discardNode_spec state avrules (hdef node (List.mem_cons_self ..))
      (hapart node (List.mem_cons_self ..)) hseen
    by_cases hfit : ((operands node.expr).filter fun i => IsTunable flags i ∧ i ∉ seen).length ≤ condExprMaxdepth
    · obtain ⟨node', hnode, hdisc⟩ := hok hfit
      have hseen' : preserve = false → (if preserve then seen ++ operands node.expr else seen) = [] := by
        intro h
        rw [h, if_neg Bool.false_ne_true, hseen h]
      have hacc : (if preserve then (if preserve then seen ++ operands node.expr else seen) ++
            nodes.flatMap (fun node => operands node.expr)
          else if preserve then seen ++ operands node.expr else seen) =
          if preserve then seen ++ (node :: nodes).flatMap (fun node => operands node.expr) else seen := by
        cases preserve <;> simp
      have hstep : TunablesFit preserve flags seen (node.expr :: (nodes.map (fun node => node.expr) ++ rest)) =
          TunablesFit preserve flags (if preserve then seen ++ operands node.expr else seen)
            (nodes.map (fun node => node.expr) ++ rest) := by
        rw [TunablesFit, eq_true hfit, true_and]
      rw [List.map_cons, List.cons_append, hstep, discardNodes, hnode]
      dsimp only
      rcases ih _ (avrules ++ discardedRules preserve state flags node)
        (fun node hnode => hdef node (List.mem_cons_of_mem _ hnode))
        (fun node hnode => hapart node (List.mem_cons_of_mem _ hnode)) hseen' with
        ⟨condList, hfits, hrun, hlist⟩ | ⟨hfits, hrun⟩
      · rw [hacc] at hfits hrun
        rw [hrun]
        refine Or.inl ⟨node' :: condList, hfits, ?_, List.Forall₂.cons hdisc hlist⟩
        simp only [List.flatMap_cons, List.append_assoc]
      · rw [hrun]
        exact Or.inr ⟨hfits, rfl⟩
    · refine Or.inr ⟨fun h => hfit h.1, ?_⟩
      rw [discardNodes, hover hfit]

/-- What a run over the blocks does when the tunables in `seen` have become booleans. -/
def DiscardsBlocks (preserve : Bool) (state : Nat → Bool) (flags : Nat → Nat) (seen : List Nat)
    (blocks : List (Option (CondDecl α β))) : Prop :=
  (TunablesFit preserve flags seen ((enabledNodes blocks).map fun node => node.expr) → ∃ blocks',
    discardTunables preserve state blocks (seenFlags flags seen) =
      .ok (seenFlags flags (if preserve then
        seen ++ (enabledNodes blocks).flatMap (fun node => operands node.expr) else seen), blocks') ∧
      List.Forall₂ (BlockDiscarded preserve state flags) blocks blocks') ∧
  (¬ TunablesFit preserve flags seen ((enabledNodes blocks).map fun node => node.expr) →
    discardTunables preserve state blocks (seenFlags flags seen) = .error .arrayBounds)

/-- A block without an enabled declaration is skipped. -/
theorem DiscardsBlocks.skip {block : Option (CondDecl α β)} {next : List (Option (CondDecl α β))}
    (h : DiscardsBlocks preserve state flags seen next) (hnodes : enabledNodes (block :: next) = enabledNodes next)
    (hblock : BlockDiscarded preserve state flags block block)
    (hrun : discardTunables preserve state (block :: next) (seenFlags flags seen) =
      (discardTunables preserve state next (seenFlags flags seen)).map fun r => (r.1, block :: r.2)) :
    DiscardsBlocks preserve state flags seen (block :: next) := by
  obtain ⟨hok, herr⟩ := h
  unfold DiscardsBlocks
  rw [hnodes, hrun]
  refine ⟨fun h => ?_, fun h => by rw [herr h]; rfl⟩
  obtain ⟨blocks', heq, hlist⟩ := hok h
  exact ⟨block :: blocks', by rw [heq]; rfl, List.Forall₂.cons hblock hlist⟩

/-- The blocks, one after the other. -/
private theorem discardTunables_spec (state : Nat → Bool) (blocks : List (Option (CondDecl α β))) (seen : List Nat)
    (hdef : ∀ node ∈ enabledNodes blocks, ExprDefined node.expr)
    (hapart : ∀ node ∈ enabledNodes blocks, TunablesApart flags node.expr) (hseen : preserve = false → seen = []) :
    DiscardsBlocks preserve state flags seen blocks := by
  induction blocks generalizing seen with
  | nil =>
    refine ⟨fun _ => ⟨[], ?_, List.Forall₂.nil⟩, fun h => (h trivial).elim⟩
    cases preserve <;> simp [discardTunables, enabledNodes]
  | cons block next ih =>
    have hsub : ∀ node ∈ enabledNodes next, node ∈ enabledNodes (block :: next) := by
      intro node hnode
      rw [enabledNodes, List.flatMap_cons]
      exact List.mem_append_right _ hnode
    have hrest := fun seen => ih seen (fun node hnode => hdef node (hsub node hnode))
      (fun node hnode => hapart node (hsub node hnode))
    cases block with
    | none => exact (hrest seen hseen).skip rfl BlockDiscarded.none rfl
    | some decl =>
      by_cases henabled : decl.enabled = true
      · have hnodes : enabledNodes (some decl :: next) = decl.condList ++ enabledNodes next := by
          rw [enabledNodes, List.flatMap_cons, ← enabledNodes]
          simp only [henabled, if_true]
        rw [hnodes] at hdef hapart
        have hseen' : preserve = false →
            (if preserve then seen ++ decl.condList.flatMap (fun node => operands node.expr) else seen) = [] := by
          intro h
          rw [h, if_neg Bool.false_ne_true, hseen h]
        have hacc : (if preserve then
              (if preserve then seen ++ decl.condList.flatMap (fun node => operands node.expr) else seen) ++
                (enabledNodes next).flatMap fun node => operands node.expr
            else if preserve then seen ++ decl.condList.flatMap (fun node => operands node.expr) else seen) =
            if preserve then seen ++ (enabledNodes (some decl :: next)).flatMap (fun node => operands node.expr)
            else seen := by
          rw [hnodes]
          cases preserve <;> simp
        have hdecl := discardNodes_spec state decl.condList seen decl.avrules
          (fun node hnode => hdef node (List.mem_append_left _ hnode))
          (fun node hnode => hapart node (List.mem_append_left _ hnode)) hseen
          ((enabledNodes next).map fun node => node.expr)
        rw [← List.map_append, ← hnodes] at hdecl
        unfold DiscardsBlocks
        rw [discardTunables, if_neg (by rw [henabled]; exact Bool.false_ne_true)]
        rcases hdecl with ⟨condList, hfits, hrun, hlist⟩ | ⟨hfits, hrun⟩
        · obtain ⟨hok, herr⟩ := hrest _ hseen'
          rw [hacc] at hok
          rw [hrun, hfits]
          dsimp only
          refine ⟨fun h => ?_, fun h => by rw [herr h]; rfl⟩
          obtain ⟨blocks', heq, hblocks⟩ := hok h
          rw [heq]
          exact ⟨_, rfl, List.Forall₂.cons (BlockDiscarded.enabled henabled hlist) hblocks⟩
        · rw [hrun]
          exact ⟨fun h => absurd h hfits, fun _ => rfl⟩
      · have hdisabled : decl.enabled = false := Bool.not_eq_true _ ▸ henabled
        refine (hrest seen hseen).skip ?_ (BlockDiscarded.disabled hdisabled) ?_
        · rw [enabledNodes, List.flatMap_cons, ← enabledNodes]
          simp only [hdisabled, Bool.false_eq_true, if_false, List.nil_append]
        · rw [discardTunables]
          simp only [hdisabled, Bool.not_false, if_true]

/-- For conditionals with valid expressions, which are about tunables or about booleans, `discard_tunables` does what
it is for exactly when the tunables of every expression fit the array. -/
theorem discardTunables_iff (preserve : Bool) (state : Nat → Bool) (flags : Nat → Nat) (boolean : Validate)
    (blocks : List (Option (CondDecl α β)))
    (hvalid : ∀ node ∈ enabledNodes blocks, validateCondExpr node.expr boolean = true)
    (hapart : ∀ node ∈ enabledNodes blocks, TunablesApart flags node.expr) :
    TunablesDiscarded preserve state flags blocks ↔
      TunablesFit preserve flags [] ((enabledNodes blocks).map fun node => node.expr) := by
  have hdef : ∀ node ∈ enabledNodes blocks, ExprDefined node.expr := by
    intro node hnode σ
    obtain ⟨t, ⟨-, heval⟩, -⟩ := validateCondExpr_evaluates node.expr boolean (hvalid node hnode)
    rw [(heval σ fun _ => none).2]
    rfl
  obtain ⟨hok, herr⟩ := discardTunables_spec state blocks [] hdef hapart fun _ => rfl
  rw [seenFlags_nil] at hok herr
  constructor
  · intro ⟨flags', blocks', hrun, _⟩
    by_contra hover
    rw [herr hover] at hrun
    cases hrun
  · intro hfit
    obtain ⟨blocks', hrun, hblocks⟩ := hok hfit
    refine ⟨_, blocks', hrun, hblocks, fun i => ?_⟩
    cases preserve <;> simp [seenFlags]

/-- A conditional whose expression is the first boolean `n + 1` times, joined by `||`. -/
def tunableOrs (n : Nat) : CondNodeT Nat Nat where
  curState := none
  expr := ⟨condBool, 1⟩ :: (List.replicate n [⟨condBool, 1⟩, ⟨condOr, 0⟩]).flatten
  trueList := []
  falseList := []
  avtrueList := [1]
  avfalseList := [2]
  nbools := 0
  boolIds := []
  exprPreComp := 0
  flags := 0

/-- One declaration with the conditional. -/
def tunableBlocks (n : Nat) : List (Option (CondDecl Nat Nat)) := [some ⟨true, [0], [tunableOrs n]⟩]

private theorem tunableBlocks_valid (n : Nat) (h : validateCondExpr (tunableOrs n).expr ⟨1, ebitmapInit⟩ = true) :
    ∀ node ∈ enabledNodes (tunableBlocks n), validateCondExpr node.expr ⟨1, ebitmapInit⟩ = true := by
  intro node hnode
  rw [List.mem_singleton.1 (show node ∈ [tunableOrs n] from hnode)]
  exact h

private theorem tunableBlocks_apart (n : Nat) :
    ∀ node ∈ enabledNodes (tunableBlocks n), TunablesApart (fun _ => condBoolFlagsTunable) node.expr :=
  fun _ _ => Or.inl fun _ _ => show condBoolFlagsTunable &&& condBoolFlagsTunable ≠ 0 by decide

/-- A tunable that occurs three times is discarded. -/
theorem discardTunables_iff_three : TunablesDiscarded false (fun _ => true) (fun _ => condBoolFlagsTunable)
    (tunableBlocks 2) :=
  (discardTunables_iff false (fun _ => true) (fun _ => condBoolFlagsTunable) ⟨1, ebitmapInit⟩ (tunableBlocks 2)
    (tunableBlocks_valid 2 (by decide)) (tunableBlocks_apart 2)).2 ⟨by decide, trivial⟩

/-- A valid expression of depth two in which a tunable occurs eleven times: the array is overrun. -/
theorem discardTunables_overrun :
    (∀ node ∈ enabledNodes (tunableBlocks 10), validateCondExpr node.expr ⟨1, ebitmapInit⟩ = true) ∧
      (∀ node ∈ enabledNodes (tunableBlocks 10), TunablesApart (fun _ => condBoolFlagsTunable) node.expr) ∧
      ¬ TunablesDiscarded false (fun _ => true) (fun _ => condBoolFlagsTunable) (tunableBlocks 10) := by
  refine ⟨tunableBlocks_valid 10 (by decide), tunableBlocks_apart 10, ?_⟩
  intro ⟨flags', blocks', hrun, _⟩
  have herr : discardTunables false (fun _ => true) (tunableBlocks 10) (fun _ => condBoolFlagsTunable) =
      .error .arrayBounds := rfl
  rw [herr] at hrun
  cases hrun

end Sepol
