import Sepol.CilDenyExact

/-!
# Deny rules in the tree

The rules of a policy stand in a tree of nodes.  A walk goes past macros and abstract blocks; it finds the allow rules
that match a deny rule, and each of them is replaced by the rules for what is left.  Nodes are told apart by their
address.
-/

namespace Sepol

open Outcome

/-- A node of the tree: an allow rule or a like rule, a deny rule, or any other node with its children, which the
walks skip for a macro and an abstract block. -/
inductive CilTreeNode where
  | avrule (address : Nat) (rule : CilAvrule)
  | denyRule (address : Nat) (rule : CilDenyRule)
  | other (skipHead : Bool) (children : List CilTreeNode)

/-- The address of a rule. -/
def CilTreeNode.address : CilTreeNode → Option Nat
  | .avrule address _ => some address
  | .denyRule address _ => some address
  | .other _ _ => none

mutual

/-- The nodes a walk visits that hold a rule with class permissions, in its order. -/
def cilTreeAvrules : List CilTreeNode → List (Nat × CilAvrule)
  | [] => []
  | node :: rest => cilNodeAvrules node ++ cilTreeAvrules rest

def cilNodeAvrules : CilTreeNode → List (Nat × CilAvrule)
  | .avrule address rule => [(address, rule)]
  | .denyRule _ _ => []
  | .other skipHead children => if skipHead then [] else cilTreeAvrules children

end

mutual

/-- The deny rules a walk visits. -/
def cilFindDenyRules : List CilTreeNode → List (Nat × CilDenyRule)
  | [] => []
  | node :: rest => cilNodeDenyRules node ++ cilFindDenyRules rest

def cilNodeDenyRules : CilTreeNode → List (Nat × CilDenyRule)
  | .avrule _ _ => []
  | .denyRule address rule => [(address, rule)]
  | .other skipHead children => if skipHead then [] else cilFindDenyRules children

end

mutual

/-- `cil_create_and_insert_node`: a new node behind the one at the address `prev`. -/
def cilInsertNode (prev : Nat) (new : CilTreeNode) : List CilTreeNode → List CilTreeNode
  | [] => []
  | node :: rest =>
    if node.address = some prev then node :: new :: rest
      else cilInsertBelow prev new node :: cilInsertNode prev new rest

def cilInsertBelow (prev : Nat) (new : CilTreeNode) : CilTreeNode → CilTreeNode
  | .avrule address rule => .avrule address rule
  | .denyRule address rule => .denyRule address rule
  | .other skipHead children => .other skipHead (cilInsertNode prev new children)

end

mutual

/-- `cil_tree_node_remove` for a node without children. -/
def cilTreeNodeRemove (node : Nat) : List CilTreeNode → List CilTreeNode
  | [] => []
  | curr :: rest =>
    if curr.address = some node then rest else cilRemoveBelow node curr :: cilTreeNodeRemove node rest

def cilRemoveBelow (node : Nat) : CilTreeNode → CilTreeNode
  | .avrule address rule => .avrule address rule
  | .denyRule address rule => .denyRule address rule
  | .other skipHead children => .other skipHead (cilTreeNodeRemove node children)

end

/-- The new rules behind the node `prev`, one behind the other, each at the next free address. -/
def cilInsertRules (prev : Nat) : List CilAvrule → Nat → List CilTreeNode → List CilTreeNode
  | [], _, tree => tree
  | rule :: rules, next, tree => cilInsertRules next rules (next + 1) (cilInsertNode prev (.avrule next rule) tree)

/-- The state of the processing: the database, the tree and the next free address for a node. -/
structure CilDenyState where
  db : CilDb
  tree : List CilTreeNode
  nextNode : Nat

/-- `cil_find_matching_allow_rules`: the nodes of the rules that match, before any of them is replaced. -/
def cilFindMatchingAllowRules (deny : CilDenyRule) :
    List (Nat × CilAvrule) → Except CilDenyError (List (Nat × CilAvrule))
  | [] => .ok []
  | node :: rest =>
    match cilFindMatchingAvrule node.2 deny.target with
    | none => .error .ebitmap
    | some rc => (cilFindMatchingAllowRules deny rest).map fun matching => if rc then node :: matching else matching

/-- One turn of the loop of `cil_process_deny_rule`: the rule is replaced. -/
def cilReplaceAllowRule (deny : CilDenyRule) (state : CilDenyState) (node : Nat × CilAvrule) :
    Except CilDenyError CilDenyState := do
  let (rules, db) ← cilRemovePermissionsFromRule state.db node.2 deny
  let tree := cilInsertRules node.1 rules state.nextNode state.tree
  .ok ⟨db, cilTreeNodeRemove node.1 tree, state.nextNode + rules.length⟩

def cilProcessDenyRule (state : CilDenyState) (deny : CilDenyRule) : Except CilDenyError CilDenyState := do
  let matching ← cilFindMatchingAllowRules deny (cilTreeAvrules state.tree)
  matching.foldlM (cilReplaceAllowRule deny) state

/-- One turn of the loop of `cil_process_deny_rules`. -/
def cilProcessAndRemoveDenyRule (state : CilDenyState) (node : Nat × CilDenyRule) :
    Except CilDenyError CilDenyState := do
  let state ← cilProcessDenyRule state node.2
  .ok { state with tree := cilTreeNodeRemove node.1 state.tree }

def cilProcessDenyRules (state : CilDenyState) (denyRules : List (Nat × CilDenyRule)) :
    Except CilDenyError CilDenyState :=
  denyRules.foldlM cilProcessAndRemoveDenyRule state

def cilProcessDenyRulesInAst (state : CilDenyState) : Except CilDenyError CilDenyState :=
  cilProcessDenyRules state (cilFindDenyRules state.tree)

/-! ### Nodes and their addresses -/

mutual

/-- The addresses of the rules of the whole tree. -/
def cilAddresses : List CilTreeNode → List Nat
  | [] => []
  | node :: rest => cilNodeAddresses node ++ cilAddresses rest

def cilNodeAddresses : CilTreeNode → List Nat
  | .avrule address _ => [address]
  | .denyRule address _ => [address]
  | .other _ children => cilAddresses children

end

section Equations

variable (address prev : Nat) (rule : CilAvrule) (deny : CilDenyRule) (skipHead : Bool) (new : CilTreeNode)
  (children rest : List CilTreeNode)

private theorem cilTreeAvrules_avrule : cilTreeAvrules (.avrule address rule :: rest) =
    (address, rule) :: cilTreeAvrules rest :=
  rfl

private theorem cilTreeAvrules_denyRule : cilTreeAvrules (.denyRule address deny :: rest) = cilTreeAvrules rest := rfl

theorem cilTreeAvrules_other : cilTreeAvrules (.other skipHead children :: rest) =
    (if skipHead then [] else cilTreeAvrules children) ++ cilTreeAvrules rest := rfl

theorem cilAddresses_avrule : cilAddresses (.avrule address rule :: rest) = address :: cilAddresses rest := rfl

theorem cilAddresses_denyRule : cilAddresses (.denyRule address deny :: rest) = address :: cilAddresses rest := rfl

theorem cilAddresses_other :
    cilAddresses (.other skipHead children :: rest) = cilAddresses children ++ cilAddresses rest := rfl

private theorem cilInsertNode_avrule : cilInsertNode prev new (.avrule address rule :: rest) =
    if address = prev then .avrule address rule :: new :: rest
    else .avrule address rule :: cilInsertNode prev new rest := by
  simp only [cilInsertNode, cilInsertBelow, CilTreeNode.address, Option.some_inj]

private theorem cilInsertNode_denyRule : cilInsertNode prev new (.denyRule address deny :: rest) =
    if address = prev then .denyRule address deny :: new :: rest
    else .denyRule address deny :: cilInsertNode prev new rest := by
  simp only [cilInsertNode, cilInsertBelow, CilTreeNode.address, Option.some_inj]

private theorem cilInsertNode_other : cilInsertNode prev new (.other skipHead children :: rest) =
    .other skipHead (cilInsertNode prev new children) :: cilInsertNode prev new rest := rfl

private theorem cilTreeNodeRemove_avrule : cilTreeNodeRemove prev (.avrule address rule :: rest) =
    if address = prev then rest else .avrule address rule :: cilTreeNodeRemove prev rest := by
  simp only [cilTreeNodeRemove, cilRemoveBelow, CilTreeNode.address, Option.some_inj]

private theorem cilTreeNodeRemove_denyRule : cilTreeNodeRemove prev (.denyRule address deny :: rest) =
    if address = prev then rest else .denyRule address deny :: cilTreeNodeRemove prev rest := by
  simp only [cilTreeNodeRemove, cilRemoveBelow, CilTreeNode.address, Option.some_inj]

private theorem cilTreeNodeRemove_other : cilTreeNodeRemove prev (.other skipHead children :: rest) =
    .other skipHead (cilTreeNodeRemove prev children) :: cilTreeNodeRemove prev rest := rfl

end Equations

theorem CilTreeNode.listInduction {P : List CilTreeNode → Prop} (nil : P [])
    (avrule : ∀ address rule rest, P rest → P (.avrule address rule :: rest))
    (denyRule : ∀ address rule rest, P rest → P (.denyRule address rule :: rest))
    (other : ∀ skipHead children rest, P children → P rest → P (.other skipHead children :: rest)) : ∀ tree, P tree
  | [] => nil
  | .avrule address rule :: rest => avrule address rule rest (listInduction nil avrule denyRule other rest)
  | .denyRule address rule :: rest => denyRule address rule rest (listInduction nil avrule denyRule other rest)
  | .other skipHead children :: rest =>
    other skipHead children rest (listInduction nil avrule denyRule other children)
      (listInduction nil avrule denyRule other rest)

theorem mem_cilAddresses_of_avrule {node : Nat × CilAvrule} (tree : List CilTreeNode) :
    node ∈ cilTreeAvrules tree → node.1 ∈ cilAddresses tree := by
  induction tree using CilTreeNode.listInduction with
  | nil => simp [cilTreeAvrules]
  | avrule address rule rest ih =>
    intro h
    rw [cilTreeAvrules_avrule] at h
    rw [cilAddresses_avrule]
    rcases List.mem_cons.1 h with rfl | h
    · exact List.mem_cons_self ..
    · exact List.mem_cons_of_mem _ (ih h)
  | denyRule address rule rest ih =>
    intro h
    rw [cilTreeAvrules_denyRule] at h
    rw [cilAddresses_denyRule]
    exact List.mem_cons_of_mem _ (ih h)
  | other skipHead children rest ihc ih =>
    intro h
    rw [cilTreeAvrules_other] at h
    rw [cilAddresses_other, List.mem_append]
    rcases List.mem_append.1 h with h | h
    · cases skipHead with
      | true => cases h
      | false => exact .inl (ihc h)
    · exact .inr (ih h)

private theorem cilInsertNode_of_notMem {prev : Nat} (new : CilTreeNode) (tree : List CilTreeNode) :
    prev ∉ cilAddresses tree → cilInsertNode prev new tree = tree := by
  induction tree using CilTreeNode.listInduction with
  | nil => intro _; rw [cilInsertNode]
  | avrule address rule rest ih =>
    intro h
    rw [cilAddresses_avrule, List.mem_cons, not_or] at h
    rw [cilInsertNode_avrule, if_neg (Ne.symm h.1), ih h.2]
  | denyRule address rule rest ih =>
    intro h
    rw [cilAddresses_denyRule, List.mem_cons, not_or] at h
    rw [cilInsertNode_denyRule, if_neg (Ne.symm h.1), ih h.2]
  | other skipHead children rest ihc ih =>
    intro h
    rw [cilAddresses_other, List.mem_append, not_or] at h
    rw [cilInsertNode_other, ihc h.1, ih h.2]

private theorem cilTreeNodeRemove_of_notMem {node : Nat} (tree : List CilTreeNode) :
    node ∉ cilAddresses tree → cilTreeNodeRemove node tree = tree := by
  induction tree using CilTreeNode.listInduction with
  | nil => intro _; rw [cilTreeNodeRemove]
  | avrule address rule rest ih =>
    intro h
    rw [cilAddresses_avrule, List.mem_cons, not_or] at h
    rw [cilTreeNodeRemove_avrule, if_neg (Ne.symm h.1), ih h.2]
  | denyRule address rule rest ih =>
    intro h
    rw [cilAddresses_denyRule, List.mem_cons, not_or] at h
    rw [cilTreeNodeRemove_denyRule, if_neg (Ne.symm h.1), ih h.2]
  | other skipHead children rest ihc ih =>
    intro h
    rw [cilAddresses_other, List.mem_append, not_or] at h
    rw [cilTreeNodeRemove_other, ihc h.1, ih h.2]

/-- A rule inserted behind a node that the walk visits is visited as well. -/
theorem cilTreeAvrules_insertNode {prev next : Nat} {rule : CilAvrule} (tree : List CilTreeNode) :
    (cilAddresses tree).Nodup → (∃ r, (prev, r) ∈ cilTreeAvrules tree) →
      (cilTreeAvrules (cilInsertNode prev (.avrule next rule) tree)).Perm ((next, rule) :: cilTreeAvrules tree) ∧
        (cilAddresses (cilInsertNode prev (.avrule next rule) tree)).Perm (next :: cilAddresses tree) := by
  induction tree using CilTreeNode.listInduction with
  | nil => rintro - ⟨r, hr⟩; simp [cilTreeAvrules] at hr
  | avrule address r rest ih =>
    rintro hnd ⟨r', hr'⟩
    rw [cilAddresses_avrule, List.nodup_cons] at hnd
    rw [cilTreeAvrules_avrule] at hr'
    rw [cilInsertNode_avrule]
    split
    · simp only [cilTreeAvrules_avrule, cilAddresses_avrule]
      exact ⟨List.Perm.swap .., List.Perm.swap ..⟩
    · rename_i hne
      have hrest : (prev, r') ∈ cilTreeAvrules rest := by
        rcases List.mem_cons.1 hr' with h | h
        · exact absurd (congrArg Prod.fst h).symm hne
        · exact h
      obtain ⟨h1, h2⟩ := ih hnd.2 ⟨r', hrest⟩
      simp only [cilTreeAvrules_avrule, cilAddresses_avrule]
      exact ⟨(h1.cons _).trans (List.Perm.swap ..), (h2.cons _).trans (List.Perm.swap ..)⟩
  | denyRule address r rest ih =>
    rintro hnd ⟨r', hr'⟩
    rw [cilAddresses_denyRule, List.nodup_cons] at hnd
    rw [cilTreeAvrules_denyRule] at hr'
    have hne : address ≠ prev := by
      rintro rfl
      exact hnd.1 (mem_cilAddresses_of_avrule rest hr')
    obtain ⟨h1, h2⟩ := ih hnd.2 ⟨r', hr'⟩
    rw [cilInsertNode_denyRule, if_neg hne]
    simp only [cilTreeAvrules_denyRule, cilAddresses_denyRule]
    exact ⟨h1, (h2.cons _).trans (List.Perm.swap ..)⟩
  | other skipHead children rest ihc ih =>
    rintro hnd ⟨r', hr'⟩
    rw [cilAddresses_other, List.nodup_append'] at hnd
    obtain ⟨hndc, hndr, hdisj⟩ := hnd
    rw [cilTreeAvrules_other, List.mem_append] at hr'
    rw [cilInsertNode_other]
    simp only [cilTreeAvrules_other, cilAddresses_other]
    rcases hr' with hr' | hr'
    · cases skipHead with
      | true => cases hr'
      | false =>
        obtain ⟨h1, h2⟩ := ihc hndc ⟨r', hr'⟩
        rw [cilInsertNode_of_notMem _ rest (hdisj (mem_cilAddresses_of_avrule children hr'))]
        exact ⟨h1.append_right _, h2.append_right _⟩
    · obtain ⟨h1, h2⟩ := ih hndr ⟨r', hr'⟩
      rw [cilInsertNode_of_notMem _ children fun h => hdisj h (mem_cilAddresses_of_avrule rest hr')]
      exact ⟨(h1.append_left _).trans List.perm_middle, (h2.append_left _).trans List.perm_middle⟩

/-- A rule that the walk visits is taken out. -/
theorem cilTreeAvrules_remove {node : Nat} {rule : CilAvrule} (tree : List CilTreeNode) :
    (cilAddresses tree).Nodup → (node, rule) ∈ cilTreeAvrules tree →
      (cilTreeAvrules tree).Perm ((node, rule) :: cilTreeAvrules (cilTreeNodeRemove node tree)) := by
  induction tree using CilTreeNode.listInduction with
  | nil => intro _ h; simp [cilTreeAvrules] at h
  | avrule address r rest ih =>
    intro hnd h
    rw [cilAddresses_avrule, List.nodup_cons] at hnd
    rw [cilTreeAvrules_avrule] at h
    rw [cilTreeNodeRemove_avrule, cilTreeAvrules_avrule]
    split
    · rename_i heq
      rcases List.mem_cons.1 h with h | h
      · rw [h]
      · exact absurd (heq ▸ mem_cilAddresses_of_avrule rest h) hnd.1
    · rename_i hne
      rcases List.mem_cons.1 h with h | h
      · exact absurd (congrArg Prod.fst h).symm hne
      · rw [cilTreeAvrules_avrule]
        exact ((ih hnd.2 h).cons _).trans (List.Perm.swap ..)
  | denyRule address r rest ih =>
    intro hnd h
    rw [cilAddresses_denyRule, List.nodup_cons] at hnd
    rw [cilTreeAvrules_denyRule] at h
    have hne : address ≠ node := by
      rintro rfl
      exact hnd.1 (mem_cilAddresses_of_avrule rest h)
    rw [cilTreeNodeRemove_denyRule, if_neg hne, cilTreeAvrules_denyRule, cilTreeAvrules_denyRule]
    exact ih hnd.2 h
  | other skipHead children rest ihc ih =>
    intro hnd h
    rw [cilAddresses_other, List.nodup_append'] at hnd
    obtain ⟨hndc, hndr, hdisj⟩ := hnd
    rw [cilTreeAvrules_other, List.mem_append] at h
    rw [cilTreeNodeRemove_other, cilTreeAvrules_other, cilTreeAvrules_other]
    rcases h with h | h
    · cases skipHead with
      | true => cases h
      | false =>
        rw [cilTreeNodeRemove_of_notMem rest (hdisj (mem_cilAddresses_of_avrule children h))]
        exact (ihc hndc h).append_right _
    · rw [cilTreeNodeRemove_of_notMem children fun hc => hdisj hc (mem_cilAddresses_of_avrule rest h)]
      exact ((ih hndr h).append_left _).trans List.perm_middle

theorem cilAddresses_remove_sublist {node : Nat} (tree : List CilTreeNode) :
    (cilAddresses (cilTreeNodeRemove node tree)).Sublist (cilAddresses tree) := by
  induction tree using CilTreeNode.listInduction with
  | nil => rw [cilTreeNodeRemove]
  | avrule address rule rest ih =>
    rw [cilTreeNodeRemove_avrule, cilAddresses_avrule]
    split
    · exact List.sublist_cons_self ..
    · rw [cilAddresses_avrule]
      exact ih.cons_cons _
  | denyRule address rule rest ih =>
    rw [cilTreeNodeRemove_denyRule, cilAddresses_denyRule]
    split
    · exact List.sublist_cons_self ..
    · rw [cilAddresses_denyRule]
      exact ih.cons_cons _
  | other skipHead children rest ihc ih =>
    rw [cilTreeNodeRemove_other, cilAddresses_other, cilAddresses_other]
    exact ihc.append ih

/-- A deny rule is taken out without a change to the rules of the walk. -/
theorem cilTreeAvrules_removeDenyRule {node : Nat} (tree : List CilTreeNode) :
    (∀ r, (node, r) ∉ cilTreeAvrules tree) → cilTreeAvrules (cilTreeNodeRemove node tree) = cilTreeAvrules tree := by
  induction tree using CilTreeNode.listInduction with
  | nil => intro _; rw [cilTreeNodeRemove]
  | avrule address rule rest ih =>
    intro h
    rw [cilTreeAvrules_avrule] at h
    have hne : address ≠ node := by
      rintro rfl
      exact h rule (List.mem_cons_self ..)
    rw [cilTreeNodeRemove_avrule, if_neg hne, cilTreeAvrules_avrule, cilTreeAvrules_avrule,
      ih fun r hr => h r (List.mem_cons_of_mem _ hr)]
  | denyRule address rule rest ih =>
    intro h
    rw [cilTreeAvrules_denyRule] at h
    rw [cilTreeNodeRemove_denyRule, cilTreeAvrules_denyRule]
    split
    · rfl
    · rw [cilTreeAvrules_denyRule, ih h]
  | other skipHead children rest ihc ih =>
    intro h
    rw [cilTreeAvrules_other] at h
    rw [cilTreeNodeRemove_other, cilTreeAvrules_other, cilTreeAvrules_other,
      ih fun r hr => h r (List.mem_append_right _ hr)]
    cases skipHead with
    | true => rfl
    | false => rw [ihc fun r hr => h r (List.mem_append_left _ hr)]

end Sepol
