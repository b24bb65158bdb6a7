import Mathlib

/-!
# Block inheritance in CIL

The tree of blocks and `blockinherit` statements, the link pass that gives every block the list of the statements that
inherit it (`bi_nodes`), and the copy pass that puts a copy of a block's body below each of them.  Copies bring new
`blockinherit` statements with them, which are appended to the lists while these are walked.
-/

namespace Sepol

/-! ### Trees -/

/-- What inheritance reads of a node.  A node is named by a number (its address); `head` is the block whose datum has
this node as its first, and a copied or merged block node is the first node of no datum that is inherited.  A
`blockinherit` has no block while its name is not resolved. -/
inductive CilBlkFlavor where
  | block (head : Option Nat)
  | blockinherit (addr : Nat) (block : Option Nat)
  | optional (disabled : Bool)
  | blockabstract
  | other
  deriving DecidableEq, Repr

/-- A node with its first child and its next sibling. -/
inductive CilBlkTree where
  | nil
  | node (flavor : CilBlkFlavor) (clHead next : CilBlkTree)
  deriving DecidableEq, Repr

def CilBlkFlavor.head : CilBlkFlavor → Option Nat
  | .block head => head
  | _ => none

/-- The address and the block of a `blockinherit`. -/
def CilBlkFlavor.bi : CilBlkFlavor → Option (Nat × Option Nat)
  | .blockinherit addr inherited => some (addr, inherited)
  | _ => none

namespace CilBlkTree

/-- The blocks of the tree, in the order of a walk. -/
def heads : CilBlkTree → List Nat
  | nil => []
  | node flavor clHead next => flavor.head.toList ++ clHead.heads ++ next.heads

/-- The `blockinherit` statements of the tree, in the order of a walk. -/
def bis : CilBlkTree → List (Nat × Option Nat)
  | nil => []
  | node flavor clHead next => flavor.bi.toList ++ clHead.bis ++ next.bis

/-- The children of the node of block `b`. -/
def findBody (b : Nat) : CilBlkTree → Option CilBlkTree
  | nil => none
  | node flavor clHead next =>
    if flavor.head = some b then some clHead else (clHead.findBody b).or (next.findBody b)

/-- Siblings added at the end. -/
def append : CilBlkTree → CilBlkTree → CilBlkTree
  | nil, new => new
  | node flavor clHead next, new => node flavor clHead (next.append new)

/-- New children for the `blockinherit` at address `a`, after those it has. -/
def insertAt (a : Nat) (new : CilBlkTree) : CilBlkTree → CilBlkTree
  | nil => nil
  | node flavor clHead next =>
    node flavor
      (if flavor.bi.map Prod.fst = some a then (insertAt a new clHead).append new else insertAt a new clHead)
      (insertAt a new next)

end CilBlkTree

/-! ### The passes -/

/-- `cil_tree_children_destroy` on every optional that was disabled. -/
def cilDestroyDisabled : CilBlkTree → CilBlkTree
  | .nil => .nil
  | .node flavor clHead next =>
    .node flavor (if flavor = .optional true then .nil else cilDestroyDisabled clHead) (cilDestroyDisabled next)

/-- The `blockinherit` statements of the tree that inherit block `b`, in the order in which
`cil_resolve_blockinherit_link` appends them to its `bi_nodes`. -/
def cilResolveBlockinheritLink (t : CilBlkTree) (b : Nat) : List Nat :=
  t.bis.filterMap fun p => if p.2 = some b then some p.1 else none

/-- The nodes that `cil_copy_ast` makes of the children of a block.  New nodes get the next unused addresses. -/
def cilCopyNodes : CilBlkTree → Nat → CilBlkTree × Nat
  | .nil, fresh => (.nil, fresh)
  -- inheriting a block does not copy its blockabstract statements
  | .node .blockabstract _ next, fresh => cilCopyNodes next fresh
  | .node (.blockinherit _ block) clHead next, fresh =>
    let children := cilCopyNodes clHead (fresh + 1)
    let siblings := cilCopyNodes next children.2
    (.node (.blockinherit fresh block) children.1 siblings.1, siblings.2)
  | .node (.block _) clHead next, fresh =>
    let children := cilCopyNodes clHead fresh
    let siblings := cilCopyNodes next children.2
    (.node (.block none) children.1 siblings.1, siblings.2)
  | .node (.optional disabled) clHead next, fresh =>
    let children := cilCopyNodes clHead fresh
    let siblings := cilCopyNodes next children.2
    (.node (.optional disabled) children.1 siblings.1, siblings.2)
  | .node .other clHead next, fresh =>
    let children := cilCopyNodes clHead fresh
    let siblings := cilCopyNodes next children.2
    (.node .other children.1 siblings.1, siblings.2)

/-- The tree, the `bi_nodes` of each block, the next unused address and the number of calls of `cil_copy_ast`. -/
structure CilInheritState where
  tree : CilBlkTree
  biNodes : Nat → List Nat
  fresh : Nat
  copies : Nat

/-- The state after the link pass and the removal of disabled optionals. -/
def CilInheritState.init (t : CilBlkTree) : CilInheritState where
  tree := t
  biNodes := cilResolveBlockinheritLink t
  fresh := (t.bis.map fun p => p.1 + 1).foldr max 0
  copies := 0

/-- `cil_copy_ast` of the body of block `b` to the `blockinherit` at address `a`.  A copy into a place inside the body
that is copied would never end. -/
def cilCopyAst (b a : Nat) (s : CilInheritState) : Option CilInheritState := do
  let body ← s.tree.findBody b
  if a ∈ body.bis.map Prod.fst then none
  else
    let new := cilCopyNodes body s.fresh
    some {
      tree := .insertAt a new.1 s.tree
      biNodes := fun c => s.biNodes c ++ cilResolveBlockinheritLink new.1 c
      fresh := new.2
      copies := s.copies + 1 }

/-- The loop of `cil_resolve_blockinherit_copy` at the node of block `b`, from entry `i` of its `bi_nodes` on.  The
list may grow while it is walked; `none` when it did not end within `fuel` rounds. -/
def cilResolveBlockinheritCopy (b : Nat) : Nat → Nat → CilInheritState → Option CilInheritState
  | 0, _, _ => none
  | fuel + 1, i, s =>
    match (s.biNodes b)[i]? with
    | none => some s
    | some a => (cilCopyAst b a s).bind (cilResolveBlockinheritCopy b fuel (i + 1))

/-- The copy pass: a walk over the tree that stops at the first node of each block.  Copies have no such nodes. -/
def cilBlockinheritCopyPass (fuel : Nat) (s : CilInheritState) : Option CilInheritState :=
  s.tree.heads.foldlM (fun s b => cilResolveBlockinheritCopy b fuel 0 s) s

/-! ### Nodes of changed trees -/

variable {t body new : CilBlkTree} {a b fresh : Nat}

namespace CilBlkTree

@[simp] theorem bis_append (t new : CilBlkTree) : (t.append new).bis = t.bis ++ new.bis := by
  induction t with
  | nil => rfl
  | node flavor clHead next _ ih => simp [append, bis, ih]

@[simp] theorem heads_append (t new : CilBlkTree) : (t.append new).heads = t.heads ++ new.heads := by
  induction t with
  | nil => rfl
  | node flavor clHead next _ ih => simp [append, heads, ih]

private theorem findBody_eq_none (h : b ∉ t.heads) : t.findBody b = none := by
  induction t with
  | nil => rfl
  | node flavor clHead next ihc ihn =>
    simp only [heads, List.mem_append, Option.mem_toList, not_or] at h
    rw [findBody, if_neg h.1.1, ihc h.1.2, ihn h.2]
    rfl

theorem bis_sublist_of_findBody (h : t.findBody b = some body) : body.bis.Sublist t.bis := by
  induction t with
  | nil => cases h
  | node flavor clHead next ihc ihn =>
    rw [findBody] at h
    have hchild : clHead.bis.Sublist (bis (node flavor clHead next)) :=
      (List.sublist_append_right _ _).trans (List.sublist_append_left _ _)
    split at h
    · obtain rfl := Option.some.inj h
      exact hchild
    · rcases Option.or_eq_some_iff.1 h with h | ⟨_, h⟩
      · exact (ihc h).trans hchild
      · exact (ihn h).trans (List.sublist_append_right _ _)

theorem exists_findBody (h : b ∈ t.heads) : ∃ body, t.findBody b = some body := by
  induction t with
  | nil => cases h
  | node flavor clHead next ihc ihn =>
    simp only [heads, List.mem_append, Option.mem_toList] at h
    rw [findBody]
    split
    · exact ⟨_, rfl⟩
    · rename_i hne
      rcases h with (h | h) | h
      · exact absurd h hne
      · obtain ⟨body, hbody⟩ := ihc h
        exact ⟨body, by rw [hbody, Option.some_or]⟩
      · obtain ⟨body, hbody⟩ := ihn h
        cases hc : clHead.findBody b with
        | none => exact ⟨body, by rw [Option.none_or, hbody]⟩
        | some other => exact ⟨other, rfl⟩

theorem insertAt_of_notMem (h : a ∉ t.bis.map Prod.fst) : insertAt a new t = t := by
  induction t with
  | nil => rfl
  | node flavor clHead next ihc ihn =>
    simp only [bis, List.map_append, List.mem_append, not_or] at h
    have hne : flavor.bi.map Prod.fst ≠ some a := by
      intro heq
      obtain ⟨p, hp, rfl⟩ := Option.map_eq_some_iff.1 heq
      exact h.1.1 (List.mem_map_of_mem (by simp [hp]))
    rw [insertAt, if_neg hne, ihc h.1.2, ihn h.2]

/-- The statements of the copy are added to those of the tree. -/
theorem bis_insertAt_perm (hnodup : (t.bis.map Prod.fst).Nodup) (h : a ∈ t.bis.map Prod.fst) :
    (insertAt a new t).bis.Perm (new.bis ++ t.bis) := by
  induction t with
  | nil => cases h
  | node flavor clHead next ihc ihn =>
    simp only [bis, List.map_append, List.nodup_append', List.disjoint_append_left] at hnodup
    obtain ⟨⟨_, hc, hfc⟩, hn, hfn, hcn⟩ := hnodup
    simp only [bis, List.map_append, List.mem_append] at h
    rw [insertAt, bis, bis]
    by_cases heq : flavor.bi.map Prod.fst = some a
    · -- the node itself: its address occurs nowhere below it or after it
      have hmem : a ∈ flavor.bi.toList.map Prod.fst := by
        obtain ⟨p, hp, rfl⟩ := Option.map_eq_some_iff.1 heq
        exact List.mem_map_of_mem (by simp [hp])
      rw [if_pos heq, insertAt_of_notMem (hfc hmem), insertAt_of_notMem (hfn hmem), bis_append]
      simp only [← List.append_assoc]
      exact (List.perm_append_comm.trans (by simp)).append_right _
    · rw [if_neg heq]
      have hnot : a ∉ flavor.bi.toList.map Prod.fst := by
        intro hmem
        obtain ⟨p, hp, rfl⟩ := List.mem_map.1 hmem
        exact heq (by rw [Option.mem_toList.1 hp]; rfl)
      by_cases hac : a ∈ clHead.bis.map Prod.fst
      · rw [insertAt_of_notMem (t := next) (hcn hac)]
        have hperm := (ihc hc hac).append_left flavor.bi.toList
        refine (hperm.append_right next.bis).trans ?_
        simp only [← List.append_assoc]
        exact (List.perm_append_comm.append_right _).append_right _
      · have han : a ∈ next.bis.map Prod.fst := (h.resolve_left fun h => h.elim hnot hac)
        rw [insertAt_of_notMem hac]
        refine ((ihn hn han).append_left _).trans ?_
        simp only [← List.append_assoc]
        exact (List.perm_append_comm.trans (by simp)).append_right _

theorem heads_insertAt (h : new.heads = []) (t : CilBlkTree) : (insertAt a new t).heads = t.heads := by
  induction t with
  | nil => rfl
  | node flavor clHead next ihc ihn =>
    rw [insertAt, heads, heads, ihn]
    split
    · rw [heads_append, ihc, h, List.append_nil]
    · rw [ihc]

private theorem findBody_append (h : new.heads = []) (t : CilBlkTree) : (t.append new).findBody b = t.findBody b := by
  induction t with
  | nil => exact findBody_eq_none (by simp [append, h])
  | node flavor clHead next _ ih => rw [append, findBody, findBody, ih]

theorem findBody_insertAt (h : new.heads = []) (t : CilBlkTree) :
    (insertAt a new t).findBody b = (t.findBody b).map (insertAt a new) := by
  induction t with
  | nil => rfl
  | node flavor clHead next ihc ihn =>
    rw [insertAt, findBody, findBody, ihn]
    by_cases hhead : flavor.head = some b
    · -- a block is no blockinherit
      have hbi : flavor.bi.map Prod.fst ≠ some a := by
        cases flavor <;> simp_all [CilBlkFlavor.head, CilBlkFlavor.bi]
      rw [if_pos hhead, if_pos hhead, if_neg hbi]
      rfl
    · rw [if_neg hhead, if_neg hhead]
      have hchild : (if flavor.bi.map Prod.fst = some a then (insertAt a new clHead).append new
          else insertAt a new clHead).findBody b = (clHead.findBody b).map (insertAt a new) := by
        split
        · rw [findBody_append h, ihc]
        · exact ihc
      rw [hchild]
      cases clHead.findBody b <;> simp

end CilBlkTree

/-! ### Copies and removals -/

@[simp] theorem heads_cilCopyNodes (t : CilBlkTree) (fresh : Nat) : (cilCopyNodes t fresh).1.heads = [] := by
  induction t generalizing fresh with
  | nil => rfl
  | node flavor clHead next ihc ihn =>
    cases flavor <;> simp [cilCopyNodes, CilBlkTree.heads, CilBlkFlavor.head, ihc, ihn]

/-- `new` inherits blocks of `old` in the same order, at consecutive addresses from `fresh` to below `next`. -/
structure FreshCopy (old new : List (Nat × Option Nat)) (fresh next : Nat) : Prop where
  refs : (new.map Prod.snd).Sublist (old.map Prod.snd)
  addrs : new.map Prod.fst = List.range' fresh new.length
  next_eq : next = fresh + new.length

variable {old old' new' : List (Nat × Option Nat)} {next next' : Nat}

theorem FreshCopy.append {new : List (Nat × Option Nat)} (h : FreshCopy old new fresh next)
    (h' : FreshCopy old' new' next next') : FreshCopy (old ++ old') (new ++ new') fresh next' where
  refs := by
    rw [List.map_append, List.map_append]
    exact h.refs.append h'.refs
  addrs := by
    rw [List.map_append, h.addrs, h'.addrs, h.next_eq, List.range'_append_1, List.length_append]
  next_eq := by
    rw [h'.next_eq, h.next_eq, List.length_append, Nat.add_assoc]

theorem FreshCopy.skip {new : List (Nat × Option Nat)} (h : FreshCopy old' new fresh next) :
    FreshCopy (old ++ old') new fresh next :=
  ⟨h.refs.trans (by simp), h.addrs, h.next_eq⟩

/-- The statements of a copy inherit what those of the body do, and have new addresses. -/
theorem bis_cilCopyNodes (t : CilBlkTree) (fresh : Nat) :
    FreshCopy t.bis (cilCopyNodes t fresh).1.bis fresh (cilCopyNodes t fresh).2 := by
  induction t generalizing fresh with
  | nil => exact ⟨List.Sublist.refl _, rfl, rfl⟩
  | node flavor clHead next ihc ihn =>
    have hboth : ∀ fresh, FreshCopy (clHead.bis ++ next.bis)
        ((cilCopyNodes clHead fresh).1.bis ++ (cilCopyNodes next (cilCopyNodes clHead fresh).2).1.bis) fresh
        (cilCopyNodes next (cilCopyNodes clHead fresh).2).2 := fun fresh => (ihc fresh).append (ihn _)
    cases flavor with
    | blockabstract => exact (ihn fresh).skip
    | blockinherit addr inherited =>
      have hself : FreshCopy [(addr, inherited)] [(fresh, inherited)] fresh (fresh + 1) :=
        ⟨List.Sublist.refl _, rfl, rfl⟩
      exact hself.append (hboth (fresh + 1))
    | block head => exact hboth fresh
    | optional disabled => exact hboth fresh
    | other => exact hboth fresh

theorem bis_cilDestroyDisabled (t : CilBlkTree) : (cilDestroyDisabled t).bis.Sublist t.bis := by
  induction t with
  | nil => exact List.Sublist.refl _
  | node flavor clHead next ihc ihn =>
    rw [cilDestroyDisabled, CilBlkTree.bis, CilBlkTree.bis]
    refine List.Sublist.append ((List.Sublist.refl _).append ?_) ihn
    split
    · exact List.nil_sublist _
    · exact ihc

theorem heads_cilDestroyDisabled (t : CilBlkTree) : (cilDestroyDisabled t).heads.Sublist t.heads := by
  induction t with
  | nil => exact List.Sublist.refl _
  | node flavor clHead next ihc ihn =>
    rw [cilDestroyDisabled, CilBlkTree.heads, CilBlkTree.heads]
    refine List.Sublist.append ((List.Sublist.refl _).append ?_) ihn
    split
    · exact List.nil_sublist _
    · exact ihc

/-- The body that is left of a block is what is left of its body. -/
theorem findBody_cilDestroyDisabled (hnodup : t.heads.Nodup) (h : (cilDestroyDisabled t).findBody b = some body) :
    ∃ whole, t.findBody b = some whole ∧ body = cilDestroyDisabled whole := by
  induction t with
  | nil => cases h
  | node flavor clHead next ihc ihn =>
    rw [CilBlkTree.heads, List.nodup_append', List.nodup_append'] at hnodup
    obtain ⟨⟨_, hc, _⟩, hn, hdisj⟩ := hnodup
    rw [cilDestroyDisabled, CilBlkTree.findBody] at h
    rw [CilBlkTree.findBody]
    split at h
    · rename_i hhead
      have hblock : flavor ≠ .optional true := by
        rintro rfl
        cases hhead
      rw [if_pos hhead]
      rw [if_neg hblock] at h
      exact ⟨clHead, rfl, (Option.some.inj h).symm⟩
    · rename_i hhead
      rw [if_neg hhead]
      rcases Option.or_eq_some_iff.1 h with h | ⟨_, h⟩
      · -- found below the node, which therefore kept its children
        split at h
        · cases h
        · obtain ⟨whole, hwhole, hbody⟩ := ihc hc h
          exact ⟨whole, by rw [hwhole, Option.some_or], hbody⟩
      · obtain ⟨whole, hwhole, hbody⟩ := ihn hn h
        have hmem : b ∈ next.heads := by
          by_contra hnot
          rw [CilBlkTree.findBody_eq_none hnot] at hwhole
          cases hwhole
        have hnotc : b ∉ clHead.heads := fun hbc => hdisj (List.mem_append_right _ hbc) hmem
        exact ⟨whole, by rw [CilBlkTree.findBody_eq_none hnotc, Option.none_or, hwhole], hbody⟩

end Sepol
