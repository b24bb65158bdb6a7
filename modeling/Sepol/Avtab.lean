import Sepol.Lib.SortedChain

/-!
# Access vector tables

The keys, data and hash chains of `avtab.c`.  The fields of a key have the widths of the C structure, so a type or a
class that does not fit in 16 bits is cut off when it is stored in a key.  A node carries its address, because the
lists of a conditional point to nodes of a table; the field `fresh` of a table, which C has no need of, is the address
of its next node.  The field `xperms` of a datum is read only for keys with an
extended-permission specifier, for which `avtab_insert_node` always allocates it.
-/

namespace Sepol

abbrev avtabAllowed : BitVec 16 := 0x0001
abbrev avtabAuditallow : BitVec 16 := 0x0002
abbrev avtabAuditdeny : BitVec 16 := 0x0004
abbrev avtabAv : BitVec 16 := avtabAllowed ||| avtabAuditallow ||| avtabAuditdeny
abbrev avtabXpermsAllowed : BitVec 16 := 0x0100
abbrev avtabXpermsAuditallow : BitVec 16 := 0x0200
abbrev avtabXpermsDontaudit : BitVec 16 := 0x0400
abbrev avtabXperms : BitVec 16 := avtabXpermsAllowed ||| avtabXpermsAuditallow ||| avtabXpermsDontaudit
abbrev avtabEnabled : BitVec 16 := 0x8000

abbrev avtabXpermsIoctlfunction : BitVec 8 := 0x01
abbrev avtabXpermsIoctldriver : BitVec 8 := 0x02
abbrev avtabXpermsNlmsg : BitVec 8 := 0x03

/-- `EXTENDED_PERMS_LEN`. -/
abbrev extendedPermsLen : Nat := 8

structure AvtabKey where
  sourceType : BitVec 16
  targetType : BitVec 16
  targetClass : BitVec 16
  specified : BitVec 16
deriving DecidableEq

structure AvtabExtendedPerms where
  specified : BitVec 8
  driver : BitVec 8
  perms : Fin extendedPermsLen → BitVec 32
deriving DecidableEq

structure AvtabDatum where
  data : BitVec 32
  xperms : AvtabExtendedPerms
deriving DecidableEq

structure AvtabNode where
  key : AvtabKey
  datum : AvtabDatum
  addr : Nat
deriving DecidableEq

structure Avtab where
  htable : Nat → List AvtabNode
  nel : BitVec 32
  nslot : Nat
  mask : BitVec 32
  fresh : Nat

/-- A test of a bit of the `specified` field. -/
def hasSpecified (specified flag : BitVec 16) : Bool := specified &&& flag ≠ 0

/-- The word of the 256 permission bits that holds bit `x`, and its position in there. -/
def xpermTest (x : BitVec 8) (p : Fin extendedPermsLen → BitVec 32) : Bool :=
  1#32 &&& (p (Fin.ofNat extendedPermsLen (x >>> 5).toNat) >>> (x &&& 0x1f).toNat) ≠ 0

/-- The macro `mix` of `avtab_hash`. -/
def avtabHashMix (hash input : BitVec 32) : BitVec 32 :=
  let v := input * 0xcc9e2d51
  let v := (v <<< 15) ||| (v >>> (32 - 15))
  let v := v * 0x1b873593
  let hash := hash ^^^ v
  let hash := (hash <<< 13) ||| (hash >>> (32 - 13))
  hash * 5 + 0xe6546b64

def avtabHash (key : AvtabKey) (mask : BitVec 32) : Nat :=
  let hash := avtabHashMix 0 (key.targetClass.setWidth 32)
  let hash := avtabHashMix hash (key.targetType.setWidth 32)
  let hash := avtabHashMix hash (key.sourceType.setWidth 32)
  let hash := hash ^^^ (hash >>> 16)
  let hash := hash * 0x85ebca6b
  let hash := hash ^^^ (hash >>> 13)
  let hash := hash * 0xc2b2ae35
  let hash := hash ^^^ (hash >>> 16)
  (hash &&& mask).toNat

/-- The test of the search loops for a node with the key; `specified` is without the enabled flag. -/
def avtabHit (key : AvtabKey) (specified : BitVec 16) (cur : AvtabNode) : Bool :=
  key.sourceType = cur.key.sourceType && key.targetType = cur.key.targetType &&
    key.targetClass = cur.key.targetClass && hasSpecified specified cur.key.specified

/-- The tests of the search loops that end the walk along a chain. -/
def avtabStop (key : AvtabKey) (cur : AvtabNode) : Bool :=
  key.sourceType < cur.key.sourceType ||
    key.sourceType = cur.key.sourceType && key.targetType < cur.key.targetType ||
    key.sourceType = cur.key.sourceType && key.targetType = cur.key.targetType &&
      key.targetClass < cur.key.targetClass

/-- The table that `avtab_alloc` makes for `nrules` rules. -/
def avtabAlloc (nrules : Nat) : Avtab :=
  if nrules = 0 then ⟨fun _ => [], 0, 0, 0, 0⟩
  else
    let shift := Nat.log2 nrules + 1
    let shift := if shift > 2 then shift - 2 else shift
    let nslot := if 2 ^ shift > 2 ^ 20 then 2 ^ 20 else 2 ^ shift
    ⟨fun _ => [], 0, nslot, BitVec.ofNat 32 (nslot - 1), 0⟩

/-- `avtab_search_node`: the chain from the node that is found on, empty for `NULL`. -/
def avtabSearchNode (h : Avtab) (key : AvtabKey) : List AvtabNode :=
  let specified := key.specified &&& ~~~avtabEnabled
  SortedChain.seekUntil (avtabHit key specified) (avtabStop key) (h.htable (avtabHash key h.mask))

/-- `avtab_search_node_next`. -/
def avtabSearchNodeNext (node : List AvtabNode) (specified : BitVec 16) : List AvtabNode :=
  match node with
  | [] => []
  | node :: next =>
    SortedChain.seekUntil (avtabHit node.key (specified &&& ~~~avtabEnabled)) (avtabStop node.key) next

/-- The nodes that a loop over `avtab_search_node` and `avtab_search_node_next` visits.  The chain gets shorter at
every step, so its length is enough fuel. -/
def avtabForEachNode (specified : BitVec 16) : Nat → List AvtabNode → List AvtabNode
  | 0, _ => []
  | _ + 1, [] => []
  | fuel + 1, node :: next =>
    node :: avtabForEachNode specified fuel (avtabSearchNodeNext (node :: next) specified)

def avtabSearchNodes (h : Avtab) (key : AvtabKey) : List AvtabNode :=
  avtabForEachNode key.specified (h.htable (avtabHash key h.mask)).length (avtabSearchNode h key)

/-- `avtab_search`, with the node whose datum is returned. -/
def avtabSearch (h : Avtab) (key : AvtabKey) : Option AvtabNode := (avtabSearchNode h key).head?

/-- All nodes in the order in which the loops over all slots visit them. -/
def avtabNodes (h : Avtab) : List AvtabNode := (List.range h.nslot).flatMap h.htable

/-- The table with another chain. -/
def avtabSetChain (tab : Avtab) (i : Nat) (chain : List AvtabNode) : Avtab :=
  { tab with htable := fun j => if j = i then chain else tab.htable j }

/-- The loop of `avtab_insert` over a chain; `none` stands for `SEPOL_EEXIST`. -/
def avtabInsertChain (key : AvtabKey) (specified : BitVec 16) (newnode : AvtabNode) :
    List AvtabNode → Option (List AvtabNode)
  | [] => some [newnode]
  | cur :: next =>
    if avtabHit key specified cur then
      if hasSpecified specified avtabXperms then some (newnode :: cur :: next) else none
    else if avtabStop key cur then some (newnode :: cur :: next)
    else (avtabInsertChain key specified newnode next).map (cur :: ·)

/-- `avtab_insert`.  A table that was not allocated has no slots. -/
def avtabInsert (h : Avtab) (key : AvtabKey) (datum : AvtabDatum) : Option Avtab :=
  if h.nslot = 0 then none
  else
    let specified := key.specified &&& ~~~avtabEnabled
    let hvalue := avtabHash key h.mask
    (avtabInsertChain key specified ⟨key, datum, h.fresh⟩ (h.htable hvalue)).map fun chain =>
      { avtabSetChain h hvalue chain with nel := h.nel + 1, fresh := h.fresh + 1 }

/-- A change of the datum that `avtab_search` finds. -/
def avtabModify (h : Avtab) (key : AvtabKey) (f : AvtabDatum → AvtabDatum) : Avtab :=
  let hvalue := avtabHash key h.mask
  avtabSetChain h hvalue (SortedChain.modifyUntil (avtabHit key (key.specified &&& ~~~avtabEnabled)) (avtabStop key)
    (fun n => { n with datum := f n.datum }) (h.htable hvalue))

/-- The node of a table with an address. -/
def avtabNodeAt (tab : Avtab) (addr : Nat) : Option AvtabNode := (avtabNodes tab).find? fun n => n.addr = addr

/-- The loops of `avtab_map` over a list of nodes; `apply` changes its argument `args`. -/
def avtabMapNodes {σ : Type} (apply : AvtabKey → AvtabDatum → σ → Int × σ) : List AvtabNode → σ → Int × σ
  | [], args => (0, args)
  | cur :: rest, args =>
    let r := apply cur.key cur.datum args
    if r.1 ≠ 0 then r else avtabMapNodes apply rest r.2

def avtabMap {σ : Type} (h : Avtab) (apply : AvtabKey → AvtabDatum → σ → Int × σ) (args : σ) : Int × σ :=
  avtabMapNodes apply (avtabNodes h) args

end Sepol

/-!
## Searches in access vector tables

In a table whose chains are in order and hold the keys of their hash value (`Avtab.Ok`), the walks along a chain stop
early but find all nodes with the wanted types, class and specifier.
-/

namespace Sepol

open SortedChain (seekUntil StopsAfterHits)

variable {h : Avtab} {key : AvtabKey} {specified : BitVec 16} {n : AvtabNode}

/-- The order of the keys in a chain, by source, target and class. -/
def avtabKeyLe (a b : AvtabKey) : Prop :=
  a.sourceType < b.sourceType ∨ a.sourceType = b.sourceType ∧
    (a.targetType < b.targetType ∨ a.targetType = b.targetType ∧ a.targetClass ≤ b.targetClass)

instance (a b : AvtabKey) : Decidable (avtabKeyLe a b) := inferInstanceAs (Decidable (_ ∨ _))

/-- Every node is in the chain of its hash value, and the chains are in order. -/
structure Avtab.Ok (h : Avtab) : Prop where
  slot : ∀ i, ∀ n ∈ h.htable i, avtabHash n.key h.mask = i
  bound : ∀ i, h.nslot ≤ i → h.htable i = []
  sorted : ∀ i, (h.htable i).Pairwise fun a b => avtabKeyLe a.key b.key

/-- Two keys with the same types and class. -/
def sameTypes (a b : AvtabKey) : Prop :=
  a.sourceType = b.sourceType ∧ a.targetType = b.targetType ∧ a.targetClass = b.targetClass

theorem avtabHit_iff {cur : AvtabNode} :
    avtabHit key specified cur = true ↔ sameTypes key cur.key ∧ hasSpecified specified cur.key.specified = true := by
  simp [avtabHit, sameTypes, and_assoc]

theorem avtabHash_congr {a b : AvtabKey} (h : sameTypes a b) (mask : BitVec 32) :
    avtabHash a mask = avtabHash b mask := by
  rw [avtabHash, avtabHash, h.1, h.2.1, h.2.2]

theorem stopsAfterHits_of_pairwise {l : List AvtabNode} (hl : l.Pairwise fun a b => avtabKeyLe a.key b.key)
    (key : AvtabKey) (specified : BitVec 16) : StopsAfterHits (avtabHit key specified) (avtabStop key) l := by
  refine hl.imp fun {a b} hab hstop => ?_
  rw [Bool.eq_false_iff]
  intro hhit
  obtain ⟨⟨h1, h2, h3⟩, _⟩ := avtabHit_iff.1 hhit
  simp only [avtabStop, Bool.or_eq_true, Bool.and_eq_true, decide_eq_true_eq] at hstop
  rw [avtabKeyLe, ← h1, ← h2, ← h3] at hab
  simp only [BitVec.lt_def, BitVec.le_def, ← BitVec.toNat_inj] at hab hstop
  omega

theorem Avtab.Ok.stopsAfterHits (ok : h.Ok) (key : AvtabKey) (specified : BitVec 16) (i : Nat) :
    StopsAfterHits (avtabHit key specified) (avtabStop key) (h.htable i) :=
  stopsAfterHits_of_pairwise (ok.sorted i) key specified

theorem Avtab.Ok.mem_htable_iff (ok : h.Ok) (i : Nat) :
    n ∈ h.htable i ↔ n ∈ avtabNodes h ∧ avtabHash n.key h.mask = i := by
  simp only [avtabNodes, List.mem_flatMap, List.mem_range]
  constructor
  · intro hn
    refine ⟨⟨i, ?_, hn⟩, ok.slot i n hn⟩
    by_contra hlt
    rw [ok.bound i (by omega)] at hn
    cases hn
  · rintro ⟨⟨j, _, hn⟩, rfl⟩
    rwa [ok.slot j n hn]

/-- The walk from a node of a chain on visits the hits of the chain. -/
theorem avtabForEachNode_eq (fuel : Nat) (l : List AvtabNode) (hlen : l.length ≤ fuel)
    (hl : StopsAfterHits (avtabHit key (specified &&& ~~~avtabEnabled)) (avtabStop key) l) :
    avtabForEachNode specified fuel
        (seekUntil (avtabHit key (specified &&& ~~~avtabEnabled)) (avtabStop key) l) =
      l.filter (avtabHit key (specified &&& ~~~avtabEnabled)) := by
  induction fuel generalizing l with
  | zero =>
    obtain rfl : l = [] := List.eq_nil_of_length_eq_zero (by omega)
    rfl
  | succ fuel ih =>
    rw [← SortedChain.filter_seekUntil hl]
    have hsuffix := SortedChain.seekUntil_suffix (avtabHit key (specified &&& ~~~avtabEnabled)) (avtabStop key) l
    cases hs : seekUntil (avtabHit key (specified &&& ~~~avtabEnabled)) (avtabStop key) l with
    | nil => rfl
    | cons a l' =>
      rw [hs] at hsuffix
      have hhit := SortedChain.hit_of_seekUntil hs
      obtain ⟨⟨h1, h2, h3⟩, _⟩ := avtabHit_iff.1 hhit
      -- the walk goes on with the key of the node it is at, which has the same types and class
      have hnext : avtabSearchNodeNext (a :: l') specified =
          seekUntil (avtabHit key (specified &&& ~~~avtabEnabled)) (avtabStop key) l' := by
        rw [avtabSearchNodeNext]
        unfold avtabHit avtabStop
        rw [h1, h2, h3]
      have hlen' : (a :: l').length ≤ l.length := hsuffix.length_le
      rw [avtabForEachNode, hnext, List.filter_cons_of_pos hhit,
        ih l' (by simp only [List.length_cons] at hlen'; omega) ((hl.suffix hsuffix).suffix (List.suffix_cons ..))]

theorem avtabSearchNodes_eq (ok : h.Ok) (key : AvtabKey) :
    avtabSearchNodes h key =
      (h.htable (avtabHash key h.mask)).filter (avtabHit key (key.specified &&& ~~~avtabEnabled)) :=
  avtabForEachNode_eq _ _ (le_refl _) (ok.stopsAfterHits ..)

/-- The loops over the nodes with a key visit all nodes with its types, class and specifier. -/
theorem mem_avtabSearchNodes (ok : h.Ok) :
    n ∈ avtabSearchNodes h key ↔ n ∈ avtabNodes h ∧ sameTypes key n.key ∧
      hasSpecified (key.specified &&& ~~~avtabEnabled) n.key.specified = true := by
  rw [avtabSearchNodes_eq ok, List.mem_filter, ok.mem_htable_iff, avtabHit_iff]
  constructor
  · rintro ⟨⟨hn, _⟩, hhit⟩
    exact ⟨hn, hhit⟩
  · rintro ⟨hn, hhit⟩
    exact ⟨⟨hn, (avtabHash_congr hhit.1 _).symm⟩, hhit⟩

/-- A table with one chain. -/
def oneChain (l : List AvtabNode) : Avtab :=
  ⟨fun i => if i = 0 then l else [], BitVec.ofNat 32 l.length, 1, 0, l.length⟩

@[simp] theorem avtabNodes_oneChain (l : List AvtabNode) : avtabNodes (oneChain l) = l := by
  simp [avtabNodes, oneChain, List.range_succ]

theorem oneChain_ok {l : List AvtabNode} (hl : l.Pairwise fun a b => avtabKeyLe a.key b.key) : (oneChain l).Ok where
  slot := fun i n hn => by
    have hi : i = 0 := by
      by_contra hi
      simp [oneChain, hi] at hn
    simp [avtabHash, oneChain, hi]
  bound := fun i hi => if_neg (by simp only [oneChain] at hi; omega)
  sorted := fun i => by
    simp only [oneChain]
    split
    · exact hl
    · exact List.Pairwise.nil

end Sepol
