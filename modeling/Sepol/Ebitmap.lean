import Mathlib

/-!
# Extensible bitmaps

The bitmap type of `ebitmap.c`: a list of nodes, each holding the 64 bits from its start position, and the
position `highbit` behind the last node.  The loops that walk two node lists at once are written as a recursion
on the first list whose inner recursion runs on the second one; their one-step equations (`ebitmapAndNodes_cons_cons`
and its siblings) are the bodies of the C loops.
-/

namespace Sepol

/-- Assignment to a `uint32_t`. -/
def uint32 (n : Nat) : Nat := n % 2 ^ 32

theorem uint32_of_lt {n : Nat} (h : n < 2 ^ 32) : uint32 n = n := Nat.mod_eq_of_lt h

/-- The number of bits of a node. -/
abbrev mapsize : Nat := 64

structure EbitmapNode where
  startbit : Nat
  map : BitVec 64
deriving DecidableEq

structure Ebitmap where
  node : List EbitmapNode
  highbit : Nat
deriving DecidableEq

def ebitmapInit : Ebitmap := ⟨[], 0⟩

def ebitmapIsEmpty (e : Ebitmap) : Bool := e.node.isEmpty

def ebitmapLength (e : Ebitmap) : Nat := if e.node.isEmpty then 0 else e.highbit

/-- The position behind the last node of a list that was just built (`new->startbit + MAPSIZE`). -/
def newHighbit (l : List EbitmapNode) : Nat :=
  match l.getLast? with
  | none => 0
  | some new => uint32 (new.startbit + mapsize)

/-! ### Walking two node lists -/

private def orStep (n1 : EbitmapNode) (l1 : List EbitmapNode) (k : List EbitmapNode → List EbitmapNode) :
    List EbitmapNode → List EbitmapNode
  | [] => n1 :: l1
  | n2 :: l2 =>
    if n1.startbit = n2.startbit then ⟨n1.startbit, n1.map ||| n2.map⟩ :: k l2
    else if n1.startbit < n2.startbit then n1 :: k (n2 :: l2)
    else n2 :: orStep n1 l1 k l2

/-- The loop of `ebitmap_or`. -/
def ebitmapOrNodes : List EbitmapNode → List EbitmapNode → List EbitmapNode
  | [] => fun l2 => l2
  | n1 :: l1 => orStep n1 l1 (ebitmapOrNodes l1)

private def andStep (n1 : EbitmapNode) (k : List EbitmapNode → List EbitmapNode) :
    List EbitmapNode → List EbitmapNode
  | [] => []
  | n2 :: l2 =>
    if n1.startbit = n2.startbit then
      if n1.map &&& n2.map ≠ 0 then ⟨n1.startbit, n1.map &&& n2.map⟩ :: k l2 else k l2
    else if n1.startbit > n2.startbit then andStep n1 k l2
    else k (n2 :: l2)

/-- The loop of `ebitmap_and`. -/
def ebitmapAndNodes : List EbitmapNode → List EbitmapNode → List EbitmapNode
  | [] => fun _ => []
  | n1 :: l1 => andStep n1 (ebitmapAndNodes l1)

private def containsStep (n1 : EbitmapNode) (k : List EbitmapNode → Bool) : List EbitmapNode → Bool
  | [] => true
  | n2 :: l2 =>
    if n1.startbit ≤ n2.startbit then
      if n1.startbit < n2.startbit then k (n2 :: l2)
      else if n1.map &&& n2.map ≠ n2.map then false
      else k l2
    else false

/-- The loop of `ebitmap_contains`: every node of the second list is found in the first one. -/
def ebitmapContainsNodes : List EbitmapNode → List EbitmapNode → Bool
  | [] => fun l2 => l2.isEmpty
  | n1 :: l1 => containsStep n1 (ebitmapContainsNodes l1)

private def matchAnyStep (n1 : EbitmapNode) (k : List EbitmapNode → Bool) : List EbitmapNode → Bool
  | [] => false
  | n2 :: l2 =>
    if n1.startbit < n2.startbit then k (n2 :: l2)
    else if n2.startbit < n1.startbit then matchAnyStep n1 k l2
    else if n1.map &&& n2.map ≠ 0 then true
    else k l2

/-- The loop of `ebitmap_match_any`. -/
def ebitmapMatchAnyNodes : List EbitmapNode → List EbitmapNode → Bool
  | [] => fun _ => false
  | n1 :: l1 => matchAnyStep n1 (ebitmapMatchAnyNodes l1)

/-- The loop of `ebitmap_cmp`. -/
def ebitmapCmpNodes : List EbitmapNode → List EbitmapNode → Bool
  | [], [] => true
  | n1 :: l1, n2 :: l2 =>
    if n1.startbit = n2.startbit ∧ n1.map = n2.map then ebitmapCmpNodes l1 l2 else false
  | _, _ => false

/-! ### The operations -/

def ebitmapOr (e1 e2 : Ebitmap) : Ebitmap :=
  ⟨ebitmapOrNodes e1.node e2.node, if e1.highbit > e2.highbit then e1.highbit else e2.highbit⟩

def ebitmapUnion (dst e1 : Ebitmap) : Ebitmap := ebitmapOr dst e1

def ebitmapAnd (e1 e2 : Ebitmap) : Ebitmap :=
  let node := ebitmapAndNodes e1.node e2.node
  ⟨node, newHighbit node⟩

def ebitmapContains (e1 e2 : Ebitmap) : Bool :=
  if e1.highbit < e2.highbit then false else ebitmapContainsNodes e1.node e2.node

def ebitmapMatchAny (e1 e2 : Ebitmap) : Bool := ebitmapMatchAnyNodes e1.node e2.node

def ebitmapCmp (e1 e2 : Ebitmap) : Bool :=
  if e1.highbit ≠ e2.highbit then false else ebitmapCmpNodes e1.node e2.node

def ebitmapCpy (src : Ebitmap) : Ebitmap :=
  ⟨src.node.map fun n => ⟨n.startbit, n.map⟩, src.highbit⟩

/-- `__builtin_popcountll`. -/
def popcountll (m : BitVec 64) : Nat := (List.range 64).countP fun i => m.getLsbD i

def ebitmapCardinality (e : Ebitmap) : Nat := (e.node.map fun n => popcountll n.map).sum

/-- `MAPBIT << (bit - n->startbit)`. -/
def mapbit (n : EbitmapNode) (bit : Nat) : BitVec 64 := 1#64 <<< (bit - n.startbit)

def ebitmapNodeGetBit (n : EbitmapNode) (bit : Nat) : Bool := n.map &&& mapbit n bit ≠ 0

/-- The loop of `ebitmap_get_bit`. -/
def ebitmapGetBitNodes : List EbitmapNode → Nat → Bool
  | [], _ => false
  | n :: l, bit =>
    if n.startbit ≤ bit then
      if n.startbit + mapsize > bit then ebitmapNodeGetBit n bit else ebitmapGetBitNodes l bit
    else false

def ebitmapGetBit (e : Ebitmap) (bit : Nat) : Bool :=
  if e.highbit < bit then false else ebitmapGetBitNodes e.node bit

/-- The loop of `ebitmap_set_bit` for a value other than zero: the changed nodes, and whether a node was added
behind the last one. -/
def ebitmapSetNodes (bit : Nat) : List EbitmapNode → List EbitmapNode × Bool
  | [] =>
    let startbit := bit - bit % mapsize
    ([⟨startbit, 1#64 <<< (bit - startbit)⟩], true)
  | n :: l =>
    if n.startbit ≤ bit then
      if n.startbit + mapsize > bit then (⟨n.startbit, n.map ||| mapbit n bit⟩ :: l, false)
      else
        let r := ebitmapSetNodes bit l
        (n :: r.1, r.2)
    else
      let startbit := bit - bit % mapsize
      (⟨startbit, 1#64 <<< (bit - startbit)⟩ :: n :: l, false)

/-- The loop of `ebitmap_set_bit` for the value zero: the changed nodes, and the new `highbit` when the last node
was dropped. -/
def ebitmapClearNodes (bit : Nat) (prev : Option EbitmapNode) : List EbitmapNode → List EbitmapNode × Option Nat
  | [] => ([], none)
  | n :: l =>
    if n.startbit ≤ bit then
      if n.startbit + mapsize > bit then
        let map := n.map &&& ~~~mapbit n bit
        if map = 0 then
          (l, if l.isEmpty then some (newHighbit prev.toList) else none)
        else (⟨n.startbit, map⟩ :: l, none)
      else
        let r := ebitmapClearNodes bit (some n) l
        (n :: r.1, r.2)
    else (n :: l, none)

/-- `ebitmap_set_bit`; the result is `none` where the code returns `-EINVAL`. -/
def ebitmapSetBit (e : Ebitmap) (bit : Nat) (value : Bool) : Option Ebitmap :=
  let startbit := bit - bit % mapsize
  let highbit := uint32 (startbit + mapsize)
  if highbit = 0 then none
  else if value then
    let r := ebitmapSetNodes bit e.node
    some ⟨r.1, if r.2 then highbit else e.highbit⟩
  else
    let r := ebitmapClearNodes bit none e.node
    some ⟨r.1, r.2.getD e.highbit⟩

/-- `ebitmap_next`; the cursor `*n` is the list that starts with the current node. -/
def ebitmapNext (cur : List EbitmapNode) (bit : Nat) : List EbitmapNode × Nat :=
  match cur with
  | n :: next :: rest => if bit = n.startbit + mapsize - 1 then (next :: rest, next.startbit) else (cur, bit + 1)
  | _ => (cur, bit + 1)

/-- The loop of `ebitmap_for_each_bit`: the visited pairs of a node and a position, and the position at which
the loop ends. -/
def ebitmapForEachFrom (length : Nat) : Nat → List EbitmapNode → Nat → List (EbitmapNode × Nat) × Nat
  | 0, _, bit => ([], bit)
  | fuel + 1, cur, bit =>
    if bit < length then
      match cur with
      | [] => ([], bit)
      | n :: rest =>
        let (cur', bit') := ebitmapNext (n :: rest) bit
        let r := ebitmapForEachFrom length fuel cur' bit'
        ((n, bit) :: r.1, r.2)
    else ([], bit)

def ebitmapStartbit (e : Ebitmap) : Nat :=
  match e.node with
  | [] => 0
  | n :: _ => n.startbit

/-- `ebitmap_for_each_bit`.  Every node but the last is left after at most 64 positions and the last one at
`highbit`, so the fuel is never used up. -/
def ebitmapForEachBit (e : Ebitmap) : List (EbitmapNode × Nat) × Nat :=
  ebitmapForEachFrom (ebitmapLength e) (mapsize * e.node.length + e.highbit) e.node (ebitmapStartbit e)

/-- `ebitmap_for_each_positive_bit`: the positions the body is run for, in order. -/
def ebitmapPositiveBits (e : Ebitmap) : List Nat :=
  ((ebitmapForEachBit e).1.filter fun v => ebitmapNodeGetBit v.1 v.2).map Prod.snd

end Sepol
