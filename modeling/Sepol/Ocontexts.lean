import Sepol.CilContextRulesKeys

/-!
# Sorting object contexts

Before a policy is printed, the lists of its object contexts are sorted, each by the comparison function of its kind.
All of them order by the fields that tell the entries apart, but for the one of the Infiniband keys, which takes the
difference of two 64-bit prefixes for an `int`.
-/

namespace Sepol.Ocontexts

open ContextRules (strcmp memcmp spaceshipCmp ordersBy_strcmp ordersBy_memcmp ordersBy_spaceshipCmp)
open SortedRuns

/-! ### The entries -/

/-- The lists that `sort_ocontexts` sorts. -/
inductive OcontextKind where
  | fsuse
  | port
  | netif
  | node
  | node6
  | ibpkey
  | ibendport
  | pirq
  | ioport
  | iomem
  | pcidevice
  | devicetree
deriving DecidableEq

structure FsuseData where
  behavior : UInt32
  name : CString
deriving DecidableEq

structure PortData where
  protocol : UInt8
  lowPort : UInt16
  highPort : UInt16
deriving DecidableEq

/-- An address and a mask of `n` bytes, in network order. -/
structure NodeData (n : Nat) where
  addr : Vector UInt8 n
  mask : Vector UInt8 n
deriving DecidableEq

structure IbpkeyData where
  subnetPrefix : UInt64
  lowPkey : UInt16
  highPkey : UInt16
deriving DecidableEq

structure IbendportData where
  devName : CString
  port : UInt8
deriving DecidableEq

structure IoportData where
  lowIoport : UInt32
  highIoport : UInt32
deriving DecidableEq

structure IomemData where
  lowIomem : UInt64
  highIomem : UInt64
deriving DecidableEq

/-- The fields of an entry that tell it apart: the member of the union `u` for its kind, and `v.behavior` for fs_use.
-/
abbrev OcontextKey : OcontextKind → Type
  | .fsuse => FsuseData
  | .port => PortData
  | .netif => CString
  | .node => NodeData 4
  | .node6 => NodeData 16
  | .ibpkey => IbpkeyData
  | .ibendport => IbendportData
  | .pirq => UInt16
  | .ioport => IoportData
  | .iomem => IomemData
  | .pcidevice => UInt32
  | .devicetree => CString

/-- An entry; no comparison function reads its contexts, which are of any type. -/
structure Ocontext (γ : Type) (k : OcontextKind) where
  u : OcontextKey k
  context : γ

/-! ### Comparison functions -/

def compareRanges (l1 h1 l2 h2 : UInt64) : Ordering :=
  if h1 - l1 < h2 - l2 then .lt
  else if h2 - l2 < h1 - l1 then .gt
  else if l1 < l2 then .lt
  else if l2 < l1 then .gt
  else .eq

def fsuseDataCmp (a b : FsuseData) : Ordering :=
  if a.behavior ≠ b.behavior then if a.behavior < b.behavior then .lt else .gt
  else strcmp a.name b.name

def portconDataCmp (a b : PortData) : Ordering :=
  (compareRanges a.lowPort.toUInt64 a.highPort.toUInt64 b.lowPort.toUInt64 b.highPort.toUInt64).then <|
    if a.protocol < b.protocol then .lt
    else if b.protocol < a.protocol then .gt
    else .eq

def netifDataCmp (a b : CString) : Ordering := strcmp a b

/-- `node_data_cmp` and `node6_data_cmp`. -/
def nodeDataCmp {n : Nat} (a b : NodeData n) : Ordering :=
  (memcmp a.mask.toList b.mask.toList).swap.then (memcmp a.addr.toList b.addr.toList)

/-- The difference of the prefixes as an `int`: its lower half as a signed number. -/
def prefixDifference (a b : IbpkeyData) : Int := (a.subnetPrefix - b.subnetPrefix).toUInt32.toBitVec.toInt

def ibpkeyDataCmp (a b : IbpkeyData) : Ordering :=
  if prefixDifference a b < 0 then .lt
  else if 0 < prefixDifference a b then .gt
  else compareRanges a.lowPkey.toUInt64 a.highPkey.toUInt64 b.lowPkey.toUInt64 b.highPkey.toUInt64

def ibendportDataCmp (a b : IbendportData) : Ordering :=
  (strcmp a.devName b.devName).then (spaceshipCmp a.port b.port)

def pirqDataCmp (a b : UInt16) : Ordering :=
  if a < b then .lt
  else if b < a then .gt
  else .eq

def ioportDataCmp (a b : IoportData) : Ordering :=
  compareRanges a.lowIoport.toUInt64 a.highIoport.toUInt64 b.lowIoport.toUInt64 b.highIoport.toUInt64

def iomemDataCmp (a b : IomemData) : Ordering := compareRanges a.lowIomem a.highIomem b.lowIomem b.highIomem

def pcidDataCmp (a b : UInt32) : Ordering :=
  if a < b then .lt
  else if b < a then .gt
  else .eq

def dtreeDataCmp (a b : CString) : Ordering := strcmp a b

/-- The comparison function that `sort_ocontexts` sorts the entries of a kind by. -/
def dataCmp : (k : OcontextKind) → OcontextKey k → OcontextKey k → Ordering
  | .fsuse => fsuseDataCmp
  | .port => portconDataCmp
  | .netif => netifDataCmp
  | .node => nodeDataCmp
  | .node6 => nodeDataCmp
  | .ibpkey => ibpkeyDataCmp
  | .ibendport => ibendportDataCmp
  | .pirq => pirqDataCmp
  | .ioport => ioportDataCmp
  | .iomem => iomemDataCmp
  | .pcidevice => pcidDataCmp
  | .devicetree => dtreeDataCmp

def ocontextCmp {γ : Type} (k : OcontextKind) (a b : Ocontext γ k) : Ordering := dataCmp k a.u b.u

/-- The sort of the C library, which arranges a list in order when the comparison function is a total preorder of the
members of the list. -/
structure Qsort {α : Type} (cmp : α → α → Ordering) where
  sort : List α → List α
  perm : ∀ l, (sort l).Perm l
  sorted : ∀ l, ConsistentOn cmp l → (sort l).Pairwise fun a b => cmp a b ≠ .gt

def Qsort.insertion {α : Type} (cmp : α → α → Ordering) : Qsort cmp where
  sort l := (l.attach.insertionSort fun a b => cmp a.1 b.1 ≠ .gt).map Subtype.val
  perm l := by
    -- the members are sorted as such, since the order need not be total on all entries
    have hperm := (List.perm_insertionSort (fun a b : {x // x ∈ l} => cmp a.1 b.1 ≠ .gt) l.attach).map Subtype.val
    rwa [List.attach_map_subtype_val] at hperm
  sorted l h := by
    have htotal : Std.Total fun a b : {x // x ∈ l} => cmp a.1 b.1 ≠ .gt := by
      constructor
      intro a b
      rw [← h.swap a.1 a.2 b.1 b.2]
      cases cmp a.1 b.1 <;> simp
    have htrans : IsTrans {x // x ∈ l} fun a b => cmp a.1 b.1 ≠ .gt :=
      ⟨fun a b c => h.trans a.1 a.2 b.1 b.2 c.1 c.2⟩
    exact List.pairwise_map.2 (List.pairwise_insertionSort _ _)

/-- `sort_ocontext_data`: an array of the entries is sorted and linked again in its order. -/
def sortOcontextData {γ : Type} {k : OcontextKind} (q : Qsort (@ocontextCmp γ k)) (ocons : List (Ocontext γ k)) :
    List (Ocontext γ k) :=
  match ocons with
  | [] => []
  | ocon :: next => q.sort (ocon :: next)

private theorem sortOcontextData_eq {γ : Type} {k : OcontextKind} (q : Qsort (@ocontextCmp γ k))
    (ocons : List (Ocontext γ k)) : sortOcontextData q ocons = q.sort ocons := by
  cases ocons with
  | nil => exact ((q.perm []).eq_nil).symm
  | cons ocon next => rfl

/-! ### The orders -/

private theorem ordersBy_compareRanges {α : Type} (low high : α → UInt64) :
    OrdersBy (fun a b => compareRanges (low a) (high a) (low b) (high b)) fun a => (low a, high a) := by
  have h := (OrdersBy.none.ite low).ite fun a => high a - low a
  refine h.congr (fun a b => rfl) fun a b => ?_
  simp only [Prod.mk.injEq, and_true, ContextRules.interval64_eq_iff]

private theorem ordersBy_fsuseDataCmp : OrdersBy fsuseDataCmp id := by
  refine ((ordersBy_strcmp FsuseData.name).ite FsuseData.behavior).congr (fun a b => ?_) fun a b => ?_
  · unfold fsuseDataCmp
    by_cases hlt : a.behavior < b.behavior
    · have hne : a.behavior ≠ b.behavior := fun heq => UInt32.lt_irrefl _ (heq ▸ hlt)
      rw [if_pos hne, if_pos hlt, if_pos hlt]
    · by_cases hgt : b.behavior < a.behavior
      · have hne : a.behavior ≠ b.behavior := fun heq => UInt32.lt_irrefl _ (heq ▸ hgt)
        rw [if_pos hne, if_neg hlt, if_neg hlt, if_pos hgt]
      · have heq : a.behavior = b.behavior := UInt32.le_antisymm (UInt32.not_lt.1 hgt) (UInt32.not_lt.1 hlt)
        rw [if_neg (not_not.2 heq), if_neg hlt, if_neg hgt]
  · cases a
    cases b
    simp only [Prod.mk.injEq, id_eq, FsuseData.mk.injEq]

private theorem ordersBy_portconDataCmp : OrdersBy portconDataCmp id := by
  have h := (ordersBy_compareRanges (fun p : PortData => p.lowPort.toUInt64) fun p => p.highPort.toUInt64).then
    (OrdersBy.none.ite PortData.protocol)
  refine h.congr (fun a b => rfl) fun a b => ?_
  cases a
  cases b
  simp only [Prod.mk.injEq, and_true, id_eq, PortData.mk.injEq, UInt16.toUInt64_inj]
  tauto

private theorem ordersBy_nodeDataCmp {n : Nat} : OrdersBy (nodeDataCmp (n := n)) id := by
  have h := (ordersBy_memcmp fun d : NodeData n => d.mask.toList).flip.then
    (ordersBy_memcmp fun d : NodeData n => d.addr.toList)
  refine h.congr (fun a b => rfl) fun a b => ?_
  cases a
  cases b
  simp only [Prod.mk.injEq, id_eq, NodeData.mk.injEq, Vector.toList_inj]
  tauto

private theorem ordersBy_ibendportDataCmp : OrdersBy ibendportDataCmp id := by
  have h := (ordersBy_strcmp IbendportData.devName).then (ordersBy_spaceshipCmp IbendportData.port)
  refine h.congr (fun a b => rfl) fun a b => ?_
  cases a
  cases b
  simp only [Prod.mk.injEq, id_eq, IbendportData.mk.injEq]

private theorem ordersBy_ioportDataCmp : OrdersBy ioportDataCmp id := by
  have h := ordersBy_compareRanges (fun p : IoportData => p.lowIoport.toUInt64) fun p => p.highIoport.toUInt64
  refine h.congr (fun a b => rfl) fun a b => ?_
  cases a
  cases b
  simp only [Prod.mk.injEq, id_eq, IoportData.mk.injEq, UInt32.toUInt64_inj]

private theorem ordersBy_iomemDataCmp : OrdersBy iomemDataCmp id := by
  refine (ordersBy_compareRanges IomemData.lowIomem IomemData.highIomem).congr (fun a b => rfl) fun a b => ?_
  cases a
  cases b
  simp only [Prod.mk.injEq, id_eq, IomemData.mk.injEq]

private theorem ordersBy_pirqDataCmp : OrdersBy pirqDataCmp id := by
  refine (OrdersBy.none.ite fun n : UInt16 => n).congr (fun a b => rfl) fun a b => ?_
  simp only [Prod.mk.injEq, and_true, id_eq]

private theorem ordersBy_pcidDataCmp : OrdersBy pcidDataCmp id := by
  refine (OrdersBy.none.ite fun n : UInt32 => n).congr (fun a b => rfl) fun a b => ?_
  simp only [Prod.mk.injEq, and_true, id_eq]

private theorem ordersBy_dataCmp {k : OcontextKind} (hk : k ≠ .ibpkey) : OrdersBy (dataCmp k) id := by
  cases k with
  | fsuse => exact ordersBy_fsuseDataCmp
  | port => exact ordersBy_portconDataCmp
  | netif => exact ordersBy_strcmp fun s : CString => s
  | node => exact ordersBy_nodeDataCmp
  | node6 => exact ordersBy_nodeDataCmp
  | ibpkey => exact absurd rfl hk
  | ibendport => exact ordersBy_ibendportDataCmp
  | pirq => exact ordersBy_pirqDataCmp
  | ioport => exact ordersBy_ioportDataCmp
  | iomem => exact ordersBy_iomemDataCmp
  | pcidevice => exact ordersBy_pcidDataCmp
  | devicetree => exact ordersBy_strcmp fun s : CString => s

/-! ### Infiniband keys -/

/-- What the comparison sees of a prefix. -/
def lowPrefix (a : IbpkeyData) : UInt32 := a.subnetPrefix.toUInt32

/-- The prefixes fit into half a turn of the 32-bit numbers, and no two of them differ in their upper halves only. -/
structure PrefixesClose (l : List IbpkeyData) : Prop where
  half : ∃ c, ∀ a ∈ l, (lowPrefix a - c).toNat < 2 ^ 31
  low : ∀ a ∈ l, ∀ b ∈ l, lowPrefix a = lowPrefix b → a.lowPkey = b.lowPkey → a.highPkey = b.highPkey →
    a.subnetPrefix = b.subnetPrefix

private theorem prefixDifference_eq (a b : IbpkeyData) :
    prefixDifference a b =
      if (lowPrefix a - lowPrefix b).toNat < 2 ^ 31 then ((lowPrefix a - lowPrefix b).toNat : Int)
      else (lowPrefix a - lowPrefix b).toNat - 2 ^ 32 := by
  have hsub : (a.subnetPrefix - b.subnetPrefix).toUInt32 = lowPrefix a - lowPrefix b := UInt64.toUInt32_sub _ _
  rw [prefixDifference, hsub, BitVec.toInt_eq_toNat_cond]
  simp only [UInt32.toNat_toBitVec]
  split <;> split <;> omega

private theorem ibpkeyDataCmp_of_half {c : UInt32} {a b : IbpkeyData} (ha : (lowPrefix a - c).toNat < 2 ^ 31)
    (hb : (lowPrefix b - c).toNat < 2 ^ 31) :
    ibpkeyDataCmp a b =
      if (lowPrefix a - c).toNat < (lowPrefix b - c).toNat then .lt
      else if (lowPrefix b - c).toNat < (lowPrefix a - c).toNat then .gt
      else compareRanges a.lowPkey.toUInt64 a.highPkey.toUInt64 b.lowPkey.toUInt64 b.highPkey.toUInt64 := by
  have hdiff : prefixDifference a b = ((lowPrefix a - c).toNat : Int) - (lowPrefix b - c).toNat := by
    rw [prefixDifference_eq]
    simp only [UInt32.toNat_sub] at ha hb ⊢
    have := (lowPrefix a).toNat_lt
    have := (lowPrefix b).toNat_lt
    have := c.toNat_lt
    split <;> omega
  unfold ibpkeyDataCmp
  rw [hdiff]
  refine if_congr (by omega) rfl (if_congr (by omega) rfl rfl)

theorem PrefixesClose.ordersOn {l : List IbpkeyData} (h : PrefixesClose l) : OrdersOn ibpkeyDataCmp id l := by
  obtain ⟨c, hc⟩ := h.half
  have horder := (ordersBy_compareRanges (fun a : IbpkeyData => a.lowPkey.toUInt64) fun a => a.highPkey.toUInt64).ite
    fun a : IbpkeyData => (lowPrefix a - c).toNat
  refine horder.ordersOn_congr (fun a ha b hb => ibpkeyDataCmp_of_half (hc a ha) (hc b hb)) fun a ha b hb => ?_
  simp only [Prod.mk.injEq, UInt16.toUInt64_inj, id_eq]
  constructor
  · rintro ⟨hlow, hpkey, hpkey'⟩
    have heq : lowPrefix a = lowPrefix b := (UInt32.sub_left_inj c).1 (UInt32.toNat_inj.1 hlow)
    have hlead := h.low a ha b hb heq hpkey hpkey'
    cases a
    cases b
    simp only at hlead hpkey hpkey'
    rw [hlead, hpkey, hpkey']
  · rintro rfl
    exact ⟨rfl, rfl, rfl⟩

/-- From a first entry on, the distances go up to half a turn. -/
private theorem PrefixesClose.of_ordersOn {l : List IbpkeyData} (h : OrdersOn ibpkeyDataCmp id l) :
    PrefixesClose l where
  half := by
    by_cases hl : l = []
    · exact ⟨0, fun a ha => by rw [hl] at ha; cases ha⟩
    · obtain ⟨m, hm, hmin⟩ := h.exists_min hl
      refine ⟨lowPrefix m, fun a ha => ?_⟩
      by_contra hfar
      have hma := hmin a ha
      have ham := h.swap a ha m hm
      have hfar' : prefixDifference a m < 0 := by
        rw [prefixDifference_eq, if_neg hfar]
        have := (lowPrefix a - lowPrefix m).toNat_lt
        omega
      rw [ibpkeyDataCmp, if_pos hfar'] at ham
      exact hma ham.symm
  low a ha b hb hlow hpkey hpkey' := by
    have heq : ibpkeyDataCmp a b = .eq := by
      have hzero : prefixDifference a b = 0 := by
        rw [prefixDifference_eq, hlow, UInt32.sub_self]
        rfl
      unfold ibpkeyDataCmp
      rw [hzero, hpkey, hpkey']
      simp [compareRanges]
    exact congrArg IbpkeyData.subnetPrefix ((h.eq_iff a ha b hb).1 heq)

/-! ### Sorting -/

section Sorting

variable {γ : Type} {k : OcontextKind} {l : List (Ocontext γ k)}

/-- The comparison function of the kind is a total preorder of the entries, whose ties are the pairs of the same key,
and sorting gives one order of the keys whatever the order of the list. -/
structure SortsConsistently (l : List (Ocontext γ k)) : Prop where
  ordersOn : OrdersOn (ocontextCmp k) Ocontext.u l
  one_order : ∀ (q : Qsort (@ocontextCmp γ k)) l', l'.Perm l →
    (sortOcontextData q l').map Ocontext.u = (sortOcontextData q l).map Ocontext.u

/-- For Infiniband keys the prefixes have to be close to each other. -/
def KeysClose : (k : OcontextKind) → List (OcontextKey k) → Prop
  | .ibpkey => PrefixesClose
  | _ => fun _ => True

private theorem ordersOn_map_iff {cmp : OcontextKey k → OcontextKey k → Ordering} :
    OrdersOn (fun a b : Ocontext γ k => cmp a.u b.u) Ocontext.u l ↔ OrdersOn cmp id (l.map Ocontext.u) := by
  constructor
  · intro h
    refine ⟨⟨?_, ?_⟩, ?_⟩
    · simp only [List.forall_mem_map]
      exact h.swap
    · simp only [List.forall_mem_map]
      exact h.trans
    · simp only [List.forall_mem_map]
      exact h.eq_iff
  · intro h
    have hmem : ∀ {a : Ocontext γ k}, a ∈ l → a.u ∈ l.map Ocontext.u := fun ha => List.mem_map_of_mem ha
    exact ⟨⟨fun a ha b hb => h.swap _ (hmem ha) _ (hmem hb),
      fun a ha b hb c hc => h.trans _ (hmem ha) _ (hmem hb) _ (hmem hc)⟩,
      fun a ha b hb => h.eq_iff _ (hmem ha) _ (hmem hb)⟩

private theorem sortOcontextData_map_eq (h : OrdersOn (ocontextCmp k) Ocontext.u l) (q : Qsort (@ocontextCmp γ k))
    {l' : List (Ocontext γ k)} (hl : l'.Perm l) :
    (sortOcontextData q l').map Ocontext.u = (sortOcontextData q l).map Ocontext.u := by
  rw [sortOcontextData_eq, sortOcontextData_eq]
  have hsorted := q.sorted l h.toConsistentOn
  have hsorted' := q.sorted l' (h.toConsistentOn.perm hl.symm)
  exact h.map_key_eq ((q.perm l').trans hl) (q.perm l) hsorted' hsorted

/-- The entries of every kind are sorted consistently, those of the Infiniband keys exactly when their prefixes are
close. -/
theorem sortsConsistently_iff (γ : Type) (k : OcontextKind) (l : List (Ocontext γ k)) :
    SortsConsistently l ↔ KeysClose k (l.map Ocontext.u) := by
  have horders : OrdersOn (ocontextCmp k) Ocontext.u l ↔ KeysClose k (l.map Ocontext.u) := by
    refine (@ordersOn_map_iff γ k l (dataCmp k)).trans ?_
    by_cases hk : k = .ibpkey
    · subst hk
      exact ⟨PrefixesClose.of_ordersOn, PrefixesClose.ordersOn⟩
    · have htrue : KeysClose k (l.map Ocontext.u) := by
        cases k <;> first | exact trivial | exact absurd rfl hk
      exact ⟨fun _ => htrue, fun _ => (ordersBy_dataCmp hk).ordersOn _⟩
  exact ⟨fun h => horders.1 h.ordersOn, fun h => ⟨horders.2 h, fun q l' => sortOcontextData_map_eq (horders.2 h) q⟩⟩

end Sorting

/-- Two prefixes that differ in their upper halves are taken for one. -/
theorem not_sortsConsistently_prefixes :
    ¬ SortsConsistently (k := .ibpkey) [⟨⟨0, 1, 1⟩, ()⟩, ⟨⟨0x100000000, 1, 1⟩, ()⟩] := by
  intro h
  have heq := (h.ordersOn.eq_iff ⟨⟨0, 1, 1⟩, ()⟩ (by simp) ⟨⟨0x100000000, 1, 1⟩, ()⟩ (by simp)).1 (by decide)
  revert heq
  decide

end Sepol.Ocontexts
