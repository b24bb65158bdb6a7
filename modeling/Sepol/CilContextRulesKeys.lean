import Sepol.CilContextRules

/-!
# What the comparison functions compare

Each comparison function orders by a key, and the comparison of contexts finds two of them equal when they agree in
what it reads.  Neither is always what the policy distinguishes: the file type of a genfscon rule is not in the key, a
prefix is compared as text, and of a category set only its presence counts.
-/

namespace Sepol.ContextRules

open SortedRuns

/-! ### Contexts -/

/-- A level: its sensitivity and its categories. -/
abbrev LevelValue := CString × Finset CString

abbrev ContextValue := CString × CString × CString × Option (Option LevelValue × Option LevelValue)

def CilLevel.value (l : CilLevel) : LevelValue := (l.sens, (l.cats.map fun c => c.datumExpr.toFinset).getD ∅)

def CilLevelrange.value (r : CilLevelrange) : Option LevelValue × Option LevelValue :=
  (r.low.map CilLevel.value, r.high.map CilLevel.value)

/-- What a context says. -/
def CilContext.value (c : CilContext) : ContextValue := (c.user, c.role, c.type, c.range.map CilLevelrange.value)

abbrev SeenContext := CString × CString × CString × Option (Option (CString × Bool) × Option (CString × Bool))

def CilLevel.seen (l : CilLevel) : CString × Bool := (l.sens, l.cats.isSome)

def CilLevelrange.seen (r : CilLevelrange) : Option (CString × Bool) × Option (CString × Bool) :=
  (r.low.map CilLevel.seen, r.high.map CilLevel.seen)

/-- What is compared of a context: of a category set whether there is one. -/
def CilContext.seen (c : CilContext) : SeenContext := (c.user, c.role, c.type, c.range.map CilLevelrange.seen)

theorem strcmp_eq_iff (s t : CString) : strcmp s t = .eq ↔ s = t := by
  unfold strcmp
  exact Std.LawfulEqCmp.compare_eq_iff_eq

theorem catsLoop_eq (a b : List CString) : catsLoop a b = .eq := by
  induction a with
  | nil => rfl
  | cons i a ih =>
    unfold catsLoop
    split
    · rename_i j hj
      have hij := List.find?_some hj
      exact of_decide_eq_true hij
    · exact ih

private theorem comparePtr_eq_iff {α β : Type} {compare : α → α → Ordering} {f : α → β}
    (h : ∀ a b, compare a b = .eq ↔ f a = f b) (a b : Option α) :
    comparePtr compare a b = .eq ↔ a.map f = b.map f := by
  cases a with
  | none => cases b <;> simp [comparePtr]
  | some a =>
    cases b with
    | none => simp [comparePtr]
    | some b => simpa [comparePtr] using h a b

private theorem catsCompare_eq_iff (a b : Option CilCats) : catsCompare a b = .eq ↔ a.isSome = b.isSome := by
  cases a with
  | none => cases b <;> simp [catsCompare, comparePtr]
  | some a => cases b <;> simp [catsCompare, comparePtr, catsLoop_eq]

private theorem levelCompare_eq_iff (a b : Option CilLevel) :
    levelCompare a b = .eq ↔ a.map CilLevel.seen = b.map CilLevel.seen := by
  refine comparePtr_eq_iff (fun a b => ?_) a b
  rw [Ordering.then_eq_eq, strcmp_eq_iff, catsCompare_eq_iff, CilLevel.seen, CilLevel.seen, Prod.mk.injEq]

private theorem rangeCompare_eq_iff (a b : Option CilLevelrange) :
    rangeCompare a b = .eq ↔ a.map CilLevelrange.seen = b.map CilLevelrange.seen := by
  refine comparePtr_eq_iff (fun a b => ?_) a b
  rw [Ordering.then_eq_eq, levelCompare_eq_iff, levelCompare_eq_iff, CilLevelrange.seen, CilLevelrange.seen,
    Prod.mk.injEq]

private theorem contextCompare_eq_iff (a b : CilContext) : contextCompare a b = .eq ↔ a.seen = b.seen := by
  simp only [contextCompare, Ordering.then_eq_eq, strcmp_eq_iff, rangeCompare_eq_iff, CilContext.seen, Prod.mk.injEq]

/-- The contexts of a rule. -/
def contexts : (k : ContextRuleKind) → Rule k → List (Option CilContext)
  | .netifcon => fun r => [some r.ifContext, some r.packetContext]
  | .genfscon => fun r => [some r.context]
  | .ibpkeycon => fun r => [some r.context]
  | .ibendportcon => fun r => [some r.context]
  | .portcon => fun r => [some r.context]
  | .nodecon => fun r => [some r.context]
  | .fsuse => fun r => [some r.context]
  | .filecon => fun r => [r.context]
  | .pirqcon => fun r => [some r.context]
  | .iomemcon => fun r => [some r.context]
  | .ioportcon => fun r => [some r.context]
  | .pcidevicecon => fun r => [some r.context]
  | .devicetreecon => fun r => [some r.context]

/-- Two rules have equal contexts, or both have none. -/
def SameContexts (k : ContextRuleKind) (r s : Rule k) : Prop :=
  (contexts k r).map (Option.map CilContext.value) = (contexts k s).map (Option.map CilContext.value)

/-- Two rules have contexts, and these agree in what is compared. -/
def SeenSame (k : ContextRuleKind) (r s : Rule k) : Prop :=
  none ∉ contexts k r ∧
    (contexts k r).map (Option.map CilContext.seen) = (contexts k s).map (Option.map CilContext.seen)

private theorem none_notMem_of_map_eq {β : Type} {f : CilContext → β} {l m : List (Option CilContext)} (hl : none ∉ l)
    (h : l.map (Option.map f) = m.map (Option.map f)) : none ∉ m := by
  intro hm
  have hmem : (none : Option β) ∈ m.map (Option.map f) := List.mem_map.2 ⟨none, hm, rfl⟩
  rw [← h] at hmem
  obtain ⟨c, hc, heq⟩ := List.mem_map.1 hmem
  rw [Option.map_eq_none_iff] at heq
  exact hl (heq ▸ hc)

theorem SeenSame.symm {k : ContextRuleKind} {r s : Rule k} (h : SeenSame k r s) : SeenSame k s r :=
  ⟨none_notMem_of_map_eq h.1 h.2, h.2.symm⟩

theorem SeenSame.trans {k : ContextRuleKind} {r s t : Rule k} (h : SeenSame k r s) (h' : SeenSame k s t) :
    SeenSame k r t :=
  ⟨h.1, h.2.trans h'.2⟩

/-- The comparison of contexts finds no difference. -/
theorem concompar_eq_iff (k : ContextRuleKind) (r s : Rule k) : concompar k r s = some .eq ↔ SeenSame k r s := by
  cases k with
  | netifcon =>
    simp [concompar, cilPostNetifconContextCompare, SeenSame, contexts, Ordering.then_eq_eq, contextCompare_eq_iff]
  | filecon =>
    cases hr : r.context with
    | none => simp [concompar, cilPostFileconContextCompare, SeenSame, contexts, hr]
    | some c =>
      cases hs : s.context with
      | none => simp [concompar, cilPostFileconContextCompare, SeenSame, contexts, hr, hs]
      | some d =>
        simp [concompar, cilPostFileconContextCompare, SeenSame, contexts, hr, hs, contextCompare_eq_iff]
  | _ => simp [concompar, SeenSame, contexts, contextCompare_eq_iff]

/-! ### Keys -/

/-- The fields that two rules have in common when neither is sorted before the other. -/
abbrev SortKey : ContextRuleKind → Type
  | .netifcon => CString
  | .genfscon => CString × CString
  | .ibpkeycon => CString × UInt32 × UInt32
  | .ibendportcon => CString × UInt32
  | .portcon => CilProtocol × UInt32 × UInt32
  | .nodecon => CilIpaddr × CilIpaddr
  | .fsuse => CilFsuseTypes × CString
  | .filecon => CString × CilFileconTypes
  | .pirqcon => UInt32
  | .iomemcon => UInt64 × UInt64
  | .ioportcon => UInt32 × UInt32
  | .pcidevicecon => UInt32
  | .devicetreecon => CString

def sortKey : (k : ContextRuleKind) → Rule k → SortKey k
  | .netifcon => fun r => r.interfaceStr
  | .genfscon => fun r => (r.fsStr, r.pathStr)
  | .ibpkeycon => fun r => (r.subnetPrefixStr, r.pkeyLow, r.pkeyHigh)
  | .ibendportcon => fun r => (r.devNameStr, r.port)
  | .portcon => fun r => (r.proto, r.portLow, r.portHigh)
  | .nodecon => fun r => (r.addr, r.mask)
  | .fsuse => fun r => (r.type, r.fsStr)
  | .filecon => fun r => (r.pathText, r.type)
  | .pirqcon => fun r => r.pirq
  | .iomemcon => fun r => (r.iomemLow, r.iomemHigh)
  | .ioportcon => fun r => (r.ioportLow, r.ioportHigh)
  | .pcidevicecon => fun r => r.dev
  | .devicetreecon => fun r => r.path

/-- The fields that tell the rules of a kind apart in the policy. -/
abbrev Key : ContextRuleKind → Type
  | .netifcon => CString
  | .genfscon => CString × CString × CilFileconTypes
  | .ibpkeycon => (List UInt8 ⊕ CString) × UInt16 × UInt16
  | .ibendportcon => CString × UInt8
  | .portcon => CilProtocol × UInt16 × UInt16
  | .nodecon => CilIpaddr × CilIpaddr
  | .fsuse => CilFsuseTypes × CString
  | .filecon => CString × CilFileconTypes
  | .pirqcon => UInt16
  | .iomemcon => UInt64 × UInt64
  | .ioportcon => UInt32 × UInt32
  | .pcidevicecon => UInt32
  | .devicetreecon => CString

/-- The first half of the address that `text` is read as; a text that is no address is not written to a policy. -/
def subnetPrefix (inetPton : CString → Option (List UInt8)) (text : CString) : List UInt8 ⊕ CString :=
  match inetPton text with
  | some ip => .inl (ip.take 8)
  | none => .inr text

/-- The key of a rule as the `*_to_policydb` function of its kind writes it, in the widths of the policy; that of a
filecon rule as it is written to the file contexts. -/
def key (inetPton : CString → Option (List UInt8)) : (k : ContextRuleKind) → Rule k → Key k
  | .netifcon => fun r => r.interfaceStr
  | .genfscon => fun r => (r.fsStr, r.pathStr, r.fileType)
  | .ibpkeycon => fun r => (subnetPrefix inetPton r.subnetPrefixStr, r.pkeyLow.toUInt16, r.pkeyHigh.toUInt16)
  | .ibendportcon => fun r => (r.devNameStr, r.port.toUInt8)
  | .portcon => fun r => (r.proto, r.portLow.toUInt16, r.portHigh.toUInt16)
  | .nodecon => fun r => (r.addr, r.mask)
  | .fsuse => fun r => (r.type, r.fsStr)
  | .filecon => fun r => (r.pathText, r.type)
  | .pirqcon => fun r => r.pirq.toUInt16
  | .iomemcon => fun r => (r.iomemLow, r.iomemHigh)
  | .ioportcon => fun r => (r.ioportLow, r.ioportHigh)
  | .pcidevicecon => fun r => r.dev
  | .devicetreecon => fun r => r.path

/-- The key says at least as much as the sorting does, or at most. -/
theorem key_refines (inetPton : CString → Option (List UInt8)) (k : ContextRuleKind) :
    (∀ r s, key inetPton k r = key inetPton k s → sortKey k r = sortKey k s) ∨
      ∀ r s, sortKey k r = sortKey k s → key inetPton k r = key inetPton k s := by
  cases k with
  | genfscon =>
    left
    intro r s h
    simp only [key, Prod.mk.injEq] at h
    simp only [sortKey, h.1, h.2.1]
  | ibpkeycon | ibendportcon | portcon =>
    right
    intro r s h
    simp only [sortKey, Prod.mk.injEq] at h
    simp only [key, h]
  | pirqcon =>
    right
    intro r s h
    exact congrArg UInt32.toUInt16 h
  | _ => exact .inl fun r s h => h

/-! ### The orders -/

private theorem CilFileconTypes.value_inj {t u : CilFileconTypes} : t.value = u.value ↔ t = u := by
  cases t <;> cases u <;> decide

private theorem CilProtocol.value_inj {p q : CilProtocol} : p.value = q.value ↔ p = q := by
  cases p <;> cases q <;> decide

private theorem CilFsuseTypes.value_inj {t u : CilFsuseTypes} : t.value = u.value ↔ t = u := by
  cases t <;> cases u <;> decide

theorem ordersBy_strcmp {α : Type} (f : α → CString) : OrdersBy (fun a b => strcmp (f a) (f b)) f :=
  OrdersBy.field f

theorem ordersBy_memcmp {α : Type} (f : α → List UInt8) : OrdersBy (fun a b => memcmp (f a) (f b)) f :=
  OrdersBy.field f

theorem ordersBy_spaceshipCmp {α κ : Type} [Ord κ] [Std.TransOrd κ] [Std.LawfulEqOrd κ] (f : α → κ) :
    OrdersBy (fun a b => spaceshipCmp (f a) (f b)) f :=
  OrdersBy.field f

private theorem interval_eq_iff {lo hi lo' hi' : UInt32} :
    (hi - lo = hi' - lo' ∧ lo = lo') ↔ (lo = lo' ∧ hi = hi') := by
  constructor
  · rintro ⟨h, rfl⟩
    exact ⟨rfl, by simpa using h⟩
  · rintro ⟨rfl, rfl⟩
    exact ⟨rfl, rfl⟩

theorem interval64_eq_iff {lo hi lo' hi' : UInt64} : (hi - lo = hi' - lo' ∧ lo = lo') ↔ (lo = lo' ∧ hi = hi') := by
  constructor
  · rintro ⟨h, rfl⟩
    exact ⟨rfl, by simpa using h⟩
  · rintro ⟨rfl, rfl⟩
    exact ⟨rfl, rfl⟩

theorem ordersBy_ibpkeycon : OrdersBy cilPostIbpkeyconCompare (sortKey .ibpkeycon) := by
  have h := (ordersBy_strcmp CilIbpkeycon.subnetPrefixStr).then
    ((ordersBy_spaceshipCmp fun r : CilIbpkeycon => r.pkeyHigh - r.pkeyLow).then
      (OrdersBy.none.ite CilIbpkeycon.pkeyLow))
  refine h.congr (fun a b => rfl) fun a b => ?_
  simp only [Prod.mk.injEq, and_true, interval_eq_iff, sortKey]

theorem ordersBy_portcon : OrdersBy cilPostPortconCompare (sortKey .portcon) := by
  have h := (ordersBy_spaceshipCmp fun r : CilPortcon => r.portHigh - r.portLow).then
    ((OrdersBy.none.ite fun r : CilPortcon => r.proto.value).ite CilPortcon.portLow)
  refine h.congr (fun a b => rfl) fun a b => ?_
  simp only [Prod.mk.injEq, and_true, ← and_assoc, interval_eq_iff, CilProtocol.value_inj, sortKey]
  rw [and_comm, and_assoc]

private theorem ordersBy_iomemcon : OrdersBy cilPostIomemconCompare (sortKey .iomemcon) := by
  have h := (ordersBy_spaceshipCmp fun r : CilIomemcon => r.iomemHigh - r.iomemLow).then
    (OrdersBy.none.ite CilIomemcon.iomemLow)
  refine h.congr (fun a b => rfl) fun a b => ?_
  simp only [Prod.mk.injEq, and_true, interval64_eq_iff, sortKey]

private theorem ordersBy_ioportcon : OrdersBy cilPostIoportconCompare (sortKey .ioportcon) := by
  have h := (ordersBy_spaceshipCmp fun r : CilIoportcon => r.ioportHigh - r.ioportLow).then
    (OrdersBy.none.ite CilIoportcon.ioportLow)
  refine h.congr (fun a b => rfl) fun a b => ?_
  simp only [Prod.mk.injEq, and_true, interval_eq_iff, sortKey]

private theorem ordersBy_ibendportcon : OrdersBy cilPostIbendportconCompare (sortKey .ibendportcon) := by
  have h := (ordersBy_strcmp CilIbendportcon.devNameStr).then (OrdersBy.none.ite CilIbendportcon.port)
  refine h.congr (fun a b => rfl) fun a b => ?_
  simp only [Prod.mk.injEq, and_true, sortKey]

private theorem ordersBy_pirqcon : OrdersBy cilPostPirqconCompare (sortKey .pirqcon) := by
  refine (OrdersBy.none.ite CilPirqcon.pirq).congr (fun a b => rfl) fun a b => ?_
  simp only [Prod.mk.injEq, and_true, sortKey]

private theorem ordersBy_pcidevicecon : OrdersBy cilPostPcideviceconCompare (sortKey .pcidevicecon) := by
  refine (OrdersBy.none.ite CilPcidevicecon.dev).congr (fun a b => rfl) fun a b => ?_
  simp only [Prod.mk.injEq, and_true, sortKey]

private theorem ordersBy_fsuse : OrdersBy cilPostFsuseCompare (sortKey .fsuse) := by
  refine ((ordersBy_strcmp CilFsuse.fsStr).ite fun r : CilFsuse => r.type.value).congr (fun a b => rfl) fun a b => ?_
  simp only [Prod.mk.injEq, CilFsuseTypes.value_inj, sortKey]

/-- A path with meta characters comes first. -/
def FcData.metaRank (fc : FcData) : Nat := if fc.hasMeta then 0 else 1

private theorem FcData.metaRank_lt_iff (a b : FcData) : a.metaRank < b.metaRank ↔ a.hasMeta ∧ ¬ b.hasMeta := by
  unfold FcData.metaRank
  cases a.hasMeta <;> cases b.hasMeta <;> decide

private theorem ordersBy_filecon : OrdersBy cilPostFileconCompare (sortKey .filecon) := by
  have h := ((((ordersBy_strcmp CilFilecon.pathText).ite fun r : CilFilecon => r.type.value).ite
    fun r : CilFilecon => (cilPostFcFillData r.pathText).strLen).ite
      fun r : CilFilecon => (cilPostFcFillData r.pathText).stemLen).ite
        fun r : CilFilecon => (cilPostFcFillData r.pathText).metaRank
  refine h.congr (fun a b => ?_) fun a b => ?_
  · simp only [cilPostFileconCompare, FcData.metaRank_lt_iff]
  · simp only [Prod.mk.injEq, CilFileconTypes.value_inj, sortKey]
    constructor
    · rintro ⟨-, -, -, htype, hpath⟩
      exact ⟨hpath, htype⟩
    · rintro ⟨hpath, htype⟩
      simp only [hpath, htype, and_self]

def CilFamily.rank : CilFamily → Nat
  | .inet => 0
  | .inet6 => 1

private theorem CilFamily.rank_inj {f g : CilFamily} : f.rank = g.rank ↔ f = g := by
  cases f <;> cases g <;> decide

theorem ordersBy_nodecon : OrdersBy cilPostNodeconCompare (sortKey .nodecon) := by
  have h := ((ordersBy_memcmp fun r : CilNodecon => r.mask.ip).flip.then
    (ordersBy_memcmp fun r : CilNodecon => r.addr.ip)).ite fun r : CilNodecon => r.addr.family.rank
  refine h.congr (fun a b => ?_) fun a b => ?_
  · unfold cilPostNodeconCompare
    cases a.addr.family <;> cases b.addr.family <;> simp [CilFamily.rank]
  · obtain ⟨⟨fa, ipa, hla⟩, ⟨ga, ma, hma⟩, ca, hfa⟩ := a
    obtain ⟨⟨fb, ipb, hlb⟩, ⟨gb, mb, hmb⟩, cb, hfb⟩ := b
    dsimp only at hfa hfb
    subst hfa hfb
    simp only [Prod.mk.injEq, CilFamily.rank_inj, sortKey, CilIpaddr.mk.injEq]
    tauto

/-- The rules of every kind are sorted by their sort keys. -/
theorem ordersBy_compar (k : ContextRuleKind) : OrdersBy (compar k) (sortKey k) := by
  cases k with
  | netifcon => exact ordersBy_strcmp CilNetifcon.interfaceStr
  | genfscon => exact (ordersBy_strcmp CilGenfscon.fsStr).then (ordersBy_strcmp CilGenfscon.pathStr)
  | ibpkeycon => exact ordersBy_ibpkeycon
  | ibendportcon => exact ordersBy_ibendportcon
  | portcon => exact ordersBy_portcon
  | nodecon => exact ordersBy_nodecon
  | fsuse => exact ordersBy_fsuse
  | filecon => exact ordersBy_filecon
  | pirqcon => exact ordersBy_pirqcon
  | iomemcon => exact ordersBy_iomemcon
  | ioportcon => exact ordersBy_ioportcon
  | pcidevicecon => exact ordersBy_pcidevicecon
  | devicetreecon => exact ordersBy_strcmp CilDevicetreecon.path

end Sepol.ContextRules
