import Sepol.CilContextRulesExact
import Sepol.Ocontexts
import Sepol.Lib.LittleEndian

/-!
# Lookups among the sorted context rules

The lookups for ports, keys and nodes take the first entry that matches, so the rules are sorted with the small ranges
and the long netmasks in front.  The rules for keys are sorted by the texts of their prefixes first, and two texts of
one prefix separate rules that a lookup does not.
-/

namespace Sepol.ContextRules

open SortedRuns
open Ocontexts (Ocontext PortData NodeData IbpkeyData)

/-! ### The entries of the policy -/

/-- The number of a protocol, `IPPROTO_*`. -/
def CilProtocol.ipproto : CilProtocol → UInt8
  | .udp => 17
  | .tcp => 6
  | .dccp => 33
  | .sctp => 132

/-- What is written of a port rule; the ports of the policy have 16 bits. -/
def CilPortcon.data (r : CilPortcon) : PortData := ⟨r.proto.ipproto, r.portLow.toUInt16, r.portHigh.toUInt16⟩

/-- What is written of a rule for keys, whose prefix is the first half of an address. -/
def CilIbpkeycon.data (inetPton : CString → Option (List UInt8)) (r : CilIbpkeycon) : Option IbpkeyData :=
  (inetPton r.subnetPrefixStr).map fun subnetPrefix =>
    ⟨UInt64.ofNat (LittleEndian.ofBytes ((subnetPrefix.take 8).map UInt8.toBitVec)), r.pkeyLow.toUInt16,
      r.pkeyHigh.toUInt16⟩

/-- The bytes of an address. -/
def copyBytes (n : Nat) (ip : List UInt8) : Vector UInt8 n := Vector.ofFn fun i => ip.getD i 0

def CilNodecon.data (n : Nat) (r : CilNodecon) : NodeData n := ⟨copyBytes n r.addr.ip, copyBytes n r.mask.ip⟩

section Entries

-- `toContext` stands for `__cil_context_to_sepol_context`, and `inetPton` for the function of the C library
variable {γ : Type} (toContext : CilContext → Option γ) (inetPton : CString → Option (List UInt8))

def cilPortconToPolicydb (portcons : List CilPortcon) : Option (List (Ocontext γ .port)) :=
  portcons.mapM fun r => (toContext r.context).map fun c => ⟨r.data, c⟩

def cilIbpkeyconToPolicydb (ibpkeycons : List CilIbpkeycon) : Option (List (Ocontext γ .ibpkey)) :=
  ibpkeycons.mapM fun r => do
    let data ← r.data inetPton
    let c ← toContext r.context
    some ⟨data, c⟩

/-- The entries of `OCON_NODE` and of `OCON_NODE6`. -/
def cilNodeconToPolicydb : List CilNodecon → Option (List (Ocontext γ .node) × List (Ocontext γ .node6))
  | [] => some ([], [])
  | r :: nodecons => do
    let c ← toContext r.context
    let (nodes, nodes6) ← cilNodeconToPolicydb nodecons
    match r.addr.family with
    | .inet => some (⟨r.data 4, c⟩ :: nodes, nodes6)
    | .inet6 => some (nodes, ⟨r.data 16, c⟩ :: nodes6)

end Entries

/-! ### Lookups -/

def matchPort (protocol : UInt8) (port : UInt16) (d : PortData) : Bool :=
  d.protocol = protocol && d.lowPort ≤ port && d.highPort ≥ port

def matchIbpkey (subnetPrefix : UInt64) (pkey : UInt16) (d : IbpkeyData) : Bool :=
  d.lowPkey ≤ pkey && d.highPkey ≥ pkey && subnetPrefix = d.subnetPrefix

/-- The comparison of an address in `sepol_node_sid`, and `match_ipv6_addrmask`. -/
def matchAddrmask {n : Nat} (input : Vector UInt8 n) (d : NodeData n) : Bool :=
  d.addr = Vector.zipWith (· &&& ·) input d.mask

variable {γ : Type}

/-- The loop of `sepol_port_sid`: the entry whose context has the SID, and none for `SECINITSID_PORT`. -/
def sepolPortSid (ocontexts : List (Ocontext γ .port)) (protocol : UInt8) (port : UInt16) :
    Option (Ocontext γ .port) :=
  ocontexts.find? fun c => matchPort protocol port c.u

/-- The loop of `sepol_ibpkey_sid`. -/
def sepolIbpkeySid (ocontexts : List (Ocontext γ .ibpkey)) (subnetPrefix : UInt64) (pkey : UInt16) :
    Option (Ocontext γ .ibpkey) :=
  ocontexts.find? fun c => matchIbpkey subnetPrefix pkey c.u

/-- The loop of `sepol_node_sid` for `AF_INET`. -/
def sepolNodeSid (ocontexts : List (Ocontext γ .node)) (addr : Vector UInt8 4) : Option (Ocontext γ .node) :=
  ocontexts.find? fun c => matchAddrmask addr c.u

/-- The loop of `sepol_node_sid` for `AF_INET6`. -/
def sepolNode6Sid (ocontexts : List (Ocontext γ .node6)) (addr : Vector UInt8 16) : Option (Ocontext γ .node6) :=
  ocontexts.find? fun c => matchAddrmask addr c.u

/-! ### Specific rules -/

/-- The size of a range, less one. -/
def portRange (d : PortData) : Nat := d.highPort.toNat - d.lowPort.toNat

def pkeyRange (d : IbpkeyData) : Nat := d.highPkey.toNat - d.lowPkey.toNat

/-- The number of bits of a mask. -/
def prefixLength (mask : List UInt8) : Nat := (mask.map fun b => (List.range 8).countP b.toNat.testBit).sum

/-- The mask of `n` bits, in network order. -/
def netmask : Nat → Nat → List UInt8
  | 0, _ => []
  | size + 1, n => (if 8 ≤ n then 255 else UInt8.ofNat (256 - 2 ^ (8 - n))) :: netmask size (n - 8)

/-- The bits of a mask come first. -/
def CilIpaddr.IsNetmask (mask : CilIpaddr) : Prop :=
  ∃ n, n ≤ 8 * mask.family.size ∧ mask.ip = netmask mask.family.size n

/-- The first match of every lookup is the most specific one, and the comparison functions are preorders that tell
apart rules with different keys. -/
structure MostSpecificFirst (ports : List (Ocontext γ .port)) (pkeys : List (Ocontext γ .ibpkey))
    (nodes : List (Ocontext γ .node)) (nodes6 : List (Ocontext γ .node6)) : Prop where
  port : ∀ protocol port c, sepolPortSid ports protocol port = some c →
    ∀ d ∈ ports, matchPort protocol port d.u → portRange c.u ≤ portRange d.u
  ibpkey : ∀ subnetPrefix pkey c, sepolIbpkeySid pkeys subnetPrefix pkey = some c →
    ∀ d ∈ pkeys, matchIbpkey subnetPrefix pkey d.u → pkeyRange c.u ≤ pkeyRange d.u
  node : ∀ addr c, sepolNodeSid nodes addr = some c →
    ∀ d ∈ nodes, matchAddrmask addr d.u → prefixLength d.u.mask.toList ≤ prefixLength c.u.mask.toList
  node6 : ∀ addr c, sepolNode6Sid nodes6 addr = some c →
    ∀ d ∈ nodes6, matchAddrmask addr d.u → prefixLength d.u.mask.toList ≤ prefixLength c.u.mask.toList
  portCompare : OrdersBy cilPostPortconCompare (sortKey .portcon)
  ibpkeyCompare : OrdersBy cilPostIbpkeyconCompare (sortKey .ibpkeycon)
  nodeCompare : OrdersBy cilPostNodeconCompare (sortKey .nodecon)

/-! ### The order of the rules -/

/-- A port rule is sorted before another one: by its range, its first port and its protocol. -/
def PortBefore (r s : CilPortcon) : Prop :=
  r.portHigh - r.portLow < s.portHigh - s.portLow ∨
    r.portHigh - r.portLow = s.portHigh - s.portLow ∧
      (r.portLow < s.portLow ∨ r.portLow = s.portLow ∧ r.proto.value < s.proto.value)

/-- A rule for keys is sorted before another one: by the text of its prefix, its range and its first key. -/
def IbpkeyBefore (r s : CilIbpkeycon) : Prop :=
  strcmp r.subnetPrefixStr s.subnetPrefixStr = .lt ∨
    r.subnetPrefixStr = s.subnetPrefixStr ∧
      (r.pkeyHigh - r.pkeyLow < s.pkeyHigh - s.pkeyLow ∨
        r.pkeyHigh - r.pkeyLow = s.pkeyHigh - s.pkeyLow ∧ r.pkeyLow < s.pkeyLow)

/-- No lookup of a port meets a larger range of ports before a smaller one. -/
def PortsInOrder (portcons : List CilPortcon) : Prop :=
  ∀ protocol port, LargerBehind PortBefore (fun r => matchPort protocol port r.data)
    (fun r => portRange r.data) portcons

/-- No lookup of a key meets a larger range of keys before a smaller one. -/
def PkeysInOrder (inetPton : CString → Option (List UInt8)) (ibpkeycons : List CilIbpkeycon) : Prop :=
  ∀ subnetPrefix pkey, LargerBehind IbpkeyBefore (fun r => (r.data inetPton).any (matchIbpkey subnetPrefix pkey))
    (fun r => (r.data inetPton).elim 0 pkeyRange) ibpkeycons

private theorem cilPostPortconCompare_eq_lt_iff (r s : CilPortcon) :
    cilPostPortconCompare r s = .lt ↔ PortBefore r s := by
  simp only [cilPostPortconCompare, spaceshipCmp, ite_lt_ite_gt, Ordering.then_eq_lt, Std.compare_eq_lt,
    Std.LawfulEqCmp.compare_eq_iff_eq, reduceCtorEq, and_false, or_false, PortBefore]

private theorem cilPostIbpkeyconCompare_eq_lt_iff (r s : CilIbpkeycon) :
    cilPostIbpkeyconCompare r s = .lt ↔ IbpkeyBefore r s := by
  simp only [cilPostIbpkeyconCompare, strcmp_eq_iff, spaceshipCmp, ite_lt_ite_gt, Ordering.then_eq_lt,
    Std.compare_eq_lt,
    Std.LawfulEqCmp.compare_eq_iff_eq, reduceCtorEq, and_false, or_false, IbpkeyBefore]

/-! ### Ports and keys -/

private theorem map_of_mapM {α β κ : Type} {f : α → Option β} {g : β → κ} {h : α → κ}
    (hf : ∀ a b, f a = some b → g b = h a)
    {l : List α} {l' : List β} (hl : l.mapM f = some l') : l'.map g = l.map h := by
  induction l generalizing l' with
  | nil =>
    obtain rfl := Option.some.inj hl
    rfl
  | cons a l ih =>
    rw [List.mapM_cons] at hl
    obtain ⟨b, hb, hl⟩ := Option.bind_eq_some_iff.1 hl
    obtain ⟨bs, hbs, hl⟩ := Option.bind_eq_some_iff.1 hl
    obtain rfl := Option.some.inj hl
    rw [List.map_cons, List.map_cons, hf a b hb, ih hbs]

section Sorted

variable {toContext : CilContext → Option γ} {inetPton : CString → Option (List UInt8)}

private theorem map_cilPortconToPolicydb {portcons : List CilPortcon} {ports : List (Ocontext γ .port)}
    (h : cilPortconToPolicydb toContext portcons = some ports) : ports.map (·.u) = portcons.map CilPortcon.data := by
  refine map_of_mapM (fun r c hc => ?_) h
  obtain ⟨context, -, rfl⟩ := Option.map_eq_some_iff.1 hc
  rfl

private theorem map_cilIbpkeyconToPolicydb {ibpkeycons : List CilIbpkeycon} {pkeys : List (Ocontext γ .ibpkey)}
    (h : cilIbpkeyconToPolicydb toContext inetPton ibpkeycons = some pkeys) :
    pkeys.map (fun c => some c.u) = ibpkeycons.map fun r => r.data inetPton := by
  refine map_of_mapM (fun r c hc => ?_) h
  obtain ⟨d, hd, hc⟩ := Option.bind_eq_some_iff.1 hc
  obtain ⟨context, -, hc⟩ := Option.bind_eq_some_iff.1 hc
  obtain rfl := Option.some.inj hc
  exact hd.symm

/-- The entries of sorted rules: whether the first match is the least one is a matter of the rules. -/
theorem Qsort.firstLeast_iff {ρ κ ε δ : Type} {cmp : ρ → ρ → Ordering} {key : ρ → κ} (h : OrdersBy cmp key)
    (q : Qsort cmp) {rules : List ρ} {entries : List ε} {u : ε → δ} {data : ρ → δ}
    (hentries : entries.map u = (q.sort rules).map data) (p : δ → Bool) (size : δ → Nat)
    (hdata : ∀ a b, key a = key b → data a = data b) :
    FirstLeast (p ∘ u) (size ∘ u) entries ↔
      LargerBehind (fun a b => cmp a b = .lt) (p ∘ data) (size ∘ data) rules := by
  have hsize : ∀ a b, key a = key b → (size ∘ data) a = (size ∘ data) b :=
    fun a b hab => congrArg size (hdata a b hab)
  rw [← firstLeast_map, hentries, firstLeast_map, h.firstLeast_iff (q.sorted rules) hsize]
  exact ⟨LargerBehind.perm (q.perm rules), LargerBehind.perm (q.perm rules).symm⟩

private theorem sepolPortSid_least_iff (q : Qsort cilPostPortconCompare) {portcons : List CilPortcon}
    {ports : List (Ocontext γ .port)} (h : cilPortconToPolicydb toContext (q.sort portcons) = some ports) :
    (∀ protocol port c, sepolPortSid ports protocol port = some c →
      ∀ d ∈ ports, matchPort protocol port d.u → portRange c.u ≤ portRange d.u) ↔ PortsInOrder portcons := by
  have hdata : ∀ r s, sortKey .portcon r = sortKey .portcon s → r.data = s.data := by
    intro r s hrs
    simp only [sortKey, Prod.mk.injEq] at hrs
    simp only [CilPortcon.data, hrs]
  have hiff := fun protocol port => Qsort.firstLeast_iff ordersBy_portcon q (map_cilPortconToPolicydb h)
    (matchPort protocol port) portRange hdata
  simp only [cilPostPortconCompare_eq_lt_iff] at hiff
  exact forall₂_congr hiff

private theorem sepolIbpkeySid_least_iff (q : Qsort cilPostIbpkeyconCompare) {ibpkeycons : List CilIbpkeycon}
    {pkeys : List (Ocontext γ .ibpkey)}
    (h : cilIbpkeyconToPolicydb toContext inetPton (q.sort ibpkeycons) = some pkeys) :
    (∀ subnetPrefix pkey c, sepolIbpkeySid pkeys subnetPrefix pkey = some c →
      ∀ d ∈ pkeys, matchIbpkey subnetPrefix pkey d.u → pkeyRange c.u ≤ pkeyRange d.u) ↔
        PkeysInOrder inetPton ibpkeycons := by
  have hdata : ∀ r s, sortKey .ibpkeycon r = sortKey .ibpkeycon s → r.data inetPton = s.data inetPton := by
    intro r s hrs
    simp only [sortKey, Prod.mk.injEq] at hrs
    simp only [CilIbpkeycon.data, hrs]
  have hiff := fun subnetPrefix pkey => Qsort.firstLeast_iff ordersBy_ibpkeycon q (map_cilIbpkeyconToPolicydb h)
    (Option.any (matchIbpkey subnetPrefix pkey)) (fun d => d.elim 0 pkeyRange) hdata
  simp only [cilPostIbpkeyconCompare_eq_lt_iff] at hiff
  exact forall₂_congr hiff

end Sorted

/-! ### Nodes -/

private theorem prefixLength_cons (b : UInt8) (mask : List UInt8) :
    prefixLength (b :: mask) = (List.range 8).countP b.toNat.testBit + prefixLength mask := rfl

private theorem prefixLength_netmask {size n : Nat} (h : n ≤ 8 * size) : prefixLength (netmask size n) = n := by
  induction size generalizing n with
  | zero =>
    obtain rfl : n = 0 := by omega
    rfl
  | succ size ih =>
    rw [netmask, prefixLength_cons, ih (by omega)]
    by_cases hn : 8 ≤ n
    · have hcount : (List.range 8).countP (255 : UInt8).toNat.testBit = 8 := by decide
      rw [if_pos hn, hcount]
      omega
    · have hcount : ∀ m < 8, (List.range 8).countP (UInt8.ofNat (256 - 2 ^ (8 - m))).toNat.testBit = m := by decide
      rw [if_neg hn, hcount n (by omega)]
      omega

private theorem memcmp_cons (b c : UInt8) (l m : List UInt8) : memcmp (b :: l)
    (c :: m) = (compare b c).then (memcmp l m) :=
  List.compareLex_cons_cons

/-- A longer mask is greater. -/
private theorem memcmp_netmask {size n m : Nat} (h : n < m) (hm : m ≤ 8 * size) :
    memcmp (netmask size n) (netmask size m) = .lt := by
  induction size generalizing n m with
  | zero => omega
  | succ size ih =>
    rw [netmask, netmask, memcmp_cons, Ordering.then_eq_lt]
    by_cases hn : 8 ≤ n
    · right
      rw [if_pos hn, if_pos (by omega)]
      exact ⟨by decide, ih (by omega) (by omega)⟩
    · left
      rw [if_neg hn]
      by_cases hm8 : 8 ≤ m
      · have hfull : ∀ i < 8, compare (UInt8.ofNat (256 - 2 ^ (8 - i))) 255 = .lt := by decide
        rw [if_pos hm8]
        exact hfull n (by omega)
      · have hpart : ∀ j < 8, ∀ i < j,
            compare (UInt8.ofNat (256 - 2 ^ (8 - i))) (UInt8.ofNat (256 - 2 ^ (8 - j))) = .lt := by decide
        rw [if_neg hm8]
        exact hpart m (by omega) n h

private theorem CilIpaddr.IsNetmask.prefixLength_le {mask mask' : CilIpaddr} (h : mask.IsNetmask)
    (h' : mask'.IsNetmask) (hfamily : mask.family = mask'.family) (hcmp : memcmp mask.ip mask'.ip ≠ .lt) :
    prefixLength mask'.ip ≤ prefixLength mask.ip := by
  obtain ⟨n, hn, hip⟩ := h
  obtain ⟨n', hn', hip'⟩ := h'
  rw [← hfamily] at hn' hip'
  rw [hip, hip', prefixLength_netmask hn, prefixLength_netmask hn']
  by_contra hlt
  rw [hip, hip'] at hcmp
  exact hcmp (memcmp_netmask (by omega) hn')

private theorem toList_copyBytes {n : Nat} {ip : List UInt8} (h : ip.length = n) : (copyBytes n ip).toList = ip := by
  subst h
  apply List.ext_getElem
  · simp
  · intro i hi hi'
    simp [copyBytes]

section Nodes

variable {toContext : CilContext → Option γ} {nodecons : List CilNodecon} {nodes : List (Ocontext γ .node)}
  {nodes6 : List (Ocontext γ .node6)}

/-- The rules of a family, in their order. -/
def ofFamily (family : CilFamily) (nodecons : List CilNodecon) : List CilNodecon :=
  nodecons.filter fun r => r.addr.family = family

private theorem map_cilNodeconToPolicydb (h : cilNodeconToPolicydb toContext nodecons = some (nodes, nodes6)) :
    nodes.map (·.u) = (ofFamily .inet nodecons).map (CilNodecon.data 4) ∧
      nodes6.map (·.u) = (ofFamily .inet6 nodecons).map (CilNodecon.data 16) := by
  induction nodecons generalizing nodes nodes6 with
  | nil =>
    obtain ⟨rfl, rfl⟩ := Prod.mk.inj (Option.some.inj h)
    exact ⟨rfl, rfl⟩
  | cons r nodecons ih =>
    obtain ⟨c, -, h⟩ := Option.bind_eq_some_iff.1 h
    obtain ⟨⟨rest, rest6⟩, hrest, h⟩ := Option.bind_eq_some_iff.1 h
    obtain ⟨h4, h16⟩ := ih hrest
    simp only [ofFamily] at h4 h16 ⊢
    cases hfamily : r.addr.family with
    | inet =>
      simp only [hfamily] at h
      obtain ⟨rfl, rfl⟩ := Prod.mk.inj (Option.some.inj h)
      simp [hfamily, h4, h16]
    | inet6 =>
      simp only [hfamily] at h
      obtain ⟨rfl, rfl⟩ := Prod.mk.inj (Option.some.inj h)
      simp [hfamily, h4, h16]

/-- Among rules of one family the first match has the longest mask. -/
private theorem ofFamily_longest (q : Qsort cilPostNodeconCompare) (hmask : ∀ r ∈ nodecons, r.mask.IsNetmask)
    (family : CilFamily) (p : CilNodecon → Bool) :
    FirstLeast p (fun r => 8 * family.size - prefixLength r.mask.ip) (ofFamily family (q.sort nodecons)) := by
  refine (ordersBy_nodecon.firstLeast_iff ((q.sorted nodecons).filter _) fun r s hrs => ?_).2 ?_
  · simp only [sortKey, Prod.mk.injEq] at hrs
    rw [hrs.2]
  · intro r hr s hs _ _ hsize hbefore
    exfalso
    dsimp only at hsize
    simp only [List.mem_filter, decide_eq_true_eq] at hr hs
    have hnetmask : ∀ t, t ∈ q.sort nodecons → t.mask.IsNetmask :=
      fun t ht => hmask t ((q.perm nodecons).mem_iff.1 ht)
    have hfamily : r.mask.family = s.mask.family := by
      rw [← r.family_eq, ← s.family_eq, hr.2, hs.2]
    have hcmp : memcmp r.mask.ip s.mask.ip ≠ .lt := by
      intro hlt
      rw [cilPostNodeconCompare, hr.2, hs.2, if_neg (by simp), hlt] at hbefore
      cases hbefore
    have hle := (hnetmask r hr.1).prefixLength_le (hnetmask s hs.1) hfamily hcmp
    omega

private theorem data_mask (q : Qsort cilPostNodeconCompare) (hmask : ∀ r ∈ nodecons, r.mask.IsNetmask)
    {family : CilFamily} {r : CilNodecon} (hr : r ∈ ofFamily family (q.sort nodecons)) :
    (r.data family.size).mask.toList = r.mask.ip ∧ prefixLength r.mask.ip ≤ 8 * family.size := by
  simp only [ofFamily, List.mem_filter, decide_eq_true_eq] at hr
  obtain ⟨hmem, rfl⟩ := hr
  obtain ⟨n, hn, hip⟩ := hmask r ((q.perm nodecons).mem_iff.1 hmem)
  constructor
  · rw [r.family_eq]
    exact toList_copyBytes r.mask.length_ip
  · rw [hip, prefixLength_netmask hn, r.family_eq]
    exact hn

/-- The first match among the entries of a family has the longest mask. -/
theorem find?_longest (q : Qsort cilPostNodeconCompare) (hmask : ∀ r ∈ nodecons, r.mask.IsNetmask)
    (family : CilFamily) {entries : List (NodeData family.size)}
    (h : entries = (ofFamily family (q.sort nodecons)).map (CilNodecon.data family.size))
    {p : NodeData family.size → Bool} {c : NodeData family.size} (hc : entries.find? p = some c) :
    ∀ d ∈ entries, p d → prefixLength d.mask.toList ≤ prefixLength c.mask.toList := by
  subst h
  rw [List.find?_map] at hc
  obtain ⟨r, hr, rfl⟩ := Option.map_eq_some_iff.1 hc
  intro d hd hpd
  obtain ⟨s, hs, rfl⟩ := List.mem_map.1 hd
  have hle := ofFamily_longest q hmask family (p ∘ CilNodecon.data family.size) r hr s hs hpd
  obtain ⟨hrmask, hrlength⟩ := data_mask q hmask (List.mem_of_find?_eq_some hr)
  obtain ⟨hsmask, hslength⟩ := data_mask q hmask hs
  dsimp only at hle
  rw [hrmask, hsmask]
  omega

private theorem sepolNodeSid_longest (q : Qsort cilPostNodeconCompare) (hmask : ∀ r ∈ nodecons, r.mask.IsNetmask)
    (h : cilNodeconToPolicydb toContext (q.sort nodecons) = some (nodes, nodes6)) (addr : Vector UInt8 4)
    {c : Ocontext γ .node} (hc : sepolNodeSid nodes addr = some c) :
    ∀ d ∈ nodes, matchAddrmask addr d.u → prefixLength d.u.mask.toList ≤ prefixLength c.u.mask.toList := by
  intro d hd hmatch
  have hfind : (nodes.map (·.u)).find? (matchAddrmask addr) = some c.u := by
    rw [List.find?_map]
    exact Option.map_eq_some_iff.2 ⟨c, hc, rfl⟩
  exact find?_longest q hmask .inet (map_cilNodeconToPolicydb h).1 hfind d.u (List.mem_map_of_mem hd) hmatch

private theorem sepolNode6Sid_longest (q : Qsort cilPostNodeconCompare) (hmask : ∀ r ∈ nodecons, r.mask.IsNetmask)
    (h : cilNodeconToPolicydb toContext (q.sort nodecons) = some (nodes, nodes6)) (addr : Vector UInt8 16)
    {c : Ocontext γ .node6} (hc : sepolNode6Sid nodes6 addr = some c) :
    ∀ d ∈ nodes6, matchAddrmask addr d.u → prefixLength d.u.mask.toList ≤ prefixLength c.u.mask.toList := by
  intro d hd hmatch
  have hfind : (nodes6.map (·.u)).find? (matchAddrmask addr) = some c.u := by
    rw [List.find?_map]
    exact Option.map_eq_some_iff.2 ⟨c, hc, rfl⟩
  exact find?_longest q hmask .inet6 (map_cilNodeconToPolicydb h).2 hfind d.u (List.mem_map_of_mem hd) hmatch

end Nodes

/-! ### All lookups -/

/-- The first match is the most specific one in every lookup exactly when no larger range of ports or of keys is
sorted before a smaller one that it shares a match with. -/
theorem mostSpecificFirst_iff (toContext : CilContext → Option γ) (inetPton : CString → Option (List UInt8))
    (portcons : List CilPortcon) (ibpkeycons : List CilIbpkeycon) (nodecons : List CilNodecon)
    (qport : Qsort cilPostPortconCompare) (qibpkey : Qsort cilPostIbpkeyconCompare)
    (qnode : Qsort cilPostNodeconCompare) (ports : List (Ocontext γ .port)) (pkeys : List (Ocontext γ .ibpkey))
    (nodes : List (Ocontext γ .node)) (nodes6 : List (Ocontext γ .node6))
    (hmask : ∀ r ∈ nodecons, r.mask.IsNetmask)
    (hport : cilPortconToPolicydb toContext (qport.sort portcons) = some ports)
    (hibpkey : cilIbpkeyconToPolicydb toContext inetPton (qibpkey.sort ibpkeycons) = some pkeys)
    (hnode : cilNodeconToPolicydb toContext (qnode.sort nodecons) = some (nodes, nodes6)) :
    MostSpecificFirst ports pkeys nodes nodes6 ↔ PortsInOrder portcons ∧ PkeysInOrder inetPton ibpkeycons := by
  constructor
  · intro h
    exact ⟨(sepolPortSid_least_iff qport hport).1 h.port, (sepolIbpkeySid_least_iff qibpkey hibpkey).1 h.ibpkey⟩
  · intro ⟨hports, hpkeys⟩
    exact {
      port := (sepolPortSid_least_iff qport hport).2 hports
      ibpkey := (sepolIbpkeySid_least_iff qibpkey hibpkey).2 hpkeys
      node := fun addr c hc => sepolNodeSid_longest qnode hmask hnode addr hc
      node6 := fun addr c hc => sepolNode6Sid_longest qnode hmask hnode addr hc
      portCompare := ordersBy_portcon
      ibpkeyCompare := ordersBy_ibpkeycon
      nodeCompare := ordersBy_nodecon }

/-! ### Two texts of a prefix -/

/-- The addresses of `fe80::` in small and in capital letters, and no others. -/
def linkLocal (text : CString) : Option (List UInt8) :=
  if text = ['f', 'e', '8', '0', ':', ':'] ∨ text = ['F', 'E', '8', '0', ':', ':'] then
    some ([0xfe, 0x80] ++ List.replicate 14 0)
  else none

def someContext (name : Char) : CilContext := ⟨['u'], ['r'], [name], none⟩

/-- All keys of a prefix. -/
def allKeys : CilIbpkeycon := ⟨['F', 'E', '8', '0', ':', ':'], 0, 0xffff, someContext 'a'⟩

/-- One key of the same prefix. -/
def oneKey : CilIbpkeycon := ⟨['f', 'e', '8', '0', ':', ':'], 1, 1, someContext 'b'⟩

/-- An IPv4 network. -/
def network (a b c d : UInt8) (length : Nat) : CilNodecon where
  addr := ⟨.inet, [a, b, c, d], rfl⟩
  mask := ⟨.inet, netmask 4 length, rfl⟩
  context := someContext 'n'
  family_eq := rfl

theorem mostSpecificFirst_iff_networks :
    (∀ r ∈ [network 10 0 0 0 8, network 10 1 0 0 16], r.mask.IsNetmask) ∧
      (MostSpecificFirst [⟨⟨6, 80, 80⟩, ()⟩, ⟨⟨6, 1, 1024⟩, ()⟩] [⟨⟨0x80fe, 1, 1⟩, ()⟩]
          [⟨⟨#v[10, 1, 0, 0], #v[255, 255, 0, 0]⟩, ()⟩, ⟨⟨#v[10, 0, 0, 0], #v[255, 0, 0, 0]⟩, ()⟩] [] ↔
        PortsInOrder [⟨.tcp, 1, 1024, someContext 'p'⟩, ⟨.tcp, 80, 80, someContext 'q'⟩] ∧
          PkeysInOrder linkLocal [oneKey]) := by
  have hmask : ∀ r ∈ [network 10 0 0 0 8, network 10 1 0 0 16], r.mask.IsNetmask := by
    intro r hr
    simp only [List.mem_cons, List.not_mem_nil, or_false] at hr
    rcases hr with rfl | rfl
    · exact ⟨8, by decide, rfl⟩
    · exact ⟨16, by decide, rfl⟩
  exact ⟨hmask, mostSpecificFirst_iff (fun _ => some ()) linkLocal _ _ [network 10 0 0 0 8, network 10 1 0 0 16]
    (Qsort.insertion ordersBy_portcon) (Qsort.insertion ordersBy_ibpkeycon) (Qsort.insertion ordersBy_nodecon) _ _ _ _
    hmask rfl rfl rfl⟩

/-- All keys of the prefix `FE80::` come before one key of `fe80::`. -/
theorem not_mostSpecificFirst :
    ¬ ∀ (inetPton : CString → Option (List UInt8)) (portcons : List CilPortcon) (ibpkeycons : List CilIbpkeycon)
        (nodecons : List CilNodecon) (qport : Qsort cilPostPortconCompare) (qibpkey : Qsort cilPostIbpkeyconCompare)
        (qnode : Qsort cilPostNodeconCompare) (ports : List (Ocontext Unit .port))
        (pkeys : List (Ocontext Unit .ibpkey)) (nodes : List (Ocontext Unit .node))
        (nodes6 : List (Ocontext Unit .node6)),
      (∀ r ∈ portcons, r.portLow ≤ r.portHigh) → (∀ r ∈ ibpkeycons, r.pkeyLow ≤ r.pkeyHigh) →
      (∀ r ∈ nodecons, r.mask.IsNetmask) →
      cilPortconToPolicydb (fun _ => some ()) (qport.sort portcons) = some ports →
      cilIbpkeyconToPolicydb (fun _ => some ()) inetPton (qibpkey.sort ibpkeycons) = some pkeys →
      cilNodeconToPolicydb (fun _ => some ()) (qnode.sort nodecons) = some (nodes, nodes6) →
      MostSpecificFirst ports pkeys nodes nodes6 := by
  intro hall
  have h := hall linkLocal [] [oneKey, allKeys] [] (Qsort.insertion ordersBy_portcon)
    (Qsort.insertion ordersBy_ibpkeycon) (Qsort.insertion ordersBy_nodecon) []
    [⟨⟨0x80fe, 0, 0xffff⟩, ()⟩, ⟨⟨0x80fe, 1, 1⟩, ()⟩] [] [] (by simp) (by decide) (by simp) rfl rfl rfl
  have hle := h.ibpkey 0x80fe 1 ⟨⟨0x80fe, 0, 0xffff⟩, ()⟩ rfl ⟨⟨0x80fe, 1, 1⟩, ()⟩ (by simp) (by decide)
  exact absurd hle (by decide)

end Sepol.ContextRules
