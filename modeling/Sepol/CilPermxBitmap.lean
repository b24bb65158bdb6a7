import Sepol.CilAvrule
import Sepol.ExtendedPerms
import Sepol.Lib.MaximalRuns

/-!
# Extended permissions by driver

`__cil_permx_bitmap_to_sepol_xperms_list` cuts the runs of a set of permissions at the ends of drivers.  A run that is
a whole driver goes to the node of the complete drivers, any other run to the node of its driver; the nodes together
denote the set, and no driver has two of them.
-/

namespace Sepol

open MaximalRuns (runs Linked Maximal)

/-! ### Ranges of bits in a word -/

private theorem toNat_setbits {n : Nat} (hn : n < 32) : (1#32 <<< n - 1).toNat = 2 ^ n - 1 := by
  have hpow : 2 ^ n < 2 ^ 32 := Nat.pow_lt_pow_right (by decide) hn
  have hpos := Nat.two_pow_pos n
  have hone : (1#32).toNat = 1 := rfl
  have hone' : (1 : BitVec 32).toNat = 1 := rfl
  rw [BitVec.toNat_sub, BitVec.toNat_shiftLeft, hone, hone', Nat.shiftLeft_eq, Nat.one_mul, Nat.mod_eq_of_lt hpow]
  omega

private theorem getLsbD_setbits {n k : Nat} (hn : n < 32) : (1#32 <<< n - 1).getLsbD k = decide (k < n) := by
  rw [BitVec.getLsbD, toNat_setbits hn, Nat.testBit_two_pow_sub_one]

private theorem getLsbD_setbits_sub {m n k : Nat} (hm : m < 32) (hn : n ≤ m) :
    ((1#32 <<< m - 1) - (1#32 <<< n - 1)).getLsbD k = decide (n ≤ k ∧ k < m) := by
  have hpow : 2 ^ m < 2 ^ 32 := Nat.pow_lt_pow_right (by decide) hm
  have hle : 2 ^ n ≤ 2 ^ m := Nat.pow_le_pow_right (by decide) hn
  have hpos := Nat.two_pow_pos n
  have hsplit : 2 ^ n * 2 ^ (m - n) = 2 ^ m := by rw [← Nat.pow_add, Nat.add_sub_cancel' hn]
  have hvalue : ((1#32 <<< m - 1) - (1#32 <<< n - 1)).toNat = 2 ^ n * (2 ^ (m - n) - 1) := by
    rw [BitVec.toNat_sub, toNat_setbits hm, toNat_setbits (lt_of_le_of_lt hn hm), Nat.mul_sub, hsplit]
    omega
  rw [BitVec.getLsbD, hvalue, Nat.testBit_two_pow_mul, Nat.testBit_two_pow_sub_one]
  by_cases hk : n ≤ k
  · simp only [ge_iff_le, hk, decide_true, Bool.true_and, true_and, decide_eq_decide]
    omega
  · simp [hk]

/-- The word of a range has the bits of the range. -/
private theorem getLsbD_xpermRangeWord {low high i k : Nat} (hk : k < 32) (hlow : low / 32 ≤ i)
    (hhigh : i ≤ high / 32) (hle : low ≤ high) :
    (xpermRangeWord low high i).getLsbD k = decide (low ≤ 32 * i + k ∧ 32 * i + k ≤ high) := by
  have hmod : ∀ x : Nat, x &&& 0x1f = x % 32 := fun x => Nat.and_two_pow_sub_one_eq_mod x 5
  have hones : (~~~0 : BitVec 32) = BitVec.allOnes 32 := by decide
  have hl : i <<< 5 = 32 * i := by rw [Nat.shiftLeft_eq]; omega
  have hh : (i + 1) <<< 5 - 1 = 32 * i + 31 := by rw [Nat.shiftLeft_eq]; omega
  unfold xpermRangeWord
  simp only [hl, hh, hmod]
  split
  · rename_i h
    rw [hones, BitVec.getLsbD_allOnes]
    simp only [decide_eq_decide]
    omega
  · split
    · rename_i h
      rw [getLsbD_setbits (Nat.mod_lt _ (by decide))]
      simp only [decide_eq_decide]
      omega
    · split
      · rename_i h
        rw [hones, BitVec.allOnes_sub_eq_not, BitVec.getLsbD_not, getLsbD_setbits (Nat.mod_lt _ (by decide))]
        simp only [hk, decide_true, Bool.true_and, ← decide_not, decide_eq_decide]
        omega
      · rw [getLsbD_setbits_sub (Nat.mod_lt _ (by decide)) (by omega)]
        simp only [decide_eq_decide]
        omega

variable {kind : CilPermxKind} {xperms n : AvtabExtendedPerms} {r : Nat × Nat} {done : List (Nat × Nat)}
  {s : CilXpermsState} {e : Ebitmap}

private theorem AvtabExtendedPerms.hasBit_iff {j : Nat} :
    xperms.HasBit j ↔ j < 256 ∧ (xperms.perms (Fin.ofNat extendedPermsLen (j / 32))).getLsbD (j % 32) = true := by
  refine and_congr_right fun hj => ?_
  have hnat : (BitVec.ofNat 8 j).toNat = j := by
    rw [BitVec.toNat_ofNat]
    exact Nat.mod_eq_of_lt hj
  rw [xpermTest_iff, hnat]

private theorem hasBit_avruleXpermSetrangebits {low high : BitVec 16} (hle : low.toNat ≤ high.toNat)
    (hhigh : high.toNat < 256) {j : Nat} :
    (avruleXpermSetrangebits low high xperms).HasBit j ↔ xperms.HasBit j ∨ low.toNat ≤ j ∧ j ≤ high.toNat := by
  rw [AvtabExtendedPerms.hasBit_iff, AvtabExtendedPerms.hasBit_iff]
  by_cases hj : j < 256
  · have hval : (Fin.ofNat extendedPermsLen (j / 32)).val = j / 32 := by
      change j / 32 % 8 = j / 32
      omega
    simp only [hj, true_and, avruleXpermSetrangebits, hval, Nat.shiftRight_eq_div_pow]
    by_cases hword : low.toNat / 2 ^ 5 ≤ j / 32 ∧ j / 32 ≤ high.toNat / 2 ^ 5
    · rw [if_pos hword, BitVec.getLsbD_or, Bool.or_eq_true,
        getLsbD_xpermRangeWord (Nat.mod_lt _ (by decide)) hword.1 hword.2 hle, Nat.div_add_mod, decide_eq_true_iff]
    · rw [if_neg hword]
      exact (or_iff_left (by omega)).symm
  · simp only [hj, false_and, false_or, false_iff]
    omega

/-! ### The nodes of the runs -/

/-- What a node of the kind says in `specified`. -/
def CilPermxKind.specified (kind : CilPermxKind) : BitVec 8 :=
  if kind = .ioctl then avtabXpermsIoctlfunction else avtabXpermsNlmsg

/-- A run is all functions of a driver, and the kind has nodes for whole drivers. -/
def Whole (kind : CilPermxKind) (r : Nat × Nat) : Prop := kind = .ioctl ∧ r.1 % 256 = 0 ∧ r.2 % 256 = 255

/-- A run of functions of one driver. -/
structure OneDriver (r : Nat × Nat) : Prop where
  le : r.1 ≤ r.2
  same : r.1 / 256 = r.2 / 256
  lt : r.2 < 2 ^ 16

/-- The nodes that are not about whole drivers. -/
def CilXpermsState.functionNodes (s : CilXpermsState) : List AvtabExtendedPerms := s.xpermsList ++ s.part.toList

/-- What the nodes say after some runs are added. -/
structure XpermsInv (kind : CilPermxKind) (done : List (Nat × Nat)) (s : CilXpermsState) : Prop where
  specified : ∀ n ∈ s.functionNodes, n.specified = kind.specified
  sorted : s.functionNodes.Pairwise fun n n' => n.driver.toNat < n'.driver.toNat
  has : ∀ d j, (∃ n ∈ s.functionNodes, n.driver.toNat = d ∧ n.HasBit j) ↔
    j < 256 ∧ ∃ r ∈ done, ¬ Whole kind r ∧ r.1 ≤ d * 256 + j ∧ d * 256 + j ≤ r.2
  origin : ∀ n ∈ s.functionNodes, ∃ r ∈ done, ¬ Whole kind r ∧ r.1 / 256 = n.driver.toNat
  last : s.part = none → s.xpermsList = []
  complete : ∀ c, s.complete = some c → c.specified = avtabXpermsIoctldriver
  drivers : ∀ d, (∃ c, s.complete = some c ∧ c.HasBit d) ↔ ∃ r ∈ done, Whole kind r ∧ r.1 / 256 = d

private theorem not_hasBit_zero (specified driver : BitVec 8) (j : Nat) :
    ¬ AvtabExtendedPerms.HasBit ⟨specified, driver, fun _ => 0⟩ j := by
  rw [AvtabExtendedPerms.hasBit_iff]
  simp

private theorem xpermsInv_nil (kind : CilPermxKind) (low : BitVec 16) (start : Bool) :
    XpermsInv kind [] ⟨low, start, none, none, []⟩ := by
  constructor <;> simp [CilXpermsState.functionNodes]

private theorem toNat_and_255 (x : BitVec 16) : (x &&& 0xff).toNat = x.toNat % 256 := by
  rw [BitVec.toNat_and]
  exact Nat.and_two_pow_sub_one_eq_mod x.toNat 8

private theorem toNat_shiftRight_eight (x : BitVec 16) : (x >>> 8).toNat = x.toNat / 256 := by
  rw [BitVec.toNat_ushiftRight, Nat.shiftRight_eq_div_pow]

private theorem whole_iff {low high : BitVec 16} :
    (kind = .ioctl ∧ low &&& 0xff = 0 ∧ high &&& 0xff = 0xff) ↔ Whole kind (low.toNat, high.toNat) := by
  rw [Whole, ← BitVec.toNat_inj, ← BitVec.toNat_inj, toNat_and_255, toNat_and_255]
  rfl

/-- A whole driver is added. -/
private theorem XpermsInv.complete_step (h : XpermsInv kind done s) {low high : BitVec 16}
    (hwhole : Whole kind (low.toNat, high.toNat)) :
    XpermsInv kind (done ++ [(low.toNat, high.toNat)]) (cilXpermsRange kind low high s) := by
  have hdriver := toNat_shiftRight_eight low
  have hlt := low.isLt
  rw [cilXpermsRange, if_pos (whole_iff.2 hwhole)]
  refine ⟨h.specified, h.sorted, fun d j => ?_, fun n hn => ?_, h.last, fun c hc => ?_, fun d => ?_⟩
  · refine (h.has d j).trans ?_
    simp [hwhole]
  · obtain ⟨r, hr, hnot⟩ := h.origin n hn
    exact ⟨r, List.mem_append_left _ hr, hnot⟩
  · obtain rfl := Option.some.inj hc
    cases hs : s.complete with
    | none => rfl
    | some c => exact h.complete c hs
  · have hold : (s.complete.getD ⟨avtabXpermsIoctldriver, 0, fun _ => 0⟩).HasBit d ↔
        ∃ r ∈ done, Whole kind r ∧ r.1 / 256 = d := by
      rw [← h.drivers d]
      cases hs : s.complete with
      | none => simpa using not_hasBit_zero _ _ d
      | some c => simp
    simp only [Option.some.injEq, exists_eq_left']
    rw [hasBit_avruleXpermSetrangebits (le_refl _) (by omega), hold, hdriver]
    simp only [List.mem_append, List.mem_singleton]
    constructor
    · rintro (⟨r, hr, hd⟩ | hd)
      · exact ⟨r, Or.inl hr, hd⟩
      · exact ⟨_, Or.inr rfl, hwhole, by dsimp only; omega⟩
    · rintro ⟨r, hr | rfl, hw, hd⟩
      · exact Or.inl ⟨r, hr, hw, hd⟩
      · dsimp only at hd
        exact Or.inr (by omega)

/-- What a run that is not a whole driver does: the last node is extended when it is the one of the driver, otherwise
a new one is put behind it. -/
private theorem cilXpermsRange_function {low high : BitVec 16} (hnot : ¬ Whole kind (low.toNat, high.toNat)) :
    ∃ init p, (cilXpermsRange kind low high s).functionNodes =
        init ++ [avruleXpermSetrangebits (low &&& 0xff) (high &&& 0xff) p] ∧
      (cilXpermsRange kind low high s).part ≠ none ∧
      (cilXpermsRange kind low high s).complete = s.complete ∧ p.driver = (low >>> 8).setWidth 8 ∧
      (init = s.functionNodes ∧ p = ⟨kind.specified, (low >>> 8).setWidth 8, fun _ => 0⟩ ∧
          (∀ q, s.part = some q → q.driver ≠ (low >>> 8).setWidth 8) ∨
        s.functionNodes = init ++ [p]) := by
  rw [cilXpermsRange, if_neg (fun h => hnot (whole_iff.1 h))]
  cases hpart : s.part with
  | none =>
    refine ⟨s.functionNodes, ⟨kind.specified, (low >>> 8).setWidth 8, fun _ => 0⟩,
      ?_, ?_, rfl, rfl, Or.inl ⟨rfl, rfl, ?_⟩⟩
    · simp [CilXpermsState.functionNodes, hpart, CilPermxKind.specified]
    · simp
    · intro q hq
      cases hq
  | some q =>
    by_cases hq : q.driver ≠ (low >>> 8).setWidth 8
    · refine ⟨s.functionNodes, ⟨kind.specified, (low >>> 8).setWidth 8, fun _ => 0⟩, ?_, ?_, ?_, rfl,
        Or.inl ⟨rfl, rfl, ?_⟩⟩
      · simp [CilXpermsState.functionNodes, hpart, hq, CilPermxKind.specified]
      · simp
      · simp [hq]
      · intro q' hq'
        obtain rfl := Option.some.inj hq'
        exact hq
    · refine ⟨s.xpermsList, q, ?_, ?_, ?_, not_not.1 hq, Or.inr ?_⟩
      · simp [CilXpermsState.functionNodes, hpart, hq]
      · simp
      · simp [hq]
      · simp [CilXpermsState.functionNodes, hpart]

private theorem XpermsInv.driver_le (h : XpermsInv kind done s) {low : Nat}
    (hdone : ∀ r ∈ done, OneDriver r ∧ r.2 < low) (hn : n ∈ s.functionNodes) : n.driver.toNat ≤ low / 256 := by
  obtain ⟨r, hr, -, hd⟩ := h.origin n hn
  have hlt := (hdone r hr).2
  have hle := (hdone r hr).1.le
  omega

private theorem XpermsInv.driver_lt (h : XpermsInv kind done s) {low : Nat}
    (hdone : ∀ r ∈ done, OneDriver r ∧ r.2 < low)
    (hlast : ∀ q, s.part = some q → q.driver.toNat ≠ low / 256) (hn : n ∈ s.functionNodes) :
    n.driver.toNat < low / 256 := by
  cases hpart : s.part with
  | none =>
    rw [CilXpermsState.functionNodes, hpart, h.last hpart] at hn
    cases hn
  | some q =>
    have hq : q ∈ s.functionNodes := by simp [CilXpermsState.functionNodes, hpart]
    have hle := h.driver_le hdone hq
    have hne := hlast q hpart
    have hsorted := h.sorted
    rw [CilXpermsState.functionNodes, hpart, Option.toList_some] at hn hsorted
    rcases List.mem_append.1 hn with hn | hn
    · have := (List.pairwise_append.1 hsorted).2.2 n hn q (by simp)
      omega
    · rw [List.mem_singleton.1 hn]
      omega

/-- Functions of a driver are added. -/
private theorem XpermsInv.function_step (h : XpermsInv kind done s) {low high : BitVec 16}
    (hr : OneDriver (low.toNat, high.toNat)) (hnot : ¬ Whole kind (low.toNat, high.toNat))
    (hdone : ∀ r ∈ done, OneDriver r ∧ r.2 < low.toNat) :
    XpermsInv kind (done ++ [(low.toNat, high.toNat)]) (cilXpermsRange kind low high s) := by
  have hlt := low.isLt
  have hlt' := high.isLt
  have hle : low.toNat ≤ high.toNat := hr.le
  have hsame : low.toNat / 256 = high.toNat / 256 := hr.same
  have hdriver : ((low >>> 8).setWidth 8).toNat = low.toNat / 256 := by
    rw [BitVec.toNat_setWidth, toNat_shiftRight_eight]
    omega
  obtain ⟨init, p, hnodes, hpart, hcomplete, hp, hcases⟩ := cilXpermsRange_function (s := s) hnot
  have hpd : p.driver.toNat = low.toNat / 256 := by rw [hp, hdriver]
  -- the old nodes and the node before the bits are added to it
  have hold : ∀ d j, (∃ n ∈ init ++ [p], n.driver.toNat = d ∧ n.HasBit j) ↔
      ∃ n ∈ s.functionNodes, n.driver.toNat = d ∧ n.HasBit j := by
    intro d j
    rcases hcases with ⟨rfl, rfl, -⟩ | heq
    · constructor
      · rintro ⟨n, hn, hd, hj⟩
        rcases List.mem_append.1 hn with hn | hn
        · exact ⟨n, hn, hd, hj⟩
        · rw [List.mem_singleton.1 hn] at hj
          exact absurd hj (not_hasBit_zero _ _ j)
      · rintro ⟨n, hn, hd, hj⟩
        exact ⟨n, List.mem_append_left _ hn, hd, hj⟩
    · rw [heq]
  have hbit : ∀ j, (avruleXpermSetrangebits (low &&& 0xff) (high &&& 0xff) p).HasBit j ↔
      p.HasBit j ∨ low.toNat % 256 ≤ j ∧ j ≤ high.toNat % 256 := by
    intro j
    rw [hasBit_avruleXpermSetrangebits, toNat_and_255, toNat_and_255]
    · rw [toNat_and_255, toNat_and_255]
      omega
    · rw [toNat_and_255]
      omega
  refine ⟨fun n hn => ?_, ?_, fun d j => ?_, fun n hn => ?_, fun hnone => absurd hnone hpart, fun c hc => ?_,
    fun d => ?_⟩
  · rw [hnodes] at hn
    rcases List.mem_append.1 hn with hn | hn
    · rcases hcases with ⟨rfl, -⟩ | heq
      · exact h.specified n hn
      · exact h.specified n (heq ▸ List.mem_append_left _ hn)
    · rw [List.mem_singleton.1 hn]
      rcases hcases with ⟨-, rfl, -⟩ | heq
      · rfl
      · exact h.specified p (heq ▸ by simp)
  · rw [hnodes, List.pairwise_append]
    rcases hcases with ⟨rfl, -, hq⟩ | heq
    · refine ⟨h.sorted, List.pairwise_singleton .., fun n hn n' hn' => ?_⟩
      rw [List.mem_singleton.1 hn']
      change n.driver.toNat < p.driver.toNat
      rw [hpd]
      refine h.driver_lt hdone (fun q hqp heq => hq q hqp ?_) hn
      exact BitVec.eq_of_toNat_eq (heq.trans hdriver.symm)
    · have hsorted := h.sorted
      rw [heq, List.pairwise_append] at hsorted
      refine ⟨hsorted.1, List.pairwise_singleton .., fun n hn n' hn' => ?_⟩
      rw [List.mem_singleton.1 hn']
      exact hsorted.2.2 n hn p (by simp)
  · have hsplit : (∃ n ∈ (cilXpermsRange kind low high s).functionNodes, n.driver.toNat = d ∧ n.HasBit j) ↔
        (∃ n ∈ s.functionNodes, n.driver.toNat = d ∧ n.HasBit j) ∨
          low.toNat / 256 = d ∧ low.toNat % 256 ≤ j ∧ j ≤ high.toNat % 256 := by
      rw [← hold, hnodes]
      simp only [List.mem_append, List.mem_singleton, or_and_right, exists_or, exists_eq_left, hbit]
      rw [show (avruleXpermSetrangebits (low &&& 0xff) (high &&& 0xff) p).driver = p.driver from rfl, hpd,
        and_or_left, or_assoc]
    rw [hsplit, h.has d j]
    simp only [List.mem_append, List.mem_singleton, or_and_right, exists_or, exists_eq_left, hnot, not_false_iff,
      true_and, and_or_left]
    refine or_congr Iff.rfl ?_
    omega
  · rw [hnodes] at hn
    have hfrom : n ∈ s.functionNodes ∨ n.driver.toNat = low.toNat / 256 := by
      rcases List.mem_append.1 hn with hn | hn
      · rcases hcases with ⟨rfl, -⟩ | heq
        · exact Or.inl hn
        · exact Or.inl (heq ▸ List.mem_append_left _ hn)
      · rw [List.mem_singleton.1 hn]
        exact Or.inr hpd
    rcases hfrom with hn | hd
    · obtain ⟨r, hr, hw⟩ := h.origin n hn
      exact ⟨r, List.mem_append_left _ hr, hw⟩
    · exact ⟨_, List.mem_append_right _ (by simp), hnot, hd.symm⟩
  · exact h.complete c (hcomplete ▸ hc)
  · rw [hcomplete, h.drivers d]
    simp [hnot]

/-! ### The loop -/

/-- A position goes together with the next one when it is not the last function of its driver. -/
def cilXpermsMore (e : Ebitmap) (i : Nat) : Bool := decide (i &&& 0xff ≠ 0xff) && ebitmapGetBit e (i + 1)

private theorem cilXpermsMore_iff (he : e.Canonical) {i : Nat} :
    cilXpermsMore e i = true ↔ i % 256 ≠ 255 ∧ i + 1 ∈ e := by
  rw [cilXpermsMore, Bool.and_eq_true, decide_eq_true_iff,
    show i &&& 0xff = i % 256 from Nat.and_two_pow_sub_one_eq_mod i 8,
    ebitmapGetBit_iff he]

private theorem cilXpermsMore_linked (he : e.Canonical) : Linked (cilXpermsMore e) (ebitmapPositiveBits e) where
  sorted := ebitmapPositiveBits_sorted he
  next _ _ hmore := (mem_ebitmapPositiveBits he).2 ((cilXpermsMore_iff he).1 hmore).2

/-- The set is one of extended permissions. -/
def Ebitmap.Permx (e : Ebitmap) : Prop := ∀ i, i ∈ e → i < 2 ^ 16

private theorem OneDriver.of_maximal (he : e.Canonical) (hlt : e.Permx)
    (hr : Maximal (cilXpermsMore e) (ebitmapPositiveBits e) r) : OneDriver r where
  le := hr.le
  same := by
    have hle := hr.le
    by_contra hne
    -- the last function of the first driver is inside the run
    have hinner := hr.inner (r.1 / 256 * 256 + 255) (by omega) (by omega)
    have := ((cilXpermsMore_iff he).1 hinner).1
    omega
  lt := hlt r.2 ((mem_ebitmapPositiveBits he).1 (hr.mem r.2 hr.le (le_refl _)))

/-- The first position of the open range. -/
def CilXpermsState.start (s : CilXpermsState) : Option Nat := if s.startNewRange then none else some s.low.toNat

private theorem cilXpermsRange_startNewRange (kind : CilPermxKind) (low high : BitVec 16) (s : CilXpermsState) :
    (cilXpermsRange kind low high s).startNewRange = s.startNewRange := by
  unfold cilXpermsRange
  dsimp only
  split
  · rfl
  · split
    · split <;> rfl
    · rfl

/-- The loop adds the runs one by one. -/
theorem XpermsInv.loop (he : e.Canonical) (hlt : e.Permx) {l : List Nat} (hl : ∀ i ∈ l, i < 2 ^ 16)
    (hall : runs (cilXpermsMore e) none (ebitmapPositiveBits e) = done ++ runs (cilXpermsMore e) s.start l)
    (h : XpermsInv kind done s) :
    XpermsInv kind (runs (cilXpermsMore e) none (ebitmapPositiveBits e)) (l.foldl (cilXpermsStep kind e) s) := by
  induction l generalizing s done with
  | nil =>
    rw [hall, runs, List.append_nil]
    exact h
  | cons i l ih =>
    have hi := hl i (by simp)
    have hl' : ∀ i ∈ l, i < 2 ^ 16 := fun j hj => hl j (List.mem_cons_of_mem _ hj)
    -- the low value of the range at this position
    obtain ⟨s', hs', hlow, hnew, h'⟩ : ∃ s', (if s.startNewRange then
        { s with low := BitVec.ofNat 16 i, startNewRange := false } else s) = s' ∧ s'.low.toNat = s.start.getD i ∧
          s'.startNewRange = false ∧ XpermsInv kind done s' := by
      cases hstart : s.startNewRange with
      | true =>
        refine ⟨_, rfl, ?_, rfl, ⟨h.specified, h.sorted, h.has, h.origin, h.last, h.complete, h.drivers⟩⟩
        rw [CilXpermsState.start, if_pos hstart, Option.getD_none]
        exact BitVec.toNat_ofNat i 16 |>.trans (Nat.mod_eq_of_lt hi)
      | false =>
        refine ⟨s, rfl, ?_, hstart, h⟩
        rw [CilXpermsState.start, if_neg (by simp [hstart]), Option.getD_some]
    rw [List.foldl_cons, cilXpermsStep, hs']
    rw [runs] at hall
    cases hmore : cilXpermsMore e i with
    | true =>
      rw [if_pos hmore] at hall
      have hcond : i &&& 0xff ≠ 0xff ∧ ebitmapGetBit e (i + 1) = true := by simpa [cilXpermsMore] using hmore
      rw [if_pos hcond]
      refine ih hl' ?_ h'
      rw [CilXpermsState.start, if_neg (by simp [hnew]), hlow]
      exact hall
    | false =>
      rw [if_neg (by simp [hmore]), ← hlow] at hall
      have hcond : ¬ (i &&& 0xff ≠ 0xff ∧ ebitmapGetBit e (i + 1) = true) := by simpa [cilXpermsMore] using hmore
      have hhigh : (BitVec.ofNat 16 i).toNat = i := BitVec.toNat_ofNat i 16 |>.trans (Nat.mod_eq_of_lt hi)
      have hlinked := cilXpermsMore_linked he
      have hone : ∀ r ∈ runs (cilXpermsMore e) none (ebitmapPositiveBits e), OneDriver r := fun r hr =>
        OneDriver.of_maximal he hlt (MaximalRuns.maximal_of_mem_runs hlinked hr)
      have hsorted := MaximalRuns.runs_sorted hlinked
      rw [hall] at hone hsorted
      have hdone : ∀ r ∈ done, OneDriver r ∧ r.2 < s'.low.toNat := fun r hr =>
        ⟨hone r (List.mem_append_left _ hr), (List.pairwise_append.1 hsorted).2.2 r hr _ (List.mem_cons_self ..)⟩
      have hr : OneDriver (s'.low.toNat, (BitVec.ofNat 16 i).toNat) := by
        rw [hhigh]
        exact hone _ (by simp)
      have hreset : XpermsInv kind done { s' with startNewRange := true } :=
        ⟨h'.specified, h'.sorted, h'.has, h'.origin, h'.last, h'.complete, h'.drivers⟩
      have hstep : XpermsInv kind (done ++ [(s'.low.toNat, i)])
          (cilXpermsRange kind s'.low (BitVec.ofNat 16 i) { s' with startNewRange := true }) := by
        by_cases hwhole : Whole kind (s'.low.toNat, (BitVec.ofNat 16 i).toNat)
        · simpa only [hhigh] using hreset.complete_step hwhole
        · simpa only [hhigh] using hreset.function_step hr hwhole hdone
      rw [if_neg hcond]
      refine ih hl' ?_ hstep
      rw [CilXpermsState.start, cilXpermsRange_startNewRange, if_pos rfl, List.append_assoc]
      exact hall

/-! ### The list -/

/-- The nodes of a list that are not about whole drivers. -/
def functionNodes (nodes : List AvtabExtendedPerms) : List AvtabExtendedPerms :=
  nodes.filter fun n => n.specified ≠ avtabXpermsIoctldriver

def driverNodes (nodes : List AvtabExtendedPerms) : List AvtabExtendedPerms :=
  nodes.filter fun n => n.specified = avtabXpermsIoctldriver

private theorem CilPermxKind.specified_ne_driver (kind : CilPermxKind) : kind.specified ≠ avtabXpermsIoctldriver := by
  cases kind <;> decide

private theorem XpermsInv.functionNodes_eq (h : XpermsInv kind done s) :
    functionNodes (s.functionNodes ++ s.complete.toList) = s.functionNodes := by
  have hleft : ∀ n ∈ s.functionNodes, decide (n.specified ≠ avtabXpermsIoctldriver) = true := fun n hn => by
    rw [h.specified n hn]
    exact decide_eq_true kind.specified_ne_driver
  have hright : ∀ n ∈ s.complete.toList, ¬ decide (n.specified ≠ avtabXpermsIoctldriver) = true := fun n hn => by
    simpa using h.complete n (Option.mem_toList.1 hn)
  rw [functionNodes, List.filter_append, List.filter_eq_self.2 hleft, List.filter_eq_nil_iff.2 hright,
    List.append_nil]

private theorem XpermsInv.driverNodes_eq (h : XpermsInv kind done s) :
    driverNodes (s.functionNodes ++ s.complete.toList) = s.complete.toList := by
  have hleft : ∀ n ∈ s.functionNodes, ¬ decide (n.specified = avtabXpermsIoctldriver) = true := fun n hn => by
    rw [h.specified n hn]
    simpa using kind.specified_ne_driver
  have hright : ∀ n ∈ s.complete.toList, decide (n.specified = avtabXpermsIoctldriver) = true := fun n hn => by
    simpa using h.complete n (Option.mem_toList.1 hn)
  rw [driverNodes, List.filter_append, List.filter_eq_nil_iff.2 hleft, List.filter_eq_self.2 hright, List.nil_append]

/-- The nodes denote the runs. -/
private theorem XpermsInv.exists_has_iff (h : XpermsInv kind done s) (hone : ∀ r ∈ done, OneDriver r) (v : Nat) :
    (∃ n ∈ s.functionNodes ++ s.complete.toList, n.Has v) ↔ ∃ r ∈ done, r.1 ≤ v ∧ v ≤ r.2 := by
  have hfunction : (∃ n ∈ s.functionNodes, n.Has v) ↔ ∃ r ∈ done, ¬ Whole kind r ∧ r.1 ≤ v ∧ v ≤ r.2 := by
    have hhas := h.has (v / 256) (v % 256)
    rw [Nat.div_add_mod' v 256] at hhas
    refine Iff.trans ?_ (hhas.trans (and_iff_right (Nat.mod_lt v (by decide))))
    refine exists_congr fun n => and_congr_right fun hn => ?_
    rw [AvtabExtendedPerms.Has, if_neg (by rw [h.specified n hn]; exact kind.specified_ne_driver), eq_comm]
  have hdriver : (∃ n ∈ s.complete.toList, n.Has v) ↔ ∃ r ∈ done, Whole kind r ∧ r.1 ≤ v ∧ v ≤ r.2 := by
    have hhas : (∃ n ∈ s.complete.toList, n.Has v) ↔ ∃ c, s.complete = some c ∧ c.HasBit (v / 256) := by
      refine exists_congr fun n => ?_
      rw [Option.mem_toList]
      refine and_congr_right fun hn => ?_
      rw [AvtabExtendedPerms.Has, if_pos (h.complete n hn)]
    rw [hhas, h.drivers]
    refine exists_congr fun r => and_congr_right fun hr => and_congr_right fun hwhole => ?_
    have hsame := (hone r hr).same
    obtain ⟨-, hlow, hhigh⟩ := hwhole
    omega
  simp only [List.mem_append, or_and_right, exists_or, hfunction, hdriver]
  constructor
  · rintro (⟨r, hr, -, hv⟩ | ⟨r, hr, -, hv⟩)
    · exact ⟨r, hr, hv⟩
    · exact ⟨r, hr, hv⟩
  · rintro ⟨r, hr, hv⟩
    by_cases hwhole : Whole kind r
    · exact Or.inr ⟨r, hr, hwhole, hv⟩
    · exact Or.inl ⟨r, hr, hwhole, hv⟩

/-- The list denotes the set; it has one function node for a driver at most and one node of whole drivers at most, and
no driver is in both. -/
theorem cilPermxBitmapToSepolXpermsList_splits (kind : CilPermxKind) (he : e.Canonical) (hlt : e.Permx) :
    (∀ v, (∃ n ∈ cilPermxBitmapToSepolXpermsList kind e, n.Has v) ↔ v ∈ e) ∧
      (∀ n ∈ functionNodes (cilPermxBitmapToSepolXpermsList kind e), n.specified = kind.specified) ∧
      ((functionNodes (cilPermxBitmapToSepolXpermsList kind e)).map fun n => n.driver).Nodup ∧
      (driverNodes (cilPermxBitmapToSepolXpermsList kind e)).length ≤ 1 ∧
      ∀ n ∈ functionNodes (cilPermxBitmapToSepolXpermsList kind e),
        ∀ c ∈ driverNodes (cilPermxBitmapToSepolXpermsList kind e), ¬ c.HasBit n.driver.toNat := by
  have hlinked := cilXpermsMore_linked he
  have hmax : ∀ r ∈ runs (cilXpermsMore e) none (ebitmapPositiveBits e),
      Maximal (cilXpermsMore e) (ebitmapPositiveBits e) r := fun r hr => MaximalRuns.maximal_of_mem_runs hlinked hr
  have hone : ∀ r ∈ runs (cilXpermsMore e) none (ebitmapPositiveBits e), OneDriver r := fun r hr =>
    OneDriver.of_maximal he hlt (hmax r hr)
  have h := XpermsInv.loop he hlt (l := ebitmapPositiveBits e)
    (fun i hi => hlt i ((mem_ebitmapPositiveBits he).1 hi)) (by rfl) (xpermsInv_nil kind 0 true)
  change _ ∧ (∀ n ∈ functionNodes (CilXpermsState.functionNodes _ ++ _), _) ∧ _
  have hf := h.functionNodes_eq
  have hd := h.driverNodes_eq
  refine ⟨fun v => ?_, ?_, ?_, ?_, ?_⟩
  · refine (h.exists_has_iff hone v).trans ?_
    rw [← mem_ebitmapPositiveBits he]
    exact MaximalRuns.exists_mem_runs_iff hlinked
  · rw [hf]
    exact h.specified
  · change ((functionNodes (CilXpermsState.functionNodes _ ++ _)).map _).Nodup
    rw [hf, List.Nodup, List.pairwise_map]
    refine h.sorted.imp fun hlt heq => ?_
    rw [heq] at hlt
    exact lt_irrefl _ hlt
  · change (driverNodes (CilXpermsState.functionNodes _ ++ _)).length ≤ 1
    rw [hd]
    exact Option.length_toList_le
  · change ∀ n ∈ functionNodes (CilXpermsState.functionNodes _ ++ _),
      ∀ c ∈ driverNodes (CilXpermsState.functionNodes _ ++ _), _
    rw [hf, hd]
    intro n hn c hc hbit
    obtain ⟨r, hr, hnot, hdr⟩ := h.origin n hn
    obtain ⟨r', hr', hwhole, hdr'⟩ := (h.drivers _).1 ⟨c, Option.mem_toList.1 hc, hbit⟩
    -- the run of the function node would be inside the one of the whole driver
    have hsame := (hone r' hr').same
    have hmem : r.1 ∈ MaximalRuns.positions r' := by
      obtain ⟨-, hlow, hhigh⟩ := hwhole
      exact MaximalRuns.mem_positions.2 ⟨by omega, by omega⟩
    exact hnot ((hmax r hr).eq_of_mem (hmax r' hr') hmem ▸ hwhole)

theorem cilPermxBitmapToSepolXpermsList_splits_example :
    (∀ v, (∃ n ∈ cilPermxBitmapToSepolXpermsList .ioctl (ebitmapOfList [0x1fe, 0x1ff, 0x200]), n.Has v) ↔
        v ∈ ebitmapOfList [0x1fe, 0x1ff, 0x200]) ∧
      (∀ n ∈ functionNodes (cilPermxBitmapToSepolXpermsList .ioctl (ebitmapOfList [0x1fe, 0x1ff, 0x200])),
        n.specified = CilPermxKind.specified .ioctl) := by
  have hlt : (ebitmapOfList [0x1fe, 0x1ff, 0x200]).Permx := fun i hi => by
    have hmem := (mem_ebitmapOfList (by decide) i).1 hi
    simp only [List.mem_cons, List.not_mem_nil, or_false] at hmem
    omega
  have h := cilPermxBitmapToSepolXpermsList_splits .ioctl (ebitmapOfList_canonical _) hlt
  exact ⟨h.1, h.2.1⟩

end Sepol
