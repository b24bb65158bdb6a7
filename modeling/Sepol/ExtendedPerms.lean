import Sepol.Assertion

/-!
# Extended permissions

The 256 bits of a permission array as a set of numbers, and the ioctl commands, pairs of a driver and a function
number, that a rule with extended permissions is about.
-/

namespace Sepol

/-- The bit of the permission array that stands for `x`. -/
theorem xpermTest_iff (x : BitVec 8) (p : Fin extendedPermsLen → BitVec 32) :
    xpermTest x p = true ↔ (p (Fin.ofNat extendedPermsLen (x.toNat / 32))).getLsbD (x.toNat % 32) = true := by
  have hdiv : (x >>> 5).toNat = x.toNat / 32 := by
    simp [BitVec.toNat_ushiftRight, Nat.shiftRight_eq_div_pow]
  have hmod : (x &&& 0x1f).toNat = x.toNat % 32 := by
    rw [BitVec.toNat_and]
    exact Nat.and_two_pow_sub_one_eq_mod x.toNat 5
  have hbit : ∀ v : BitVec 32, 1#32 &&& v ≠ 0 ↔ v.getLsbD 0 = true := fun v => by
    rw [Words.and_ne_zero_iff]
    constructor
    · rintro ⟨k, _, h1, hv⟩
      obtain rfl : k = 0 := by simpa [BitVec.getLsbD_one] using h1
      exact hv
    · intro hv
      exact ⟨0, by decide, by decide, hv⟩
  rw [xpermTest, decide_eq_true_eq, hbit, hdiv, hmod, BitVec.getLsbD_ushiftRight, Nat.add_zero]

private theorem exists_xperm (i : Fin extendedPermsLen) {k : Nat} (hk : k < 32) :
    ∃ x : BitVec 8, Fin.ofNat extendedPermsLen (x.toNat / 32) = i ∧ x.toNat % 32 = k := by
  have hi : i.val < 8 := i.isLt
  have hx : (BitVec.ofNat 8 (32 * i.val + k)).toNat = 32 * i.val + k := by
    rw [BitVec.toNat_ofNat]
    omega
  refine ⟨BitVec.ofNat 8 (32 * i.val + k), ?_, ?_⟩
  · apply Fin.ext
    rw [hx]
    change (32 * i.val + k) / 32 % 8 = i.val
    omega
  · rw [hx]
    omega

private theorem extendedPermissionsAnd_iff (p1 p2 : Fin extendedPermsLen → BitVec 32) :
    extendedPermissionsAnd p1 p2 = true ↔ ∃ x, xpermTest x p1 = true ∧ xpermTest x p2 = true := by
  simp only [extendedPermissionsAnd, List.any_eq_true, List.mem_finRange, true_and, decide_eq_true_eq,
    Words.and_ne_zero_iff, xpermTest_iff]
  constructor
  · rintro ⟨i, k, hk, h1, h2⟩
    obtain ⟨x, rfl, rfl⟩ := exists_xperm i hk
    exact ⟨x, h1, h2⟩
  · rintro ⟨x, h1, h2⟩
    exact ⟨_, _, Nat.mod_lt _ (by decide), h1, h2⟩

/-- The rule grants the ioctl command with this driver and function number. -/
def AvtabExtendedPerms.GrantsIoctl (xperms : AvtabExtendedPerms) (driver function : BitVec 8) : Prop :=
  xperms.specified = avtabXpermsIoctlfunction ∧ xperms.driver = driver ∧ xpermTest function xperms.perms = true ∨
    xperms.specified = avtabXpermsIoctldriver ∧ xpermTest driver xperms.perms = true

/-- The neverallow rule forbids the ioctl command with this driver and function number. -/
def AvExtendedPerms.ForbidsIoctl (xperms : AvExtendedPerms) (driver function : BitVec 8) : Prop :=
  xperms.specified = avruleXpermsIoctlfunction ∧ xperms.driver = driver ∧ xpermTest function xperms.perms = true ∨
    xperms.specified = avruleXpermsIoctldriver ∧ xpermTest driver xperms.perms = true

/-- A command that is forbidden and granted is found. -/
theorem checkExtendedPermissions_of_common {neverallow : AvExtendedPerms} {allow : AvtabExtendedPerms}
    {driver function : BitVec 8} (hn : neverallow.ForbidsIoctl driver function)
    (ha : allow.GrantsIoctl driver function) : checkExtendedPermissions neverallow allow = true := by
  have hand : ∀ {x : BitVec 8}, xpermTest x neverallow.perms = true → xpermTest x allow.perms = true →
      extendedPermissionsAnd neverallow.perms allow.perms = true := fun h1 h2 =>
    (extendedPermissionsAnd_iff _ _).2 ⟨_, h1, h2⟩
  rcases hn with ⟨hn, hd, hf⟩ | ⟨hn, hd⟩ <;> rcases ha with ⟨ha, hd', hf'⟩ | ⟨ha, hd'⟩
  · simp [checkExtendedPermissions, hn, ha, hd, hd', hand hf hf']
  · simp [checkExtendedPermissions, hn, ha, hd, hd']
  · simp [checkExtendedPermissions, hn, ha, hd, hd']
  · simp [checkExtendedPermissions, hn, ha, hand hd hd']

/-- Bit `j` of the permission array. -/
def AvtabExtendedPerms.HasBit (xperms : AvtabExtendedPerms) (j : Nat) : Prop :=
  j < 256 ∧ xpermTest (BitVec.ofNat 8 j) xperms.perms = true

/-- The commands of a rule: one function of its driver for a bit, or all 256 functions of a driver. -/
def AvtabExtendedPerms.Has (xperms : AvtabExtendedPerms) (v : Nat) : Prop :=
  if xperms.specified = avtabXpermsIoctldriver then xperms.HasBit (v / 256)
  else v / 256 = xperms.driver.toNat ∧ xperms.HasBit (v % 256)

end Sepol
