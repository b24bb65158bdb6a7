import Sepol.ModulePackage

/-!
# Information about packages that can be read

`sepol_module_package_info` goes through the sections of an image in step with `sepol_module_package_read`, and
reports the policy that is read, exactly when it finds eight bytes at the start of each section, the length of the
last section does not wrap to less than four, and the identifier of the policy has the length of the text that it is
compared to.
-/

namespace Sepol

open Blocks (bounds)

variable {τ : Type} {readTables : PolicydbHeader → List Byte → Option τ} {image fp buf rest : List Byte}
  {policy : PackagePolicy τ} {header : PolicydbHeader}

/-! ### The policy -/

/-- What is reported of a policy. -/
def PackagePolicy.info (policy : PackagePolicy τ) : PackageInfo := ⟨policy.policyType, policy.name, policy.version⟩

/-- The policy that is read is reported exactly when its identifier has the right length. -/
private theorem readPackageInfo_of_policydbReadModule (h : policydbReadModule readTables fp = some policy)
    (hmagic : le32ToCpu fp 0 = policydbModMagic) :
    (le32ToCpu fp 1 = policydbModString.length → readPackageInfo (fp.take 8) (fp.drop 8) = some policy.info) ∧
    ∀ info, readPackageInfo (fp.take 8) (fp.drop 8) = some info → le32ToCpu fp 1 = policydbModString.length := by
  have hlen := le32ToCpu_take (n := 8) (i := 1) (by decide) fp
  constructor
  · intro hstr
    unfold policydbReadModule at h
    simp only [Option.bind_eq_bind, Option.bind_eq_some_iff, Prod.exists] at h
    obtain ⟨header, rest, hheader, h⟩ := h
    obtain ⟨-, hkern | ⟨-, hwords, htype, hkind, hrest⟩⟩ := policydbReadHeader_spec hheader
    · rw [hkern.2] at hmagic
      exact absurd hmagic (by decide)
    have hstring : nextEntry (fp.drop 8) (le32ToCpu fp 1) =
        some ((fp.drop 8).take (le32ToCpu fp 1), fp.drop (8 + le32ToCpu fp 1)) := by
      rw [nextEntry_of_le (by rw [List.length_drop]; omega), List.drop_drop]
    have hbuf : nextEntry (fp.drop (8 + le32ToCpu fp 1)) (4 * 5) =
        some ((fp.drop (8 + le32ToCpu fp 1)).take 20, rest) := by
      rw [nextEntry_of_le (by rw [List.length_drop]; omega), List.drop_drop, hrest]
    have hword := le32ToCpu_take (n := 20) (i := 0) (by decide) (fp.drop (8 + le32ToCpu fp 1))
    unfold readPackageInfo
    simp only [Option.bind_eq_bind, Option.bind_eq_some_iff, Prod.exists, Option.guard_eq_some']
    rw [hlen]
    refine ⟨(), hstr, _, _, hstring, _, _, hbuf, ?_⟩
    rw [hword, htype]
    rcases hkind with hkind | hkind
    · rw [hkind, if_neg (by decide)]
      rw [if_pos hkind] at h
      simp only [Option.bind_eq_some_iff, Prod.exists] at h
      obtain ⟨buf, fp₁, hname, name, fp₂, hname', buf', fp₃, hversion, version, fp₄, hversion', tables, -, hpolicy⟩ :=
        h
      obtain rfl := Option.some.inj hpolicy
      simp only [Option.bind_eq_some_iff, Prod.exists, Option.guard_eq_some']
      refine ⟨(), trivial, _, _, hname, _, _, hname', _, _, hversion, _, _, hversion', ?_⟩
      rw [PackagePolicy.info, hkind]
      rfl
    · rw [hkind, if_pos rfl]
      rw [if_neg (by rw [hkind]; decide)] at h
      simp only [Option.bind_eq_some_iff] at h
      obtain ⟨tables, -, hpolicy⟩ := h
      obtain rfl := Option.some.inj hpolicy
      rw [PackagePolicy.info, hkind]
      rfl
  · intro info hinfo
    unfold readPackageInfo at hinfo
    simp only [Option.bind_eq_bind, Option.bind_eq_some_iff, Prod.exists, Option.guard_eq_some'] at hinfo
    obtain ⟨-, hstr, -⟩ := hinfo
    rwa [hlen] at hstr

/-! ### Sections -/

/-- What the other reader asks of a section, and what it makes of it. -/
private theorem infoPackageSection_eq_some {st st' : PackageInfoState} {sec : Nat × Nat} :
    infoPackageSection image st sec = some st' ↔
      sec.1 + 8 ≤ image.length ∧ 4 ≤ (sec.2 - sec.1) % 2 ^ 32 ∧
      match sectionKind (le32ToCpu (image.drop sec.1) 0) with
      | some (.text s) => .text s ∉ st.seen ∧ st' = { st with seen := .text s :: st.seen }
      | some .mod => .mod ∉ st.seen ∧ ∃ info,
          readPackageInfo ((image.drop sec.1).take 8) ((image.drop sec.1).drop 8) = some info ∧
          st' = ⟨some info, .mod :: st.seen⟩
      | none => st' = st := by
  have hword := le32ToCpu_take (n := 8) (i := 0) (by decide) (image.drop sec.1)
  unfold infoPackageSection
  simp only [Option.bind_eq_bind, Option.bind_eq_some_iff, Prod.exists, Option.guard_eq_some', policyFileSeek_eq_some,
    nextEntry_eq_some_take, Nat.reduceMul]
  constructor
  · rintro ⟨fp, ⟨hseek, rfl⟩, -, hlen, buf, fp', ⟨hread, rfl, rfl⟩, h⟩
    rw [List.length_drop] at hread
    refine ⟨by omega, hlen, ?_⟩
    rw [hword] at h
    revert h
    cases sectionKind (le32ToCpu (image.drop sec.1) 0) with
    | none => exact fun h => (Option.some.inj h).symm
    | some kind =>
      cases kind with
      | text s =>
        simp only [Option.bind_eq_some_iff, Option.guard_eq_some']
        rintro ⟨-, hseen, h⟩
        exact ⟨hseen, (Option.some.inj h).symm⟩
      | mod =>
        simp only [Option.bind_eq_some_iff, Option.guard_eq_some']
        rintro ⟨-, hseen, info, hinfo, h⟩
        exact ⟨hseen, info, hinfo, (Option.some.inj h).symm⟩
  · rintro ⟨hread, hlen, h⟩
    refine ⟨_, ⟨by omega, rfl⟩, (), hlen, _, _, ⟨by rw [List.length_drop]; omega, rfl, rfl⟩, ?_⟩
    rw [hword]
    revert h
    cases sectionKind (le32ToCpu (image.drop sec.1) 0) with
    | none =>
      rintro rfl
      rfl
    | some kind =>
      cases kind with
      | text s =>
        simp only [Option.bind_eq_some_iff, Option.guard_eq_some']
        rintro ⟨hseen, rfl⟩
        exact ⟨(), hseen, rfl⟩
      | mod =>
        simp only [Option.bind_eq_some_iff, Option.guard_eq_some']
        rintro ⟨hseen, info, hinfo, rfl⟩
        exact ⟨(), hseen, info, hinfo, rfl⟩

/-! ### Both readers -/

/-- What `sepol_module_package_info` asks of a section besides: eight bytes before the end of the file, a length that
does not wrap to less than four, and an identifier of the right length. -/
structure InfoReads (image : List Byte) (sec : Nat × Nat) : Prop where
  words : sec.1 + 8 ≤ image.length
  length : 4 ≤ (sec.2 - sec.1) % 2 ^ 32
  identifier : le32ToCpu (image.drop sec.1) 0 = policydbModMagic →
    le32ToCpu (image.drop sec.1) 1 = policydbModString.length

/-- The two readers have seen the same sections and the same policy. -/
structure InStep (st : PackageReadState τ) (st' : PackageInfoState) : Prop where
  seen : st'.seen = st.seen
  info : st'.info = st.policy.map PackagePolicy.info

/-- One section. -/
private theorem infoPackageSection_inStep {st st₁ : PackageReadState τ} {st' : PackageInfoState} {sec : Nat × Nat}
    (hstep : InStep st st') (h : readPackageSection readTables image st sec = some st₁) :
    (InfoReads image sec → ∃ st₁', infoPackageSection image st' sec = some st₁' ∧ InStep st₁ st₁') ∧
    ∀ st₁', infoPackageSection image st' sec = some st₁' → InfoReads image sec := by
  obtain ⟨hread, -, hcase⟩ := readPackageSection_eq_some.1 h
  simp only [infoPackageSection_eq_some]
  revert hcase
  cases hkind : sectionKind (le32ToCpu (image.drop sec.1) 0) with
  | none =>
    rintro rfl
    have hmod : le32ToCpu (image.drop sec.1) 0 ≠ policydbModMagic := fun hmod => by
      rw [sectionKind_eq_mod_iff.2 hmod] at hkind
      cases hkind
    constructor
    · intro hc
      exact ⟨st', ⟨hc.words, hc.length, rfl⟩, hstep⟩
    · rintro st₁' ⟨hwords, hlength, -⟩
      exact ⟨hwords, hlength, fun hmagic => absurd hmagic hmod⟩
  | some kind =>
    cases kind with
    | text s =>
      rintro ⟨hseen, data, -, rfl⟩
      have hmod : le32ToCpu (image.drop sec.1) 0 ≠ policydbModMagic := fun hmod => by
        rw [sectionKind_eq_mod_iff.2 hmod] at hkind
        cases hkind
      constructor
      · intro hc
        refine ⟨_, ⟨hc.words, hc.length, hstep.seen ▸ hseen, rfl⟩, ?_, hstep.info⟩
        rw [hstep.seen]
      · rintro st₁' ⟨hwords, hlength, -⟩
        exact ⟨hwords, hlength, fun hmagic => absurd hmagic hmod⟩
    | mod =>
      rintro ⟨hseen, policy, hpolicy, rfl⟩
      obtain ⟨hgoes, hasks⟩ := readPackageInfo_of_policydbReadModule hpolicy (sectionKind_eq_mod_iff.1 hkind)
      constructor
      · intro hc
        have hinfo := hgoes (hc.identifier (sectionKind_eq_mod_iff.1 hkind))
        refine ⟨_, ⟨hc.words, hc.length, hstep.seen ▸ hseen, _, hinfo, rfl⟩, ?_, rfl⟩
        rw [hstep.seen]
      · rintro st₁' ⟨hwords, hlength, -, info, hinfo, -⟩
        exact ⟨hwords, hlength, fun _ => hasks info hinfo⟩

private theorem policy_isSome_of_seen {st st₁ : PackageReadState τ} {sec : Nat × Nat}
    (hst : .mod ∈ st.seen → st.policy.isSome) (h : readPackageSection readTables image st sec = some st₁) :
    .mod ∈ st₁.seen → st₁.policy.isSome := by
  obtain ⟨-, -, hcase⟩ := readPackageSection_eq_some.1 h
  revert hcase
  cases sectionKind (le32ToCpu (image.drop sec.1) 0) with
  | none =>
    rintro rfl
    exact hst
  | some kind =>
    cases kind with
    | text s =>
      rintro ⟨-, data, -, rfl⟩ hmem
      exact hst (by simpa using hmem)
    | mod =>
      rintro ⟨-, policy, -, rfl⟩ -
      rfl

/-- An image that is read is reported on, with the policy that was read, exactly when its sections have what the other
reader asks for. -/
theorem sepolModulePackageInfo_iff {p : ModulePackage τ} (h : sepolModulePackageRead readTables image = some p) :
    (∃ policy, p.policy = some policy ∧ sepolModulePackageInfo image = some policy.info) ↔
      ∀ version offsets, modulePackageReadOffsets image = some (version, offsets) →
        ∀ sec ∈ bounds offsets, InfoReads image sec := by
  unfold sepolModulePackageRead at h
  simp only [Option.bind_eq_bind, Option.bind_eq_some_iff, Prod.exists, Option.guard_eq_some'] at h
  obtain ⟨version, offsets, hoffsets, st, hrun, -, hmod, hp⟩ := h
  obtain rfl := Option.some.inj hp
  have hpolicy := EarlyExit.inv_of_foldlM (fun _ _ _ hs hstep => policy_isSome_of_seen hs hstep) (by simp) hrun hmod
  obtain ⟨policy, hpolicy⟩ := Option.isSome_iff_exists.1 hpolicy
  obtain ⟨hgoes, hasks⟩ := Blocks.foldlM_iff_of_step (fun _ _ _ _ hstep hs => infoPackageSection_inStep hstep hs)
    (⟨rfl, rfl⟩ : InStep _ ⟨none, []⟩) hrun
  unfold sepolModulePackageInfo
  simp only [Option.bind_eq_bind, Option.bind_eq_some_iff, Prod.exists, Option.guard_eq_some', hoffsets,
    Option.some.injEq, Prod.mk.injEq]
  constructor
  · rintro ⟨policy, -, version', offsets', ⟨rfl, rfl⟩, st', hrun', -⟩ version'' offsets'' ⟨rfl, rfl⟩
    exact hasks st' hrun'
  · intro hc
    obtain ⟨st', hrun', hstep⟩ := hgoes (hc version offsets ⟨rfl, rfl⟩)
    refine ⟨policy, hpolicy, version, offsets, ⟨rfl, rfl⟩, st', hrun', (), hstep.seen ▸ hmod, ?_⟩
    rw [hstep.info, hpolicy]
    rfl

end Sepol
