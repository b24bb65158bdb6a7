import Sepol.ModulePackageInfo

/-!
# Packages are read as they were written

The offsets in the table of a package are the places of the sections in words of 32 bits, and the length of the last
section is what is left of the file.  So a package is read back exactly when all sections start below 2^32: where an
offset wraps, the last section comes out too long.
-/

namespace Sepol

open Blocks (bounds offsets)

variable {τ : Type} {readTables : PolicydbHeader → List Byte → Option τ} {image fp buf rest : List Byte}
  {policy : PackagePolicy τ} {header : PolicydbHeader}

/-! ### Pieces -/

private theorem readHelper_of_le {bytes : Nat} (h : bytes ≤ fp.length) :
    readHelper fp bytes = some (fp.take bytes) := by
  induction bytes using Nat.strong_induction_on generalizing fp with
  | _ bytes ih =>
    rw [readHelper]
    by_cases hzero : bytes = 0
    · rw [if_pos hzero, hzero, List.take_zero]
    · have hpiece : min bytes bufsiz ≤ fp.length := (min_le_left ..).trans h
      have hrest : bytes - min bytes bufsiz ≤ (fp.drop (min bytes bufsiz)).length := by
        rw [List.length_drop]
        omega
      rw [if_neg hzero, nextEntry_of_le hpiece]
      change (readHelper (fp.drop (min bytes bufsiz)) (bytes - min bytes bufsiz) >>= _) = _
      rw [ih _ (by simp only [bufsiz]; omega) hrest]
      change some (fp.take (min bytes bufsiz) ++ _) = _
      rw [← List.take_add, Nat.add_sub_cancel' (min_le_left ..)]

/-- The loop of `write_helper`, when `i` bytes are written: the index of type `int` is good for 2^31 bytes. -/
private theorem writeHelper_loop {data : List Byte} {i len : Nat} (hlen : i + len = data.length) (hi : i ≤ 2 ^ 31)
    (hdvd : len = 0 ∨ bufsiz ∣ i) :
    writeHelper data (BitVec.ofNat 32 i) len =
      if data.length ≤ 2 ^ 31 then .ok (data.drop i) else .error .undefined := by
  induction len using Nat.strong_induction_on generalizing i with
  | _ len ih =>
    rw [writeHelper]
    by_cases hzero : len = 0
    · rw [if_pos hzero, if_pos (by omega), List.drop_of_length_le (by omega)]
    · have hmod : (BitVec.ofNat 32 i).toNat = i := by
        rw [BitVec.toNat_ofNat]
        exact Nat.mod_eq_of_lt (by omega)
      have hdvd' := hdvd.resolve_left hzero
      rw [if_neg hzero, BitVec.msb_eq_decide, hmod]
      by_cases hend : i = 2 ^ 31
      · rw [if_pos (by simp [hend]), if_neg (by omega)]
      · dsimp only
        have hnext := ih (len - min len bufsiz) (i := i + min len bufsiz) (by simp only [bufsiz]; omega)
          (by omega) (by simp only [bufsiz] at hdvd' ⊢; omega) (by simp only [bufsiz] at hdvd' ⊢; omega)
        rw [if_neg (by simp; omega), ← BitVec.ofNat_add, hnext]
        split
        · change Except.ok ((data.drop i).take (min len bufsiz) ++ data.drop (i + min len bufsiz)) = _
          rw [← List.drop_drop, List.take_append_drop]
        · rfl

private theorem writeHelper_eq (data : List Byte) :
    writeHelper data 0 data.length = if data.length ≤ 2 ^ 31 then .ok data else .error .undefined :=
  writeHelper_loop (Nat.zero_add _) (Nat.zero_le _) (Or.inr (dvd_zero _))

/-- The bytes of a section with a text. -/
def sectionBytes (e : PackageSection × SectionText) : List Byte := cpuToLe32 e.1.magic ++ e.2.data

private theorem writeSections_eq {present : List (PackageSection × SectionText)}
    (hset : ∀ e ∈ present, e.2.len = e.2.data.length) :
    writeSections present =
      if ∀ e ∈ present, e.2.len ≤ 2 ^ 31 then .ok (present.flatMap sectionBytes) else .error .undefined := by
  induction present with
  | nil => rfl
  | cons e present ih =>
    obtain ⟨s, text⟩ := e
    have hlen : text.len = text.data.length := hset (s, text) (List.mem_cons_self ..)
    rw [writeSections, hlen, writeHelper_eq, ih fun e he => hset e (List.mem_cons_of_mem _ he), ← hlen]
    simp only [List.forall_mem_cons]
    by_cases htext : text.len ≤ 2 ^ 31
    · by_cases hall : ∀ e ∈ present, e.2.len ≤ 2 ^ 31
      · rw [if_pos htext, if_pos hall, if_pos ⟨htext, hall⟩]
        rfl
      · rw [if_pos htext, if_neg hall, if_neg fun h => hall h.2]
        rfl
    · rw [if_neg htext, if_neg fun h : text.len ≤ 2 ^ 31 ∧ _ => htext h.1]
      rfl

/-! ### The table of offsets -/

private theorem packageOffsets_eq {present : List (PackageSection × SectionText)}
    (hset : ∀ e ∈ present, e.2.len = e.2.data.length) (o len : Nat) :
    packageOffsets (BitVec.ofNat 32 o) (BitVec.ofNat 32 len) (present.map Prod.snd) =
      ((offsets (o + len) (present.map sectionBytes)).dropLast).map (BitVec.ofNat 32) := by
  induction present generalizing o len with
  | nil => rfl
  | cons e present ih =>
    have hlen : (sectionBytes e).length = e.2.len + 4 := by
      rw [sectionBytes, List.length_append, length_cpuToLe32, hset e (List.mem_cons_self ..), Nat.add_comm]
    rw [List.map_cons, List.map_cons, packageOffsets, Blocks.dropLast_offsets_cons, List.map_cons, hlen,
      ← BitVec.ofNat_add, ih fun e he => hset e (List.mem_cons_of_mem _ he)]

/-- Where the sections of a package start, when `image` is the section of the policy. -/
def ModulePackage.starts (p : ModulePackage τ) (image : List Byte) : List Nat :=
  (offsets (4 * (4 + (presentSections p.sections).length))
    (image :: (presentSections p.sections).map sectionBytes)).dropLast

/-- A package with a table of offsets and a body. -/
def packageImage (version : BitVec 32) (table : List (BitVec 32)) (body : List Byte) : List Byte :=
  cpuToLe32 sepolModulePackageMagic ++ (cpuToLe32 version.toNat ++ (cpuToLe32 table.length ++
    (table.flatMap fun o => cpuToLe32 o.toNat) ++ body))

private theorem length_packageImage (version : BitVec 32) (table : List (BitVec 32)) (body : List Byte) :
    (packageImage version table body).length = 4 * (3 + table.length) + body.length := by
  have htable : (table.flatMap fun o => cpuToLe32 o.toNat).length = 4 * table.length := by
    rw [List.length_flatMap]
    simp only [length_cpuToLe32, List.map_const', List.sum_replicate, smul_eq_mul]
    omega
  simp only [packageImage, List.length_append, length_cpuToLe32, htable]
  omega

private theorem packageImage_eq_append (version : BitVec 32) (table : List (BitVec 32)) (body : List Byte) :
    ∃ pre, packageImage version table body = pre ++ body ∧ pre.length = 4 * (3 + table.length) := by
  have hlen := length_packageImage version table body
  refine ⟨cpuToLe32 sepolModulePackageMagic ++ (cpuToLe32 version.toNat ++ (cpuToLe32 table.length ++
    table.flatMap fun o => cpuToLe32 o.toNat)), ?_, ?_⟩
  · simp only [packageImage, List.append_assoc]
  · rw [packageImage] at hlen
    simp only [List.length_append] at hlen ⊢
    omega

/-- The table is read when its offsets do not decrease. -/
private theorem modulePackageReadOffsets_packageImage {version : BitVec 32} {table : List (BitVec 32)}
    {body : List Byte} (htable : table.length ≤ maxSections) {r : BitVec 32 × List Nat} :
    modulePackageReadOffsets (packageImage version table body) = some r ↔
      (table.map BitVec.toNat ++ [(packageImage version table body).length]).IsChain (· ≤ ·) ∧
        r = (version, table.map BitVec.toNat ++ [(packageImage version table body).length]) := by
  have hcount : table.length % 2 ^ 32 = table.length := Nat.mod_eq_of_lt (by simp only [maxSections] at htable; omega)
  have htableLength : (table.flatMap fun o => cpuToLe32 o.toNat).length = 4 * table.length := by
    rw [List.length_flatMap]
    simp only [length_cpuToLe32, List.map_const', List.sum_replicate, smul_eq_mul]
    omega
  have hwords : nextEntry (packageImage version table body) (4 * 3) =
      some (cpuToLe32 sepolModulePackageMagic ++ (cpuToLe32 version.toNat ++ cpuToLe32 table.length),
        (table.flatMap fun o => cpuToLe32 o.toNat) ++ body) := by
    refine nextEntry_eq_some.2 ⟨?_, by simp only [List.length_append, length_cpuToLe32]⟩
    simp only [packageImage, List.append_assoc]
  have hmagic :
      le32ToCpu (cpuToLe32 sepolModulePackageMagic ++ (cpuToLe32 version.toNat ++ cpuToLe32 table.length)) 0 =
      sepolModulePackageMagic := by
    rw [le32ToCpu_zero (length_cpuToLe32 _), ofBytes_cpuToLe32 (by decide)]
  have hversion :
      wordAt (cpuToLe32 sepolModulePackageMagic ++ (cpuToLe32 version.toNat ++ cpuToLe32 table.length)) 1 =
      version := by
    rw [wordAt_succ, wordAt_zero]
  have hnsec :
      le32ToCpu (cpuToLe32 sepolModulePackageMagic ++ (cpuToLe32 version.toNat ++ cpuToLe32 table.length)) 2 =
      table.length := by
    rw [le32ToCpu_succ (length_cpuToLe32 _), le32ToCpu_succ (length_cpuToLe32 _), le32ToCpu_cpuToLe32 (by omega)]
  have hoff : nextEntry ((table.flatMap fun o => cpuToLe32 o.toNat) ++ body) (4 * table.length) =
      some (table.flatMap fun o => cpuToLe32 o.toNat, body) := nextEntry_eq_some.2 ⟨rfl, htableLength⟩
  have hmap : (List.range table.length).map (le32ToCpu (table.flatMap fun o => cpuToLe32 o.toNat)) =
      table.map BitVec.toNat := by
    refine List.ext_getElem (by simp) fun i hi hi' => ?_
    have hlt : i < table.length := by simpa using hi'
    rw [List.getElem_map, List.getElem_range, List.getElem_map]
    exact le32ToCpu_flatMap (fun o => o) hlt
  unfold modulePackageReadOffsets
  simp only [Option.bind_eq_bind, Option.bind_eq_some_iff, Prod.exists, Option.guard_eq_some', hwords,
    Option.some.injEq,
    Prod.mk.injEq]
  constructor
  · rintro ⟨_, _, ⟨rfl, rfl⟩, -, -, -, -, off, fp, hentry, -, hchain, hr⟩
    rw [hnsec, hoff] at hentry
    obtain ⟨rfl, rfl⟩ := Prod.mk.inj (Option.some.inj hentry)
    rw [hnsec, hmap] at hchain hr
    rw [hversion] at hr
    exact ⟨hchain, (Option.some.inj hr).symm⟩
  · rintro ⟨hchain, rfl⟩
    refine ⟨_, _, ⟨rfl, rfl⟩, (), hmagic, (), by rw [hnsec]; exact htable,
      _, _, by rw [hnsec]; exact hoff, (), ?_, ?_⟩
    · rw [hnsec, hmap]
      exact hchain
    · rw [hnsec, hmap, hversion]
      rfl

/-! ### Sections that were written -/

private theorem mem_presentSections {sections : PackageSection → Option SectionText} {s : PackageSection}
    {text : SectionText} :
    (s, text) ∈ presentSections sections ↔ sections s = some text := by
  have hall : s ∈ PackageSection.all := by cases s <;> decide
  simp only [presentSections, List.mem_filterMap, Option.map_eq_some_iff, Prod.mk.injEq]
  constructor
  · rintro ⟨s', -, text', htext, rfl, rfl⟩
    exact htext
  · intro htext
    exact ⟨s, hall, text, htext, rfl, rfl⟩

private theorem nodup_presentSections (sections : PackageSection → Option SectionText) :
    ((presentSections sections).map Prod.fst).Nodup := by
  have hsub : ((presentSections sections).map Prod.fst).Sublist PackageSection.all := by
    rw [presentSections, List.map_filterMap]
    have hsome : (fun s => ((sections s).map fun text => (s, text)).map Prod.fst) =
        Option.guard fun s => (sections s).isSome := by
      funext s
      cases h : sections s <;> simp [Option.guard, h]
    rw [hsome, List.filterMap_eq_filter]
    exact List.filter_sublist
  exact hsub.nodup (by decide)

private theorem sectionKind_magic (s : PackageSection) : sectionKind s.magic = some (.text s) := by
  cases s <;> decide

/-- The policy at the start of a file, which is a base or a module exactly behind the magic number of modules. -/
private theorem policydbReadModule_spec (h : policydbReadModule readTables fp = some policy) :
    8 ≤ fp.length ∧ (le32ToCpu fp 0 = policydbModMagic ↔ policy.policyType ≠ policyKern) := by
  unfold policydbReadModule at h
  simp only [Option.bind_eq_bind, Option.bind_eq_some_iff, Prod.exists] at h
  obtain ⟨header, rest, hheader, h⟩ := h
  have htype : policy.policyType = header.policyType := by
    split at h
    · simp only [Option.bind_eq_some_iff, Prod.exists] at h
      obtain ⟨buf, fp₁, -, name, fp₂, -, buf', fp₃, -, version, fp₄, -, tables, -, hpolicy⟩ := h
      rw [← Option.some.inj hpolicy]
    · simp only [Option.bind_eq_some_iff] at h
      obtain ⟨tables, -, hpolicy⟩ := h
      rw [← Option.some.inj hpolicy]
  obtain ⟨hlen, hkern | ⟨hmagic, -, -, hkind, -⟩⟩ := policydbReadHeader_spec hheader
  · rw [htype, hkern.1, hkern.2]
    exact ⟨hlen, iff_of_false (by decide) (by simp)⟩
  · refine ⟨hlen, iff_of_true hmagic ?_⟩
    rw [htype]
    rcases hkind with hkind | hkind <;> rw [hkind] <;> decide

private theorem readPackageSection_policy (st : PackageReadState τ)
    (hread : ∀ rest, policydbReadModule readTables (image ++ rest) = some policy)
    (hkind : policy.policyType ≠ policyKern) (hseen : .mod ∉ st.seen) (pre rest : List Byte) :
    readPackageSection readTables (pre ++ (image ++ rest)) st (pre.length, pre.length + image.length) =
      some { st with policy := some policy, seen := .mod :: st.seen } := by
  obtain ⟨hlen, -⟩ := policydbReadModule_spec (hread [])
  obtain ⟨-, hmagic⟩ := policydbReadModule_spec (hread rest)
  rw [List.append_nil] at hlen
  rw [readPackageSection_eq_some]
  dsimp only
  rw [List.drop_left, sectionKind_eq_mod_iff.2 (hmagic.2 hkind)]
  refine ⟨?_, by omega, hseen, policy, hread rest, rfl⟩
  simp only [List.length_append]
  omega

/-- The state with a text. -/
def PackageReadState.put (st : PackageReadState τ) (e : PackageSection × SectionText) : PackageReadState τ :=
  { st with sections := Function.update st.sections e.1 (some e.2), seen := .text e.1 :: st.seen }

/-- The section of a text. -/
private theorem readPackageSection_text (readTables : PolicydbHeader → List Byte → Option τ) {st : PackageReadState τ}
    {e : PackageSection × SectionText}
    (hset : e.2.len = e.2.data.length) (hmax : e.2.len ≤ 2 ^ 31) (hseen : .text e.1 ∉ st.seen)
    (pre rest : List Byte) :
    readPackageSection readTables (pre ++ (sectionBytes e ++ rest)) st
      (pre.length, pre.length + (sectionBytes e).length) = some (st.put e) := by
  have hlen : (sectionBytes e).length = 4 + e.2.data.length := by
    rw [sectionBytes, List.length_append, length_cpuToLe32]
  have hmagic : le32ToCpu (sectionBytes e ++ rest) 0 = e.1.magic := by
    rw [sectionBytes, List.append_assoc, le32ToCpu_zero (length_cpuToLe32 _), ofBytes_cpuToLe32]
    cases e.1 <;> decide
  have hdata : (pre ++ (sectionBytes e ++ rest)).drop (pre.length + 4) = e.2.data ++ rest := by
    rw [← List.drop_drop, List.drop_left, sectionBytes, List.append_assoc]
    exact List.drop_left' (length_cpuToLe32 _)
  have hbytes : (pre.length + (sectionBytes e).length - pre.length - 4) % 2 ^ 32 = e.2.data.length := by
    rw [hlen, Nat.mod_eq_of_lt (by omega)]
    omega
  rw [readPackageSection_eq_some]
  dsimp only
  rw [List.drop_left, hmagic, sectionKind_magic, hdata, hbytes, hlen]
  refine ⟨by simp only [List.length_append, hlen]; omega, by omega, hseen, e.2.data, ?_, ?_⟩
  · rw [readHelper_of_le (by rw [List.length_append]; omega), List.take_left]
  · rw [PackageReadState.put, show pre.length + (4 + e.2.data.length) - pre.length - 4 = e.2.len by omega]

/-- The sections of the texts of a package. -/
private theorem foldlM_readPackageSection_texts (readTables : PolicydbHeader → List Byte → Option τ)
    (st : PackageReadState τ) {present : List (PackageSection × SectionText)}
    (hset : ∀ e ∈ present, e.2.len = e.2.data.length) (hmax : ∀ e ∈ present, e.2.len ≤ 2 ^ 31)
    (hnodup : (present.map Prod.fst).Nodup) (hseen : ∀ e ∈ present, .text e.1 ∉ st.seen) (pre : List Byte) :
    (bounds (offsets pre.length (present.map sectionBytes))).foldlM
      (readPackageSection readTables (pre ++ present.flatMap sectionBytes)) st =
        some (present.foldl PackageReadState.put st) := by
  induction present generalizing pre st with
  | nil => rfl
  | cons e present ih =>
    rw [List.map_cons, List.nodup_cons] at hnodup
    have hfirst := readPackageSection_text readTables (hset e (List.mem_cons_self ..))
      (hmax e (List.mem_cons_self ..)) (hseen e (List.mem_cons_self ..)) pre (present.flatMap sectionBytes)
    have hunseen : ∀ e' ∈ present, .text e'.1 ∉ (st.put e).seen := by
      intro e' he' hmem
      rcases List.mem_cons.1 hmem with hkind | hmem
      · exact hnodup.1 (SectionKind.text.inj hkind ▸ List.mem_map_of_mem he')
      · exact hseen e' (List.mem_cons_of_mem _ he') hmem
    have hrest := ih (st.put e) (fun e' he' => hset e' (List.mem_cons_of_mem _ he'))
      (fun e' he' => hmax e' (List.mem_cons_of_mem _ he')) hnodup.2 hunseen (pre ++ sectionBytes e)
    rw [List.length_append, List.append_assoc] at hrest
    rw [List.map_cons, Blocks.bounds_offsets_cons, List.flatMap_cons, List.foldl_cons]
    exact Blocks.foldlM_cons_eq_some.2 ⟨_, hfirst, hrest⟩

private theorem foldl_put_sections {present : List (PackageSection × SectionText)}
    (hnodup : (present.map Prod.fst).Nodup) (st : PackageReadState τ) :
    (∀ e ∈ present, (present.foldl PackageReadState.put st).sections e.1 = some e.2) ∧
    ∀ s, s ∉ present.map Prod.fst → (present.foldl PackageReadState.put st).sections s = st.sections s := by
  induction present generalizing st with
  | nil => exact ⟨fun e he => absurd he List.not_mem_nil, fun _ _ => rfl⟩
  | cons e present ih =>
    rw [List.map_cons, List.nodup_cons] at hnodup
    obtain ⟨hin, hout⟩ := ih hnodup.2 (st.put e)
    constructor
    · intro e' he'
      rcases List.mem_cons.1 he' with rfl | he'
      · exact (hout e'.1 hnodup.1).trans (Function.update_self ..)
      · exact hin e' he'
    · intro s hs
      rw [List.map_cons, List.mem_cons, not_or] at hs
      exact (hout s hs.2).trans (Function.update_of_ne hs.1 ..)

private theorem foldl_put_policy (present : List (PackageSection × SectionText)) (st : PackageReadState τ) :
    (present.foldl PackageReadState.put st).policy = st.policy ∧
      ∀ kind ∈ st.seen, kind ∈ (present.foldl PackageReadState.put st).seen := by
  induction present generalizing st with
  | nil => exact ⟨rfl, fun _ h => h⟩
  | cons e present ih =>
    obtain ⟨hpolicy, hseen⟩ := ih (st.put e)
    exact ⟨hpolicy, fun kind hkind => hseen kind (List.mem_cons_of_mem _ hkind)⟩

/-! ### Packages -/

variable {p : ModulePackage τ} {policydbWrite : PackagePolicy τ → Option (List Byte)}

/-- A package that can be written, with the texts that were set and the bytes of its policy. -/
structure ModulePackage.Written (policydbWrite : PackagePolicy τ → Option (List Byte)) (p : ModulePackage τ)
    (policy : PackagePolicy τ) (image : List Byte) : Prop where
  policy_eq : p.policy = some policy
  write : policydbWrite policy = some image
  base : (p.sections .seusers).isSome ∨ (p.sections .userExtra).isSome → policy.policyType = policyBase
  texts : ∀ s text, p.sections s = some text → text.len = text.data.length

private theorem length_starts (p : ModulePackage τ) (image : List Byte) :
    (p.starts image).length = 1 + (presentSections p.sections).length := by
  have hlen : ∀ (o : Nat) (bs : List (List Byte)), (offsets o bs).length = bs.length + 1 := by
    intro o bs
    induction bs generalizing o with
    | nil => rfl
    | cons b bs ih => rw [Blocks.offsets, List.length_cons, ih, List.length_cons]
  rw [ModulePackage.starts, List.length_dropLast, hlen, List.length_cons, List.length_map]
  omega

private theorem starts_append (p : ModulePackage τ) (image : List Byte) (version : BitVec 32)
    (table : List (BitVec 32)) (htable : table.length = (p.starts image).length) :
    offsets (4 * (4 + (presentSections p.sections).length)) (image :: (presentSections p.sections).map sectionBytes) =
      p.starts image ++
        [(packageImage version table (image ++ (presentSections p.sections).flatMap sectionBytes)).length] := by
  rw [Blocks.offsets_eq_append, ModulePackage.starts, length_packageImage, htable, length_starts, List.flatten_cons,
    List.flatMap_def]
  congr 2
  omega

/-- What is written. -/
private theorem sepolModulePackageWrite_eq (h : p.Written policydbWrite policy image) (himage : image ≠ []) :
    sepolModulePackageWrite policydbWrite p =
      if ∀ e ∈ presentSections p.sections, e.2.len ≤ 2 ^ 31 then
        .ok (packageImage p.version ((p.starts image).map (BitVec.ofNat 32))
          (image ++ (presentSections p.sections).flatMap sectionBytes))
      else .error .undefined := by
  have hset : ∀ e ∈ presentSections p.sections, e.2.len = e.2.data.length :=
    fun e he => h.texts e.1 e.2 (mem_presentSections.1 he)
  have hbase : ¬ (((p.sections .seusers).isSome ∨ (p.sections .userExtra).isSome) ∧ policy.policyType ≠ policyBase) :=
    fun hboth => hboth.2 (h.base hboth.1)
  have hstarts : (p.starts image).map (BitVec.ofNat 32) =
      BitVec.ofNat 32 ((1 + (presentSections p.sections).length + 3) * 4) ::
        packageOffsets (BitVec.ofNat 32 ((1 + (presentSections p.sections).length + 3) * 4))
          (BitVec.ofNat 32 image.length) ((presentSections p.sections).map Prod.snd) := by
    rw [packageOffsets_eq hset, ModulePackage.starts, Blocks.dropLast_offsets_cons, List.map_cons,
      show (1 + (presentSections p.sections).length + 3) * 4 = 4 * (4 + (presentSections p.sections).length) by omega]
  have hlen : ((p.starts image).map (BitVec.ofNat 32)).length = 1 + (presentSections p.sections).length := by
    rw [List.length_map, length_starts]
  unfold sepolModulePackageWrite
  rw [h.policy_eq]
  dsimp only
  rw [h.write]
  dsimp only
  rw [if_neg (by simpa using himage), if_neg hbase, writeSections_eq hset]
  by_cases hmax : ∀ e ∈ presentSections p.sections, e.2.len ≤ 2 ^ 31
  · rw [if_pos hmax, if_pos hmax, packageImage, hlen, hstarts]
    rfl
  · rw [if_neg hmax, if_neg hmax]
    rfl

/-- The offsets and lengths of a package fit in the types that the code has for them. -/
structure ModulePackage.Fits (p : ModulePackage τ) (policy : PackagePolicy τ) (image : List Byte) : Prop where
  kind : policy.policyType ≠ policyKern
  lengths : ∀ s text, p.sections s = some text → text.len ≤ 2 ^ 31
  starts : ∀ o ∈ p.starts image, o < 2 ^ 32

/-- A package that fits is read. -/
private theorem sepolModulePackageRead_of_fits (h : p.Written policydbWrite policy image)
    (hfits : p.Fits policy image) (hread : ∀ rest, policydbReadModule readTables (image ++ rest) = some policy) :
    sepolModulePackageRead readTables (packageImage p.version ((p.starts image).map (BitVec.ofNat 32))
      (image ++ (presentSections p.sections).flatMap sectionBytes)) = some p := by
  have hset : ∀ e ∈ presentSections p.sections, e.2.len = e.2.data.length :=
    fun e he => h.texts e.1 e.2 (mem_presentSections.1 he)
  have hmax : ∀ e ∈ presentSections p.sections, e.2.len ≤ 2 ^ 31 :=
    fun e he => hfits.lengths e.1 e.2 (mem_presentSections.1 he)
  have hcount : (presentSections p.sections).length ≤ 4 := (List.length_filterMap_le ..).trans (by decide)
  have htable : ((p.starts image).map (BitVec.ofNat 32)).length = (p.starts image).length := List.length_map ..
  have htoNat : ((p.starts image).map (BitVec.ofNat 32)).map BitVec.toNat = p.starts image := by
    rw [List.map_map]
    refine (List.map_congr_left fun o ho => ?_).trans (List.map_id _)
    rw [Function.comp_apply, BitVec.toNat_ofNat, Nat.mod_eq_of_lt (hfits.starts o ho), id]
  have hoffsets := starts_append p image p.version _ htable
  generalize hwhole : packageImage p.version ((p.starts image).map (BitVec.ofNat 32))
    (image ++ (presentSections p.sections).flatMap sectionBytes) = whole at hoffsets ⊢
  have hread_offsets : modulePackageReadOffsets whole = some (p.version, p.starts image ++ [whole.length]) := by
    have hchain := Blocks.isChain_offsets (4 * (4 + (presentSections p.sections).length))
      (image :: (presentSections p.sections).map sectionBytes)
    rw [hoffsets] at hchain
    rw [← hwhole] at hchain ⊢
    refine (modulePackageReadOffsets_packageImage ?_).2 ⟨by rwa [htoNat], by rw [htoNat]⟩
    rw [htable, length_starts]
    simp only [maxSections]
    omega
  obtain ⟨pre, hpre, hprelen⟩ := packageImage_eq_append p.version ((p.starts image).map (BitVec.ofNat 32))
    (image ++ (presentSections p.sections).flatMap sectionBytes)
  rw [htable, length_starts, show 4 * (3 + (1 + (presentSections p.sections).length)) =
    4 * (4 + (presentSections p.sections).length) by omega] at hprelen
  rw [hwhole] at hpre
  have hfirst := readPackageSection_policy ⟨none, fun _ => none, []⟩ hread hfits.kind (by simp) pre
    ((presentSections p.sections).flatMap sectionBytes)
  have htexts := foldlM_readPackageSection_texts readTables ⟨some policy, fun _ => none, [.mod]⟩ hset hmax
    (nodup_presentSections p.sections) (by simp) (pre ++ image)
  rw [List.length_append, List.append_assoc, ← hpre] at htexts
  rw [← hpre] at hfirst
  have hrun : (bounds (p.starts image ++ [whole.length])).foldlM (readPackageSection readTables whole)
      ⟨none, fun _ => none, []⟩ = some ((presentSections p.sections).foldl PackageReadState.put
        ⟨some policy, fun _ => none, [.mod]⟩) := by
    rw [← hoffsets, ← hprelen, Blocks.bounds_offsets_cons]
    exact Blocks.foldlM_cons_eq_some.2 ⟨_, hfirst, htexts⟩
  obtain ⟨hin, hout⟩ := foldl_put_sections (nodup_presentSections p.sections)
    (⟨some policy, fun _ => none, [.mod]⟩ : PackageReadState τ)
  obtain ⟨hpolicy, hseen⟩ := foldl_put_policy (presentSections p.sections)
    (⟨some policy, fun _ => none, [.mod]⟩ : PackageReadState τ)
  have hsections : ((presentSections p.sections).foldl PackageReadState.put
      ⟨some policy, fun _ => none, [.mod]⟩).sections = p.sections := by
    funext s
    cases htext : p.sections s with
    | none =>
      refine hout s fun hmem => ?_
      obtain ⟨e, he, rfl⟩ := List.mem_map.1 hmem
      rw [mem_presentSections.1 he] at htext
      cases htext
    | some text => exact hin (s, text) (mem_presentSections.2 htext)
  unfold sepolModulePackageRead
  simp only [Option.bind_eq_bind, Option.bind_eq_some_iff, Prod.exists, Option.guard_eq_some']
  refine ⟨_, _, hread_offsets, _, hrun, (), hseen .mod (List.mem_singleton.2 rfl), ?_⟩
  rw [hpolicy, hsections, ← h.policy_eq]
  rfl

/-! ### Offsets that wrap -/

/-- What holds of the package while it is read. -/
structure PackageReadState.Kept (st : PackageReadState τ) : Prop where
  kind : ∀ policy, st.policy = some policy → policy.policyType ≠ policyKern
  seen : ∀ s text, st.sections s = some text → .text s ∈ st.seen

private theorem readPackageSection_kept {st st' : PackageReadState τ} {sec : Nat × Nat} (hst : st.Kept)
    (h : readPackageSection readTables image st sec = some st') : st'.Kept := by
  obtain ⟨-, -, hcase⟩ := readPackageSection_eq_some.1 h
  revert hcase
  cases hkind : sectionKind (le32ToCpu (image.drop sec.1) 0) with
  | none =>
    rintro rfl
    exact hst
  | some kind =>
    cases kind with
    | text s =>
      rintro ⟨-, data, -, rfl⟩
      refine ⟨hst.kind, fun s' text htext => ?_⟩
      by_cases hs : s' = s
      · rw [hs]
        exact List.mem_cons_self ..
      · dsimp only at htext
        rw [Function.update_of_ne hs] at htext
        exact List.mem_cons_of_mem _ (hst.seen s' text htext)
    | mod =>
      rintro ⟨-, policy, hpolicy, rfl⟩
      refine ⟨fun policy' hpolicy' => ?_, fun s text htext => List.mem_cons_of_mem _ (hst.seen s text htext)⟩
      rw [← Option.some.inj hpolicy']
      exact (policydbReadModule_spec hpolicy).2.1 (sectionKind_eq_mod_iff.1 hkind)

private theorem readPackageSection_seen {st st' : PackageReadState τ} {sec : Nat × Nat}
    (h : readPackageSection readTables image st sec = some st') :
    st'.seen.length ≤ st.seen.length + 1 ∧ ∀ kind ∈ st.seen, kind ∈ st'.seen := by
  obtain ⟨-, -, hcase⟩ := readPackageSection_eq_some.1 h
  revert hcase
  cases sectionKind (le32ToCpu (image.drop sec.1) 0) with
  | none =>
    rintro rfl
    exact ⟨Nat.le_succ _, fun _ hmem => hmem⟩
  | some kind =>
    cases kind with
    | text s =>
      rintro ⟨-, data, -, rfl⟩
      exact ⟨le_rfl, fun _ hmem => List.mem_cons_of_mem _ hmem⟩
    | mod =>
      rintro ⟨-, policy, -, rfl⟩
      exact ⟨le_rfl, fun _ hmem => List.mem_cons_of_mem _ hmem⟩

private theorem foldlM_readPackageSection_seen {st st' : PackageReadState τ} {secs : List (Nat × Nat)}
    (h : secs.foldlM (readPackageSection readTables image) st = some st') :
    st'.seen.length ≤ st.seen.length + secs.length ∧ ∀ kind ∈ st.seen, kind ∈ st'.seen := by
  induction secs generalizing st with
  | nil =>
    obtain rfl := Option.some.inj h
    exact ⟨le_rfl, fun _ hmem => hmem⟩
  | cons sec secs ih =>
    obtain ⟨st₁, hfirst, hrest⟩ := Blocks.foldlM_cons_eq_some.1 h
    obtain ⟨hlen₁, hseen₁⟩ := readPackageSection_seen hfirst
    obtain ⟨hlen, hseen⟩ := ih hrest
    refine ⟨?_, fun kind hkind => hseen kind (hseen₁ kind hkind)⟩
    rw [List.length_cons]
    omega

private theorem length_seen_of_kept {st : PackageReadState τ} (hst : st.Kept) (hmod : .mod ∈ st.seen) :
    1 + (presentSections st.sections).length ≤ st.seen.length := by
  have hnodup : (SectionKind.mod :: (presentSections st.sections).map fun e => .text e.1).Nodup := by
    refine List.nodup_cons.2 ⟨by simp, ?_⟩
    rw [← Function.comp_def, ← List.map_map]
    exact (nodup_presentSections st.sections).map fun s s' h => SectionKind.text.inj h
  have hsub : (SectionKind.mod :: (presentSections st.sections).map fun e => .text e.1) ⊆ st.seen := by
    intro kind hkind
    rcases List.mem_cons.1 hkind with rfl | hkind
    · exact hmod
    · obtain ⟨e, he, rfl⟩ := List.mem_map.1 hkind
      exact hst.seen e.1 e.2 (mem_presentSections.1 he)
  have hle := (hnodup.subperm hsub).length_le
  rw [List.length_cons, List.length_map] at hle
  omega

private theorem mod_mem_seen_of_first {st st' : PackageReadState τ} {pre body : List Byte} {os : List Nat}
    (hmagic : le32ToCpu body 0 = policydbModMagic) (hne : os ≠ [])
    (h : (bounds (pre.length :: os)).foldlM (readPackageSection readTables (pre ++ body)) st = some st') :
    .mod ∈ st'.seen := by
  obtain ⟨o', ho'⟩ := Blocks.bounds_cons hne pre.length
  rw [ho'] at h
  obtain ⟨st₁, hfirst, hrest⟩ := Blocks.foldlM_cons_eq_some.1 h
  refine (foldlM_readPackageSection_seen hrest).2 .mod ?_
  obtain ⟨-, -, hcase⟩ := readPackageSection_eq_some.1 hfirst
  dsimp only at hcase
  rw [List.drop_left, sectionKind_eq_mod_iff.2 hmagic] at hcase
  obtain ⟨-, policy, -, rfl⟩ := hcase
  exact List.mem_cons_self ..

/-- When a section starts behind 2^32, then so does the last one, which is not the policy. -/
private theorem starts_of_wrapped {o : Nat} (ho : o ∈ p.starts image) (hlarge : 2 ^ 32 ≤ o) :
    ∃ front last, p.starts image = 4 * (4 + (presentSections p.sections).length) :: (front ++ [last]) ∧
      2 ^ 32 ≤ last ∧
      last ≤ 4 * (4 + (presentSections p.sections).length) +
        (image :: (presentSections p.sections).map sectionBytes).flatten.length := by
  have hcount : (presentSections p.sections).length ≤ 4 := (List.length_filterMap_le ..).trans (by decide)
  have hchain := Blocks.isChain_offsets (4 * (4 + (presentSections p.sections).length))
    (image :: (presentSections p.sections).map sectionBytes)
  rw [Blocks.offsets_eq_append, List.isChain_iff_pairwise, List.pairwise_append] at hchain
  obtain ⟨hpairs, -, hend⟩ := hchain
  change (p.starts image).Pairwise (· ≤ ·) at hpairs
  have hcons : ∃ back, p.starts image = 4 * (4 + (presentSections p.sections).length) :: back :=
    ⟨_, Blocks.dropLast_offsets_cons ..⟩
  obtain ⟨back, hback⟩ := hcons
  have hne : back ≠ [] := by
    rintro rfl
    rw [hback, List.mem_singleton] at ho
    omega
  refine ⟨back.dropLast, back.getLast hne, by rw [hback, List.dropLast_append_getLast], ?_, ?_⟩
  · have hsplit : p.starts image = (4 * (4 + (presentSections p.sections).length) :: back.dropLast) ++
        [back.getLast hne] := by
      rw [List.cons_append, List.dropLast_append_getLast, hback]
    rw [hsplit] at hpairs ho
    rcases List.mem_append.1 ho with ho | ho
    · exact hlarge.trans ((List.pairwise_append.1 hpairs).2.2 o ho _ (List.mem_singleton.2 rfl))
    · rwa [List.mem_singleton.1 ho] at hlarge
  · refine hend _ ?_ _ (List.mem_singleton.2 rfl)
    change back.getLast hne ∈ p.starts image
    rw [hback]
    exact List.mem_cons_of_mem _ (List.getLast_mem hne)

/-- The length of the last section is that of no text when its offset wraps, and a section with a flag is missing when
it has none. -/
private theorem not_last_of_wrapped {st st' : PackageReadState τ} {sec : Nat × Nat} {n : Nat}
    (hst : st.Kept) (hcount : st.seen.length ≤ n) (hmod : .mod ∈ st.seen) (hwrap : sec.1 + 2 ^ 32 ≤ sec.2)
    (hpresent : (presentSections st'.sections).length = n)
    (hlengths : ∀ s text, st'.sections s = some text → text.len ≤ 2 ^ 31) :
    readPackageSection readTables image st sec ≠ some st' := by
  intro h
  have hst' := readPackageSection_kept hst h
  obtain ⟨-, -, hcase⟩ := readPackageSection_eq_some.1 h
  revert hcase
  cases sectionKind (le32ToCpu (image.drop sec.1) 0) with
  | none =>
    rintro rfl
    have hle := length_seen_of_kept hst' hmod
    omega
  | some kind =>
    cases kind with
    | text s =>
      rintro ⟨-, data, -, rfl⟩
      have hlen := hlengths s ⟨data, sec.2 - sec.1 - 4⟩ (Function.update_self ..)
      dsimp only at hlen
      omega
    | mod =>
      rintro ⟨hseen, -⟩
      exact hseen hmod

/-- A package that is read back fits. -/
private theorem fits_of_sepolModulePackageRead (h : p.Written policydbWrite policy image)
    (hread : ∀ rest, policydbReadModule readTables (image ++ rest) = some policy) {bytes : List Byte}
    (hwrite : sepolModulePackageWrite policydbWrite p = .ok bytes)
    (hbytes : sepolModulePackageRead readTables bytes = some p) : p.Fits policy image := by
  obtain ⟨himage, -⟩ := policydbReadModule_spec (hread [])
  rw [List.append_nil] at himage
  rw [sepolModulePackageWrite_eq h (fun hnil => by simp [hnil] at himage)] at hwrite
  split_ifs at hwrite with hmax
  obtain rfl := Except.ok.inj hwrite
  have hlengths : ∀ s text, p.sections s = some text → text.len ≤ 2 ^ 31 :=
    fun s text htext => hmax (s, text) (mem_presentSections.2 htext)
  have htable : ((p.starts image).map (BitVec.ofNat 32)).length = (p.starts image).length := List.length_map ..
  have hcount : (presentSections p.sections).length ≤ 4 := (List.length_filterMap_le ..).trans (by decide)
  obtain ⟨pre, hpre, hprelen⟩ := packageImage_eq_append p.version ((p.starts image).map (BitVec.ofNat 32))
    (image ++ (presentSections p.sections).flatMap sectionBytes)
  unfold sepolModulePackageRead at hbytes
  simp only [Option.bind_eq_bind, Option.bind_eq_some_iff, Prod.exists, Option.guard_eq_some'] at hbytes
  obtain ⟨version, offs, hoffs, st, hrun, -, hmod, hp⟩ := hbytes
  obtain ⟨-, hpair⟩ := (modulePackageReadOffsets_packageImage (by
    rw [htable, length_starts]
    simp only [maxSections]
    omega)).1 hoffs
  obtain ⟨-, rfl⟩ := Prod.mk.inj hpair
  have hpolicy : st.policy = some policy := by
    rw [← h.policy_eq, ← Option.some.inj hp]
  have hsections : st.sections = p.sections := by
    rw [← Option.some.inj hp]
  have hkept : ∀ {l : List (Nat × Nat)} {st' : PackageReadState τ}, l.foldlM (readPackageSection readTables
      (packageImage p.version ((p.starts image).map (BitVec.ofNat 32))
        (image ++ (presentSections p.sections).flatMap sectionBytes))) ⟨none, fun _ => none, []⟩ = some st' →
      st'.Kept :=
    EarlyExit.inv_of_foldlM (fun _ _ _ hs hstep => readPackageSection_kept hs hstep) ⟨by simp, by simp⟩
  have hkind := (hkept hrun).kind policy hpolicy
  refine ⟨hkind, hlengths, ?_⟩
  by_contra hwrapped
  push Not at hwrapped
  obtain ⟨o, ho, hlarge⟩ := hwrapped
  obtain ⟨front, last, hstarts, hlast, hend⟩ := starts_of_wrapped ho hlarge
  have hlength := length_starts p image
  rw [hstarts, List.length_cons, List.length_append, List.length_singleton] at hlength
  rw [htable, length_starts] at hprelen
  generalize hwhole : packageImage p.version ((p.starts image).map (BitVec.ofNat 32))
    (image ++ (presentSections p.sections).flatMap sectionBytes) = whole at *
  have hfileLength : last ≤ whole.length := by
    rw [List.flatten_cons, ← List.flatMap_def] at hend
    rw [hpre, List.length_append, hprelen]
    omega
  have hoffs : ((p.starts image).map (BitVec.ofNat 32)).map BitVec.toNat ++ [whole.length] =
      (4 * (4 + (presentSections p.sections).length) :: front.map (· % 2 ^ 32)) ++ [last % 2 ^ 32, whole.length] := by
    rw [hstarts]
    simp only [List.map_cons, List.map_append, List.map_map, List.map_nil, List.cons_append, List.append_assoc,
      List.nil_append, Function.comp_def, BitVec.toNat_ofNat]
    rw [Nat.mod_eq_of_lt (by omega)]
  rw [hoffs, Blocks.bounds_append_pair] at hrun
  obtain ⟨st₁, hrun₁, hlastRun⟩ := Blocks.foldlM_append_eq_some.1 hrun
  obtain ⟨st₂, hlastStep, hdone⟩ := Blocks.foldlM_cons_eq_some.1 hlastRun
  obtain rfl := Option.some.inj hdone
  have hlen₁ := (foldlM_readPackageSection_seen hrun₁).1
  rw [Blocks.length_bounds, List.length_append, List.length_cons, List.length_map, List.length_singleton,
    List.length_nil] at hlen₁
  have hmagic := (policydbReadModule_spec (hread ((presentSections p.sections).flatMap sectionBytes))).2.2 hkind
  have hmod₁ : .mod ∈ st₁.seen := by
    rw [hpre, List.cons_append, ← show pre.length = 4 * (4 + (presentSections p.sections).length) by omega] at hrun₁
    exact mod_mem_seen_of_first hmagic (by simp) hrun₁
  refine not_last_of_wrapped (hkept hrun₁) (n := (presentSections p.sections).length) ?_ hmod₁ ?_ ?_ ?_ hlastStep
  · omega
  · dsimp only
    omega
  · rw [hsections]
  · rw [hsections]
    exact hlengths

/-! ### Main result -/

/-- A package with a policy that `policydb_read` gives back is read as it was written exactly when its offsets and
lengths fit; and an image that is read is reported on, with the type and the names of the policy, exactly when its
sections have what `sepol_module_package_info` asks for. -/
theorem sepolModulePackage_iff (policydbWrite : PackagePolicy τ → Option (List Byte))
    (readTables : PolicydbHeader → List Byte → Option τ) :
    (∀ (p : ModulePackage τ) policy image, p.Written policydbWrite policy image →
      (∀ rest, policydbReadModule readTables (image ++ rest) = some policy) →
      ((∃ bytes, sepolModulePackageWrite policydbWrite p = .ok bytes ∧
        sepolModulePackageRead readTables bytes = some p) ↔ p.Fits policy image)) ∧
    ∀ image p, sepolModulePackageRead readTables image = some p →
      ((∃ policy, p.policy = some policy ∧ sepolModulePackageInfo image = some policy.info) ↔
        ∀ version offsets, modulePackageReadOffsets image = some (version, offsets) →
          ∀ sec ∈ bounds offsets, InfoReads image sec) := by
  refine ⟨fun p policy image h hread => ⟨?_, fun hfits => ?_⟩, fun image p h => sepolModulePackageInfo_iff h⟩
  · rintro ⟨bytes, hwrite, hbytes⟩
    exact fits_of_sepolModulePackageRead h hread hwrite hbytes
  · obtain ⟨himage, -⟩ := policydbReadModule_spec (hread [])
    rw [List.append_nil] at himage
    have hmax : ∀ e ∈ presentSections p.sections, e.2.len ≤ 2 ^ 31 :=
      fun e he => hfits.lengths e.1 e.2 (mem_presentSections.1 he)
    refine ⟨_, ?_, sepolModulePackageRead_of_fits h hfits hread⟩
    rw [sepolModulePackageWrite_eq h fun hnil => by simp [hnil] at himage, if_pos hmax]

/-- What `policydb_write` writes for a module without symbols and rules behind its names. -/
def emptyModuleTables : List Byte :=
  let scopeIndex := (List.replicate 8 (ebitmapWrite ebitmapInit)).flatten ++ cpuToLe32 0
  ebitmapWrite ebitmapInit ++ ((List.replicate 16 0 ++ ([1, 1, 1, 1] ++ List.replicate 6 0)).flatMap cpuToLe32 ++
    (scopeIndex ++ (scopeIndex ++ (List.replicate (16 + 8 + 1) 0).flatMap cpuToLe32)))

/-- The module `m` of version 1. -/
def emptyModuleImage : List Byte :=
  (cpuToLe32 policydbModMagic ++ cpuToLe32 15) ++ (cstringBytes policydbModString ++
    ([policyMod, 22, 0, 8, 0].flatMap cpuToLe32 ++ (cpuToLe32 1 ++ (cstringBytes ['m'] ++ (cpuToLe32 1 ++
      (cstringBytes ['1'] ++ emptyModuleTables))))))

def emptyModule : PackagePolicy Unit := ⟨policyMod, some ['m'], some ['1'], ()⟩

/-- The writer and the reader of the module. -/
def emptyModuleWrite (policy : PackagePolicy Unit) : Option (List Byte) :=
  if policy.policyType = policyMod then some emptyModuleImage else none

def emptyModuleRead (_ : PolicydbHeader) (fp : List Byte) : Option Unit :=
  if fp.take emptyModuleImage.length = emptyModuleImage then some () else none

private theorem policydbReadModule_emptyModule (rest : List Byte) :
    policydbReadModule emptyModuleRead (emptyModuleImage ++ rest) = some emptyModule := by
  have htables : emptyModuleRead ⟨policyMod, 22, false⟩ (emptyModuleImage ++ rest) = some () := by
    rw [emptyModuleRead, List.take_left, if_pos rfl]
  have hheader : policydbReadHeader (emptyModuleImage ++ rest) = some (⟨policyMod, 22, false⟩,
      cpuToLe32 1 ++ (cstringBytes ['m'] ++ (cpuToLe32 1 ++ (cstringBytes ['1'] ++
        (emptyModuleTables ++ rest))))) := by
    have hwords : nextEntry (emptyModuleImage ++ rest) (4 * 2) = some (cpuToLe32 policydbModMagic ++ cpuToLe32 15,
        cstringBytes policydbModString ++ ([policyMod, 22, 0, 8, 0].flatMap cpuToLe32 ++ (cpuToLe32 1 ++
          (cstringBytes ['m'] ++ (cpuToLe32 1 ++ (cstringBytes ['1'] ++ (emptyModuleTables ++ rest))))))) :=
      nextEntry_eq_some.2 ⟨by simp only [emptyModuleImage, List.append_assoc], by decide⟩
    unfold policydbReadHeader
    simp only [Option.bind_eq_bind, check_eq_some, Option.bind_eq_some_iff, Prod.exists]
    refine ⟨_, _, hwords, by decide, by decide, cstringBytes policydbModString, _,
      nextEntry_eq_some.2 ⟨rfl, by decide⟩, ?_⟩
    rw [if_neg (by decide)]
    simp only [check_eq_some, Option.bind_eq_some_iff, Prod.exists]
    exact ⟨by decide, [policyMod, 22, 0, 8, 0].flatMap cpuToLe32, _, nextEntry_eq_some.2 ⟨rfl, by decide⟩, by decide,
      by decide, rfl⟩
  have hname : ∀ c rest, c ∈ ['m', '1'] → strRead (cstringBytes [c] ++ rest) 1 = some ([c], rest) := by
    intro c rest hc
    have hall : ∀ c ∈ ['m', '1'], c.toNat ≠ 0 ∧ c.toNat < 256 := by simp
    exact strRead_cstringBytes ⟨by simp, by simpa using hall c hc, by simp⟩ rest
  unfold policydbReadModule
  simp only [Option.bind_eq_bind, Option.bind_eq_some_iff, Prod.exists]
  refine ⟨_, _, hheader, ?_⟩
  rw [if_pos rfl]
  simp only [Option.bind_eq_some_iff, Prod.exists]
  exact ⟨_, _, nextEntry_word 1 _, ['m'], _, hname 'm' _ (by decide), _, _, nextEntry_word 1 _, ['1'], _,
    hname '1' _ (by decide), (), htables, rfl⟩

/-- The module with file contexts. -/
def contextsPackage (text : CString) : ModulePackage Unit :=
  ⟨1, some emptyModule, Function.update (fun _ => none) .fileContexts (some ⟨cstringBytes text, text.length⟩)⟩

private theorem contextsPackage_section {text : CString} {s : PackageSection} {t : SectionText}
    (h : (contextsPackage text).sections s = some t) : t = ⟨cstringBytes text, text.length⟩ := by
  cases s with
  | fileContexts => exact (Option.some.inj h).symm
  | seusers => cases h
  | userExtra => cases h
  | netfilterContexts => cases h

private theorem contextsPackage_written (text : CString) :
    (contextsPackage text).Written emptyModuleWrite emptyModule emptyModuleImage := by
  refine ⟨rfl, rfl, fun h => by simp [contextsPackage] at h, fun s t ht => ?_⟩
  rw [contextsPackage_section ht]
  exact (List.length_map ..).symm

private theorem contextsPackage_fits {text : CString} (hlength : text.length ≤ 2 ^ 31)
    (hstarts : ∀ o ∈ (contextsPackage text).starts emptyModuleImage, o < 2 ^ 32) :
    (contextsPackage text).Fits emptyModule emptyModuleImage := by
  refine ⟨by decide, fun s t ht => ?_, hstarts⟩
  rw [contextsPackage_section ht]
  exact hlength

/-- The package as it is written. -/
def contextsImage (text : CString) : List Byte :=
  packageImage 1 (((contextsPackage text).starts emptyModuleImage).map (BitVec.ofNat 32))
    (emptyModuleImage ++ (presentSections (contextsPackage text).sections).flatMap sectionBytes)

/-- With file contexts of four bytes. -/
theorem sepolModulePackage_iff_contexts :
    ((∃ bytes, sepolModulePackageWrite emptyModuleWrite (contextsPackage ['a', ':', 'b', 'c']) = .ok bytes ∧
      sepolModulePackageRead emptyModuleRead bytes = some (contextsPackage ['a', ':', 'b', 'c'])) ↔
        (contextsPackage ['a', ':', 'b', 'c']).Fits emptyModule emptyModuleImage) ∧
    ((∃ policy, (contextsPackage ['a', ':', 'b', 'c']).policy = some policy ∧
        sepolModulePackageInfo (contextsImage ['a', ':', 'b', 'c']) = some policy.info) ↔
      ∀ version offsets, modulePackageReadOffsets (contextsImage ['a', ':', 'b', 'c']) = some (version, offsets) →
        ∀ sec ∈ bounds offsets, InfoReads (contextsImage ['a', ':', 'b', 'c']) sec) :=
  ⟨(sepolModulePackage_iff emptyModuleWrite emptyModuleRead).1 _ emptyModule emptyModuleImage
      (contextsPackage_written _) policydbReadModule_emptyModule,
    (sepolModulePackage_iff emptyModuleWrite emptyModuleRead).2 _ _
      (sepolModulePackageRead_of_fits (contextsPackage_written _)
        (contextsPackage_fits (by decide) (by decide +kernel))
        policydbReadModule_emptyModule)⟩

/-- The module with file contexts of three bytes. -/
def shortPackage : ModulePackage Unit := contextsPackage ['a', ':', 'b']

/-- The package as it is written. -/
def shortPackageImage : List Byte := contextsImage ['a', ':', 'b']

private theorem shortPackage_fits : shortPackage.Fits emptyModule emptyModuleImage :=
  contextsPackage_fits (by decide) (by decide +kernel)

private theorem sepolModulePackageRead_shortPackage :
    sepolModulePackageRead emptyModuleRead shortPackageImage = some shortPackage :=
  sepolModulePackageRead_of_fits (contextsPackage_written _) shortPackage_fits policydbReadModule_emptyModule

/-- The image is written and read, but the seven bytes of its last section are too few for the other reader. -/
theorem sepolModulePackageInfo_counterexample :
    sepolModulePackageWrite emptyModuleWrite shortPackage = .ok shortPackageImage ∧
      sepolModulePackageRead emptyModuleRead shortPackageImage = some shortPackage ∧
      sepolModulePackageInfo shortPackageImage = none := by
  refine ⟨?_, sepolModulePackageRead_shortPackage, by decide +kernel⟩
  rw [shortPackage, sepolModulePackageWrite_eq (contextsPackage_written _) (by decide), if_pos]
  · rfl
  · intro e he
    exact shortPackage_fits.lengths e.1 e.2 (mem_presentSections.1 he)

end Sepol
