import Sepol.AvtabMultimap
import Sepol.EbitmapIO

/-!
# Reading an access vector table

`avtab_read_item` in both formats, with the function that takes an entry as a parameter, and `avtab_read`.  The result
`none` stands for an error.
-/

namespace Sepol

abbrev avtabTransition : BitVec 16 := 0x0010
abbrev avtabMember : BitVec 16 := 0x0020
abbrev avtabChange : BitVec 16 := 0x0040
abbrev avtabType : BitVec 16 := avtabTransition ||| avtabMember ||| avtabChange
/-- The position of the bit `AVTAB_ENABLED_OLD`. -/
abbrev avtabEnabledOldBit : Nat := 31

abbrev policydbVersionXpermsIoctl : Nat := 30

/-- `le16_to_cpu` of the half word at index `i` of a buffer. -/
def le16ToCpu (buf : List Byte) (i : Nat) : Nat := LittleEndian.ofBytes ((buf.drop (2 * i)).take 2)

/-- An `avtab_extended_perms_t` of zeros, for a datum without extended permissions. -/
def avtabExtendedPermsInit : AvtabExtendedPerms := ⟨0, 0, fun _ => 0⟩

/-- `spec_order`: the order of the data in the old format. -/
def specOrder : List (BitVec 16) :=
  [avtabAllowed, avtabAuditdeny, avtabAuditallow, avtabTransition, avtabChange, avtabMember, avtabXpermsAllowed,
    avtabXpermsAuditallow, avtabXpermsDontaudit]

/-- The loop over `spec_order`; `buf32` is the record, `items` the index of the next word and `items2` the number of
words. -/
def avtabReadSpecs {σ : Type} (insertf : AvtabKey → AvtabDatum → σ → Option σ) (key : AvtabKey)
    (enabled val : BitVec 16) (buf32 : List Byte) (items2 : Nat) : List (BitVec 16) → Nat → σ → Option (Nat × σ)
  | [], items, st => some (items, st)
  | spec :: specs, items, st =>
    if hasSpecified val spec then
      if items ≥ items2 then none
      else
        match insertf { key with specified := spec ||| enabled }
            ⟨BitVec.ofNat 32 (le32ToCpu buf32 items), avtabExtendedPermsInit⟩ st with
        | none => none
        | some st => avtabReadSpecs insertf key enabled val buf32 items2 specs (items + 1) st
    else avtabReadSpecs insertf key enabled val buf32 items2 specs items st

/-- `avtab_read_item` for versions before `POLICYDB_VERSION_AVTAB`. -/
def avtabReadItemOld {σ : Type} (fp : List Byte) (insertf : AvtabKey → AvtabDatum → σ → Option σ) (st : σ) :
    Option (σ × List Byte) := do
  let (buf32, fp) ← nextEntry fp 4
  let items2 := le32ToCpu buf32 0
  guard (5 ≤ items2 ∧ items2 ≤ 8)
  let (buf32, fp) ← nextEntry fp (4 * items2)
  guard (le32ToCpu buf32 0 < 2 ^ 16)
  guard (le32ToCpu buf32 1 < 2 ^ 16)
  guard (le32ToCpu buf32 2 < 2 ^ 16)
  let key : AvtabKey := ⟨BitVec.ofNat 16 (le32ToCpu buf32 0), BitVec.ofNat 16 (le32ToCpu buf32 1),
    BitVec.ofNat 16 (le32ToCpu buf32 2), 0⟩
  let val := BitVec.ofNat 16 (le32ToCpu buf32 3)
  let enabled := if (le32ToCpu buf32 3).testBit avtabEnabledOldBit then avtabEnabled else 0
  guard (hasSpecified val (avtabAv ||| avtabType))
  guard (¬ (hasSpecified val avtabAv ∧ hasSpecified val avtabType))
  let (items, st) ← avtabReadSpecs insertf key enabled val buf32 items2 specOrder 4 st
  guard (items = items2)
  return (st, fp)

/-- `__builtin_popcount` of a specifier. -/
def popcount (specified : BitVec 16) : Nat := (List.range 16).countP specified.getLsbD

/-- `avtab_read_item` from `POLICYDB_VERSION_AVTAB` on. -/
def avtabReadItemNew {σ : Type} (fp : List Byte) (vers : Nat) (insertf : AvtabKey → AvtabDatum → σ → Option σ)
    (st : σ) : Option (σ × List Byte) := do
  let (buf16, fp) ← nextEntry fp (2 * 4)
  let key : AvtabKey := ⟨BitVec.ofNat 16 (le16ToCpu buf16 0), BitVec.ofNat 16 (le16ToCpu buf16 1),
    BitVec.ofNat 16 (le16ToCpu buf16 2), BitVec.ofNat 16 (le16ToCpu buf16 3)⟩
  guard (key.specified &&& ~~~(avtabAv ||| avtabType ||| avtabXperms ||| avtabEnabled) = 0)
  guard (popcount (key.specified &&& ~~~avtabEnabled) = 1)
  guard (¬ (vers < policydbVersionXpermsIoctl ∧ hasSpecified key.specified avtabXperms))
  if hasSpecified key.specified avtabXperms then do
    let (specified, fp) ← nextEntry fp 1
    let (driver, fp) ← nextEntry fp 1
    let (buf32, fp) ← nextEntry fp (4 * 8)
    let xperms : AvtabExtendedPerms := ⟨BitVec.ofNat 8 (LittleEndian.ofBytes specified),
      BitVec.ofNat 8 (LittleEndian.ofBytes driver), fun i => BitVec.ofNat 32 (le32ToCpu buf32 i)⟩
    (insertf key ⟨0, xperms⟩ st).map fun st => (st, fp)
  else do
    let (buf32, fp) ← nextEntry fp 4
    (insertf key ⟨BitVec.ofNat 32 (le32ToCpu buf32 0), avtabExtendedPermsInit⟩ st).map fun st => (st, fp)

/-- `avtab_read_item`. -/
def avtabReadItem {σ : Type} (fp : List Byte) (vers : Nat) (insertf : AvtabKey → AvtabDatum → σ → Option σ) (st : σ) :
    Option (σ × List Byte) :=
  if vers < policydbVersionAvtab then avtabReadItemOld fp insertf st else avtabReadItemNew fp vers insertf st

/-- A loop that reads `n` items. -/
def avtabReadItems {σ : Type} (vers : Nat) (insertf : AvtabKey → AvtabDatum → σ → Option σ) :
    Nat → List Byte → σ → Option (σ × List Byte)
  | 0, fp, st => some (st, fp)
  | n + 1, fp, st =>
    match avtabReadItem fp vers insertf st with
    | none => none
    | some (st, fp) => avtabReadItems vers insertf n fp st

/-- `avtab_read`; the file is in memory, so the number of bytes that are left is known. -/
def avtabRead (fp : List Byte) (vers : Nat) : Option (Avtab × List Byte) := do
  let (buf, fp) ← nextEntry fp 4
  let nel := le32ToCpu buf 0
  guard (¬ (nel = 0 ∨ nel = 2 ^ 32 - 1) ∧ nel * 12 ≤ fp.length)
  avtabReadItems vers (fun key datum h => avtabInsert h key datum) nel fp (avtabAlloc nel)

variable {σ : Type} {insertf : AvtabKey → AvtabDatum → σ → Option σ} {fp rest : List Byte} {st st' : σ} {vers : Nat}

/-! ### What the callback keeps -/

private theorem avtabReadSpecs_induction {R : σ → Prop} {enabled : BitVec 16} (hstep : ∀ key datum st st',
      SingleBit key.specified → R st → insertf key datum st = some st' → R st') {key : AvtabKey} {val : BitVec 16}
    {buf32 : List Byte} {items2 : Nat} {specs : List (BitVec 16)}
    (hspecs : ∀ spec ∈ specs, SingleBit (spec ||| enabled)) {items items' : Nat} (hst : R st)
    (h : avtabReadSpecs insertf key enabled val buf32 items2 specs items st = some (items', st')) : R st' := by
  induction specs generalizing items st with
  | nil =>
    cases h
    exact hst
  | cons spec specs ih =>
    have hspecs' : ∀ spec ∈ specs, SingleBit (spec ||| enabled) :=
      fun spec hspec => hspecs spec (List.mem_cons_of_mem _ hspec)
    rw [avtabReadSpecs] at h
    split at h
    · split at h
      · cases h
      · split at h
        · cases h
        · rename_i hinsert
          exact ih hspecs' (hstep _ _ _ _ (hspecs _ (List.mem_cons_self ..)) hst hinsert) h
    · exact ih hspecs' hst h

/-- The check of the reader for a specifier. -/
private theorem singleBit_of_popcount {specified : BitVec 16} (h : popcount (specified &&& ~~~avtabEnabled) = 1) :
    SingleBit specified := by
  rw [popcount, List.countP_eq_length_filter, List.length_eq_one_iff] at h
  obtain ⟨i, hi⟩ := h
  have hbit : ∀ j < 16, (specified &&& ~~~avtabEnabled).getLsbD j = true ↔ j = i := by
    intro j hj
    have hmem : j ∈ (List.range 16).filter (specified &&& ~~~avtabEnabled).getLsbD ↔ j ∈ [i] := by rw [hi]
    rwa [List.mem_filter, List.mem_range, and_iff_right hj, List.mem_singleton] at hmem
  have hi16 : i < 16 := by
    have hmem : i ∈ (List.range 16).filter (specified &&& ~~~avtabEnabled).getLsbD :=
      hi ▸ List.mem_singleton_self i
    exact List.mem_range.1 (List.mem_filter.1 hmem).1
  have hne : i ≠ 15 := by
    rintro rfl
    have htrue := (hbit 15 (by omega)).2 rfl
    have henabled : avtabEnabled.getLsbD 15 = true := by decide
    rw [BitVec.getLsbD_and, BitVec.getLsbD_not, henabled] at htrue
    simp at htrue
  refine ⟨i, by omega, BitVec.eq_of_getLsbD_eq fun j hj => ?_⟩
  have hone : ∀ i < 16, ∀ j < 16, (1#16 <<< i).getLsbD j = decide (j = i) := by decide
  rw [hone i hi16 j hj, Bool.eq_iff_iff, hbit j hj, decide_eq_true_iff]

private theorem singleBit_specOrder {spec : BitVec 16} (h : spec ∈ specOrder) :
    SingleBit (spec ||| avtabEnabled) ∧ SingleBit (spec ||| 0) := by
  have hmask : specOrder.all (fun s => decide ((s ||| avtabEnabled) &&& ~~~avtabEnabled = s) &&
      decide ((s ||| 0) &&& ~~~avtabEnabled = s)) = true := by decide
  have hpop : specOrder.all (fun s => popcount s = 1) = true := by decide
  have hmask := Bool.and_eq_true_iff.1 (List.all_eq_true.1 hmask _ h)
  have hpop := of_decide_eq_true (List.all_eq_true.1 hpop _ h)
  constructor
  · refine singleBit_of_popcount ?_
    rw [of_decide_eq_true hmask.1, hpop]
  · refine singleBit_of_popcount ?_
    rw [of_decide_eq_true hmask.2, hpop]

/-- What every call of the function that takes an entry keeps, an item keeps.  The keys of the calls have one
specifier bit. -/
private theorem avtabReadItem_keys {R : σ → Prop} (hstep : ∀ key datum st st', SingleBit key.specified → R st →
      insertf key datum st = some st' → R st') (hst : R st)
    (h : avtabReadItem fp vers insertf st = some (st', rest)) : R st' := by
  unfold avtabReadItem at h
  split at h
  · unfold avtabReadItemOld at h
    simp only [Option.bind_eq_bind, Option.bind_eq_some_iff, Prod.exists, Option.guard_eq_some', exists_const] at h
    obtain ⟨_, _, _, _, _, _, _, _, _, _, _, _, items, st₁, hspecs, _, h⟩ := h
    cases h
    refine avtabReadSpecs_induction hstep (fun spec hspec => ?_) hst hspecs
    split
    · exact (singleBit_specOrder hspec).1
    · exact (singleBit_specOrder hspec).2
  · unfold avtabReadItemNew at h
    simp only [Option.bind_eq_bind, Option.bind_eq_some_iff, Prod.exists, Option.guard_eq_some', exists_const] at h
    obtain ⟨_, _, _, _, hpop, _, h⟩ := h
    have hkey := singleBit_of_popcount hpop
    split at h
    · simp only [Option.bind_eq_some_iff, Option.map_eq_some_iff, Prod.exists] at h
      obtain ⟨_, _, _, _, _, _, _, _, _, st₁, hinsert, h⟩ := h
      cases h
      exact hstep _ _ _ _ hkey hst hinsert
    · simp only [Option.bind_eq_some_iff, Option.map_eq_some_iff, Prod.exists] at h
      obtain ⟨_, _, _, st₁, hinsert, h⟩ := h
      cases h
      exact hstep _ _ _ _ hkey hst hinsert

theorem avtabReadItems_keys {R : σ → Prop} (hstep : ∀ key datum st st', SingleBit key.specified → R st →
      insertf key datum st = some st' → R st') {n : Nat} (hst : R st)
    (h : avtabReadItems vers insertf n fp st = some (st', rest)) : R st' := by
  induction n generalizing fp st with
  | zero =>
    cases h
    exact hst
  | succ n ih =>
    rw [avtabReadItems] at h
    split at h
    · cases h
    · rename_i hitem
      exact ih (avtabReadItem_keys hstep hst hitem) h

theorem avtabReadItems_induction {R : σ → Prop} (hstep : ∀ key datum st st', R st →
      insertf key datum st = some st' → R st') {n : Nat} (hst : R st)
    (h : avtabReadItems vers insertf n fp st = some (st', rest)) : R st' :=
  avtabReadItems_keys (fun key datum st st' _ => hstep key datum st st') hst h

end Sepol
