import Sepol.ExtendedPerms
import Sepol.Lib.Delimited
import Sepol.Lib.MaximalRuns

/-!
# Printing extended permissions

`sepol_extended_perms_to_string` walks the 256 bits of a permission array and looks one bit ahead.  What it prints for
a run of bits is read back as one range of commands, and the ranges together are the commands of the array.
-/

namespace Sepol

open MaximalRuns (runs Linked Maximal)

/-! ### The function -/

/-- The text of `"0x%hx"`. -/
def hexText (v : BitVec 16) : CString := '0' :: 'x' :: Nat.toDigits 16 v.toNat

/-- The macro `next_bit_in_range`. -/
def nextBitInRange (i : Nat) (p : Fin extendedPermsLen → BitVec 32) : Bool :=
  decide (i + 1 < 256) && xpermTest (BitVec.ofNat 8 (i + 1)) p

/-- The labels the function jumps to. -/
inductive XpermsExit where
  | retry
  | err
deriving DecidableEq

/-- The buffer, as the text in it and the room behind it, and the variables of the loop. -/
structure XpermsPrint where
  text : CString
  remaining : Nat
  inRange : Bool
  lowBit : Nat

/-- `snprintf` behind the text, which needs room for a terminator as well. -/
def XpermsPrint.print (s : XpermsPrint) (text : CString) (exit : XpermsExit) : Except XpermsExit XpermsPrint :=
  if text.length ≥ s.remaining then .error exit
  else .ok { s with text := s.text ++ text, remaining := s.remaining - text.length }

/-- What is printed at the last bit of a range. -/
def xpermsRangeText (xperms : AvtabExtendedPerms) (inRange : Bool) (lowBit bit : Nat) : CString :=
  if xperms.specified = avtabXpermsIoctlfunction ∨ xperms.specified = avtabXpermsNlmsg then
    let value := xperms.driver.setWidth 16 <<< 8 ||| BitVec.ofNat 16 bit
    if inRange then
      let lowValue := xperms.driver.setWidth 16 <<< 8 ||| BitVec.ofNat 16 lowBit
      hexText lowValue ++ '-' :: hexText value ++ [' ']
    else hexText value ++ [' ']
  else
    let value := BitVec.ofNat 16 bit <<< 8
    if inRange then
      let lowValue := BitVec.ofNat 16 lowBit <<< 8
      hexText lowValue ++ '-' :: hexText (value ||| 0xff) ++ [' ']
    else hexText value ++ '-' :: hexText (value ||| 0xff) ++ [' ']

/-- The loop body. -/
def xpermsStep (xperms : AvtabExtendedPerms) (s : XpermsPrint) (bit : Nat) : Except XpermsExit XpermsPrint :=
  if !xpermTest (BitVec.ofNat 8 bit) xperms.perms then .ok s
  else if s.inRange && nextBitInRange bit xperms.perms then .ok s
  else if nextBitInRange bit xperms.perms then .ok { s with lowBit := bit, inRange := true }
  else
    (s.print (xpermsRangeText xperms s.inRange s.lowBit bit) .retry).map fun s => { s with inRange := false }

/-- The name of the kind of permissions. -/
def xpermsKind (xperms : AvtabExtendedPerms) : CString :=
  if xperms.specified = avtabXpermsIoctlfunction ∨ xperms.specified = avtabXpermsIoctldriver then
    ['i', 'o', 'c', 't', 'l']
  else ['n', 'l', 'm', 's', 'g']

/-- The code behind the label `retry`, for a buffer of `size` characters. -/
def xpermsAttempt (xperms : AvtabExtendedPerms) (size : Nat) : Except XpermsExit CString := do
  let s ← (⟨[], size, false, 0⟩ : XpermsPrint).print (xpermsKind xperms ++ [' ', '{', ' ']) .err
  let s ← (List.range 256).foldlM (xpermsStep xperms) s
  let s ← s.print ['}'] .retry
  pure s.text

/-- The retries, with a buffer of twice the size each time.  The size is a `size_t`, which is too small for the
product after 57 of them, so the fuel is never used up. -/
def xpermsRetry (xperms : AvtabExtendedPerms) : Nat → Nat → Option CString
  | 0, _ => none
  | fuel + 1, size =>
    if size * 2 ≥ 2 ^ 64 then none
    else
      match xpermsAttempt xperms (size * 2) with
      | .ok text => some text
      | .error .err => none
      | .error .retry => xpermsRetry xperms fuel (size * 2)

def sepolExtendedPermsToString (xperms : AvtabExtendedPerms) : Option CString :=
  if xperms.specified ≠ avtabXpermsIoctlfunction ∧ xperms.specified ≠ avtabXpermsIoctldriver ∧
      xperms.specified ≠ avtabXpermsNlmsg then none
  else xpermsRetry xperms 64 128

variable {xperms : AvtabExtendedPerms}

/-! ### The text of the runs -/

/-- The bits that are set, in ascending order. -/
def xpermsBits (xperms : AvtabExtendedPerms) : List Nat :=
  (List.range 256).filter fun bit => xpermTest (BitVec.ofNat 8 bit) xperms.perms

private theorem mem_xpermsBits {j : Nat} :
    j ∈ xpermsBits xperms ↔ j < 256 ∧ xpermTest (BitVec.ofNat 8 j) xperms.perms = true := by
  rw [xpermsBits, List.mem_filter, List.mem_range]

private theorem xpermsBits_linked (xperms : AvtabExtendedPerms) :
    Linked (fun i => nextBitInRange i xperms.perms) (xpermsBits xperms) where
  sorted := List.pairwise_lt_range.filter _
  next i hi hmore := by
    rw [nextBitInRange, Bool.and_eq_true, decide_eq_true_iff] at hmore
    exact mem_xpermsBits.2 hmore

def xpermsRuns (xperms : AvtabExtendedPerms) : List (Nat × Nat) :=
  runs (fun i => nextBitInRange i xperms.perms) none (xpermsBits xperms)

def xpermsRunText (xperms : AvtabExtendedPerms) (r : Nat × Nat) : CString :=
  xpermsRangeText xperms (decide (r.1 < r.2)) r.1 r.2

private theorem xpermsRangeText_single (xperms : AvtabExtendedPerms) (lowBit bit : Nat) :
    xpermsRangeText xperms false lowBit bit = xpermsRunText xperms (bit, bit) := by
  simp [xpermsRunText, xpermsRangeText]

/-- The first position of the open range. -/
def XpermsPrint.start (s : XpermsPrint) : Option Nat := if s.inRange then some s.lowBit else none

/-- What is left of a buffer after a text was printed to it. -/
def XpermsPrint.after (s : XpermsPrint) (text : CString) : Except XpermsExit (CString × Nat) :=
  if text.length < s.remaining then .ok (s.text ++ text, s.remaining - text.length) else .error .retry

private theorem XpermsPrint.after_nil {s : XpermsPrint} (h : 0 < s.remaining) :
    s.after [] = .ok (s.text, s.remaining) := by
  simp [XpermsPrint.after, h]

/-- A text is printed piece by piece. -/
private theorem XpermsPrint.after_append (s : XpermsPrint) (text rest : CString) (exit : XpermsExit) :
    (∃ s', s.print text exit = .ok s' ∧ 0 < s'.remaining ∧
        s.after (text ++ rest) = s'.after rest) ∨
      s.print text exit = .error exit ∧ s.after (text ++ rest) = .error .retry := by
  by_cases h : text.length ≥ s.remaining
  · right
    constructor
    · rw [XpermsPrint.print, if_pos h]
    · rw [XpermsPrint.after, if_neg]
      rw [List.length_append]
      omega
  · left
    refine ⟨_, if_neg h, ?_, ?_⟩
    · dsimp only
      omega
    · simp only [XpermsPrint.after, List.length_append, List.append_assoc]
      by_cases hlt : text.length + rest.length < s.remaining
      · rw [if_pos hlt, if_pos (by omega), Nat.sub_add_eq]
      · rw [if_neg hlt, if_neg (by omega)]

/-- The loop prints the texts of the runs, when there is room for all of them. -/
private theorem xpermsLoop_eq {l : List Nat} {s : XpermsPrint} (hpos : 0 < s.remaining) (hsorted : l.Pairwise (· < ·))
    (hlow : s.inRange = true → ∀ b ∈ l, s.lowBit < b) :
    (l.foldlM (xpermsStep xperms) s).map (fun s => (s.text, s.remaining)) =
      s.after ((runs (fun i => nextBitInRange i xperms.perms) s.start
        (l.filter fun bit => xpermTest (BitVec.ofNat 8 bit) xperms.perms)).flatMap (xpermsRunText xperms)) := by
  induction l generalizing s with
  | nil => exact (XpermsPrint.after_nil hpos).symm
  | cons b l ih =>
    have hsorted' := List.pairwise_cons.1 hsorted
    have hlow' : s.inRange = true → ∀ b ∈ l, s.lowBit < b := fun h c hc => hlow h c (List.mem_cons_of_mem _ hc)
    rw [List.foldlM_cons, xpermsStep]
    cases hbit : xpermTest (BitVec.ofNat 8 b) xperms.perms with
    | false =>
      rw [List.filter_cons_of_neg (by simp [hbit])]
      exact ih hpos hsorted'.2 hlow'
    | true =>
      rw [List.filter_cons_of_pos (by simp [hbit]), runs]
      cases hnext : nextBitInRange b xperms.perms with
      | true =>
        cases hin : s.inRange with
        | true =>
          have hstart : s.start = some s.lowBit := if_pos hin
          have hrest := ih hpos hsorted'.2 hlow'
          rw [hstart] at hrest ⊢
          exact hrest
        | false =>
          -- a low value: a range is opened
          have hstart : s.start = none := if_neg (by simp [hin])
          rw [hstart]
          exact ih (s := { s with lowBit := b, inRange := true }) hpos hsorted'.2 fun _ => hsorted'.1
      | false =>
        have htext : xpermsRangeText xperms s.inRange s.lowBit b = xpermsRunText xperms (s.start.getD b, b) := by
          cases hin : s.inRange with
          | true => simp [XpermsPrint.start, hin, xpermsRunText, hlow hin b (by simp)]
          | false => simp [XpermsPrint.start, hin, xpermsRangeText_single]
        simp only [htext, Bool.not_true, Bool.and_false, Bool.false_eq_true, if_false, List.flatMap_cons]
        rcases s.after_append (xpermsRunText xperms (s.start.getD b, b))
          ((runs (fun i => nextBitInRange i xperms.perms) none
            (l.filter fun bit => xpermTest (BitVec.ofNat 8 bit) xperms.perms)).flatMap (xpermsRunText xperms)) .retry
          with ⟨s', hprint, hpos', hafter⟩ | ⟨hprint, hafter⟩
        · rw [hafter, hprint]
          exact ih (s := { s' with inRange := false }) hpos' hsorted'.2 fun h => by cases h
        · rw [hafter, hprint]
          rfl

/-! ### The text -/

/-- What the function prints. -/
def xpermsText (xperms : AvtabExtendedPerms) : CString :=
  xpermsKind xperms ++ [' ', '{', ' '] ++ (xpermsRuns xperms).flatMap (xpermsRunText xperms) ++ ['}']

private theorem length_xpermsKind (xperms : AvtabExtendedPerms) : (xpermsKind xperms).length = 5 := by
  rw [xpermsKind]
  split <;> rfl

/-- A buffer that is large enough for the header is large enough, or there is another try. -/
private theorem xpermsAttempt_eq {size : Nat} (hsize : 8 < size) :
    xpermsAttempt xperms size =
      if (xpermsText xperms).length < size then .ok (xpermsText xperms) else .error .retry := by
  have hheader : (xpermsKind xperms ++ [' ', '{', ' ']).length = 8 := by
    rw [List.length_append, length_xpermsKind]
    rfl
  have hprint : (⟨[], size, false, 0⟩ : XpermsPrint).print (xpermsKind xperms ++ [' ', '{', ' ']) .err =
      .ok ⟨xpermsKind xperms ++ [' ', '{', ' '], size - 8, false, 0⟩ := by
    rw [XpermsPrint.print, if_neg (by rw [hheader]; dsimp only; omega), hheader]
    rfl
  have hloop := @xpermsLoop_eq xperms (List.range 256) ⟨xpermsKind xperms ++ [' ', '{', ' '], size - 8, false, 0⟩
    (by dsimp only; omega) List.pairwise_lt_range (fun h => by cases h)
  change _ = XpermsPrint.after _ ((xpermsRuns xperms).flatMap (xpermsRunText xperms)) at hloop
  have hlength : (xpermsText xperms).length =
      8 + ((xpermsRuns xperms).flatMap (xpermsRunText xperms)).length + 1 := by
    rw [xpermsText, List.length_append, List.length_append, hheader]
    rfl
  rw [xpermsAttempt, hprint]
  change ((List.range 256).foldlM (xpermsStep xperms) _ >>= fun s => (s.print ['}'] .retry) >>= fun s =>
    pure s.text) = _
  rw [XpermsPrint.after] at hloop
  cases hfold : (List.range 256).foldlM (xpermsStep xperms)
      ⟨xpermsKind xperms ++ [' ', '{', ' '], size - 8, false, 0⟩ with
  | error e =>
    rw [hfold] at hloop
    split at hloop
    · cases hloop
    · rw [if_neg (by dsimp only at *; omega)]
      exact congrArg Except.error (Except.error.inj hloop)
  | ok s =>
    rw [hfold] at hloop
    split at hloop
    · obtain ⟨htext, hremaining⟩ := Prod.mk.inj (Except.ok.inj hloop)
      change (s.print ['}'] .retry >>= fun s => pure s.text) = _
      rw [XpermsPrint.print, hremaining]
      by_cases hfits : (xpermsText xperms).length < size
      · rw [if_pos hfits, if_neg (by simp only [List.length_singleton]; omega)]
        change Except.ok (s.text ++ ['}']) = _
        rw [htext, xpermsText]
      · rw [if_neg hfits, if_pos (by simp only [List.length_singleton]; omega)]
        rfl
    · cases hloop

private theorem length_hexText_le (v : BitVec 16) : (hexText v).length ≤ 6 := by
  have hdigits := (Nat.length_toDigits_le_iff (b := 16) (k := 4) (by decide) (by decide)).2 v.isLt
  simp only [hexText, List.length_cons]
  omega

private theorem length_xpermsRunText_le (xperms : AvtabExtendedPerms) (r : Nat × Nat) :
    (xpermsRunText xperms r).length ≤ 14 := by
  have hle := length_hexText_le
  rw [xpermsRunText, xpermsRangeText]
  split <;> split
  all_goals
    simp only [List.length_append, List.length_cons, List.length_nil]
    grind

private theorem length_xpermsText_lt (xperms : AvtabExtendedPerms) : (xpermsText xperms).length < 4096 := by
  have hruns : (xpermsRuns xperms).length ≤ 256 := by
    refine le_trans (MaximalRuns.length_runs_le ..) ?_
    rw [xpermsBits]
    exact le_trans (List.length_filter_le ..) (by rw [List.length_range])
  have hsum : ((xpermsRuns xperms).flatMap (xpermsRunText xperms)).length ≤ (xpermsRuns xperms).length * 14 := by
    rw [List.length_flatMap]
    have hcard := List.sum_le_card_nsmul ((xpermsRuns xperms).map fun r => (xpermsRunText xperms r).length) 14
      (fun n hn => by
        obtain ⟨r, -, rfl⟩ := List.mem_map.1 hn
        exact length_xpermsRunText_le xperms r)
    rwa [List.length_map] at hcard
  rw [xpermsText]
  simp only [List.length_append, length_xpermsKind, List.length_cons, List.length_nil]
  omega

private theorem xpermsRetry_eq {k fuel size : Nat} (hk : k < fuel) (hsize : 8 < size)
    (hmax : size * 2 ^ (k + 1) < 2 ^ 64) (hfits : (xpermsText xperms).length < size * 2 ^ (k + 1)) :
    xpermsRetry xperms fuel size = some (xpermsText xperms) := by
  induction k generalizing fuel size with
  | zero =>
    obtain ⟨fuel, rfl⟩ : ∃ m, fuel = m + 1 := ⟨fuel - 1, by omega⟩
    rw [Nat.zero_add, Nat.pow_one] at hmax hfits
    rw [xpermsRetry, if_neg (by omega), xpermsAttempt_eq (by omega), if_pos hfits]
  | succ k ih =>
    obtain ⟨fuel, rfl⟩ : ∃ m, fuel = m + 1 := ⟨fuel - 1, by omega⟩
    have hpow : size * 2 ^ (k + 1 + 1) = size * 2 * 2 ^ (k + 1) := by rw [Nat.pow_succ']; ring
    rw [hpow] at hmax hfits
    have hdouble : size * 2 < 2 ^ 64 := lt_of_le_of_lt (Nat.le_mul_of_pos_right _ (Nat.two_pow_pos _)) hmax
    rw [xpermsRetry, if_neg (by omega), xpermsAttempt_eq (by omega)]
    by_cases hnow : (xpermsText xperms).length < size * 2
    · rw [if_pos hnow]
    · rw [if_neg hnow]
      exact ih (by omega) (by omega) hmax hfits

/-- The kinds of extended permissions that are printed. -/
def AvtabExtendedPerms.IsPrinted (xperms : AvtabExtendedPerms) : Prop :=
  xperms.specified = avtabXpermsIoctlfunction ∨ xperms.specified = avtabXpermsIoctldriver ∨
    xperms.specified = avtabXpermsNlmsg

instance (xperms : AvtabExtendedPerms) : Decidable xperms.IsPrinted :=
  inferInstanceAs (Decidable (_ ∨ _ ∨ _))

private theorem sepolExtendedPermsToString_eq (h : xperms.IsPrinted) :
    sepolExtendedPermsToString xperms = some (xpermsText xperms) := by
  rw [sepolExtendedPermsToString, if_neg]
  · have hlt := length_xpermsText_lt xperms
    exact xpermsRetry_eq (k := 4) (by decide) (by decide) (by decide) hlt
  · rintro ⟨h1, h2, h3⟩
    rcases h with h | h | h
    · exact h1 h
    · exact h2 h
    · exact h3 h

/-! ### Reading the text back -/

def readHexDigit (c : Char) : Option Nat := (List.range 16).find? fun d => Nat.digitChar d = c

/-- A hexadecimal number behind `0x`. -/
def readHex : CString → Option Nat
  | '0' :: 'x' :: digits => digits.foldlM (fun v c => (readHexDigit c).map fun d => 16 * v + d) 0
  | _ => none

/-- A number, or two of them with a dash between them. -/
def readXpermsRange (word : CString) : Option (Nat × Nat) :=
  match word.splitOn '-' with
  | [v] => (readHex v).map fun v => (v, v)
  | [low, high] => (readHex low).bind fun low => (readHex high).map fun high => (low, high)
  | _ => none

/-- The kind, and the ranges between the braces. -/
def readXperms (text : CString) : Option (CString × List (Nat × Nat)) :=
  match text.splitOn ' ' with
  | kind :: brace :: words =>
    if brace = ['{'] ∧ words.getLast? = some ['}'] then
      (words.dropLast.mapM readXpermsRange).map fun ranges => (kind, ranges)
    else none
  | _ => none

private theorem readHexDigit_digitChar : ∀ d < 16, readHexDigit (Nat.digitChar d) = some d := by decide

private theorem digitChar_ne_separator : ∀ d < 16, Nat.digitChar d ≠ ' ' ∧ Nat.digitChar d ≠ '-' := by decide

private theorem readHexDigits_toDigits (n : Nat) :
    (Nat.toDigits 16 n).foldlM (fun v c => (readHexDigit c).map fun d => 16 * v + d) 0 = some n := by
  induction n using Nat.strongRecOn with
  | _ n ih =>
    rw [Nat.toDigits_eq_if (by decide)]
    by_cases hlt : n < 16
    · rw [if_pos hlt]
      simp [readHexDigit_digitChar n hlt]
    · rw [if_neg hlt, List.foldlM_append, ih (n / 16) (by omega)]
      have hdigit := readHexDigit_digitChar (n % 16) (Nat.mod_lt _ (by decide))
      simp only [Option.bind_eq_bind, Option.bind_some, List.foldlM_cons, List.foldlM_nil, hdigit, Option.map_some]
      exact congrArg some (by omega)

private theorem not_separator_of_mem_toDigits (n : Nat) : ∀ c ∈ Nat.toDigits 16 n, c ≠ ' ' ∧ c ≠ '-' := by
  induction n using Nat.strongRecOn with
  | _ n ih =>
    rw [Nat.toDigits_eq_if (by decide)]
    by_cases hlt : n < 16
    · rw [if_pos hlt]
      intro c hc
      rw [List.mem_singleton.1 hc]
      exact digitChar_ne_separator n hlt
    · rw [if_neg hlt]
      intro c hc
      rcases List.mem_append.1 hc with hc | hc
      · exact ih (n / 16) (by omega) c hc
      · rw [List.mem_singleton.1 hc]
        exact digitChar_ne_separator (n % 16) (Nat.mod_lt _ (by decide))

private theorem readHex_hexText (v : BitVec 16) : readHex (hexText v) = some v.toNat := readHexDigits_toDigits v.toNat

private theorem not_separator_of_mem_hexText (v : BitVec 16) : ∀ c ∈ hexText v, c ≠ ' ' ∧ c ≠ '-' := by
  intro c hc
  rcases List.mem_cons.1 hc with rfl | hc
  · decide
  · rcases List.mem_cons.1 hc with rfl | hc
    · decide
    · exact not_separator_of_mem_toDigits v.toNat c hc

private theorem dash_not_mem_hexText (v : BitVec 16) : '-' ∉ hexText v := fun hmem =>
  (not_separator_of_mem_hexText v _ hmem).2 rfl

private theorem readXpermsRange_single (v : BitVec 16) : readXpermsRange (hexText v) = some (v.toNat, v.toNat) := by
  rw [readXpermsRange, Delimited.splitOn_free (dash_not_mem_hexText v)]
  simp [readHex_hexText]

private theorem readXpermsRange_pair (v w : BitVec 16) :
    readXpermsRange (hexText v ++ '-' :: hexText w) = some (v.toNat, w.toNat) := by
  rw [readXpermsRange, Delimited.splitOn_pair (dash_not_mem_hexText v) (dash_not_mem_hexText w)]
  simp [readHex_hexText]

/-! ### The commands of a rule -/

/-- The range of commands that a run of bits stands for. -/
def AvtabExtendedPerms.range (xperms : AvtabExtendedPerms) (r : Nat × Nat) : Nat × Nat :=
  if xperms.specified = avtabXpermsIoctldriver then (r.1 * 256, r.2 * 256 + 255)
  else (xperms.driver.toNat * 256 + r.1, xperms.driver.toNat * 256 + r.2)

/-- A run of set bits with no set bit next to it. -/
structure AvtabExtendedPerms.MaximalBits (xperms : AvtabExtendedPerms) (r : Nat × Nat) : Prop where
  le : r.1 ≤ r.2
  bits : ∀ j, r.1 ≤ j → j ≤ r.2 → xperms.HasBit j
  before : ∀ j, j + 1 = r.1 → ¬ xperms.HasBit j
  after : ¬ xperms.HasBit (r.2 + 1)

private theorem nextBitInRange_iff {i : Nat} : nextBitInRange i xperms.perms = true ↔ xperms.HasBit (i + 1) := by
  rw [nextBitInRange, Bool.and_eq_true, decide_eq_true_iff]
  rfl

private theorem maximal_xpermsBits_iff {r : Nat × Nat} :
    Maximal (fun i => nextBitInRange i xperms.perms) (xpermsBits xperms) r ↔ xperms.MaximalBits r := by
  constructor
  · intro h
    refine ⟨h.le, fun j h1 h2 => mem_xpermsBits.1 (h.mem j h1 h2), fun j hj hbit => ?_, fun hbit => ?_⟩
    · have hfirst := h.first j (mem_xpermsBits.2 hbit) hj
      have hnext : nextBitInRange j xperms.perms = true :=
        nextBitInRange_iff.2 (hj ▸ mem_xpermsBits.1 (h.mem r.1 (le_refl _) h.le))
      rw [hnext] at hfirst
      cases hfirst
    · have hlast := h.last
      rw [nextBitInRange_iff.2 hbit] at hlast
      cases hlast
  · intro h
    refine ⟨h.le, fun j h1 h2 => mem_xpermsBits.2 (h.bits j h1 h2), fun j h1 h2 => ?_, fun j hj hj' => ?_, ?_⟩
    · exact nextBitInRange_iff.2 (h.bits (j + 1) (by omega) h2)
    · exact absurd (mem_xpermsBits.1 hj) (h.before j hj')
    · exact eq_false_of_ne_true fun hnext => h.after (nextBitInRange_iff.1 hnext)

private theorem toNat_shiftLeft_or {d b : Nat} (hd : d < 256) (hb : b < 256) :
    (BitVec.ofNat 16 d <<< 8 ||| BitVec.ofNat 16 b).toNat = d * 256 + b := by
  have hdisjoint := Nat.shiftLeft_add_eq_or_of_lt (show b < 2 ^ 8 from hb) d
  rw [BitVec.toNat_or, BitVec.toNat_shiftLeft, BitVec.toNat_ofNat, BitVec.toNat_ofNat,
    Nat.mod_eq_of_lt (by omega : d < 2 ^ 16),
    Nat.mod_eq_of_lt (by omega : b < 2 ^ 16), Nat.shiftLeft_eq, Nat.mod_eq_of_lt (by omega : d * 2 ^ 8 < 2 ^ 16)]
  rw [Nat.shiftLeft_eq] at hdisjoint
  omega

private theorem toNat_shiftLeft_eight {d : Nat} (hd : d < 256) : (BitVec.ofNat 16 d <<< 8).toNat = d * 256 := by
  have h := toNat_shiftLeft_or hd (show 0 < 256 by decide)
  simpa using h

private theorem toNat_driver_or (d : BitVec 8) {b : Nat} (hb : b < 256) :
    (d.setWidth 16 <<< 8 ||| BitVec.ofNat 16 b).toNat = d.toNat * 256 + b := by
  have hd : d.setWidth 16 = BitVec.ofNat 16 d.toNat := by
    apply BitVec.eq_of_toNat_eq
    rw [BitVec.toNat_setWidth, BitVec.toNat_ofNat]
  rw [hd]
  exact toNat_shiftLeft_or d.isLt hb

/-- The text of a run is a word that is read as its range. -/
private theorem exists_word (h : xperms.IsPrinted) {r : Nat × Nat} (hr : xperms.MaximalBits r) :
    ∃ word, xpermsRunText xperms r = word ++ [' '] ∧ ' ' ∉ word ∧ readXpermsRange word = some (xperms.range r) := by
  have hhigh : r.2 < 256 := (hr.bits r.2 hr.le (le_refl _)).1
  have hlow : r.1 < 256 := lt_of_le_of_lt hr.le hhigh
  have hsingle : ∀ v : BitVec 16, ' ' ∉ hexText v := fun v hmem => (not_separator_of_mem_hexText v _ hmem).1 rfl
  have hpair : ∀ v w : BitVec 16, ' ' ∉ hexText v ++ '-' :: hexText w := by
    intro v w hmem
    rcases List.mem_append.1 hmem with hmem | hmem
    · exact hsingle v hmem
    · rcases List.mem_cons.1 hmem with heq | hmem
      · exact absurd heq (by decide)
      · exact hsingle w hmem
  by_cases hdriver : xperms.specified = avtabXpermsIoctldriver
  · -- whole drivers
    have hkind : ¬ (xperms.specified = avtabXpermsIoctlfunction ∨ xperms.specified = avtabXpermsNlmsg) := by
      rw [hdriver]
      decide
    have hall := toNat_shiftLeft_or hhigh (show 255 < 256 by decide)
    rw [xpermsRunText, xpermsRangeText, if_neg hkind]
    by_cases hlt : r.1 < r.2
    · refine ⟨hexText (BitVec.ofNat 16 r.1 <<< 8) ++ '-' :: hexText (BitVec.ofNat 16 r.2 <<< 8 ||| 0xff), ?_,
        hpair _ _, ?_⟩
      · simp [hlt]
      · rw [readXpermsRange_pair, toNat_shiftLeft_eight hlow, AvtabExtendedPerms.range, if_pos hdriver]
        exact congrArg (fun v => some (r.1 * 256, v)) hall
    · have heq : r.1 = r.2 := by have := hr.le; omega
      refine ⟨hexText (BitVec.ofNat 16 r.2 <<< 8) ++ '-' :: hexText (BitVec.ofNat 16 r.2 <<< 8 ||| 0xff), ?_,
        hpair _ _, ?_⟩
      · simp [hlt]
      · rw [readXpermsRange_pair, toNat_shiftLeft_eight hhigh, AvtabExtendedPerms.range, if_pos hdriver, heq]
        exact congrArg (fun v => some (r.2 * 256, v)) hall
  · -- functions of one driver
    have hkind : xperms.specified = avtabXpermsIoctlfunction ∨ xperms.specified = avtabXpermsNlmsg := by
      rcases h with h | h | h
      · exact Or.inl h
      · exact absurd h hdriver
      · exact Or.inr h
    rw [xpermsRunText, xpermsRangeText, if_pos hkind]
    by_cases hlt : r.1 < r.2
    · refine ⟨hexText (xperms.driver.setWidth 16 <<< 8 ||| BitVec.ofNat 16 r.1) ++
        '-' :: hexText (xperms.driver.setWidth 16 <<< 8 ||| BitVec.ofNat 16 r.2), ?_, hpair _ _, ?_⟩
      · simp [hlt]
      · rw [readXpermsRange_pair, toNat_driver_or _ hlow, toNat_driver_or _ hhigh, AvtabExtendedPerms.range,
          if_neg hdriver]
    · have heq : r.1 = r.2 := by have := hr.le; omega
      refine ⟨hexText (xperms.driver.setWidth 16 <<< 8 ||| BitVec.ofNat 16 r.2), ?_, hsingle _, ?_⟩
      · simp [hlt]
      · rw [readXpermsRange_single, toNat_driver_or _ hhigh, AvtabExtendedPerms.range, if_neg hdriver, heq]

private theorem exists_words (h : xperms.IsPrinted) {rs : List (Nat × Nat)} (hrs : ∀ r ∈ rs, xperms.MaximalBits r) :
    ∃ words : List CString, rs.flatMap (xpermsRunText xperms) = words.flatMap (· ++ [' ']) ∧
      (∀ w ∈ words, ' ' ∉ w) ∧ words.mapM readXpermsRange = some (rs.map xperms.range) := by
  induction rs with
  | nil => exact ⟨[], rfl, by simp, rfl⟩
  | cons r rs ih =>
    obtain ⟨words, htext, hblank, hread⟩ := ih fun r hr => hrs r (List.mem_cons_of_mem _ hr)
    obtain ⟨word, htext', hblank', hread'⟩ := exists_word h (hrs r (by simp))
    refine ⟨word :: words, ?_, ?_, ?_⟩
    · rw [List.flatMap_cons, List.flatMap_cons, htext, htext']
    · intro w hw
      rcases List.mem_cons.1 hw with rfl | hw
      · exact hblank'
      · exact hblank w hw
    · rw [List.mapM_cons, hread', hread]
      rfl

private theorem blank_not_mem_xpermsKind (xperms : AvtabExtendedPerms) : ' ' ∉ xpermsKind xperms := by
  rw [xpermsKind]
  split <;> decide

private theorem readXperms_xpermsText (h : xperms.IsPrinted) :
    readXperms (xpermsText xperms) = some (xpermsKind xperms, (xpermsRuns xperms).map xperms.range) := by
  obtain ⟨words, htext, hblank, hread⟩ := exists_words h
    (show ∀ r ∈ xpermsRuns xperms, xperms.MaximalBits r from fun r hr =>
      maximal_xpermsBits_iff.1 (MaximalRuns.maximal_of_mem_runs (xpermsBits_linked xperms) hr))
  have hsplit : (xpermsText xperms).splitOn ' ' = xpermsKind xperms :: ['{'] :: (words ++ [['}']]) := by
    have hall : ∀ w ∈ xpermsKind xperms :: ['{'] :: words, ' ' ∉ w := by
      intro w hw
      rcases List.mem_cons.1 hw with rfl | hw
      · exact blank_not_mem_xpermsKind xperms
      · rcases List.mem_cons.1 hw with rfl | hw
        · decide
        · exact hblank w hw
    have hwords := Delimited.splitOn_flatMap hall (show ' ' ∉ ['}'] by decide)
    rw [xpermsText, htext]
    simpa using hwords
  rw [readXperms, hsplit]
  simp [hread]

/-- The ranges hold the commands of the rule. -/
private theorem exists_range_iff (v : Nat) :
    (∃ iv ∈ (xpermsRuns xperms).map xperms.range, iv.1 ≤ v ∧ v ≤ iv.2) ↔ xperms.Has v := by
  have hruns : ∀ j, (∃ r ∈ xpermsRuns xperms, r.1 ≤ j ∧ j ≤ r.2) ↔ xperms.HasBit j := fun j =>
    (MaximalRuns.exists_mem_runs_iff (xpermsBits_linked xperms)).trans mem_xpermsBits
  have hhigh : ∀ r ∈ xpermsRuns xperms, r.2 < 256 := by
    intro r hr
    have hmax := maximal_xpermsBits_iff.1 (MaximalRuns.maximal_of_mem_runs (xpermsBits_linked xperms) hr)
    exact (hmax.bits r.2 hmax.le (le_refl _)).1
  rw [AvtabExtendedPerms.Has]
  by_cases hdriver : xperms.specified = avtabXpermsIoctldriver
  · rw [if_pos hdriver, ← hruns]
    constructor
    · rintro ⟨iv, hiv, h1, h2⟩
      obtain ⟨r, hr, rfl⟩ := List.mem_map.1 hiv
      rw [AvtabExtendedPerms.range, if_pos hdriver] at h1 h2
      exact ⟨r, hr, by dsimp only at h1; omega, by dsimp only at h2; omega⟩
    · rintro ⟨r, hr, h1, h2⟩
      refine ⟨_, List.mem_map_of_mem hr, ?_⟩
      rw [AvtabExtendedPerms.range, if_pos hdriver]
      dsimp only
      omega
  · rw [if_neg hdriver, ← hruns]
    constructor
    · rintro ⟨iv, hiv, h1, h2⟩
      obtain ⟨r, hr, rfl⟩ := List.mem_map.1 hiv
      rw [AvtabExtendedPerms.range, if_neg hdriver] at h1 h2
      have hlt := hhigh r hr
      dsimp only at h1 h2
      exact ⟨by omega, r, hr, by omega, by omega⟩
    · rintro ⟨hdiv, r, hr, h1, h2⟩
      refine ⟨_, List.mem_map_of_mem hr, ?_⟩
      rw [AvtabExtendedPerms.range, if_neg hdriver]
      dsimp only
      omega

/-- The printed text lists the maximal runs of set bits in ascending order, one range of commands for each, and the
ranges read back hold the commands of the rule. -/
theorem sepolExtendedPermsToString_lossless (h : xperms.IsPrinted) :
    ∃ (text : CString) (bits : List (Nat × Nat)), sepolExtendedPermsToString xperms = some text ∧
      (∀ r, r ∈ bits ↔ xperms.MaximalBits r) ∧ bits.Pairwise (fun r r' => r.2 < r'.1) ∧
      readXperms text = some (xpermsKind xperms, bits.map xperms.range) ∧
      ∀ v, (∃ iv ∈ bits.map xperms.range, iv.1 ≤ v ∧ v ≤ iv.2) ↔ xperms.Has v := by
  refine ⟨xpermsText xperms, xpermsRuns xperms, sepolExtendedPermsToString_eq h, fun r => ?_,
    MaximalRuns.runs_sorted (xpermsBits_linked xperms), readXperms_xpermsText h, exists_range_iff⟩
  exact (MaximalRuns.mem_runs_iff (xpermsBits_linked xperms)).trans maximal_xpermsBits_iff

theorem sepolExtendedPermsToString_lossless_example :
    ∃ (text : CString) (bits : List (Nat × Nat)),
      sepolExtendedPermsToString ⟨avtabXpermsIoctldriver, 0, fun _ => 0x80000007⟩ = some text ∧
      (∀ r, r ∈ bits ↔ AvtabExtendedPerms.MaximalBits ⟨avtabXpermsIoctldriver, 0, fun _ => 0x80000007⟩ r) ∧
      bits.Pairwise (fun r r' => r.2 < r'.1) ∧
      readXperms text = some (['i', 'o', 'c', 't', 'l'],
        bits.map (AvtabExtendedPerms.range ⟨avtabXpermsIoctldriver, 0, fun _ => 0x80000007⟩)) ∧
      ∀ v, (∃ iv ∈ bits.map (AvtabExtendedPerms.range ⟨avtabXpermsIoctldriver, 0, fun _ => 0x80000007⟩),
        iv.1 ≤ v ∧ v ≤ iv.2) ↔ AvtabExtendedPerms.Has ⟨avtabXpermsIoctldriver, 0, fun _ => 0x80000007⟩ v :=
  sepolExtendedPermsToString_lossless (by decide)

end Sepol
