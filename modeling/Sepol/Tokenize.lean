import Sepol.Policydb

/-!
# Tokens of a line

`tokenize` takes tokens off the front of a line with `tokenize_str` and gives what is left to its last parameter.  A
delimiter other than white space separates the fields of the line; when the last character of the line is the
delimiter and there is no parameter left for the empty field behind it, it stays in the token.
-/

namespace Sepol

/-- `isspace` in the C locale. -/
def isspace (c : Char) : Bool :=
  c = ' ' || c = '\t' || c = '\n' || c = '\r' || c.toNat = 0x0b || c.toNat = 0x0c

/-- The first loop of `tokenize_str`: the characters up to `*ptr` when it ends, and those from there on. -/
def tokenizeScan (delim : Char) : CString → CString × CString
  | [] => ([], [])
  | c :: ptr =>
    if isspace delim && isspace c then ([c], ptr)
    else if !isspace delim && c = delim then ([c], ptr)
    else (c :: (tokenizeScan delim ptr).1, (tokenizeScan delim ptr).2)

/-- `tokenize_str`: the token and the new value of `*ptr`. -/
def tokenizeStr (delim : Char) (ptr : CString) : CString × CString :=
  let (scanned, ptr) := tokenizeScan delim ptr
  let len := if ptr ≠ [] then scanned.length - 1 else scanned.length
  (scanned.take len, ptr.dropWhile fun c => isspace delim && isspace c)

/-- The loop of `tokenize` for the parameters that are left. -/
def tokenizeArgs (delim : Char) : Nat → CString → List CString
  | 0, _ => []
  | _ + 1, [] => []
  | 1, c :: buf => [c :: buf]
  | args + 2, c :: buf =>
    (tokenizeStr delim (c :: buf)).1 :: tokenizeArgs delim (args + 1) (tokenizeStr delim (c :: buf)).2

/-- `tokenize`: the parameters that are set, as many as it returns. -/
def tokenize (lineBuf : CString) (delim : Char) (numArgs : Nat) : List CString := tokenizeArgs delim numArgs lineBuf

variable {delim : Char} {line ptr : CString} {tokens : List CString}

/-! ### One token -/

private theorem tokenizeScan_of_not_mem (hd : isspace delim = false) (h : delim ∉ ptr) :
    tokenizeScan delim ptr = (ptr, []) := by
  induction ptr with
  | nil => rfl
  | cons c ptr ih =>
    rw [List.mem_cons, not_or] at h
    rw [tokenizeScan, ih h.2]
    simp [hd, Ne.symm h.1]

private theorem tokenizeScan_append (hd : isspace delim = false) (h : delim ∉ ptr) (rest : CString) :
    tokenizeScan delim (ptr ++ delim :: rest) = (ptr ++ [delim], rest) := by
  induction ptr with
  | nil => simp [tokenizeScan, hd]
  | cons c ptr ih =>
    rw [List.mem_cons, not_or] at h
    rw [List.cons_append, tokenizeScan, ih h.2]
    simp [hd, Ne.symm h.1]

private theorem tokenizeStr_of_not_mem (hd : isspace delim = false) (h : delim ∉ ptr) :
    tokenizeStr delim ptr = (ptr, []) := by
  rw [tokenizeStr, tokenizeScan_of_not_mem hd h]
  simp

private theorem tokenizeStr_append (hd : isspace delim = false) (h : delim ∉ ptr) {rest : CString}
    (hrest : rest ≠ []) : tokenizeStr delim (ptr ++ delim :: rest) = (ptr, rest) := by
  rw [tokenizeStr, tokenizeScan_append hd h]
  have hdrop : (rest.dropWhile fun c => isspace delim && isspace c) = rest := by
    cases rest with
    | nil => rfl
    | cons c rest => rw [List.dropWhile_cons_of_neg (by simp [hd])]
  simp [hrest, hdrop]

private theorem tokenizeStr_last (hd : isspace delim = false) (h : delim ∉ ptr) :
    tokenizeStr delim (ptr ++ [delim]) = (ptr ++ [delim], []) := by
  rw [tokenizeStr, tokenizeScan_append hd h]
  simp

/-! ### The tokens of a line -/

/-- The tokens but the last are free of the delimiter, all of them joined by it are the line, and there is one for
each field that is requested, as far as the line has so many. -/
structure SplitsExactly (delim : Char) (line : CString) (numArgs : Nat) (tokens : List CString) : Prop where
  free : ∀ t ∈ tokens.dropLast, delim ∉ t
  joined : [delim].intercalate tokens = line
  length : tokens.length = min numArgs (1 + line.count delim)

/-- The line does not end with the delimiter, or the field behind the last one is not requested. -/
def LastFieldKept (delim : Char) (line : CString) (numArgs : Nat) : Prop :=
  line.getLast? ≠ some delim ∨ numArgs ≤ line.count delim

private theorem tokenizeArgs_succ_succ (hline : line ≠ []) (delim : Char) (args : Nat) :
    tokenizeArgs delim (args + 2) line =
      (tokenizeStr delim line).1 :: tokenizeArgs delim (args + 1) (tokenizeStr delim line).2 := by
  obtain ⟨c, buf, rfl⟩ := List.exists_cons_of_ne_nil hline
  rfl

private theorem tokenizeArgs_nil (delim : Char) (args : Nat) : tokenizeArgs delim args [] = [] := by
  cases args <;> rfl

private theorem tokenizeArgs_one (hline : line ≠ []) (delim : Char) : tokenizeArgs delim 1 line = [line] := by
  obtain ⟨c, buf, rfl⟩ := List.exists_cons_of_ne_nil hline
  rfl

private theorem tokenizeArgs_ne_nil (hline : line ≠ []) (delim : Char) (args : Nat) :
    tokenizeArgs delim (args + 1) line ≠ [] := by
  cases args with
  | zero => simp [tokenizeArgs_one hline]
  | succ args => simp [tokenizeArgs_succ_succ hline]

private theorem count_pos_of_getLast? (h : line.getLast? = some delim) : 0 < line.count delim :=
  List.count_pos_iff.2 (List.mem_of_getLast? h)

/-- The first field and the tokens of the rest. -/
private theorem splitsExactly_cons {rest : CString} {n : Nat} (h : delim ∉ ptr) (hne : tokens ≠ []) :
    SplitsExactly delim (ptr ++ delim :: rest) (n + 1) (ptr :: tokens) ↔ SplitsExactly delim rest n tokens := by
  have hdrop : (ptr :: tokens).dropLast = ptr :: tokens.dropLast := List.dropLast_cons_of_ne_nil hne
  have hjoin : [delim].intercalate (ptr :: tokens) = ptr ++ delim :: [delim].intercalate tokens := by
    obtain ⟨t, tokens, rfl⟩ := List.exists_cons_of_ne_nil hne
    simp [List.intercalate]
  have hcount : (ptr ++ delim :: rest).count delim = rest.count delim + 1 := by
    rw [List.count_append, List.count_eq_zero.2 h, List.count_cons_self, Nat.zero_add]
  constructor
  · intro hsplits
    refine ⟨fun t ht => hsplits.free t (hdrop ▸ List.mem_cons_of_mem _ ht), ?_, ?_⟩
    · have hjoined := hsplits.joined
      rw [hjoin] at hjoined
      exact (List.cons.inj (List.append_cancel_left hjoined)).2
    · have hlength := hsplits.length
      rw [List.length_cons, hcount] at hlength
      omega
  · intro hsplits
    refine ⟨fun t ht => ?_, ?_, ?_⟩
    · rw [hdrop] at ht
      rcases List.mem_cons.1 ht with rfl | ht
      · exact h
      · exact hsplits.free t ht
    · rw [hjoin, hsplits.joined]
    · rw [List.length_cons, hcount, hsplits.length]
      omega

/-- The tokens of a line that is not empty, for at least one field. -/
private theorem tokenizeArgs_splits_iff (hd : isspace delim = false) (hline : line ≠ []) (args : Nat) :
    SplitsExactly delim line (args + 1) (tokenizeArgs delim (args + 1) line) ↔
      LastFieldKept delim line (args + 1) := by
  induction args generalizing line with
  | zero =>
    -- the only parameter takes all of the line
    rw [tokenizeArgs_one hline]
    have hkept : LastFieldKept delim line (0 + 1) := by
      by_cases hlast : line.getLast? = some delim
      · exact Or.inr (count_pos_of_getLast? hlast)
      · exact Or.inl hlast
    refine iff_of_true ⟨by simp, by simp, ?_⟩ hkept
    rw [List.length_singleton]
    omega
  | succ args ih =>
    rw [tokenizeArgs_succ_succ hline]
    by_cases hmem : delim ∈ line
    · obtain ⟨field, rest, rfl, hfield⟩ := List.eq_append_cons_of_mem hmem
      by_cases hrest : rest = []
      · -- the delimiter is the last character: one token with the delimiter in it
        subst hrest
        rw [tokenizeStr_last hd hfield, tokenizeArgs_nil]
        have hcount : (field ++ [delim]).count delim = 1 := by
          rw [List.count_append, List.count_eq_zero.2 hfield, List.count_singleton_self]
        refine iff_of_false (fun hsplits => ?_) (fun hkept => ?_)
        · have hlength := hsplits.length
          rw [hcount, List.length_singleton] at hlength
          omega
        · rcases hkept with hlast | hle
          · exact hlast (List.getLast?_concat ..)
          · rw [hcount] at hle
            omega
      · rw [tokenizeStr_append hd hfield hrest]
        refine (splitsExactly_cons hfield (tokenizeArgs_ne_nil hrest delim args)).trans ((ih hrest).trans ?_)
        have hcount : (field ++ delim :: rest).count delim = rest.count delim + 1 := by
          rw [List.count_append, List.count_eq_zero.2 hfield, List.count_cons_self, Nat.zero_add]
        have hlast : (field ++ delim :: rest).getLast? = rest.getLast? := by
          obtain ⟨c, rest, rfl⟩ := List.exists_cons_of_ne_nil hrest
          rw [List.getLast?_append_cons, List.getLast?_cons_cons]
        rw [LastFieldKept, LastFieldKept, hcount, hlast, Nat.succ_le_succ_iff]
    · rw [tokenizeStr_of_not_mem hd hmem, tokenizeArgs_nil]
      have hkept : LastFieldKept delim line (args + 1 + 1) := Or.inl fun hlast => hmem (List.mem_of_getLast? hlast)
      refine iff_of_true ⟨by simp, by simp, ?_⟩ hkept
      rw [List.length_singleton, List.count_eq_zero.2 hmem]
      omega

/-- When a line is split exactly at the delimiter. -/
theorem tokenize_splits_iff (hd : isspace delim = false) (line : CString) (numArgs : Nat) :
    SplitsExactly delim line numArgs (tokenize line delim numArgs) ↔
      line = [] ∧ numArgs = 0 ∨ line ≠ [] ∧ numArgs ≠ 0 ∧ LastFieldKept delim line numArgs := by
  rw [tokenize]
  cases numArgs with
  | zero =>
    constructor
    · intro hsplits
      exact Or.inl ⟨hsplits.joined.symm, rfl⟩
    · rintro (⟨rfl, -⟩ | ⟨-, hzero, -⟩)
      · exact ⟨by simp [tokenizeArgs], by simp [tokenizeArgs], by simp [tokenizeArgs]⟩
      · exact absurd rfl hzero
  | succ args =>
    by_cases hline : line = []
    · subst hline
      rw [tokenizeArgs_nil]
      refine iff_of_false (fun hsplits => ?_) (fun hcond => ?_)
      · have hlength := hsplits.length
        simp at hlength
      · rcases hcond with ⟨-, hzero⟩ | ⟨hne, -⟩
        · cases hzero
        · exact hne rfl
    · rw [tokenizeArgs_splits_iff hd hline]
      simp [hline]

theorem tokenize_splits_iff_colon :
    SplitsExactly ':' ['s', '0', ':', 'c', '1'] 2 (tokenize ['s', '0', ':', 'c', '1'] ':' 2) ↔
      ['s', '0', ':', 'c', '1'] = ([] : CString) ∧ 2 = 0 ∨
        ['s', '0', ':', 'c', '1'] ≠ ([] : CString) ∧ 2 ≠ 0 ∧ LastFieldKept ':' ['s', '0', ':', 'c', '1'] 2 :=
  tokenize_splits_iff (by decide) _ _

/-- The line `s0:` with two fields: the delimiter stays in the only token. -/
theorem not_splitsExactly_colon_last :
    tokenize ['s', '0', ':'] ':' 2 = [['s', '0', ':']] ∧
      ¬ SplitsExactly ':' ['s', '0', ':'] 2 (tokenize ['s', '0', ':'] ':' 2) := by
  have htokens : tokenize ['s', '0', ':'] ':' 2 = [['s', '0', ':']] := by decide
  refine ⟨htokens, fun hsplits => ?_⟩
  have hlength := hsplits.length
  rw [htokens] at hlength
  exact absurd hlength (by decide)

end Sepol
