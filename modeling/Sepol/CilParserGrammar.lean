import Sepol.CilParser

/-!
# The grammar of the tokens of a CIL text

The tokens are read as events: parentheses, words, and the starts and ends of line marks.  A text whose line marks are
well formed denotes exactly one sequence of events, in which parentheses and line marks are to balance apart.
-/

namespace Sepol

/-- What the tokens of a text say. -/
inductive ParseEvent where
  | opening
  | closing
  | word (value : CString)
  | start
  | stop
  deriving DecidableEq

/-- The tokens of one event, or of a newline or comment, and those after them. -/
inductive CilRound : List CilToken → Option ParseEvent → List CilToken → Prop where
  | newline {tok : CilToken} {rest : List CilToken} (htok : tok.type = .newline) : CilRound (tok :: rest) none rest
  | comment {tok newline : CilToken} {tokens skipped rest : List CilToken} (htok : tok.type = .comment)
      (hskipped : ∀ t ∈ skipped, t.type ≠ .newline ∧ t.type ≠ .endOfFile) (hnewline : newline.type = .newline)
      (htokens : tokens = skipped ++ newline :: rest) : CilRound (tok :: tokens) none rest
  | opening {tok : CilToken} {rest : List CilToken} (htok : tok.type = .oparen) :
      CilRound (tok :: rest) (some .opening) rest
  | closing {tok : CilToken} {rest : List CilToken} (htok : tok.type = .cparen) :
      CilRound (tok :: rest) (some .closing) rest
  | word {tok : CilToken} {rest : List CilToken} (htok : tok.type = .symbol ∨ tok.type = .qstring) :
      CilRound (tok :: rest) (some (.word tok.text)) rest
  | start {mark kind line file newline : CilToken} {rest : List CilToken} (hmark : mark.type = .hllLinemark)
      (hkind : kind.type = .symbol) (hvalue : kind.value = cilKeySrcHllLms ∨ kind.value = cilKeySrcHllLmx)
      (hline : line.type = .symbol) (hfile : file.type = .symbol ∨ file.type = .qstring)
      (hnewline : newline.type = .newline) :
      CilRound (mark :: kind :: line :: file :: newline :: rest) (some .start) rest
  | stop {mark kind newline : CilToken} {rest : List CilToken} (hmark : mark.type = .hllLinemark)
      (hkind : kind.type = .symbol) (hvalue : kind.value = cilKeySrcHllLme) (hnewline : newline.type = .newline) :
      CilRound (mark :: kind :: newline :: rest) (some .stop) rest

/-- Nothing is left: the end of the file, or a comment that reaches it. -/
inductive CilEndsFile : List CilToken → Prop where
  | nil : CilEndsFile []
  | endOfFile {tok : CilToken} {rest : List CilToken} (htok : tok.type = .endOfFile) : CilEndsFile (tok :: rest)
  | comment {tok : CilToken} {tokens skipped rest : List CilToken} (htok : tok.type = .comment)
      (hskipped : ∀ t ∈ skipped, t.type ≠ .newline ∧ t.type ≠ .endOfFile)
      (hrest : ∀ t ∈ rest.head?, t.type = .endOfFile) (htokens : tokens = skipped ++ rest) :
      CilEndsFile (tok :: tokens)

/-- The events that the tokens of a text denote.  A text with a line mark that is not well formed denotes none. -/
inductive CilDenotes : List CilToken → List ParseEvent → Prop where
  | finish {tokens : List CilToken} (hend : CilEndsFile tokens) : CilDenotes tokens []
  | round {tokens rest : List CilToken} {e : Option ParseEvent} {es : List ParseEvent}
      (hround : CilRound tokens e rest) (hrest : CilDenotes rest es) : CilDenotes tokens (e.toList ++ es)

/-- How many parentheses and line marks are open. -/
structure OpenCounts where
  parens : Nat
  marks : Nat
  deriving DecidableEq

/-- The counts after an event, if the event may come there: at most 4096 of a kind are open at once, an end has a
start of its kind before it, and a word stands inside parentheses. -/
def OpenCounts.after (c : OpenCounts) : ParseEvent → Option OpenCounts
  | .opening => if c.parens < 4096 then some { c with parens := c.parens + 1 } else none
  | .closing => if 0 < c.parens then some { c with parens := c.parens - 1 } else none
  | .word _ => if 0 < c.parens then some c else none
  | .start => if c.marks < 4096 then some { c with marks := c.marks + 1 } else none
  | .stop => if 0 < c.marks then some { c with marks := c.marks - 1 } else none

/-- The events balance: from `c` they lead to nothing open. -/
def Balanced (c : OpenCounts) (es : List ParseEvent) : Prop := es.foldlM OpenCounts.after c = some ⟨0, 0⟩

instance (c : OpenCounts) (es : List ParseEvent) : Decidable (Balanced c es) :=
  inferInstanceAs (Decidable (_ = _))

/-! ### The rounds of the loop and the grammar of tokens -/

theorem skipComment_append {skipped rest : List CilToken}
    (hskipped : ∀ t ∈ skipped, t.type ≠ .newline ∧ t.type ≠ .endOfFile) :
    skipComment (skipped ++ rest) = skipComment rest := by
  induction skipped with
  | nil => simp
  | cons t skipped ih =>
    have ht := hskipped t (by simp)
    have hrest := ih fun t' ht' => hskipped t' (by simp [ht'])
    simp [skipComment, ht.1, ht.2, hrest]

private theorem skipComment_split (tokens : List CilToken) :
    ∃ skipped rest, tokens = skipped ++ rest ∧ (∀ t ∈ skipped, t.type ≠ .newline ∧ t.type ≠ .endOfFile) ∧
      (rest = [] ∨ ∃ tok after, rest = tok :: after ∧ (tok.type = .newline ∨ tok.type = .endOfFile)) := by
  induction tokens with
  | nil => exact ⟨[], [], rfl, by simp, .inl rfl⟩
  | cons tok tokens ih =>
    by_cases htok : tok.type = .newline ∨ tok.type = .endOfFile
    · exact ⟨[], tok :: tokens, rfl, by simp, .inr ⟨tok, tokens, rfl, htok⟩⟩
    · obtain ⟨skipped, rest, htokens, hskipped, hrest⟩ := ih
      rw [not_or] at htok
      refine ⟨tok :: skipped, rest, by simp [htokens], ?_, hrest⟩
      intro t ht
      rcases List.mem_cons.mp ht with rfl | ht
      · exact htok
      · exact hskipped t ht

/-- A comment ends a line, or it reaches the end of the file. -/
theorem skipComment_cases {tok : CilToken} (htok : tok.type = .comment) (tokens : List CilToken) :
    ((skipComment tokens).1.type = .newline ∧ CilRound (tok :: tokens) none (skipComment tokens).2 ∧
      (skipComment tokens).2.length < tokens.length) ∨
      ((skipComment tokens).1.type = .endOfFile ∧ CilEndsFile (tok :: tokens)) := by
  obtain ⟨skipped, rest, htokens, hskipped, hrest⟩ := skipComment_split tokens
  have hskip : skipComment tokens = skipComment rest := by rw [htokens, skipComment_append hskipped]
  rcases hrest with rfl | ⟨last, after, rfl, hlast | hlast⟩
  · right
    refine ⟨by simp [hskip, skipComment, cilLexerNext], .comment htok hskipped ?_ htokens⟩
    simp
  · left
    have hlastSkip : skipComment (last :: after) = (last, after) := by simp [skipComment, hlast]
    rw [hskip, hlastSkip]
    refine ⟨hlast, .comment htok hskipped hlast htokens, ?_⟩
    simp only [htokens, List.length_append, List.length_cons]
    omega
  · right
    have hlastSkip : skipComment (last :: after) = (last, after) := by simp [skipComment, hlast]
    rw [hskip, hlastSkip]
    refine ⟨hlast, .comment htok hskipped ?_ htokens⟩
    simpa using hlast

private theorem comment_split_unique {skipped₁ rest₁ skipped₂ rest₂ : List CilToken} {newline₁ newline₂ : CilToken}
    (hskipped₁ : ∀ t ∈ skipped₁, t.type ≠ .newline ∧ t.type ≠ .endOfFile) (hnewline₁ : newline₁.type = .newline)
    (hskipped₂ : ∀ t ∈ skipped₂, t.type ≠ .newline ∧ t.type ≠ .endOfFile) (hnewline₂ : newline₂.type = .newline)
    (h : skipped₁ ++ newline₁ :: rest₁ = skipped₂ ++ newline₂ :: rest₂) : rest₁ = rest₂ := by
  have h₁ : skipComment (skipped₁ ++ newline₁ :: rest₁) = (newline₁, rest₁) := by
    rw [skipComment_append hskipped₁]
    simp [skipComment, hnewline₁]
  have h₂ : skipComment (skipped₂ ++ newline₂ :: rest₂) = (newline₂, rest₂) := by
    rw [skipComment_append hskipped₂]
    simp [skipComment, hnewline₂]
  rw [h, h₂] at h₁
  exact (congrArg Prod.snd h₁).symm

theorem CilRound.unique {tokens rest₁ rest₂ : List CilToken} {e₁ e₂ : Option ParseEvent}
    (h₁ : CilRound tokens e₁ rest₁) (h₂ : CilRound tokens e₂ rest₂) : e₁ = e₂ ∧ rest₁ = rest₂ := by
  cases h₁ with
  | newline htok => cases h₂ <;> simp_all
  | comment htok hskipped hnewline htokens =>
    cases h₂ with
    | comment htok' hskipped' hnewline' htokens' =>
      exact ⟨rfl, comment_split_unique hskipped hnewline hskipped' hnewline' (htokens.symm.trans htokens')⟩
    | _ => simp_all
  | opening htok => cases h₂ <;> simp_all
  | closing htok => cases h₂ <;> simp_all
  | word htok => cases h₂ <;> simp_all
  | start hmark hkind hvalue hline hfile hnewline =>
    cases h₂ with
    | start => exact ⟨rfl, rfl⟩
    | stop _ _ hvalue' => rw [hvalue'] at hvalue; exact absurd hvalue (by decide)
    | _ => simp_all
  | stop hmark hkind hvalue hnewline =>
    cases h₂ with
    | stop => exact ⟨rfl, rfl⟩
    | start _ _ hvalue' => rw [hvalue] at hvalue'; exact absurd hvalue' (by decide)
    | _ => simp_all

/-- At the end of the file there is no further round. -/
private theorem CilEndsFile.no_round {tokens rest : List CilToken} {e : Option ParseEvent}
    (hend : CilEndsFile tokens) :
    ¬ CilRound tokens e rest := by
  intro hround
  cases hend with
  | nil => cases hround
  | endOfFile htok => cases hround <;> simp_all
  | @comment tok tokens skipped last htok hskipped hlast htokens =>
    cases hround with
    | comment htok' hskipped' hnewline htokens' =>
      have hnewlineEnds : (skipComment tokens).1.type = .newline := by
        rw [htokens', skipComment_append hskipped']
        simp [skipComment, hnewline]
      have hfileEnds : (skipComment tokens).1.type = .endOfFile := by
        rw [htokens, skipComment_append hskipped]
        cases last with
        | nil => simp [skipComment, cilLexerNext]
        | cons t after => simp [skipComment, hlast t (by simp)]
      rw [hnewlineEnds] at hfileEnds
      exact absurd hfileEnds (by decide)
    | _ => simp_all

/-- The tokens of a text denote at most one sequence of events. -/
theorem CilDenotes.unique {tokens : List CilToken} {es₁ es₂ : List ParseEvent} (h₁ : CilDenotes tokens es₁)
    (h₂ : CilDenotes tokens es₂) : es₁ = es₂ := by
  induction h₁ generalizing es₂ with
  | finish hend =>
    cases h₂ with
    | finish => rfl
    | round hround => exact absurd hround hend.no_round
  | round hround hrest ih =>
    cases h₂ with
    | finish hend => exact absurd hround hend.no_round
    | round hround' hrest' =>
      obtain ⟨rfl, rfl⟩ := hround.unique hround'
      rw [ih hrest']

end Sepol
