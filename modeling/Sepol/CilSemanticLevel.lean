import Sepol.CilGenExpr
import Sepol.MlsSemantic

/-!
# Semantic levels as CIL levels

`semantic_level_to_cil` writes a single category as its name and a range as the words `range`, low and high, without
parentheses of their own.  CIL takes `range` for an operator at the start of a list only.
-/

namespace Sepol.CilSet

open Lexing NestedText

/-! ### The text of a level -/

def cilKeyRange : CString := ['r', 'a', 'n', 'g', 'e']

/-- The text of a category or of a range; the result is `none` where a category has no name. -/
def semanticCatToCil (p : Policydb) (cat : MlsSemanticCat) : Option CString :=
  if cat.low = cat.high then p.pCatValToName (cat.low - 1)
  else do
    let low ← p.pCatValToName (cat.low - 1)
    let high ← p.pCatValToName (cat.high - 1)
    some (cilKeyRange ++ ' ' :: low ++ ' ' :: high)

/-- The loop over the categories of a level. -/
def semanticCatsToCil (p : Policydb) : List MlsSemanticCat → Option CString
  | [] => some []
  | cat :: next => do
    let text ← semanticCatToCil p cat
    let rest ← semanticCatsToCil p next
    some (text ++ (if next.isEmpty then [] else [' ']) ++ rest)

def semanticLevelToCil (p : Policydb) (sensOffset : Nat) (level : MlsSemanticLevel) : Option CString := do
  let sens ← p.pSensValToName (level.sens - sensOffset)
  let cats ← semanticCatsToCil p level.cat
  some ('(' :: sens ++ [' '] ++ (if level.cat.isEmpty then [] else ['(']) ++ cats ++
    (if level.cat.isEmpty then [] else [')']) ++ [')'])

/-! ### Levels of CIL -/

/-- `cil_level` before its names are resolved. -/
structure CilStrLevel where
  sensStr : CString
  cats : Option (List CilSetItem)

/-- `cil_fill_level`; `curr` is the first node of the level. -/
def cilFillLevel (curr : List CilParse) : Option CilStrLevel :=
  if !cilVerifySyntax [cilSynString, cilSynString ||| cilSynList ||| cilSynEnd, cilSynEnd] curr then none
  else
    match curr with
    | [.string sensStr] => some ⟨sensStr, none⟩
    | .string sensStr :: cats :: _ => (cilGenExpr .cat cats).map fun expr => ⟨sensStr, some expr⟩
    | _ => none

/-- The position of a category by its name. -/
def catPosition (p : Policydb) (name : CString) : Option Nat :=
  (hashtabSearch p.pCats.table name).map fun d => d.value - 1

/-- The categories from one up to another one. -/
def catInterval (p : Policydb) (name1 name2 : CString) : Set Nat :=
  {i | ∃ low high, catPosition p name1 = some low ∧ catPosition p name2 = some high ∧ low ≤ i ∧ i ≤ high}

/-- A range leads from a category to one that is not before it. -/
def CatRangeOk (p : Policydb) (name1 name2 : CString) : Prop :=
  ∃ low high, catPosition p name1 = some low ∧ catPosition p name2 = some high ∧ low ≤ high

/-- The expression can be evaluated, and its categories are those of the set. -/
def CatExprDenotes (p : Policydb) (items : List CilSetItem) (cats : Set Nat) : Prop :=
  ∃ e, cilSetExprOf items = some e ∧ (∀ name ∈ e.datums, (catPosition p name).isSome) ∧
    e.RangesOk (CatRangeOk p) p.pCats.nprim ∧
    e.denote (fun name => {i | catPosition p name = some i}) (catInterval p) p.pCats.nprim = cats

/-- The text is a level of CIL with the sensitivity and the categories. -/
def CilLevelDenotes (p : Policydb) (text sens : CString) (cats : Set Nat) : Prop :=
  ∃ curr level, cilParseText text = some [.list curr] ∧ cilFillLevel curr = some level ∧ level.sensStr = sens ∧
    match level.cats with
    | none => cats = ∅
    | some items => CatExprDenotes p items cats

/-! ### The words of a level -/

/-- The words of a category or of a range. -/
def semanticCatWords (p : Policydb) (cat : MlsSemanticCat) : Option (List CString) :=
  if cat.low = cat.high then (p.pCatValToName (cat.low - 1)).map fun name => [name]
  else do
    let low ← p.pCatValToName (cat.low - 1)
    let high ← p.pCatValToName (cat.high - 1)
    some [cilKeyRange, low, high]

private theorem joined_append {c : Char} {words words' : List CString} (h : words ≠ []) (h' : words' ≠ []) :
    joined c (words ++ words') = joined c words ++ [c] ++ joined c words' := by
  induction words with
  | nil => exact absurd rfl h
  | cons w words ih =>
    cases words with
    | nil =>
      cases words' with
      | nil => exact absurd rfl h'
      | cons v words' => rfl
    | cons v words =>
      have hrest := ih (by simp)
      simp only [List.cons_append, joined] at hrest ⊢
      rw [hrest]
      simp

private theorem semanticCatToCil_eq (p : Policydb) (cat : MlsSemanticCat) :
    semanticCatToCil p cat = (semanticCatWords p cat).map (joined ' ') := by
  unfold semanticCatToCil semanticCatWords
  split
  · cases p.pCatValToName (cat.low - 1) <;> rfl
  · cases p.pCatValToName (cat.low - 1) with
    | none => rfl
    | some low =>
      cases p.pCatValToName (cat.high - 1) with
      | none => rfl
      | some high => simp [joined]

private theorem semanticCatWords_ne_nil {p : Policydb} {cat : MlsSemanticCat} {words : List CString}
    (h : semanticCatWords p cat = some words) : words ≠ [] := by
  unfold semanticCatWords at h
  split at h
  · obtain ⟨name, -, rfl⟩ := Option.map_eq_some_iff.1 h
    simp
  · obtain ⟨low, -, h⟩ := Option.bind_eq_some_iff.1 h
    obtain ⟨high, -, h⟩ := Option.bind_eq_some_iff.1 h
    obtain rfl := Option.some.inj h
    simp

/-- The words of the categories of a level. -/
def semanticCatsWords (p : Policydb) : List MlsSemanticCat → Option (List CString)
  | [] => some []
  | cat :: next => do
    let words ← semanticCatWords p cat
    let rest ← semanticCatsWords p next
    some (words ++ rest)

private theorem semanticCatsWords_eq_nil {p : Policydb} {cats : List MlsSemanticCat}
    (h : semanticCatsWords p cats = some []) :
    cats = [] := by
  cases cats with
  | nil => rfl
  | cons cat next =>
    obtain ⟨words, hwords, h⟩ := Option.bind_eq_some_iff.1 h
    obtain ⟨rest, -, h⟩ := Option.bind_eq_some_iff.1 h
    rw [Option.some.injEq, List.append_eq_nil_iff] at h
    exact absurd h.1 (semanticCatWords_ne_nil hwords)

private theorem semanticCatsToCil_eq (p : Policydb) (cats : List MlsSemanticCat) :
    semanticCatsToCil p cats = (semanticCatsWords p cats).map (joined ' ') := by
  induction cats with
  | nil => rfl
  | cons cat next ih =>
    rw [semanticCatsToCil, semanticCatsWords, semanticCatToCil_eq, ih]
    cases hwords : semanticCatWords p cat with
    | none => rfl
    | some words =>
      cases hrest : semanticCatsWords p next with
      | none => rfl
      | some rest =>
        simp only [Option.map_some, Option.bind_eq_bind, Option.bind_some]
        cases next with
        | nil =>
          obtain rfl : [] = rest := Option.some.inj hrest
          simp [joined]
        | cons cat' next =>
          have hne : rest ≠ [] := by
            rintro rfl
            exact absurd (semanticCatsWords_eq_nil hrest) (by simp)
          rw [joined_append (semanticCatWords_ne_nil hwords) hne]
          simp

/-- The names of a module can stand in CIL: they are symbols, and those of categories are no operators. -/
structure CilMlsNames (p : Policydb) : Prop where
  sens : ∀ i name, p.pSensValToName i = some name → CilSymbol name
  cat : ∀ i name, p.pCatValToName i = some name → CilSymbol name ∧ NoOperator name

variable {p : Policydb} {sensOffset : Nat} {level : MlsSemanticLevel} {text : CString}

private theorem cilKeyRange_symbol : CilSymbol cilKeyRange := cilSymbol_of_all (by simp [cilKeyRange]) (by decide)

private theorem semanticCatWords_symbols (hnames : CilMlsNames p) {cat : MlsSemanticCat} {words : List CString}
    (h : semanticCatWords p cat = some words) : ∀ w ∈ words, CilSymbol w := by
  unfold semanticCatWords at h
  split at h
  · obtain ⟨name, hname, rfl⟩ := Option.map_eq_some_iff.1 h
    intro w hw
    rw [List.mem_singleton.1 hw]
    exact (hnames.cat _ name hname).1
  · obtain ⟨low, hlow, h⟩ := Option.bind_eq_some_iff.1 h
    obtain ⟨high, hhigh, h⟩ := Option.bind_eq_some_iff.1 h
    obtain rfl := Option.some.inj h
    simp only [List.mem_cons, List.not_mem_nil, or_false, forall_eq_or_imp, forall_eq]
    exact ⟨cilKeyRange_symbol, (hnames.cat _ low hlow).1, (hnames.cat _ high hhigh).1⟩

private theorem semanticCatsWords_symbols (hnames : CilMlsNames p) {cats : List MlsSemanticCat} {words : List CString}
    (h : semanticCatsWords p cats = some words) : ∀ w ∈ words, CilSymbol w := by
  induction cats generalizing words with
  | nil =>
    obtain rfl : [] = words := Option.some.inj h
    simp
  | cons cat next ih =>
    obtain ⟨first, hfirst, h⟩ := Option.bind_eq_some_iff.1 h
    obtain ⟨rest, hrest, h⟩ := Option.bind_eq_some_iff.1 h
    obtain rfl := Option.some.inj h
    intro w hw
    rcases List.mem_append.1 hw with hw | hw
    · exact semanticCatWords_symbols hnames hfirst w hw
    · exact ih hrest w hw

private theorem cilParseText_level {sens : CString} {words : List CString} (hsens : CilSymbol sens)
    (hwords : ∀ w ∈ words, CilSymbol w) :
    cilParseText ('(' :: sens ++ [' '] ++ ['('] ++ joined ' ' words ++ [')'] ++ [')']) =
      some [.list [.string sens, .list (words.map .string)]] := by
  have hjoined : Lexes cilLexer (joined ' ' words) (words.map cilLexer.word) := Lexes.joined (by decide) rfl hwords
  have hlist := cuts_append_closing hjoined
  have hlevel := (((cuts_opening.append (cuts_append_blank hsens.lexes)).append cuts_opening).append hlist).lexes
  have hall := cuts_append_closing hlevel
  have hprint : printAll [Nested.list [.word sens, .list (wordNodes words)]] =
      [.opening] ++ [.word sens] ++ [.opening] ++ (words.map cilLexer.word ++ [.closing]) ++ [.closing] := by
    rw [printAll_list, printAll, Nested.print, printAll_list, printAll_wordNodes]
    simp [cilLexer]
  rw [← hprint] at hall
  have hparse := cilParseText_eq hall.lexes
  simpa [cilParsesOfNested, cilParseOfNested, cilParsesOfNested_wordNodes] using hparse

private theorem cilParseText_bareLevel {sens : CString} (hsens : CilSymbol sens) :
    cilParseText ('(' :: sens ++ [' '] ++ [')']) = some [.list [.string sens]] := by
  have hall := cuts_append_closing (cuts_opening.append (cuts_append_blank hsens.lexes)).lexes
  have hprint : printAll [Nested.list [.word sens]] = [.opening] ++ [.word sens] ++ [.closing] := by
    rw [printAll_list, printAll_word]
    simp
  rw [← hprint] at hall
  have hparse := cilParseText_eq hall.lexes
  simpa [cilParsesOfNested, cilParseOfNested] using hparse

/-- The nodes that the text of a level is read as. -/
private theorem cilParseText_semanticLevelToCil (hnames : CilMlsNames p)
    (htext : semanticLevelToCil p sensOffset level = some text) :
    ∃ sens words, p.pSensValToName (level.sens - sensOffset) = some sens ∧
      semanticCatsWords p level.cat = some words ∧ cilParseText text =
        some [.list (.string sens :: if level.cat.isEmpty then [] else [.list (words.map .string)])] := by
  obtain ⟨sens, hsens, htext⟩ := Option.bind_eq_some_iff.1 htext
  obtain ⟨cats, hcats, htext⟩ := Option.bind_eq_some_iff.1 htext
  obtain rfl := Option.some.inj htext
  rw [semanticCatsToCil_eq] at hcats
  obtain ⟨words, hwords, rfl⟩ := Option.map_eq_some_iff.1 hcats
  refine ⟨sens, words, hsens, hwords, ?_⟩
  have hsymbol := hnames.sens _ sens hsens
  by_cases hempty : level.cat = []
  · rw [hempty] at hwords ⊢
    obtain rfl : [] = words := Option.some.inj hwords
    simpa [joined] using cilParseText_bareLevel hsymbol
  · have hlevel := cilParseText_level hsymbol (semanticCatsWords_symbols hnames hwords)
    have hne : level.cat.isEmpty = false := by simpa using hempty
    simpa [hne] using hlevel

/-! ### The expression of a level -/

private theorem noOperator_words_of_single (hnames : CilMlsNames p) {cats : List MlsSemanticCat}
    {words : List CString} (hsingle : ∀ cat ∈ cats, cat.low = cat.high) (h : semanticCatsWords p cats = some words) :
    ∀ w ∈ words, NoOperator w := by
  induction cats generalizing words with
  | nil =>
    obtain rfl : [] = words := Option.some.inj h
    simp
  | cons cat next ih =>
    obtain ⟨first, hfirst, h⟩ := Option.bind_eq_some_iff.1 h
    obtain ⟨rest, hrest, h⟩ := Option.bind_eq_some_iff.1 h
    obtain rfl := Option.some.inj h
    rw [semanticCatWords, if_pos (hsingle cat (by simp))] at hfirst
    obtain ⟨name, hname, rfl⟩ := Option.map_eq_some_iff.1 hfirst
    intro w hw
    rcases List.mem_append.1 hw with hw | hw
    · rw [List.mem_singleton.1 hw]
      exact (hnames.cat _ name hname).2
    · exact ih (fun c hc => hsingle c (List.mem_cons_of_mem _ hc)) hrest w hw

private theorem cilGenExpr_range {low high : CString} (hlow : NoOperator low) (hhigh : NoOperator high) :
    cilGenExpr .cat (.list ([cilKeyRange, low, high].map .string)) =
      some [.op .range, .string low, .string high] := by
  have hfill : cilFillExprs .cat ([low, high].map .string) = some ([low, high].map .string) :=
    cilFillExprs_words (by simp [hlow, hhigh])
  have hop : cilGetExprOperatorFlavor cilKeyRange = some .range := by decide
  have hverify : cilVerifyExprSyntax [.string cilKeyRange, .string low, .string high] (some .range) .cat = true := by
    simp [cilVerifyExprSyntax, cilVerifySyntax, CilSyntax.has, CilParse.isString, CilParse.isList,
      CilParse.isEmptyList]
  simp only [List.map_cons, List.map_nil] at hfill ⊢
  rw [cilGenExpr, cilFillExpr, operator_string, hop, hverify, Bool.not_true, if_neg (by simp), hfill]
  rfl

private theorem cilGenExpr_range_more {low high w : CString} {words : List CString} :
    cilGenExpr .cat (.list ((cilKeyRange :: low :: high :: w :: words).map .string)) = none := by
  have hop : cilGetExprOperatorFlavor cilKeyRange = some .range := by decide
  have hverify : cilVerifyExprSyntax (.string cilKeyRange :: .string low :: .string high :: .string w ::
      words.map .string) (some .range) .cat = false := by
    simp [cilVerifyExprSyntax, cilVerifySyntax, CilSyntax.has, CilParse.isString, CilParse.isList,
      CilParse.isEmptyList]
  simp only [List.map_cons]
  rw [cilGenExpr, cilFillExpr, operator_string, hop, hverify]
  rfl

private theorem cilGenExpr_operator {w : CString} {words : List CString} (hw : NoOperator w) {op : CString}
    (hmem : op ∈ words)
    (hop : ¬ NoOperator op) : cilGenExpr .cat (.list ((w :: words).map .string)) = none := by
  have hall : cilFillExprs .cat ((w :: words).map .string) = none :=
    cilFillExprs_operator (List.mem_cons_of_mem w hmem) hop
  rw [List.map_cons] at hall
  rw [cilGenExpr, List.map_cons, cilFillExpr, operator_string, hw, cilVerifyExprSyntax_words, Bool.not_true,
    if_neg (by simp), hall]
  rfl

private theorem cilKeyRange_mem_words {cats : List MlsSemanticCat} {words : List CString} {cat : MlsSemanticCat}
    (hcat : cat ∈ cats) (hrange : cat.low ≠ cat.high) (h : semanticCatsWords p cats = some words) :
    cilKeyRange ∈ words := by
  induction cats generalizing words with
  | nil => cases hcat
  | cons c next ih =>
    obtain ⟨first, hfirst, h⟩ := Option.bind_eq_some_iff.1 h
    obtain ⟨rest, hrest, h⟩ := Option.bind_eq_some_iff.1 h
    obtain rfl := Option.some.inj h
    rcases List.mem_cons.1 hcat with rfl | hcat
    · rw [semanticCatWords, if_neg hrange] at hfirst
      obtain ⟨low, -, hfirst⟩ := Option.bind_eq_some_iff.1 hfirst
      obtain ⟨high, -, hfirst⟩ := Option.bind_eq_some_iff.1 hfirst
      obtain rfl := Option.some.inj hfirst
      simp
    · exact List.mem_append_right _ (ih hcat hrest)

/-- A range next to other categories is no expression of CIL. -/
private theorem cilGenExpr_mixed (hnames : CilMlsNames p) {cats : List MlsSemanticCat} {words : List CString}
    (hlength : 2 ≤ cats.length) {cat : MlsSemanticCat} (hcat : cat ∈ cats) (hrange : cat.low ≠ cat.high)
    (h : semanticCatsWords p cats = some words) : cilGenExpr .cat (.list (words.map .string)) = none := by
  match cats, hlength with
  | c :: c' :: next, _ =>
    obtain ⟨first, hfirst, h⟩ := Option.bind_eq_some_iff.1 h
    obtain ⟨rest, hrest, h⟩ := Option.bind_eq_some_iff.1 h
    obtain rfl := Option.some.inj h
    have hrest_ne : rest ≠ [] := by
      rintro rfl
      exact absurd (semanticCatsWords_eq_nil hrest) (by simp)
    unfold semanticCatWords at hfirst
    split at hfirst
    · rename_i hsingle
      obtain ⟨name, hname, rfl⟩ := Option.map_eq_some_iff.1 hfirst
      have hcat : cat ∈ c' :: next := by
        rcases List.mem_cons.1 hcat with rfl | hcat
        · exact absurd hsingle hrange
        · exact hcat
      exact cilGenExpr_operator (hnames.cat _ name hname).2 (cilKeyRange_mem_words hcat hrange hrest) (by
        unfold NoOperator
        decide)
    · obtain ⟨low, -, hfirst⟩ := Option.bind_eq_some_iff.1 hfirst
      obtain ⟨high, -, hfirst⟩ := Option.bind_eq_some_iff.1 hfirst
      obtain rfl := Option.some.inj hfirst
      cases rest with
      | nil => exact absurd rfl hrest_ne
      | cons w rest => exact cilGenExpr_range_more

/-! ### What the expressions denote -/

private theorem rangesOk_words (ok : CString → CString → Prop) (max : Nat) (words : List CString) :
    (CilExpr.list (words.map CilOperand.datum)).RangesOk ok max := by
  rw [CilExpr.RangesOk]
  induction words with
  | nil => trivial
  | cons w words ih => exact ⟨trivial, ih⟩

private theorem catPosition_of_name (hindex : MlsIndex p) {i : Nat} {name : CString}
    (h : p.pCatValToName i = some name) : catPosition p name = some i := by
  obtain ⟨d, hd, hvalue⟩ := hindex.cat h
  rw [catPosition, hd, Option.map_some, hvalue]
  rfl

/-- The positions of single categories. -/
private theorem mem_words_of_single (hindex : MlsIndex p) {cats : List MlsSemanticCat} {words : List CString}
    (hvalid : ∀ cat ∈ cats, 1 ≤ cat.low ∧ cat.low ≤ cat.high) (hsingle : ∀ cat ∈ cats, cat.low = cat.high)
    (h : semanticCatsWords p cats = some words) :
    (∀ w ∈ words, (catPosition p w).isSome) ∧
      ∀ i, (∃ w ∈ words, catPosition p w = some i) ↔ ∃ cat ∈ cats, cat.low - 1 ≤ i ∧ i < cat.high := by
  induction cats generalizing words with
  | nil =>
    obtain rfl : [] = words := Option.some.inj h
    simp
  | cons cat next ih =>
    obtain ⟨first, hfirst, h⟩ := Option.bind_eq_some_iff.1 h
    obtain ⟨rest, hrest, h⟩ := Option.bind_eq_some_iff.1 h
    obtain rfl := Option.some.inj h
    have hlow := hvalid cat (by simp)
    have heq := hsingle cat (by simp)
    rw [semanticCatWords, if_pos heq] at hfirst
    obtain ⟨name, hname, rfl⟩ := Option.map_eq_some_iff.1 hfirst
    have hposition := catPosition_of_name hindex hname
    obtain ⟨hsome, hmem⟩ := ih (fun c hc => hvalid c (List.mem_cons_of_mem _ hc))
      (fun c hc => hsingle c (List.mem_cons_of_mem _ hc)) hrest
    constructor
    · intro w hw
      rcases List.mem_append.1 hw with hw | hw
      · rw [List.mem_singleton.1 hw, hposition]
        rfl
      · exact hsome w hw
    · intro i
      simp only [List.singleton_append, List.mem_cons, exists_eq_or_imp, hposition, Option.some.injEq, hmem]
      refine or_congr_left ?_
      omega

private theorem catExprDenotes_single (hindex : MlsIndex p) {cats : List MlsSemanticCat} {words : List CString}
    (hvalid : ∀ cat ∈ cats, 1 ≤ cat.low ∧ cat.low ≤ cat.high) (hsingle : ∀ cat ∈ cats, cat.low = cat.high)
    (h : semanticCatsWords p cats = some words) :
    CatExprDenotes p (words.map .string) {i | ∃ cat ∈ cats, cat.low - 1 ≤ i ∧ i < cat.high} := by
  obtain ⟨hsome, hmem⟩ := mem_words_of_single hindex hvalid hsingle h
  refine ⟨_, cilSetExprOf_words words, ?_, rangesOk_words _ _ words, ?_⟩
  · rw [datums_words]
    exact hsome
  · rw [denote_words]
    exact Set.ext hmem

private theorem catExprDenotes_range (hindex : MlsIndex p) {cat : MlsSemanticCat} {low high : CString}
    (hvalid : 1 ≤ cat.low ∧ cat.low ≤ cat.high) (hlow : p.pCatValToName (cat.low - 1) = some low)
    (hhigh : p.pCatValToName (cat.high - 1) = some high) :
    CatExprDenotes p [.op .range, .string low, .string high]
      {i | ∃ c ∈ [cat], c.low - 1 ≤ i ∧ i < c.high} := by
  have hlow := catPosition_of_name hindex hlow
  have hhigh := catPosition_of_name hindex hhigh
  refine ⟨.range low high, rfl, fun name hname => ?_, ⟨_, _, hlow, hhigh, by omega⟩, ?_⟩
  · cases hname
  · rw [CilExpr.denote, catInterval, hlow, hhigh]
    ext i
    simp only [Option.some.injEq, exists_and_left, exists_eq_left', List.mem_singleton, exists_eq_left,
      Set.mem_ofPred_eq]
    omega

/-! ### The level -/

/-- A range is the only entry of the list. -/
def RangeAlone (level : MlsSemanticLevel) : Prop := level.cat.length ≤ 1 ∨ ∀ cat ∈ level.cat, cat.low = cat.high

/-- The text of a level is a level of CIL with its sensitivity and the categories that it is expanded to. -/
def SemanticLevelAgrees (p : Policydb) (sensOffset : Nat) (level : MlsSemanticLevel) (l : MlsLevel)
    (text : CString) : Prop :=
  ∃ sens, p.pSensValToName (level.sens - sensOffset) = some sens ∧ CilLevelDenotes p text sens {i | i ∈ l.cat}

private theorem cilFillLevel_bare (sens : CString) : cilFillLevel [.string sens] = some ⟨sens, none⟩ := by
  simp [cilFillLevel, cilVerifySyntax, CilSyntax.has, CilParse.isString]

private theorem cilFillLevel_cats (sens : CString) {words : List CString} (hne : words ≠ []) :
    cilFillLevel [.string sens, .list (words.map .string)] =
      (cilGenExpr .cat (.list (words.map .string))).map fun expr => ⟨sens, some expr⟩ := by
  cases words with
  | nil => exact absurd rfl hne
  | cons w words =>
    simp [cilFillLevel, cilVerifySyntax, CilSyntax.has, CilParse.isString, CilParse.isList]

private theorem agrees_of_rangeAlone {l : MlsLevel} (hindex : MlsIndex p) (hnames : CilMlsNames p)
    (hvalid : ∀ cat ∈ level.cat, 1 ≤ cat.low ∧ cat.low ≤ cat.high)
    (hmem : ∀ i, i ∈ l.cat ↔ ∃ cat ∈ level.cat, cat.low - 1 ≤ i ∧ i < cat.high)
    (htext : semanticLevelToCil p sensOffset level = some text) (halone : RangeAlone level) :
    SemanticLevelAgrees p sensOffset level l text := by
  obtain ⟨sens, words, hsens, hwords, hparse⟩ := cilParseText_semanticLevelToCil hnames htext
  have hset : {i | i ∈ l.cat} = {i | ∃ cat ∈ level.cat, cat.low - 1 ≤ i ∧ i < cat.high} := Set.ext hmem
  by_cases hempty : level.cat = []
  · rw [hempty] at hparse hset
    exact ⟨sens, hsens, _, _, hparse, cilFillLevel_bare sens, rfl, by simp [hset]⟩
  have hne : words ≠ [] := by
    rintro rfl
    exact hempty (semanticCatsWords_eq_nil hwords)
  rw [if_neg (by simpa using hempty)] at hparse
  have hlevel : ∀ expr, cilGenExpr .cat (.list (words.map .string)) = some expr →
      CatExprDenotes p expr {i | i ∈ l.cat} → SemanticLevelAgrees p sensOffset level l text := by
    intro expr hexpr hdenotes
    refine ⟨sens, hsens, _, ⟨sens, some expr⟩, hparse, ?_, rfl, hdenotes⟩
    rw [cilFillLevel_cats sens hne, hexpr]
    rfl
  rw [hset] at hlevel
  by_cases hsingle : ∀ cat ∈ level.cat, cat.low = cat.high
  · exact hlevel _ (cilGenExpr_words hne (noOperator_words_of_single hnames hsingle hwords))
      (catExprDenotes_single hindex hvalid hsingle hwords)
  · -- the only entry is a range
    have hlength := halone.resolve_right hsingle
    obtain ⟨cat, hcats⟩ : ∃ cat, level.cat = [cat] :=
      List.length_eq_one_iff.1 (Nat.le_antisymm hlength (List.length_pos_iff.2 hempty))
    rw [hcats] at hsingle hwords hlevel hvalid
    obtain ⟨first, hfirst, hwords⟩ := Option.bind_eq_some_iff.1 hwords
    obtain rfl := Option.some.inj hwords
    rw [semanticCatWords, if_neg (by simpa using hsingle)] at hfirst
    obtain ⟨low, hlow, hfirst⟩ := Option.bind_eq_some_iff.1 hfirst
    obtain ⟨high, hhigh, hfirst⟩ := Option.bind_eq_some_iff.1 hfirst
    obtain rfl := Option.some.inj hfirst
    exact hlevel _ (cilGenExpr_range (hnames.cat _ low hlow).2 (hnames.cat _ high hhigh).2)
      (catExprDenotes_range hindex (hvalid cat (by simp)) hlow hhigh)

private theorem not_agrees_of_not_rangeAlone {l : MlsLevel} (hnames : CilMlsNames p)
    (htext : semanticLevelToCil p sensOffset level = some text) (halone : ¬ RangeAlone level) :
    ¬ SemanticLevelAgrees p sensOffset level l text := by
  unfold RangeAlone at halone
  push Not at halone
  obtain ⟨hlength, cat, hcat, hrange⟩ := halone
  obtain ⟨sens, words, hsens, hwords, hparse⟩ := cilParseText_semanticLevelToCil hnames htext
  have hne : words ≠ [] := by
    rintro rfl
    rw [semanticCatsWords_eq_nil hwords] at hcat
    cases hcat
  rw [if_neg (by simp [List.ne_nil_of_mem hcat])] at hparse
  rintro ⟨sens', -, curr, level', hparse', hfill, -⟩
  rw [hparse] at hparse'
  obtain rfl : [CilParse.string sens, .list (words.map .string)] = curr := by simpa using hparse'
  rw [cilFillLevel_cats sens hne, cilGenExpr_mixed hnames hlength hcat hrange hwords] at hfill
  cases hfill

/-- The text of a level that is expanded is a level of CIL with the same categories exactly when a range is the only
entry of its list. -/
theorem semanticLevelToCil_agrees_iff (p : Policydb) (sensOffset : Nat) (level : MlsSemanticLevel) (l : MlsLevel)
    (text : CString) (hindex : MlsIndex p) (hnames : CilMlsNames p) (hmls : p.mls = true) (hsens : 1 ≤ level.sens)
    (hhigh : ∀ cat ∈ level.cat, cat.high < 2 ^ 32) (hexpand : mlsSemanticLevelExpand p level = some l)
    (htext : semanticLevelToCil p sensOffset level = some text) :
    SemanticLevelAgrees p sensOffset level l text ↔ RangeAlone level := by
  obtain ⟨hvalid, hmem⟩ := mlsSemanticLevelExpand_spec hmls hsens hhigh hexpand
  constructor
  · intro hagrees
    by_contra halone
    exact not_agrees_of_not_rangeAlone hnames htext halone hagrees
  · exact agrees_of_rangeAlone hindex hnames hvalid hmem htext

/-! ### A range behind a category -/

def threeCats : Ebitmap := ⟨[⟨0, 7⟩], 64⟩

def threeCatNames : List CString := [['c', '0'], ['c', '1'], ['c', '2']]

/-- A policy with one sensitivity and the categories `c0`, `c1` and `c2`. -/
def threeCatsPolicy : Policydb :=
  { policydbInit with
    mls := true
    pLevels := ⟨[(['s', '0'], ⟨⟨1, threeCats⟩⟩)], 1⟩
    pCats := ⟨[(['c', '0'], ⟨1⟩), (['c', '1'], ⟨2⟩), (['c', '2'], ⟨3⟩)], 3⟩
    pSensValToName := fun i => [['s', '0']][i]?
    pCatValToName := fun i => threeCatNames[i]? }

private theorem threeCatsPolicy_index : MlsIndex threeCatsPolicy where
  sens := by
    intro i name h
    match i, h with
    | 0, h =>
      obtain rfl : ['s', '0'] = name := Option.some.inj h
      exact ⟨_, rfl, rfl⟩
  cat := by
    intro i name h
    match i, h with
    | 0, h =>
      obtain rfl : ['c', '0'] = name := Option.some.inj h
      exact ⟨_, rfl, rfl⟩
    | 1, h =>
      obtain rfl : ['c', '1'] = name := Option.some.inj h
      exact ⟨_, rfl, rfl⟩
    | 2, h =>
      obtain rfl : ['c', '2'] = name := Option.some.inj h
      exact ⟨_, rfl, rfl⟩

private theorem threeCatsPolicy_names : CilMlsNames threeCatsPolicy where
  sens := by
    intro i name h
    have hmem : name ∈ [['s', '0']] := List.mem_of_getElem? h
    rw [List.mem_singleton.1 hmem]
    exact cilSymbol_of_all (by simp) (by decide)
  cat := by
    intro i name h
    have hmem : name ∈ threeCatNames := List.mem_of_getElem? h
    have hall : ∀ n ∈ threeCatNames, n ≠ [] ∧ n.all (fun c => c.isDigit || c.isAlpha) = true ∧
        cilGetExprOperatorFlavor n = none := by decide
    obtain ⟨hne, hsymbol, hop⟩ := hall name hmem
    exact ⟨cilSymbol_of_all hne hsymbol, hop⟩

theorem semanticLevelToCil_agrees_iff_two :
    SemanticLevelAgrees threeCatsPolicy 1 ⟨1, [⟨3, 3⟩, ⟨1, 1⟩]⟩ ⟨1, ⟨[⟨0, 5⟩], 64⟩⟩
        ['(', 's', '0', ' ', '(', 'c', '2', ' ', 'c', '0', ')', ')'] ↔
      RangeAlone ⟨1, [⟨3, 3⟩, ⟨1, 1⟩]⟩ :=
  semanticLevelToCil_agrees_iff threeCatsPolicy 1 ⟨1, [⟨3, 3⟩, ⟨1, 1⟩]⟩ ⟨1, ⟨[⟨0, 5⟩], 64⟩⟩ _ threeCatsPolicy_index
    threeCatsPolicy_names rfl le_rfl (by decide) (by decide +kernel) rfl

/-- The text of the category `c0` and the range from `c1` to `c2` is `(s0 (c0 range c1 c2))`. -/
theorem not_semanticLevelToCil_agrees :
    ¬ ∀ (p : Policydb) (sensOffset : Nat) (level : MlsSemanticLevel) (l : MlsLevel) (text : CString),
      MlsIndex p → CilMlsNames p → p.mls = true → 1 ≤ level.sens → (∀ cat ∈ level.cat, cat.high < 2 ^ 32) →
      mlsSemanticLevelExpand p level = some l → semanticLevelToCil p sensOffset level = some text →
      SemanticLevelAgrees p sensOffset level l text := by
  intro hall
  have hagrees := hall threeCatsPolicy 1 ⟨1, [⟨1, 1⟩, ⟨2, 3⟩]⟩ ⟨1, ⟨[⟨0, 7⟩], 64⟩⟩
    ['(', 's', '0', ' ', '(', 'c', '0', ' ', 'r', 'a', 'n', 'g', 'e', ' ', 'c', '1', ' ', 'c', '2', ')', ')']
    threeCatsPolicy_index threeCatsPolicy_names rfl le_rfl (by decide) (by decide +kernel) rfl
  refine not_agrees_of_not_rangeAlone threeCatsPolicy_names rfl ?_ hagrees
  unfold RangeAlone
  decide

end Sepol.CilSet
