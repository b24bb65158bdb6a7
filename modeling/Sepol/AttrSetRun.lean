import Sepol.AttrSetDenote

/-!
# Type sets as attributes

The counter grows with each attribute, so the attributes of a list have names of their own, and the attribute that is
found for a set is that of the very set.  The text of the list has one statement for each attribute, and the statement
has the types of the set exactly when the parts of the set combine to one expression.
-/

namespace Sepol

open Lexing NestedText CilSet

/-! ### The names of attributes -/

variable {p : ModulePolicydb} {set : LinkTypeSet} {attrs : AttrState} {attrList : List (CString × LinkTypeSet)}
  {attrName : CString} {names : List CString}

private theorem signedDigits_of_le {n : Nat} (hn : n ≤ intMax) : signedDigits n = Nat.toDigits 10 n := if_pos hn

private theorem newAttrName_inj {m n : Nat} (hm : m ≤ intMax) (hn : n ≤ intMax)
    (h : newAttrName p m = newAttrName p n) : m = n := by
  rw [newAttrName, newAttrName, signedDigits_of_le hm, signedDigits_of_le hn] at h
  have hdigits : Nat.toDigits 10 m = Nat.toDigits 10 n := List.append_cancel_left h
  have hvalue : Nat.ofDigitChars 10 (Nat.toDigits 10 m) 0 = m := Nat.ofDigitChars_ten_toDigits
  rw [← hvalue, hdigits, Nat.ofDigitChars_ten_toDigits]

private theorem cilSymbol_newAttrName (hname : CilSymbol p.name) {numAttrs : Nat} (hnum : numAttrs ≤ intMax) :
    CilSymbol (newAttrName p numAttrs) := by
  have hinfix : ∀ c ∈ typeattrInfix, isCilSymbolChar c = true := by
    simp [typeattrInfix, isCilSymbolChar, cilSpecChars]
  rw [newAttrName, signedDigits_of_le hnum]
  refine ⟨fun hnil => ?_, fun c hc => ?_⟩
  · rw [List.append_eq_nil_iff, List.append_eq_nil_iff] at hnil
    exact hname.1 hnil.1.1
  · rw [List.mem_append, List.mem_append] at hc
    rcases hc with (hc | hc) | hc
    · exact hname.2 c hc
    · exact hinfix c hc
    · have hdigit : c.isDigit = true := Nat.isDigit_of_mem_toDigits (by decide) (by decide) hc
      simp [isCilSymbolChar, hdigit]

/-- The name of the module leaves room for a number of ten digits in a text whose size is an int. -/
def ModulePolicydb.NameFits (p : ModulePolicydb) : Prop := (p.name ++ typeattrInfix).length + 10 < intMax

private theorem getNewAttrName_ok (hname : p.NameFits) {numAttrs : Nat} (hnum : numAttrs ≤ intMax) :
    getNewAttrName p numAttrs = .ok (newAttrName p numAttrs) := by
  have hdigits : (Nat.toDigits 10 numAttrs).length ≤ 10 :=
    (Nat.length_toDigits_le_iff (by decide) (by decide)).2 (lt_of_le_of_lt hnum (by decide))
  unfold ModulePolicydb.NameFits at hname
  have hlen : (p.name ++ typeattrInfix ++ Nat.toDigits 10 numAttrs).length + 1 ≤ intMax := by
    rw [List.length_append]
    omega
  rw [getNewAttrName, newAttrName, signedDigits_of_le hnum]
  exact if_pos ⟨hlen, Nat.lt_succ_self _⟩

private theorem nextNumAttrs_of_lt {numAttrs : Nat} (hnum : numAttrs < intMax) :
    nextNumAttrs numAttrs = numAttrs + 1 :=
  Nat.mod_eq_of_lt (lt_of_le_of_lt hnum (by decide))

/-! ### Attributes of a list -/

/-- The attributes of a list have names with different numbers up to the counter, and stand for sets of the module. -/
structure AttrState.Numbered (p : ModulePolicydb) (attrs : AttrState) : Prop where
  numAttrs : attrs.numAttrs ≤ intMax
  nodup : (attrs.attrList.map Prod.fst).Nodup
  name : ∀ e ∈ attrs.attrList, ∃ k ≤ attrs.numAttrs, e.1 = newAttrName p k
  known : ∀ e ∈ attrs.attrList, e.2.Known p.typeTable

theorem AttrState.Numbered.empty (p : ModulePolicydb) {numAttrs : Nat} (hnum : numAttrs ≤ intMax) :
    AttrState.Numbered p ⟨[], numAttrs⟩ :=
  ⟨hnum, List.nodup_nil, by simp, by simp⟩

theorem AttrState.Numbered.others (h : attrs.Numbered p) {others : Nat} (hnum : attrs.numAttrs + others ≤ intMax) :
    AttrState.Numbered p ⟨attrs.attrList, attrs.numAttrs + others⟩ := by
  refine ⟨hnum, h.nodup, fun e he => ?_, h.known⟩
  obtain ⟨k, hk, hname⟩ := h.name e he
  exact ⟨k, Nat.le_add_right_of_le hk, hname⟩

/-- The next number is a new one. -/
theorem AttrState.Numbered.add (h : attrs.Numbered p) (hset : set.Known p.typeTable)
    (hnum : attrs.numAttrs < intMax) :
    AttrState.Numbered p ⟨(newAttrName p (attrs.numAttrs + 1), set) :: attrs.attrList, attrs.numAttrs + 1⟩ := by
  refine ⟨hnum, List.nodup_cons.2 ⟨fun hmem => ?_, h.nodup⟩, fun e he => ?_, fun e he => ?_⟩
  · obtain ⟨e, he, hname⟩ := List.mem_map.1 hmem
    obtain ⟨k, hk, hname'⟩ := h.name e he
    have hnumber := newAttrName_inj (hk.trans h.numAttrs) hnum (hname'.symm.trans hname)
    omega
  · rcases List.mem_cons.1 he with rfl | he
    · exact ⟨_, le_rfl, rfl⟩
    · obtain ⟨k, hk, hname⟩ := h.name e he
      exact ⟨k, Nat.le_succ_of_le hk, hname⟩
  · rcases List.mem_cons.1 he with rfl | he
    · exact hset
    · exact h.known e he

private theorem mem_of_searchAttrList (h : searchAttrList attrList set = some attrName) :
    (attrName, set) ∈ attrList := by
  rw [searchAttrList, Option.map_eq_some_iff] at h
  obtain ⟨⟨name, set'⟩, hfind, rfl⟩ := h
  have hmem := List.mem_of_find?_eq_some hfind
  have hequal := List.find?_some hfind
  simp only [Bool.and_eq_true, decide_eq_true_eq, ebitmapCmp_iff] at hequal
  obtain ⟨⟨hflags, hnegset⟩, htypes⟩ := hequal
  cases set
  cases set'
  subst hflags hnegset htypes
  exact hmem

/-- What a set is named by: the members of a plain list, or an attribute of the list that is made for the set. -/
def NamedBy (p : ModulePolicydb) (attrList : List (CString × LinkTypeSet)) (set : LinkTypeSet)
    (names : List CString) :
    Prop :=
  if set.isPlain then names = namesOf p.typeValToName set.types
  else ∃ attrName, names = [attrName] ∧ (attrName, set) ∈ attrList

theorem NamedBy.mono {attrList' : List (CString × LinkTypeSet)} (h : NamedBy p attrList set names)
    (hsub : attrList ⊆ attrList') : NamedBy p attrList' set names := by
  unfold NamedBy at h ⊢
  split
  · rwa [if_pos ‹_›] at h
  · rw [if_neg ‹_›] at h
    obtain ⟨attrName, rfl, hmem⟩ := h
    exact ⟨attrName, rfl, hsub hmem⟩

private theorem namesOfBits_ok {valToName : Nat → Option CString} {bits : List Nat}
    (h : ∀ i ∈ bits, ∃ name, valToName i = some name) : ∃ names, namesOfBits valToName bits = .ok names := by
  induction bits with
  | nil => exact ⟨[], rfl⟩
  | cons i bits ih =>
    obtain ⟨name, hname⟩ := h i (List.mem_cons_self ..)
    obtain ⟨names, hnames⟩ := ih fun j hj => h j (List.mem_cons_of_mem _ hj)
    exact ⟨name :: names, by rw [namesOfBits, nameOrNull, hname, hnames]; rfl⟩

private theorem ebitmapToCil_ok (hp : p.TypesNamed) {e : Ebitmap} (he : e.Canonical)
    (hknown : ∀ i ∈ e, i < p.typeTable.nprim.toNat ∧ (p.typeTable.typeValToStruct i).isSome) :
    ∃ names, ebitmapToCil e p.typeValToName = .ok names := by
  refine namesOfBits_ok fun i hi => ?_
  obtain ⟨hlt, hsome⟩ := hknown i ((mem_ebitmapPositiveBits he).1 hi)
  obtain ⟨name, hname, -⟩ := hp.name i hlt hsome
  exact ⟨name, hname⟩

/-- One set. -/
private theorem processTypeset_spec (hp : p.TypesNamed) (hname : p.NameFits) (hset : set.Known p.typeTable)
    (hlist : (ebitmapPositiveBits set.types).length ≤ maxNames) (h : attrs.Numbered p)
    (hnum : attrs.numAttrs < intMax) :
    ∃ names attrs', processTypeset p set attrs = .ok (names, attrs') ∧ attrs'.Numbered p ∧
      attrs'.numAttrs ≤ attrs.numAttrs + 1 ∧ attrs.attrList ⊆ attrs'.attrList ∧
      NamedBy p attrs'.attrList set names := by
  unfold NamedBy processTypeset
  cases set.isPlain with
  | true =>
    obtain ⟨names, hnames⟩ := ebitmapToCil_ok hp hset.types_canonical hset.types
    rw [if_pos rfl, ebitmapToNames, if_neg (not_lt.2 hlist), hnames]
    refine ⟨names, attrs, rfl, h, Nat.le_succ _, List.Subset.refl _, ?_⟩
    rw [if_pos rfl, ebitmapToCil_eq hnames]
  | false =>
    rw [if_neg Bool.false_ne_true, setToNames]
    cases hsearch : searchAttrList attrs.attrList set with
    | some attrName =>
      exact ⟨_, _, rfl, h, Nat.le_succ _, List.Subset.refl _, attrName, rfl, mem_of_searchAttrList hsearch⟩
    | none =>
      dsimp only
      rw [nextNumAttrs_of_lt hnum, getNewAttrName_ok hname hnum]
      exact ⟨_, _, rfl, h.add hset hnum, le_rfl, List.subset_cons_self .., _, rfl, List.mem_cons_self ..⟩

/-- There is room for the names of all sets: a plain list is not too long for an array, and the counter of attributes
stays an int. -/
structure TypesetsFit (p : ModulePolicydb) (sets : List (Nat × LinkTypeSet)) (numAttrs : Nat) : Prop where
  name : p.NameFits
  lists : ∀ s ∈ sets, (ebitmapPositiveBits s.2.types).length ≤ maxNames
  counter : numAttrs + (sets.map fun s => s.1 + 1).sum ≤ intMax

/-- All sets of a list. -/
private theorem processTypesets_spec (hp : p.TypesNamed) (sets : List (Nat × LinkTypeSet))
    (hsets : ∀ s ∈ sets, s.2.Known p.typeTable) (hfit : TypesetsFit p sets attrs.numAttrs) (h : attrs.Numbered p) :
    ∃ results attrs', processTypesets p sets attrs = .ok (results, attrs') ∧ attrs'.Numbered p ∧
      attrs.attrList ⊆ attrs'.attrList ∧
      List.Forall₂ (fun s names => NamedBy p attrs'.attrList s.2 names) sets results := by
  induction sets generalizing attrs with
  | nil => exact ⟨[], attrs, rfl, h, List.Subset.refl _, .nil⟩
  | cons s sets ih =>
    obtain ⟨others, set⟩ := s
    have hcounter := hfit.counter
    rw [List.map_cons, List.sum_cons] at hcounter
    dsimp only at hcounter
    have hothers : attrs.numAttrs + others < intMax := by omega
    obtain ⟨names, attrs₁, hfirst, h₁, hgrow, hsub₁, hnamed⟩ :=
      processTypeset_spec hp hfit.name (hsets _ (List.mem_cons_self ..)) (hfit.lists _ (List.mem_cons_self ..))
        (h.others hothers.le) hothers
    dsimp only at hgrow
    obtain ⟨results, attrs₂, hrest, h₂, hsub₂, hall⟩ :=
      ih (fun s hs => hsets s (List.mem_cons_of_mem _ hs))
        ⟨hfit.name, fun s hs => hfit.lists s (List.mem_cons_of_mem _ hs), by omega⟩ h₁
    refine ⟨names :: results, attrs₂, ?_, h₂, List.Subset.trans hsub₁ hsub₂, .cons (hnamed.mono hsub₂) hall⟩
    rw [processTypesets, hfirst]
    change (processTypesets p sets attrs₁ >>= _) = _
    rw [hrest]
    rfl

/-! ### The text of a list -/

private theorem cilPrintAttrList_ok (hp : p.TypesNamed) (indent : Nat)
    (hknown : ∀ e ∈ attrList, e.2.Known p.typeTable) : ∃ text, cilPrintAttrList p indent attrList = .ok text := by
  induction attrList with
  | nil => exact ⟨[], rfl⟩
  | cons e attrList ih =>
    obtain ⟨attrName, set⟩ := e
    have hset := hknown _ (List.mem_cons_self ..)
    obtain ⟨rest, hrest⟩ := ih fun e he => hknown e (List.mem_cons_of_mem _ he)
    obtain ⟨pos, hpos⟩ := ebitmapToCil_ok hp hset.types_canonical hset.types
    obtain ⟨neg, hneg⟩ := ebitmapToCil_ok hp hset.negset_canonical hset.negset
    rw [cilPrintAttrList, cilPrintAttrStrs, hpos, hneg, hrest]
    exact ⟨_, rfl⟩

private theorem cilParsesOfNested_eq_map (nodes : List (Nested CString)) :
    cilParsesOfNested nodes = nodes.map cilParseOfNested := by
  induction nodes with
  | nil => rfl
  | cons node nodes ih => rw [cilParsesOfNested, ih, List.map_cons]

private theorem filterMap_attrNodes (name : CString) (es : List CilNameExpr) :
    (cilParsesOfNested (attrNodes name es)).filterMap (typeattributesetOf attrName) =
      if name = attrName then
        [.string cilKeyTypeattributeset :: .string attrName :: es.map fun e => cilParseOfNested e.node]
      else [] := by
  have hkey : cilKeyTypeattribute ≠ cilKeyTypeattributeset := by decide
  have hmap : (es.map CilNameExpr.node).map cilParseOfNested = es.map fun e => cilParseOfNested e.node := by
    rw [List.map_map]
    rfl
  rw [attrNodes, cilParsesOfNested_eq_map]
  simp only [List.map_cons, List.map_nil, cilParseOfNested, cilParsesOfNested_eq_map, hmap]
  by_cases hname : name = attrName
  · subst hname
    simp [typeattributesetOf, hkey]
  · simp [typeattributesetOf, hkey, hname]

private theorem filterMap_attrListNodes_cons (e : CString × LinkTypeSet) (attrList : List (CString × LinkTypeSet)) :
    (cilParsesOfNested (attrListNodes p (e :: attrList))).filterMap (typeattributesetOf attrName) =
      (if e.1 = attrName then
        [.string cilKeyTypeattributeset :: .string attrName ::
          (attrExprs p e.2).map fun e => cilParseOfNested e.node]
      else []) ++ (cilParsesOfNested (attrListNodes p attrList)).filterMap (typeattributesetOf attrName) := by
  rw [attrListNodes, List.flatMap_cons, cilParsesOfNested_eq_map, List.map_append, ← cilParsesOfNested_eq_map,
    ← cilParsesOfNested_eq_map, List.filterMap_append, filterMap_attrNodes, attrListNodes]

private theorem filterMap_attrListNodes_of_notMem (hname : attrName ∉ attrList.map Prod.fst) :
    (cilParsesOfNested (attrListNodes p attrList)).filterMap (typeattributesetOf attrName) = [] := by
  induction attrList with
  | nil => rfl
  | cons e attrList ih =>
    rw [List.map_cons, List.mem_cons, not_or] at hname
    rw [filterMap_attrListNodes_cons, if_neg (Ne.symm hname.1), List.nil_append]
    exact ih hname.2

private theorem filterMap_attrListNodes (hnodup : (attrList.map Prod.fst).Nodup) (hmem : (attrName, set) ∈ attrList) :
    (cilParsesOfNested (attrListNodes p attrList)).filterMap (typeattributesetOf attrName) =
      [.string cilKeyTypeattributeset :: .string attrName ::
        (attrExprs p set).map fun e => cilParseOfNested e.node] := by
  induction attrList with
  | nil => cases hmem
  | cons e attrList ih =>
    rw [List.map_cons, List.nodup_cons] at hnodup
    rw [filterMap_attrListNodes_cons]
    rcases List.mem_cons.1 hmem with rfl | hmem
    · rw [if_pos rfl, filterMap_attrListNodes_of_notMem hnodup.1, List.append_nil]
    · have hne : e.1 ≠ attrName := fun hname => hnodup.1 (hname ▸ List.mem_map_of_mem hmem)
      rw [if_neg hne, List.nil_append]
      exact ih hnodup.2 hmem

private theorem symbolNames_of_known (hp : p.TypesNamed) (hset : set.Known p.typeTable) : SymbolNames p set :=
  ⟨fun _ hw => (exists_name_of_mem_namesOf hp hset.types_canonical hset.types hw).2.1,
    fun _ hw => (exists_name_of_mem_namesOf hp hset.negset_canonical hset.negset hw).2.1⟩

/-- The attribute of a set has the types of the set exactly when its statement does. -/
private theorem attributeDenotes_iff (hp : p.TypesNamed) (h : attrs.Numbered p) {indent : Nat} {text : CString}
    (htext : cilPrintAttrList p indent attrs.attrList = .ok text) (hmem : (attrName, set) ∈ attrs.attrList)
    (nums : CilTypeNumbers p.typeTable) (S : Set Nat) :
    AttributeDenotes nums text attrName S ↔ StatementAgrees nums attrName (attrExprs p set) S := by
  have hattrs : ∀ e ∈ attrs.attrList, CilSymbol e.1 ∧ SymbolNames p e.2 := by
    intro e he
    obtain ⟨k, hk, hname⟩ := h.name e he
    rw [hname]
    exact ⟨cilSymbol_newAttrName hp.module (hk.trans h.numAttrs), symbolNames_of_known hp (h.known e he)⟩
  have hparse := cilParseText_cilPrintAttrList hattrs htext
  have hstatement := filterMap_attrListNodes h.nodup hmem (p := p)
  constructor
  · rintro ⟨nodes, statement, items, hnodes, hone, hgen, hitems⟩
    obtain rfl := Option.some.inj (hparse.symm.trans hnodes)
    rw [hstatement, List.cons.injEq] at hone
    rw [← hone.1] at hgen
    exact ⟨items, hgen, hitems⟩
  · rintro ⟨items, hgen, hitems⟩
    exact ⟨_, _, items, hparse, hstatement, hgen, hitems⟩

private theorem namesDenote_of_plain (hp : p.TypesNamed) (hset : set.Known p.typeTable) (hplain : set.isPlain = true)
    (nums : CilTypeNumbers p.typeTable) :
    NamesDenote nums (namesOf p.typeValToName set.types) (set.denote p.typeTable true ∩ p.typeTable.present) := by
  rw [LinkTypeSet.isPlain, Bool.and_eq_true, decide_eq_true_eq] at hplain
  have hdenote : set.denote p.typeTable true = {j | ∃ i ∈ set.types, j ∈ p.typeTable.members true i} := by
    rw [LinkTypeSet.denote, hplain.2, if_neg (by decide), if_neg (by decide), negated_eq_empty hset hplain.1,
      Set.sdiff_empty, listed_eq]
  refine ⟨fun name hname => (exists_name_of_mem_namesOf hp hset.types_canonical hset.types hname).1, ?_⟩
  rw [hdenote, ← types_namesOf hp hset.types_canonical hset.types]
  ext j
  simp only [typesOfName, Set.mem_ofPred_eq, Set.mem_image, Set.mem_inter_iff]
  constructor
  · rintro ⟨name, hname, i, ⟨hi, hpresent⟩, rfl⟩
    exact ⟨i, ⟨⟨name, hname, hi⟩, hpresent⟩, rfl⟩
  · rintro ⟨i, ⟨⟨name, hname, hi⟩, hpresent⟩, rfl⟩
    exact ⟨name, hname, i, ⟨hi, hpresent⟩, rfl⟩

/-- What `process_typeset` gives is right exactly when the parts of the set combine. -/
private theorem typesetAgrees_iff_of_namedBy (hp : p.TypesNamed) (hset : set.Known p.typeTable) (h : attrs.Numbered p)
    {indent : Nat} {text : CString} (htext : cilPrintAttrList p indent attrs.attrList = .ok text)
    (hnamed : NamedBy p attrs.attrList set names) (nums : CilTypeNumbers p.typeTable) :
    TypesetAgrees nums text set names (set.denote p.typeTable true ∩ p.typeTable.present) ↔
      set.Expressible p.typeTable := by
  unfold TypesetAgrees
  unfold NamedBy at hnamed
  by_cases hplain : set.isPlain = true
  · rw [if_pos hplain] at hnamed ⊢
    rw [hnamed]
    exact iff_of_true (namesDenote_of_plain hp hset hplain nums) (Or.inl hplain)
  · rw [if_neg hplain] at hnamed ⊢
    obtain ⟨attrName, rfl, hmem⟩ := hnamed
    rw [← statementAgrees_iff hp hset (Bool.eq_false_iff.2 hplain) nums attrName,
      ← attributeDenotes_iff hp h htext hmem nums]
    constructor
    · rintro ⟨attrName', hnames, hdenotes⟩
      rw [List.cons.injEq] at hnames
      rwa [hnames.1]
    · intro hdenotes
      exact ⟨attrName, rfl, hdenotes⟩

/-- Any sets of a module that there is room for are converted without an error, whichever of them share attributes,
and what a set becomes stands for the types that `type_set_expand` computes exactly when its parts combine. -/
theorem processTypesets_agrees_iff (p : ModulePolicydb) (hp : p.TypesNamed) (nums : CilTypeNumbers p.typeTable)
    (sets : List (Nat × LinkTypeSet)) (hsets : ∀ s ∈ sets, s.2.Known p.typeTable) (numAttrs indent : Nat)
    (hfit : TypesetsFit p sets numAttrs) :
    ∃ results attrs text, processTypesets p sets ⟨[], numAttrs⟩ = .ok (results, attrs) ∧
      cilPrintAttrList p indent attrs.attrList = .ok text ∧
      List.Forall₂ (fun s names => ∀ t, typeSetExpand p.typeTable s.2 true = .ok t →
        (TypesetAgrees nums text s.2 names ({i | i ∈ t} ∩ p.typeTable.present) ↔ s.2.Expressible p.typeTable))
        sets results := by
  obtain ⟨results, attrs, hrun, hnumbered, -, hnamed⟩ := processTypesets_spec hp sets hsets hfit
    (.empty p (le_trans (Nat.le_add_right ..) hfit.counter))
  obtain ⟨text, htext⟩ := cilPrintAttrList_ok hp indent hnumbered.known
  refine ⟨results, attrs, text, hrun, htext, ?_⟩
  rw [List.forall₂_iff_get] at hnamed ⊢
  refine ⟨hnamed.1, fun i hi hi' t ht => ?_⟩
  have hset := hsets _ (List.get_mem sets ⟨i, hi⟩)
  -- what `type_set_expand` returns is the set that the text is compared with
  have hexpand := ((typeSetExpand_denotes p.typeTable _ true hp.canonical hset.types_canonical
    hset.negset_canonical).1 t ht).2
  have htypes : {i | i ∈ t} = (sets.get ⟨i, hi⟩).2.denote p.typeTable true := Set.ext hexpand
  rw [htypes]
  exact typesetAgrees_iff_of_namedBy hp hset hnumbered htext (hnamed.2 i hi hi') nums

/-- A module with the types `a` and `b` and the attribute `d` of the first of them. -/
def attributeModule : ModulePolicydb where
  name := ['m']
  roles := []
  rolesNodup := by decide
  types := []
  roleValToName := fun _ => none
  typeValToName := fun i => [['a'], ['d'], ['b']][i]?
  typeTable := attributeTable
  rolesScope := []
  typesScope := []
  global := []

private theorem attributeTable_flat : attributeTable.Flat := by
  intro i type htype hattrib j hj
  match i with
  | 0 | 2 =>
    cases htype
    cases hattrib
  | 1 =>
    cases htype
    obtain rfl : j = 0 := List.mem_singleton.1 ((mem_ebitmapOfList (by decide) j).1 hj)
    rfl
  | i + 3 => cases htype

private theorem attributeModule_typesNamed : attributeModule.TypesNamed := by
  have hsymbol : ∀ name ∈ [['a'], ['d'], ['b']], CilSymbol name ∧ NoOperator name := by
    intro name hname
    have hall : ∀ v ∈ [['a'], ['d'], ['b']], v ≠ [] ∧ v.all (fun c => c.isDigit || c.isAlpha) = true ∧
      cilGetExprOperatorFlavor v = none := by decide
    exact ⟨cilSymbol_of_all (hall name hname).1 (hall name hname).2.1, (hall name hname).2.2⟩
  refine ⟨attributeTable_canonical, attributeTable_flat, cilSymbol_of_all (by decide) (by decide), ?_, ?_⟩
  · intro i hi hsome
    match i with
    | 0 => exact ⟨_, rfl, hsymbol _ (by decide)⟩
    | 1 => exact ⟨_, rfl, hsymbol _ (by decide)⟩
    | 2 => exact ⟨_, rfl, hsymbol _ (by decide)⟩
    | i + 3 => cases hsome
  · intro i j name hi hj
    have hnodup : [['a'], ['d'], ['b']].Nodup := by decide
    exact (List.getElem?_inj (List.getElem?_eq_some_iff.1 hi).1 hnodup).1 (hi.trans hj.symm)

private theorem attributeModule_present : attributeTable.present = {0, 2} := by
  ext i
  constructor
  · rintro ⟨hlt, type, htype, hflavor⟩
    match i with
    | 0 => exact Or.inl rfl
    | 1 =>
      cases htype
      exact absurd rfl hflavor
    | 2 => exact Or.inr rfl
    | i + 3 => cases htype
  · rintro (rfl | rfl)
    · exact ⟨by decide, _, rfl, by decide⟩
    · exact ⟨by decide, _, rfl, by decide⟩

/-- The types of the module have the numbers 0 and 1. -/
def attributeModuleNumbers : CilTypeNumbers attributeModule.typeTable where
  count := 2
  number := fun i => i / 2
  bijOn := by
    change Set.BijOn _ attributeTable.present _
    rw [attributeModule_present]
    refine ⟨?_, ?_, ?_⟩
    · rintro i (rfl | rfl) <;> decide
    · rintro i (rfl | rfl) j (rfl | rfl) h <;> simp_all
    · intro j hj
      have hlt : j < 2 := hj
      match j with
      | 0 => exact ⟨0, Or.inl rfl, rfl⟩
      | 1 => exact ⟨2, Or.inr rfl, rfl⟩

private theorem known_ebitmapOfList (flags : BitVec 32) {types negset : List Nat} (htypes : ∀ i ∈ types, i < 3)
    (hnegset : ∀ i ∈ negset, i < 3) :
    LinkTypeSet.Known attributeTable ⟨ebitmapOfList types, ebitmapOfList negset, flags⟩ := by
  have hvalue : ∀ i < 3, i < attributeTable.nprim.toNat ∧ (attributeTable.typeValToStruct i).isSome := by decide
  have hmem : ∀ l : List Nat, (∀ i ∈ l, i < 3) → ∀ i ∈ ebitmapOfList l, i < 3 := fun l hl i hi =>
    hl i ((mem_ebitmapOfList (fun j hj => (hl j hj).trans (by decide)) i).1 hi)
  exact ⟨ebitmapOfList_canonical _, ebitmapOfList_canonical _, fun i hi => hvalue i (hmem types htypes i hi),
    fun i hi => hvalue i (hmem negset hnegset i hi)⟩

/-- The set `{ d -b }` twice, with an attribute for another list between the two, and the complement of `a`. -/
def attributeModuleSets : List (Nat × LinkTypeSet) :=
  [(0, ⟨ebitmapOfList [1], ebitmapOfList [2], 0⟩), (1, ⟨ebitmapOfList [1], ebitmapOfList [2], 0⟩),
    (0, ⟨ebitmapOfList [0], ebitmapOfList [], typeComp⟩)]

/-- The second set has the attribute of the first, though another one is made in between. -/
theorem processTypesets_agrees_attributeModule :
    ∃ results attrs text, processTypesets attributeModule attributeModuleSets ⟨[], 0⟩ = .ok (results, attrs) ∧
      cilPrintAttrList attributeModule 1 attrs.attrList = .ok text ∧
      List.Forall₂ (fun s names => ∀ t, typeSetExpand attributeTable s.2 true = .ok t →
        (TypesetAgrees attributeModuleNumbers text s.2 names ({i | i ∈ t} ∩ attributeTable.present) ↔
          s.2.Expressible attributeTable)) attributeModuleSets results := by
  have hsets : ∀ s ∈ attributeModuleSets, s.2.Known attributeTable := by
    intro s hs
    rcases List.mem_cons.1 hs with rfl | hs
    · exact known_ebitmapOfList 0 (by decide) (by decide)
    rcases List.mem_cons.1 hs with rfl | hs
    · exact known_ebitmapOfList 0 (by decide) (by decide)
    obtain rfl := List.mem_singleton.1 hs
    exact known_ebitmapOfList typeComp (by decide) (by decide)
  exact processTypesets_agrees_iff attributeModule attributeModule_typesNamed attributeModuleNumbers
    attributeModuleSets hsets 0 1 ⟨by unfold ModulePolicydb.NameFits; decide, by decide, by decide⟩

/-- The set `{ * -a }`, which has the type `b`. -/
def starNegativeSet : LinkTypeSet := ⟨ebitmapOfList [], ebitmapOfList [0], typeStar⟩

/-- The text has two expressions for the set, beside each other. -/
theorem starNegativeSet_counterexample :
    typeSetExpand attributeTable starNegativeSet true = .ok (ebitmapOfList [2, 3]) ∧
    ∃ text, processTypesets attributeModule [(0, starNegativeSet)] ⟨[], 0⟩ =
        .ok ([[newAttrName attributeModule 1]], ⟨[(newAttrName attributeModule 1, starNegativeSet)], 1⟩) ∧
      cilPrintAttrList attributeModule 0 [(newAttrName attributeModule 1, starNegativeSet)] = .ok text ∧
      text = "(typeattribute m_typeattr_1)\n(typeattributeset m_typeattr_1 (all)(not (a )))\n".toList ∧
      ¬ TypesetAgrees attributeModuleNumbers text starNegativeSet [newAttrName attributeModule 1]
        ({i | i ∈ ebitmapOfList [2, 3]} ∩ attributeTable.present) := by
  have hset : starNegativeSet.Known attributeTable := known_ebitmapOfList typeStar (by decide) (by decide)
  have hprint : cilPrintAttrList attributeModule 0 [(newAttrName attributeModule 1, starNegativeSet)] =
      .ok "(typeattribute m_typeattr_1)\n(typeattributeset m_typeattr_1 (all)(not (a )))\n".toList := by
        decide +kernel
  have hnumbered := (AttrState.Numbered.empty attributeModule (Nat.zero_le _)).add hset (by decide)
  refine ⟨by decide +kernel, _, rfl, hprint, rfl, ?_⟩
  rintro h
  rw [TypesetAgrees, if_neg (by decide)] at h
  obtain ⟨attrName, hnames, hdenotes⟩ := h
  obtain rfl := (List.cons.inj hnames).1
  have hagrees := (attributeDenotes_iff attributeModule_typesNamed hnumbered hprint (List.mem_singleton.2 rfl) _ _).1
    hdenotes
  exact not_statementAgrees_of_length (length_attrExprs_of_star (by decide) (by decide)) hagrees

end Sepol
