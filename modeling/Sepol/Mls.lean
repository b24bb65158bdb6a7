import Sepol.Lib.Delimited
import Sepol.Policydb

/-!
# Multi-level security

The functions of `mls.c` that print, parse, check and convert the MLS range of a context.  A result `none` of the
printer stands for a `NULL` name that the code would dereference, a result `none` of the parser for `STATUS_ERR`.
-/

namespace Sepol

/-! ### Printing -/

/-- What is written when a run of `range` categories ends before position `i`. -/
def mlsCloseRange (p : Policydb) (range i : Nat) : Option CString :=
  if range > 1 then (p.pCatValToName (i - 1)).map fun name => (if range > 2 then '.' else ',') :: name
  else some []

/-- The variables of the loop over the categories: the text so far, `range` and `wrote_sep`. -/
structure MlsCatState where
  scontextp : CString
  range : Nat
  wroteSep : Bool

/-- The body of the loop over the categories, for position `i` of node `cnode`. -/
def mlsCatStep (p : Policydb) (s : MlsCatState) (cnode : EbitmapNode) (i : Nat) : Option MlsCatState :=
  if ebitmapNodeGetBit cnode i then
    if s.range ≠ 0 then some { s with range := s.range + 1 }
    else (p.pCatValToName i).map fun name =>
      { scontextp := s.scontextp ++ (if !s.wroteSep then ':' else ',') :: name
        range := s.range + 1
        wroteSep := true }
  else (mlsCloseRange p s.range i).map fun text => { s with scontextp := s.scontextp ++ text, range := 0 }

/-- One pass of the loop of `mls_sid_to_context` over the levels. -/
def mlsLevelToContext (p : Policydb) (level : MlsLevel) : Option CString := do
  let name ← p.pSensValToName (level.sens - 1)
  let (visited, i) := ebitmapForEachBit level.cat
  let s ← visited.foldlM (fun s v => mlsCatStep p s v.1 v.2) ⟨name, 0, false⟩
  let text ← mlsCloseRange p s.range i
  return s.scontextp ++ text

def mlsSidToContext (p : Policydb) (context : Context) : Option CString := do
  if !p.mls then return []
  let low ← mlsLevelToContext p context.range.level0
  if mlsLevelEq context.range.level0 context.range.level1 then return ':' :: low
  let high ← mlsLevelToContext p context.range.level1
  return ':' :: low ++ '-' :: high

/-- The loop body of `mls_compute_context_len` over the categories, on `len` and `range`. -/
def mlsCatLenStep (p : Policydb) (s : Nat × Nat) (cnode : EbitmapNode) (i : Nat) : Option (Nat × Nat) :=
  if ebitmapNodeGetBit cnode i then
    if s.2 ≠ 0 then some (s.1, s.2 + 1)
    else (p.pCatValToName i).map fun name => (s.1 + (name.length + 1), s.2 + 1)
  else if s.2 > 1 then (p.pCatValToName (i - 1)).map fun name => (s.1 + (name.length + 1), 0)
  else some (s.1, 0)

def mlsLevelLen (p : Policydb) (len : Nat) (level : MlsLevel) : Option Nat := do
  let name ← p.pSensValToName (level.sens - 1)
  let (visited, i) := ebitmapForEachBit level.cat
  let s ← visited.foldlM (fun s v => mlsCatLenStep p s v.1 v.2) (len + name.length, 0)
  if s.2 > 1 then
    let name ← p.pCatValToName (i - 1)
    return s.1 + (name.length + 1)
  return s.1

def mlsContextLen (p : Policydb) (context : Context) : Option Nat := do
  if !p.mls then return 0
  let len ← mlsLevelLen p 1 context.range.level0
  if mlsLevelEq context.range.level0 context.range.level1 then return len
  mlsLevelLen p (len + 1) context.range.level1

/-- `mls_compute_context_len`, which adds the lengths as `unsigned int` and returns the sum as `int`. -/
def mlsComputeContextLen (p : Policydb) (context : Context) : Option Int := (mlsContextLen p context).map sizeToInt

/-- `mls_to_string`; the result starts behind the colon.  It is also `none` when the buffers are refused because their
size is negative, and when they are not as long as the text. -/
def mlsToString (p : Policydb) (mls : Context) : Option CString := do
  let len ← mlsComputeContextLen p mls
  let ptr ← mlsSidToContext p mls
  if len ≤ 0 ∨ len ≥ intMax ∨ len ≠ ptr.length then none
  return ptr.drop 1

/-! ### Parsing -/

/-- One element of a category list, a category or a range of categories. -/
def mlsParseCat (p : Policydb) (cat : Ebitmap) (scontextp : CString) : Option Ebitmap := do
  let (name, dot, rngptr) := Delimited.scan (· = '.') scontextp
  let catdatum ← hashtabSearch p.pCats.table name
  let cat ← ebitmapSetBit cat (catdatum.value - 1) true
  if dot.isNone then return cat
  let rngdatum ← hashtabSearch p.pCats.table rngptr
  if catdatum.value ≥ rngdatum.value then none
  (List.range' catdatum.value (rngdatum.value - catdatum.value)).foldlM (fun cat i => ebitmapSetBit cat i true) cat

/-- The loop over a category list, with the delimiter that ended it and the text behind.  Every element but the last
is followed by a comma, so the length of the string is enough fuel. -/
def mlsParseCats (p : Policydb) : Nat → Ebitmap → CString → Option (Ebitmap × Option Char × CString)
  | 0, _, _ => none
  | fuel + 1, cat, s => do
    let (scontextp, delim, rest) := Delimited.scan (fun c => c = ',' || c = '-') s
    let cat ← mlsParseCat p cat scontextp
    if delim = some ',' then mlsParseCats p fuel cat rest else return (cat, delim, rest)

/-- One pass of the loop over the levels: the level, the delimiter behind it, and the text behind that. -/
def mlsParseLevel (p : Policydb) (level : MlsLevel) (scontextp : CString) (delim : Option Char) (rest : CString) :
    Option (MlsLevel × Option Char × CString) := do
  let levdatum ← hashtabSearch p.pLevels.table scontextp
  if delim = some ':' then
    let (cat, delim, rest) ← mlsParseCats p (rest.length + 1) level.cat rest
    return (⟨levdatum.level.sens, cat⟩, delim, rest)
  return (⟨levdatum.level.sens, level.cat⟩, delim, rest)

/-- `mls_context_to_sid`: the context with its new range, and the text `*scontext` points to afterwards. -/
def mlsContextToSid (p : Policydb) (oldc : Char) (scontext : CString) (context : Context) :
    Option (Context × CString) := do
  if !p.mls then return (context, scontext)
  if oldc = '\x00' then none
  let (low, delim, rest) := Delimited.scan (fun c => c = ':' || c = '-') scontext
  let (level0, delim, rest) ← mlsParseLevel p context.range.level0 low delim rest
  if delim = some '-' then
    let (high, delim, rest) := Delimited.scan (· = ':') rest
    let (level1, delim, rest) ← mlsParseLevel p context.range.level1 high delim rest
    -- a third level is scanned like the second one, but the loop ends before it is looked at
    let rest := if delim = some '-' then (Delimited.scan (· = ':') rest).2.2 else rest
    return ({ context with range := ⟨level0, level1⟩ }, rest.drop 1)
  return ({ context with range := ⟨level0, mlsLevelCpy level0⟩ }, rest.drop 1)

def mlsFromString (p : Policydb) (str : CString) (mls : Context) : Option Context :=
  (mlsContextToSid p '$' str mls).map Prod.fst

/-! ### Checking and converting -/

/-- The checks of `mls_context_isvalid` on one level. -/
def mlsLevelIsvalid (p : Policydb) (level : MlsLevel) : Bool :=
  if level.sens = 0 || level.sens > p.pLevels.nprim then false
  else match hashtabSearchName p.pLevels.table (p.pSensValToName (level.sens - 1)) with
    | none => false
    | some levdatum =>
      (ebitmapPositiveBits level.cat).all fun i =>
        !decide (i > p.pCats.nprim) && ebitmapGetBit levdatum.level.cat i

def mlsContextIsvalid (p : Policydb) (c : Context) : Bool :=
  if !p.mls then true
  else if !mlsLevelDom c.range.level1 c.range.level0 then false
  else if !(mlsLevelIsvalid p c.range.level0 && mlsLevelIsvalid p c.range.level1) then false
  else if c.role = objectRVal then true
  else if c.user = 0 || c.user > p.pUsers.nprim then false
  else match p.userValToStruct (c.user - 1) with
    | none => false
    | some usrdatum => mlsRangeContains usrdatum.expRange c.range

/-- One pass of the loop of `mls_convert_context`; `none` stands for `-EINVAL`. -/
def mlsConvertLevel (oldp newp : Policydb) (level : MlsLevel) : Option MlsLevel := do
  let levdatum ← hashtabSearchName newp.pLevels.table (oldp.pSensValToName (level.sens - 1))
  let bitmap ← (ebitmapPositiveBits level.cat).foldlM (fun bitmap i => do
    let catdatum ← hashtabSearchName newp.pCats.table (oldp.pCatValToName i)
    ebitmapSetBit bitmap (catdatum.value - 1) true) ebitmapInit
  return ⟨levdatum.level.sens, bitmap⟩

def mlsConvertContext (oldp newp : Policydb) (c : Context) : Option Context := do
  if !oldp.mls then return c
  let level0 ← mlsConvertLevel oldp newp c.range.level0
  let level1 ← mlsConvertLevel oldp newp c.range.level1
  return { c with range := ⟨level0, level1⟩ }

end Sepol
