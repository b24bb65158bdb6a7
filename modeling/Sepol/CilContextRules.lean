import Sepol.Lib.SortedRuns
import Sepol.HashtabMap

/-!
# Context rules

The rules that label files, ports, nodes and so on are sorted, rule kind by rule kind, and neighbours that the
comparison function of the kind takes for one rule are merged, or reported when their contexts differ.
-/

namespace Sepol.ContextRules

def strcmp (s t : CString) : Ordering := compare s t

/-- `memcmp` of two objects of one size. -/
def memcmp (s t : List UInt8) : Ordering := compare s t

def spaceshipCmp {α : Type} [Ord α] (a b : α) : Ordering := compare a b

/-! ### Contexts -/

/-- `cil_cats` once it is evaluated: the names of its categories. -/
structure CilCats where
  datumExpr : List CString
deriving DecidableEq

structure CilLevel where
  sens : CString
  cats : Option CilCats
deriving DecidableEq

structure CilLevelrange where
  low : Option CilLevel
  high : Option CilLevel
deriving DecidableEq

/-- A context whose names are resolved; `type` is the actual type of an alias. -/
structure CilContext where
  user : CString
  role : CString
  type : CString
  range : Option CilLevelrange
deriving DecidableEq

/-- The checks for the same pointer and for `NULL` that come before a comparison. -/
def comparePtr {α : Type} (compare : α → α → Ordering) : Option α → Option α → Ordering
  | none, none => .eq
  | none, some _ => .lt
  | some _, none => .gt
  | some a, some b => compare a b

/-- The loops of `cats_compare`: they end at the first category that both lists have. -/
def catsLoop : List CString → List CString → Ordering
  | [], _ => .eq
  | i :: a, b =>
    match b.find? fun j => strcmp i j = .eq with
    | some j => strcmp i j
    | none => catsLoop a b

def catsCompare : Option CilCats → Option CilCats → Ordering :=
  comparePtr fun a b => catsLoop a.datumExpr b.datumExpr

def levelCompare : Option CilLevel → Option CilLevel → Ordering :=
  comparePtr fun a b => (strcmp a.sens b.sens).then (catsCompare a.cats b.cats)

def rangeCompare : Option CilLevelrange → Option CilLevelrange → Ordering :=
  comparePtr fun a b => (levelCompare a.low b.low).then (levelCompare a.high b.high)

def contextCompare (a b : CilContext) : Ordering :=
  (strcmp a.user b.user).then <| (strcmp a.role b.role).then <|
    (strcmp a.type b.type).then (rangeCompare a.range b.range)

/-! ### The rules -/

inductive CilFileconTypes where
  | any
  | file
  | dir
  | char
  | block
  | socket
  | pipe
  | symlink
deriving DecidableEq

def CilFileconTypes.value : CilFileconTypes → Nat
  | .any => 0
  | .file => 1
  | .dir => 2
  | .char => 3
  | .block => 4
  | .socket => 5
  | .pipe => 6
  | .symlink => 7

inductive CilProtocol where
  | udp
  | tcp
  | dccp
  | sctp
deriving DecidableEq

def CilProtocol.value : CilProtocol → Nat
  | .udp => 1
  | .tcp => 2
  | .dccp => 3
  | .sctp => 4

inductive CilFsuseTypes where
  | xattr
  | task
  | trans
deriving DecidableEq

/-- The values of `SECURITY_FS_USE_XATTR`, `SECURITY_FS_USE_TASK` and `SECURITY_FS_USE_TRANS`. -/
def CilFsuseTypes.value : CilFsuseTypes → Nat
  | .xattr => 1
  | .trans => 2
  | .task => 3

/-- A file context; `path` is the name of the declared path, and an empty context is no context. -/
structure CilFilecon where
  pathStr : CString
  path : Option CString
  type : CilFileconTypes
  context : Option CilContext
deriving DecidableEq

def CilFilecon.pathText (f : CilFilecon) : CString := f.path.getD f.pathStr

structure CilIbpkeycon where
  subnetPrefixStr : CString
  pkeyLow : UInt32
  pkeyHigh : UInt32
  context : CilContext
deriving DecidableEq

structure CilPortcon where
  proto : CilProtocol
  portLow : UInt32
  portHigh : UInt32
  context : CilContext
deriving DecidableEq

inductive CilFamily where
  | inet
  | inet6
deriving DecidableEq

def CilFamily.size : CilFamily → Nat
  | .inet => 4
  | .inet6 => 16

/-- An address in network order. -/
structure CilIpaddr where
  family : CilFamily
  ip : List UInt8
  length_ip : ip.length = family.size
deriving DecidableEq

/-- A node rule; its address and its mask were resolved to addresses of one family. -/
structure CilNodecon where
  addr : CilIpaddr
  mask : CilIpaddr
  context : CilContext
  family_eq : addr.family = mask.family
deriving DecidableEq

structure CilGenfscon where
  fsStr : CString
  pathStr : CString
  fileType : CilFileconTypes
  context : CilContext
deriving DecidableEq

structure CilNetifcon where
  interfaceStr : CString
  ifContext : CilContext
  packetContext : CilContext
deriving DecidableEq

structure CilIbendportcon where
  devNameStr : CString
  port : UInt32
  context : CilContext
deriving DecidableEq

structure CilPirqcon where
  pirq : UInt32
  context : CilContext
deriving DecidableEq

structure CilIomemcon where
  iomemLow : UInt64
  iomemHigh : UInt64
  context : CilContext
deriving DecidableEq

structure CilIoportcon where
  ioportLow : UInt32
  ioportHigh : UInt32
  context : CilContext
deriving DecidableEq

structure CilPcidevicecon where
  dev : UInt32
  context : CilContext
deriving DecidableEq

structure CilDevicetreecon where
  path : CString
  context : CilContext
deriving DecidableEq

structure CilFsuse where
  type : CilFsuseTypes
  fsStr : CString
  context : CilContext
deriving DecidableEq

/-! ### Comparison functions -/

structure FcData where
  hasMeta : Bool
  stemLen : Nat
  strLen : Nat
deriving DecidableEq

def isMetaChar (c : Char) : Bool := c ∈ ['.', '^', '$', '?', '*', '+', '|', '[', '(', '{']

/-- A character that is no meta character. -/
def FcData.literal (fc : FcData) : FcData :=
  { fc with stemLen := if fc.hasMeta then fc.stemLen else fc.stemLen + 1, strLen := fc.strLen + 1 }

def fcFillLoop (fc : FcData) : CString → FcData
  | [] => fc
  | ['\\'] => fc.literal
  | '\\' :: _ :: path => fcFillLoop fc.literal path
  | c :: path =>
    if isMetaChar c then fcFillLoop { fc with hasMeta := true, strLen := fc.strLen + 1 } path
    else fcFillLoop fc.literal path

/-- `cil_post_fc_fill_data`. -/
def cilPostFcFillData (path : CString) : FcData := fcFillLoop ⟨false, 0, 0⟩ path

def cilPostFileconCompare (a b : CilFilecon) : Ordering :=
  let aData := cilPostFcFillData a.pathText
  let bData := cilPostFcFillData b.pathText
  if aData.hasMeta ∧ ¬ bData.hasMeta then .lt
  else if bData.hasMeta ∧ ¬ aData.hasMeta then .gt
  else if aData.stemLen < bData.stemLen then .lt
  else if bData.stemLen < aData.stemLen then .gt
  else if aData.strLen < bData.strLen then .lt
  else if bData.strLen < aData.strLen then .gt
  else if a.type.value < b.type.value then .lt
  else if b.type.value < a.type.value then .gt
  else strcmp a.pathText b.pathText

def cilPostIbpkeyconCompare (a b : CilIbpkeycon) : Ordering :=
  (strcmp a.subnetPrefixStr b.subnetPrefixStr).then <|
    (spaceshipCmp (a.pkeyHigh - a.pkeyLow) (b.pkeyHigh - b.pkeyLow)).then <|
      if a.pkeyLow < b.pkeyLow then .lt
      else if b.pkeyLow < a.pkeyLow then .gt
      else .eq

def cilPostPortconCompare (a b : CilPortcon) : Ordering :=
  (spaceshipCmp (a.portHigh - a.portLow) (b.portHigh - b.portLow)).then <|
    if a.portLow < b.portLow then .lt
    else if b.portLow < a.portLow then .gt
    else if a.proto.value < b.proto.value then .lt
    else if b.proto.value < a.proto.value then .gt
    else .eq

def cilPostGenfsconCompare (a b : CilGenfscon) : Ordering :=
  (strcmp a.fsStr b.fsStr).then (strcmp a.pathStr b.pathStr)

def cilPostNetifconCompare (a b : CilNetifcon) : Ordering := strcmp a.interfaceStr b.interfaceStr

def cilPostIbendportconCompare (a b : CilIbendportcon) : Ordering :=
  (strcmp a.devNameStr b.devNameStr).then <|
    if a.port < b.port then .lt
    else if b.port < a.port then .gt
    else .eq

def cilPostNodeconCompare (a b : CilNodecon) : Ordering :=
  if a.addr.family ≠ b.addr.family then if a.addr.family = .inet then .lt else .gt
  else (memcmp a.mask.ip b.mask.ip).swap.then (memcmp a.addr.ip b.addr.ip)

def cilPostPirqconCompare (a b : CilPirqcon) : Ordering :=
  if a.pirq < b.pirq then .lt
  else if b.pirq < a.pirq then .gt
  else .eq

def cilPostIomemconCompare (a b : CilIomemcon) : Ordering :=
  (spaceshipCmp (a.iomemHigh - a.iomemLow) (b.iomemHigh - b.iomemLow)).then <|
    if a.iomemLow < b.iomemLow then .lt
    else if b.iomemLow < a.iomemLow then .gt
    else .eq

def cilPostIoportconCompare (a b : CilIoportcon) : Ordering :=
  (spaceshipCmp (a.ioportHigh - a.ioportLow) (b.ioportHigh - b.ioportLow)).then <|
    if a.ioportLow < b.ioportLow then .lt
    else if b.ioportLow < a.ioportLow then .gt
    else .eq

def cilPostPcideviceconCompare (a b : CilPcidevicecon) : Ordering :=
  if a.dev < b.dev then .lt
  else if b.dev < a.dev then .gt
  else .eq

def cilPostDevicetreeconCompare (a b : CilDevicetreecon) : Ordering := strcmp a.path b.path

def cilPostFsuseCompare (a b : CilFsuse) : Ordering :=
  if a.type.value < b.type.value then .lt
  else if b.type.value < a.type.value then .gt
  else strcmp a.fsStr b.fsStr

/-- `cil_post_filecon_context_compare`: an empty context is a `NULL` that is read. -/
def cilPostFileconContextCompare (a b : CilFilecon) : Option Ordering := do
  let aContext ← a.context
  let bContext ← b.context
  some (contextCompare aContext bContext)

def cilPostNetifconContextCompare (a b : CilNetifcon) : Ordering :=
  (contextCompare a.ifContext b.ifContext).then (contextCompare a.packetContext b.packetContext)

/-! ### The kinds of rules -/

inductive ContextRuleKind where
  | netifcon
  | genfscon
  | ibpkeycon
  | ibendportcon
  | portcon
  | nodecon
  | fsuse
  | filecon
  | pirqcon
  | iomemcon
  | ioportcon
  | pcidevicecon
  | devicetreecon
deriving DecidableEq

abbrev Rule : ContextRuleKind → Type
  | .netifcon => CilNetifcon
  | .genfscon => CilGenfscon
  | .ibpkeycon => CilIbpkeycon
  | .ibendportcon => CilIbendportcon
  | .portcon => CilPortcon
  | .nodecon => CilNodecon
  | .fsuse => CilFsuse
  | .filecon => CilFilecon
  | .pirqcon => CilPirqcon
  | .iomemcon => CilIomemcon
  | .ioportcon => CilIoportcon
  | .pcidevicecon => CilPcidevicecon
  | .devicetreecon => CilDevicetreecon

/-- The comparison function that `cil_post_db` sorts the rules of a kind by. -/
def compar : (k : ContextRuleKind) → Rule k → Rule k → Ordering
  | .netifcon => cilPostNetifconCompare
  | .genfscon => cilPostGenfsconCompare
  | .ibpkeycon => cilPostIbpkeyconCompare
  | .ibendportcon => cilPostIbendportconCompare
  | .portcon => cilPostPortconCompare
  | .nodecon => cilPostNodeconCompare
  | .fsuse => cilPostFsuseCompare
  | .filecon => cilPostFileconCompare
  | .pirqcon => cilPostPirqconCompare
  | .iomemcon => cilPostIomemconCompare
  | .ioportcon => cilPostIoportconCompare
  | .pcidevicecon => cilPostPcideviceconCompare
  | .devicetreecon => cilPostDevicetreeconCompare

/-- The comparison of the contexts of two rules; there is no result where `NULL` is read. -/
def concompar : (k : ContextRuleKind) → Rule k → Rule k → Option Ordering
  | .netifcon => fun a b => some (cilPostNetifconContextCompare a b)
  | .genfscon => fun a b => some (contextCompare a.context b.context)
  | .ibpkeycon => fun a b => some (contextCompare a.context b.context)
  | .ibendportcon => fun a b => some (contextCompare a.context b.context)
  | .portcon => fun a b => some (contextCompare a.context b.context)
  | .nodecon => fun a b => some (contextCompare a.context b.context)
  | .fsuse => fun a b => some (contextCompare a.context b.context)
  | .filecon => cilPostFileconContextCompare
  | .pirqcon => fun a b => some (contextCompare a.context b.context)
  | .iomemcon => fun a b => some (contextCompare a.context b.context)
  | .ioportcon => fun a b => some (contextCompare a.context b.context)
  | .pcidevicecon => fun a b => some (contextCompare a.context b.context)
  | .devicetreecon => fun a b => some (contextCompare a.context b.context)

/-! ### The pass -/

/-- The sort of the C library: some arrangement that is in order. -/
structure Qsort {ρ : Type} (cmp : ρ → ρ → Ordering) where
  sort : List ρ → List ρ
  perm : ∀ l, (sort l).Perm l
  sorted : ∀ l, (sort l).Pairwise fun a b => cmp a b ≠ .gt

/-- The variables of the loop; `ok` says whether `rc` is still `SEPOL_OK`. -/
structure LoopState (ρ : Type) where
  i : Nat
  removed : Nat
  conflicting : Nat
  ok : Bool
  array : List ρ

section Pass

variable {ρ : Type}

/-- The comparison of two neighbours in the body of the loop: the next rule is a new one, or it is removed, with a
report when its context differs. -/
def processPair (compar : ρ → ρ → Ordering) (concompar : ρ → ρ → Option Ordering) (multipleDecls : Bool) (ai aj : ρ)
    (s : LoopState ρ) : Option (LoopState ρ) :=
  if compar ai aj ≠ .eq then some { s with i := s.i + 1, conflicting := 0 }
  else
    (if multipleDecls then (concompar ai aj).map fun c => decide (c ≠ .eq) else some true).map fun conflict =>
      if conflict then { s with removed := s.removed + 1, ok := false, conflicting := s.conflicting + 1 }
      else { s with removed := s.removed + 1 }

/-- The body of the loop for `j`. -/
def processStep (compar : ρ → ρ → Ordering) (concompar : ρ → ρ → Option Ordering) (multipleDecls : Bool)
    (s : LoopState ρ) (j : Nat) : Option (LoopState ρ) := do
  let ai ← s.array[s.i]?
  let aj ← s.array[j]?
  let s ← processPair compar concompar multipleDecls ai aj s
  some (if s.i ≠ j ∧ s.conflicting = 0 then { s with array := s.array.set s.i aj } else s)

/-- `__cil_post_process_context_rules`: whether it succeeds, and the rules it leaves. -/
def cilPostProcessContextRules (compar : ρ → ρ → Ordering) (concompar : ρ → ρ → Option Ordering)
    (multipleDecls : Bool) (qsort : List ρ → List ρ) (rules : List ρ) : Option (Bool × List ρ) :=
  if rules.length < 2 then some (true, rules)
  else do
    let s ← (List.range' 1 (rules.length - 1)).foldlM (processStep compar concompar multipleDecls)
      ⟨0, 0, 0, true, qsort rules⟩
    some (s.ok, s.array.take (rules.length - s.removed))

end Pass

end Sepol.ContextRules
