import Sepol.EbitmapIter

/-!
# Security contexts

MLS levels and ranges (`mls_types.h`) and security contexts (`context.h`).  `level0` and `level1` are the low and the
high level of a range.  Comparing bitmaps node by node makes `contextCmp` the equality of contexts.
-/

namespace Sepol

structure MlsLevel where
  sens : Nat
  cat : Ebitmap
deriving DecidableEq

structure MlsRange where
  level0 : MlsLevel
  level1 : MlsLevel
deriving DecidableEq

structure Context where
  user : Nat
  role : Nat
  type : Nat
  range : MlsRange
deriving DecidableEq

def mlsLevelInit : MlsLevel := ⟨0, ebitmapInit⟩

def mlsRangeInit : MlsRange := ⟨mlsLevelInit, mlsLevelInit⟩

def contextInit : Context := ⟨0, 0, 0, mlsRangeInit⟩

def mlsLevelCpy (src : MlsLevel) : MlsLevel := ⟨src.sens, ebitmapCpy src.cat⟩

def mlsRangeCpy (src : MlsRange) : MlsRange := ⟨mlsLevelCpy src.level0, mlsLevelCpy src.level1⟩

def contextCpy (src : Context) : Context := ⟨src.user, src.role, src.type, mlsRangeCpy src.range⟩

def mlsLevelEq (l1 l2 : MlsLevel) : Bool := l1.sens = l2.sens && ebitmapCmp l1.cat l2.cat

def mlsLevelDom (l1 l2 : MlsLevel) : Bool := l1.sens ≥ l2.sens && ebitmapContains l1.cat l2.cat

def mlsRangeContains (r1 r2 : MlsRange) : Bool :=
  mlsLevelDom r2.level0 r1.level0 && mlsLevelDom r1.level1 r2.level1

def mlsContextCmp (c1 c2 : Context) : Bool :=
  mlsLevelEq c1.range.level0 c2.range.level0 && mlsLevelEq c1.range.level1 c2.range.level1

def contextCmp (c1 c2 : Context) : Bool :=
  c1.user = c2.user && c1.role = c2.role && c1.type = c2.type && mlsContextCmp c1 c2

theorem mlsLevelEq_iff (l1 l2 : MlsLevel) : mlsLevelEq l1 l2 = true ↔ l1 = l2 := by
  cases l1; cases l2
  simp [mlsLevelEq, ebitmapCmp_iff]

theorem contextCmp_iff (c1 c2 : Context) : contextCmp c1 c2 = true ↔ c1 = c2 := by
  obtain ⟨_, _, _, ⟨_, _⟩⟩ := c1
  obtain ⟨_, _, _, ⟨_, _⟩⟩ := c2
  simp [contextCmp, mlsContextCmp, mlsLevelEq_iff, and_assoc]

@[simp] theorem mlsLevelCpy_eq (l : MlsLevel) : mlsLevelCpy l = l := by
  simp [mlsLevelCpy]

@[simp] theorem contextCpy_eq (c : Context) : contextCpy c = c := by
  simp [contextCpy, mlsRangeCpy]

end Sepol

/-!
## The SID table

The functions of `sidtab.c` on a table whose bucket array is allocated.  Where the code allocates memory the model
takes a Boolean `mem`, which says whether the allocations of that call succeed.
-/

namespace Sepol

inductive Errno where
  | enomem
  | eexist
  | einval
deriving DecidableEq

abbrev SecurityId : Type := BitVec 32

abbrev secinitsidUnlabeled : SecurityId := 3

/-- `UINT_MAX`. -/
abbrev uintMax : SecurityId := 0xffffffff

abbrev sidtabSize : Nat := 128

structure SidtabNode where
  sid : SecurityId
  context : Context
deriving DecidableEq

structure Sidtab where
  htable : Fin sidtabSize → List SidtabNode
  nel : BitVec 32
  nextSid : BitVec 32
  shutdown : Bool

abbrev sidtabHashMask : SecurityId := 127

def sidtabHash (sid : SecurityId) : Fin sidtabSize := Fin.ofNat sidtabSize (sid &&& sidtabHashMask).toNat

def sidtabInit : Sidtab := ⟨fun _ => [], 0, 1, false⟩

/-- The nodes of the table in the order in which the loops over all buckets visit them. -/
def sidtabNodes (s : Sidtab) : List SidtabNode := (List.finRange sidtabSize).flatMap s.htable

/-- The result and the table afterwards. -/
def sidtabInsert (s : Sidtab) (sid : SecurityId) (context : Context) (mem : Bool) : Except Errno Unit × Sidtab :=
  let hvalue := sidtabHash sid
  let prev := (s.htable hvalue).takeWhile fun cur => cur.sid < sid
  let cur := (s.htable hvalue).dropWhile fun cur => cur.sid < sid
  if cur.head?.any fun cur => sid = cur.sid then (.error .eexist, s)
  else if !mem then (.error .enomem, s)
  else
    let newnode := ⟨sid, contextCpy context⟩
    (.ok (), { s with
      htable := Function.update s.htable hvalue (prev ++ newnode :: cur)
      nel := s.nel + 1
      nextSid := if sid ≥ s.nextSid then sid + 1 else s.nextSid })

/-- The loop of `sepol_sidtab_search` and the test behind it. -/
def sidtabFind (s : Sidtab) (sid : SecurityId) : Option SidtabNode :=
  match (s.htable (sidtabHash sid)).dropWhile fun cur => cur.sid < sid with
  | [] => none
  | cur :: _ => if sid = cur.sid then some cur else none

def sidtabSearch (s : Sidtab) (sid : SecurityId) : Option Context :=
  match sidtabFind s sid with
  | some cur => some cur.context
  | none => (sidtabFind s secinitsidUnlabeled).map SidtabNode.context

/-- The loop of `sepol_sidtab_map` over a list of nodes; `apply` changes its argument `args`. -/
def sidtabMapNodes {σ : Type} (apply : SecurityId → Context → σ → Except Errno Unit × σ) :
    List SidtabNode → σ → Except Errno Unit × σ
  | [], args => (.ok (), args)
  | cur :: rest, args =>
    match apply cur.sid cur.context args with
    | (.error ret, args') => (.error ret, args')
    | (.ok (), args') => sidtabMapNodes apply rest args'

def sidtabMap {σ : Type} (s : Sidtab) (apply : SecurityId → Context → σ → Except Errno Unit × σ) (args : σ) :
    Except Errno Unit × σ :=
  sidtabMapNodes apply (sidtabNodes s) args

/-- The nodes of a bucket that `sepol_sidtab_map_remove_on_error` keeps, with the contexts as `apply` changed them;
the context that a failing call leaves behind is freed with its node. -/
def sidtabKeepNodes (apply : SecurityId → Context → Except Errno Context) (l : List SidtabNode) : List SidtabNode :=
  l.filterMap fun cur =>
    match apply cur.sid cur.context with
    | .ok context => some ⟨cur.sid, context⟩
    | .error _ => none

def sidtabMapRemoveOnError (s : Sidtab) (apply : SecurityId → Context → Except Errno Context) : Sidtab :=
  let htable := fun i => sidtabKeepNodes apply (s.htable i)
  let removed := (sidtabNodes s).length - (sidtabNodes { s with htable }).length
  { s with htable, nel := s.nel - BitVec.ofNat 32 removed }

/-- `sepol_sidtab_search_context`; zero when no node has the context. -/
def sidtabSearchContext (s : Sidtab) (context : Context) : SecurityId :=
  match (sidtabNodes s).find? fun cur => contextCmp cur.context context with
  | some cur => cur.sid
  | none => 0

def sidtabContextToSid (s : Sidtab) (context : Context) (mem : Bool) : Except Errno SecurityId × Sidtab :=
  let sid := sidtabSearchContext s context
  if sid ≠ 0 then (.ok sid, s)
  else
    let sid := sidtabSearchContext s context
    if sid ≠ 0 then (.ok sid, s)
    else if s.nextSid = uintMax ∨ s.shutdown then (.error .enomem, s)
    else
      let sid := s.nextSid
      match sidtabInsert { s with nextSid := s.nextSid + 1 } sid context mem with
      | (.error ret, s') => (.error ret, { s' with nextSid := s'.nextSid - 1 })
      | (.ok (), s') => (.ok sid, s')

/-- `sepol_sidtab_set`: the table `dst` takes the buckets of `src` and is open again. -/
def sidtabSet (src : Sidtab) : Sidtab := { src with shutdown := false }

def sidtabShutdown (s : Sidtab) : Sidtab := { s with shutdown := true }

end Sepol
