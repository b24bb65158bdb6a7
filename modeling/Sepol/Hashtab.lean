import Sepol.Lib.ChainedTable

/-!
# The hash table

A table has a power of two of chains, each kept in the order of the compare function, and grows before an insertion
that finds as many entries as chains.  The hash and compare functions are the caller's; of the compare function only
the sign of its result is read.
-/

namespace Sepol

open ChainedTable

/-- The return codes of the hash table. -/
inductive HashtabCode where
  | ok
  | enomem
  | eexist
  | enoent
deriving DecidableEq

/-- `hash_value`, which reads the number of chains of the table it is given, and `keycmp`. -/
structure HashtabOps (κ : Type) where
  hashValue : Nat → κ → Nat
  keycmp : κ → κ → Ordering

/-- The hash value names a chain, equal keys hash alike and the comparison is a total order. -/
structure HashtabOps.Lawful {κ : Type} (ops : HashtabOps κ) : Prop where
  hash_lt : ∀ size key, 0 < size → ops.hashValue size key < size
  hash_congr : ∀ size a b, ops.keycmp a b = .eq → ops.hashValue size a = ops.hashValue size b
  trans : Std.TransCmp ops.keycmp

structure Hashtab (κ δ : Type) where
  htable : Nat → List (κ × δ)
  size : Nat
  nel : Nat

namespace Hashtab

variable {κ δ σ : Type} (ops : HashtabOps κ)

/-- `UINT32_MAX`, the number of entries of a full table. -/
def nelMax : Nat := 2 ^ 32 - 1

/-- The entries in the order of the chains. -/
def entries (h : Hashtab κ δ) : List (κ × δ) := ChainedTable.entries h.size h.htable

/-- `hashtab_create` with room for its chains. -/
def create (size : Nat) : Hashtab κ δ := { htable := fun _ => [], size := size, nel := 0 }

/-- The loop that doubles the number of chains, with fuel; the doubled number is that of a 32-bit word. -/
def growSize (nel : Nat) : Nat → Nat → Nat
  | 0, newSize => newSize
  | fuel + 1, newSize =>
    if newSize ≤ nel ∧ newSize * 2 % 2 ^ 32 ≠ 0 then growSize nel fuel (newSize * 2 % 2 ^ 32) else newSize

/-- One node moved to its new chain, before the first node that is not below it. -/
def moveNode (newSize : Nat) (chains : Nat → List (κ × δ)) (cur : κ × δ) : Nat → List (κ × δ) :=
  let hvalue := ops.hashValue newSize cur.1
  let dst := chains hvalue
  Function.update chains hvalue (passed ops.keycmp Prod.fst cur.1 dst ++ cur :: ahead ops.keycmp Prod.fst cur.1 dst)

/-- `hashtab_check_resize`; `tableMem` tells whether the new chains could be allocated. -/
def checkResize (h : Hashtab κ δ) (tableMem : Bool) : Hashtab κ δ :=
  let newSize := growSize h.nel 32 h.size
  if h.size = newSize then h
  else if tableMem then
    { h with size := newSize, htable := h.entries.foldl (moveNode ops newSize) fun _ => [] }
  else h

/-- The node at which the walk for `key` stops, when its key is equal. -/
def chainNode (key : κ) (chain : List (κ × δ)) : Option (κ × δ) :=
  (ahead ops.keycmp Prod.fst key chain).head?.filter fun cur => ops.keycmp key cur.1 == .eq

/-- `hashtab_insert`; `nodeMem` tells whether the node could be allocated. -/
def insert (h : Hashtab κ δ) (key : κ) (datum : δ) (tableMem nodeMem : Bool) : HashtabCode × Hashtab κ δ :=
  if h.nel = nelMax then (.enomem, h)
  else
    let h := checkResize ops h tableMem
    let hvalue := ops.hashValue h.size key
    let chain := h.htable hvalue
    if (chainNode ops key chain).isSome then (.eexist, h)
    else if nodeMem then
      (.ok, { h with
        htable := Function.update h.htable hvalue
          (passed ops.keycmp Prod.fst key chain ++ (key, datum) :: ahead ops.keycmp Prod.fst key chain)
        nel := h.nel + 1 })
    else (.enomem, h)

/-- `hashtab_remove`, with the node that is handed to `destroy`. -/
def remove (h : Hashtab κ δ) (key : κ) : HashtabCode × Option (κ × δ) × Hashtab κ δ :=
  let hvalue := ops.hashValue h.size key
  let chain := h.htable hvalue
  match chainNode ops key chain with
  | none => (.enoent, none, h)
  | some cur =>
    (.ok, some cur, { h with
      htable := Function.update h.htable hvalue
        (passed ops.keycmp Prod.fst key chain ++ (ahead ops.keycmp Prod.fst key chain).tail)
      nel := h.nel - 1 })

def search (h : Hashtab κ δ) (key : κ) : Option δ :=
  (chainNode ops key (h.htable (ops.hashValue h.size key))).map Prod.snd

/-- The walk of `hashtab_map` along nodes; it ends at the first callback that does not return zero. -/
def mapNodes (apply : κ → δ → σ → Int × σ) : List (κ × δ) → σ → Int × σ
  | [], args => (0, args)
  | cur :: rest, args =>
    let (ret, args) := apply cur.1 cur.2 args
    if ret ≠ 0 then (ret, args) else mapNodes apply rest args

def map (h : Hashtab κ δ) (apply : κ → δ → σ → Int × σ) (args : σ) : Int × σ := mapNodes apply h.entries args

/-! ### The number of chains -/

private theorem growSize_spec {nel k : Nat} : ∀ fuel n, k + fuel = 32 → 2 ^ k ∣ n → 0 < n → n < 2 ^ 32 →
    0 < growSize nel fuel n ∧ growSize nel fuel n < 2 ^ 32 ∧
      (growSize nel fuel n ≤ nel → growSize nel fuel n * 2 % 2 ^ 32 = 0) := by
  intro fuel
  induction fuel generalizing k with
  | zero =>
    intro n hk hdvd hpos hlt
    have hle := Nat.le_of_dvd hpos hdvd
    have hk' : k = 32 := by omega
    subst hk'
    omega
  | succ fuel ih =>
    intro n hk hdvd hpos hlt
    rw [growSize]
    split
    · rename_i hgrow
      have hdvd' : 2 ^ (k + 1) ∣ n * 2 % 2 ^ 32 := by
        rw [Nat.dvd_mod_iff (Nat.pow_dvd_pow 2 (by omega)), pow_succ]
        exact Nat.mul_dvd_mul_right hdvd 2
      exact ih _ (by omega) hdvd' (Nat.pos_of_ne_zero hgrow.2) (Nat.mod_lt _ (by norm_num))
    · rename_i hstop
      refine ⟨hpos, hlt, ?_⟩
      intro hle
      by_contra hne
      exact hstop ⟨hle, hne⟩

/-- The doubling ends within its fuel: with more chains than entries, or with a number that cannot be doubled. -/
private theorem growSize_stops {nel n : Nat} (hpos : 0 < n) (hlt : n < 2 ^ 32) :
    0 < growSize nel 32 n ∧ growSize nel 32 n < 2 ^ 32 ∧
      (growSize nel 32 n ≤ nel → growSize nel 32 n * 2 % 2 ^ 32 = 0) :=
  @growSize_spec _ 0 32 n rfl (by simp) hpos hlt

/-! ### What each function does to a table in order -/

/-- The chains are in order, each entry is in the chain of its hash value, and `nel` counts the entries. -/
structure Ok (h : Hashtab κ δ) : Prop where
  size_pos : 0 < h.size
  size_lt : h.size < 2 ^ 32
  filed : Filed ops.keycmp Prod.fst (ops.hashValue h.size) h.size h.htable
  nel_eq : h.nel = h.entries.length

@[simp] theorem create_entries (size : Nat) : (create size : Hashtab κ δ).entries = [] := entries_nil

theorem create_ok {size : Nat} (hpos : 0 < size) (hlt : size < 2 ^ 32) : (create size : Hashtab κ δ).Ok ops where
  size_pos := hpos
  size_lt := hlt
  filed := filed_nil
  nel_eq := by rw [create_entries]; rfl

variable {ops}

theorem Ok.distinct (hops : ops.Lawful) {h : Hashtab κ δ} (hh : h.Ok ops) :
    Distinct ops.keycmp Prod.fst h.entries :=
  hh.filed.distinct (hops.hash_congr h.size)

theorem Ok.chainNode_eq (hops : ops.Lawful) {h : Hashtab κ δ} (hh : h.Ok ops) (key : κ) :
    chainNode ops key (h.htable (ops.hashValue h.size key)) =
      h.entries.find? fun e => ops.keycmp key e.1 == .eq := by
  have := hops.trans
  have hlt := hops.hash_lt h.size key hh.size_pos
  rw [chainNode, ← find?_eq_ahead (hh.filed.inOrder _ hlt)]
  exact hh.filed.find?_chain (hops.hash_congr h.size) hlt

theorem Ok.search_eq (hops : ops.Lawful) {h : Hashtab κ δ} (hh : h.Ok ops) (key : κ) :
    h.search ops key = (h.entries.find? fun e => ops.keycmp key e.1 == .eq).map Prod.snd := by
  rw [search, hh.chainNode_eq hops]

private theorem moveNode_filed (hops : ops.Lawful) {n : Nat} (hn : 0 < n) {chains : Nat → List (κ × δ)}
    (hf : Filed ops.keycmp Prod.fst (ops.hashValue n) n chains) {cur : κ × δ}
    (hnew : ∀ e ∈ ChainedTable.entries n chains, ops.keycmp cur.1 e.1 ≠ .eq) :
    Filed ops.keycmp Prod.fst (ops.hashValue n) n (moveNode ops n chains cur) ∧
      (ChainedTable.entries n (moveNode ops n chains cur)).Perm (cur :: ChainedTable.entries n chains) := by
  have := hops.trans
  have hlt := hops.hash_lt n cur.1 hn
  have hperm := @insert_perm _ _ ops.keycmp Prod.fst cur cur.1 (chains (ops.hashValue n cur.1))
  refine ⟨hf.update (insert_inOrder (hf.inOrder _ hlt) ?_) ?_, entries_update_perm hlt hperm⟩
  · intro e he
    exact hnew e (mem_entries.2 ⟨_, hlt, he⟩)
  · intro e he
    rcases List.mem_cons.1 (hperm.mem_iff.1 he) with rfl | he
    · rfl
    · exact hf.placed _ hlt e he

private theorem moveNodes_filed (hops : ops.Lawful) {n : Nat} (hn : 0 < n) (nodes : List (κ × δ)) :
    ∀ chains : Nat → List (κ × δ), Filed ops.keycmp Prod.fst (ops.hashValue n) n chains →
      Distinct ops.keycmp Prod.fst (nodes ++ ChainedTable.entries n chains) →
      Filed ops.keycmp Prod.fst (ops.hashValue n) n (nodes.foldl (moveNode ops n) chains) ∧
        (ChainedTable.entries n (nodes.foldl (moveNode ops n) chains)).Perm
          (nodes ++ ChainedTable.entries n chains) := by
  have := hops.trans
  induction nodes with
  | nil =>
    intro chains hf _
    exact ⟨hf, List.Perm.refl _⟩
  | cons cur nodes ih =>
    intro chains hf hd
    have hcur := List.pairwise_cons.1 hd
    obtain ⟨hf', hperm⟩ := moveNode_filed hops hn hf fun e he => hcur.1 e (List.mem_append_right _ he)
    have hperm' : (nodes ++ ChainedTable.entries n (moveNode ops n chains cur)).Perm
        (cur :: nodes ++ ChainedTable.entries n chains) :=
      (hperm.append_left nodes).trans List.perm_middle
    obtain ⟨hf'', hperm''⟩ := ih _ hf' (hd.perm hperm'.symm)
    exact ⟨hf'', hperm''.trans hperm'⟩

/-- A table that grows has the same entries. -/
theorem Ok.checkResize (hops : ops.Lawful) {h : Hashtab κ δ} (hh : h.Ok ops) (tableMem : Bool) :
    (h.checkResize ops tableMem).Ok ops ∧ (h.checkResize ops tableMem).entries.Perm h.entries ∧
      (h.checkResize ops tableMem).nel = h.nel := by
  rw [Hashtab.checkResize]
  split
  · exact ⟨hh, List.Perm.refl _, rfl⟩
  · split
    · obtain ⟨hpos, hlt, -⟩ := @growSize_stops h.nel _ hh.size_pos hh.size_lt
      have hd : Distinct ops.keycmp Prod.fst
          (h.entries ++ ChainedTable.entries (growSize h.nel 32 h.size) fun _ => []) := by
        rw [entries_nil, List.append_nil]
        exact hh.distinct hops
      obtain ⟨hf, hperm⟩ := moveNodes_filed hops hpos h.entries _ filed_nil hd
      rw [entries_nil, List.append_nil] at hperm
      exact ⟨⟨hpos, hlt, hf, hh.nel_eq.trans hperm.length_eq.symm⟩, hperm, rfl⟩
    · exact ⟨hh, List.Perm.refl _, rfl⟩

end Hashtab

end Sepol
