import Sepol.AvtabOldRoundtrip

/-!
# Rule tables in the new format

From `POLICYDB_VERSION_AVTAB` on, `avtab_write` puts the number of nodes and one record for each node into the file,
and `avtab_read` inserts the records one after the other.  The table that is read has the rules of the written one.
-/

namespace Sepol

variable {a h : Avtab} {k : AvtabKey} {n m : AvtabNode} {datum : AvtabDatum} {done l : List AvtabNode} {vers : Nat}

/-! ### Tables of rules -/

/-- The specifier of a rule, apart from the flag. -/
def RuleKey (k : AvtabKey) : Prop := k.specified &&& ~~~avtabEnabled ∈ specOrder

instance (k : AvtabKey) : Decidable (RuleKey k) := inferInstanceAs (Decidable (_ ∈ _))

/-- Only extended permissions may have several entries for one key. -/
def Separate (k k' : AvtabKey) : Prop := sameKey k k' → hasSpecified k.specified avtabXperms = true

theorem Separate.symm {k' : AvtabKey} (hs : Separate k k') : Separate k' k := by
  intro hkey
  have hx := hs hkey.symm
  rw [← hasSpecified_xperms] at hx ⊢
  rwa [hkey.2]

/-- What holds of `te_avtab`: one specifier for each rule, and one rule for each key that is not for extended
permissions. -/
structure Avtab.TeRules (a : Avtab) : Prop where
  filled : a.Filled
  ruleKey : ∀ n ∈ avtabNodes a, RuleKey n.key
  separate : ((avtabNodes a).map AvtabNode.key).Pairwise Separate

theorem RuleKey.singleBit (hk : RuleKey k) : SingleBit k.specified := by
  have hall : specOrder.all (fun s => ∃ i < 15, s = 1#16 <<< i) = true := by decide
  have hbit := of_decide_eq_true (List.all_eq_true.1 hall _ hk)
  exact hbit

theorem RuleKey.popcount (hk : RuleKey k) : popcount (k.specified &&& ~~~avtabEnabled) = 1 := by
  have hall : specOrder.all (fun s => Sepol.popcount s = 1) = true := by decide
  exact of_decide_eq_true (List.all_eq_true.1 hall _ hk)

theorem RuleKey.mask (hk : RuleKey k) :
    k.specified &&& ~~~(avtabAv ||| avtabType ||| avtabXperms ||| avtabEnabled) = 0 := by
  have hall : specOrder.all (fun s => s &&& ~~~(avtabAv ||| avtabType ||| avtabXperms) = 0) = true := by decide
  have hsplit : ~~~(avtabAv ||| avtabType ||| avtabXperms ||| avtabEnabled) =
      ~~~avtabEnabled &&& ~~~(avtabAv ||| avtabType ||| avtabXperms) := by decide
  rw [hsplit, ← BitVec.and_assoc]
  exact of_decide_eq_true (List.all_eq_true.1 hall _ hk)

private theorem avtabInsert_of_separate (hf : h.Filled) (hk : RuleKey k) (hnew : ∀ m ∈ avtabNodes h, sameKey k m.key →
      hasSpecified k.specified avtabXperms = true) (datum : AvtabDatum) :
    avtabInsert h k datum = some (insertedTable h k datum) := by
  rw [avtabInsert_eq hf.alloc, if_neg]
  rintro ⟨⟨m, hm, hmatch⟩, hx⟩
  rw [hasSpecified_xperms, hnew m hm ((matchesKey_iff_sameKey hk.singleBit (hf.single m hm)).1 hmatch)] at hx
  cases hx

/-- A successful `avtab_insert` keeps a table of rules. -/
theorem Avtab.TeRules.insert (ha : a.TeRules) (hk : RuleKey k) (hinsert : avtabInsert a k datum = some h) :
    h.TeRules := by
  rw [avtabInsert_eq ha.filled.alloc] at hinsert
  split at hinsert
  · cases hinsert
  · next hnone =>
    obtain rfl := Option.some.inj hinsert
    have hperm := avtabNodes_insertedTable ha.filled.alloc k datum
    refine ⟨insertedTable_filled ha.filled hk.singleBit datum, fun n hn => ?_, ?_⟩
    · rcases List.mem_cons.1 (hperm.mem_iff.1 hn) with rfl | hn
      · exact hk
      · exact ha.ruleKey n hn
    · rw [(hperm.map AvtabNode.key).pairwise_iff Separate.symm, List.map_cons, List.pairwise_cons]
      refine ⟨fun k' hk' hkey => ?_, ha.separate⟩
      obtain ⟨m, hm, rfl⟩ := List.mem_map.1 hk'
      have hmatch := (matchesKey_iff_sameKey hk.singleBit (ha.filled.single m hm)).2 hkey
      by_contra hx
      rw [Bool.not_eq_true, ← hasSpecified_xperms] at hx
      exact hnone ⟨⟨m, hm, hmatch⟩, hx⟩

private theorem teRules_avtabRun {nrules : Nat} (hn : nrules ≠ 0) (rules : List (AvtabKey × AvtabDatum))
    (hrules : ∀ r ∈ rules, RuleKey r.1) :
    (avtabRun nrules (rules.map fun r => .insert r.1 r.2)).TeRules := by
  have hstart : (avtabAlloc nrules).TeRules := by
    refine ⟨avtabAlloc_filled hn, ?_, ?_⟩
    · simp
    · simp
  rw [avtabRun]
  generalize avtabAlloc nrules = a at hstart
  induction rules generalizing a with
  | nil => exact hstart
  | cons r rules ih =>
    rw [List.map_cons, List.foldl_cons]
    refine ih (fun r hr => hrules r (List.mem_cons_of_mem _ hr)) _ ?_
    rw [AvtabCall.run]
    cases hinsert : avtabInsert a r.1 r.2 with
    | none => exact hstart
    | some h => exact hstart.insert (hrules r (List.mem_cons_self ..)) hinsert

/-! ### Records -/

/-- What a record has of the datum of a node: the record of the extended permissions or the data word. -/
def storedDatum (n : AvtabNode) : AvtabDatum :=
  if hasSpecified n.key.specified avtabXperms then ⟨0, n.datum.xperms⟩ else ⟨n.datum.data, avtabExtendedPermsInit⟩

def keyBytes (k : AvtabKey) : List Byte :=
  cpuToLe16 k.sourceType.toNat ++ cpuToLe16 k.targetType.toNat ++ cpuToLe16 k.targetClass.toNat ++
    cpuToLe16 k.specified.toNat

def xpermsBytes (x : AvtabExtendedPerms) : List Byte :=
  [x.specified, x.driver] ++ (List.finRange extendedPermsLen).flatMap fun i => cpuToLe32 (x.perms i).toNat

/-- The record of a node. -/
def nodeBytes (n : AvtabNode) : List Byte :=
  keyBytes n.key ++
    if hasSpecified n.key.specified avtabXperms then xpermsBytes n.datum.xperms else cpuToLe32 n.datum.data.toNat

private theorem length_keyBytes (k : AvtabKey) : (keyBytes k).length = 2 * 4 := rfl

private theorem le16ToCpu_append {pre : List Byte} {items : Nat} (hpre : pre.length = 2 * items) (d : BitVec 16)
    (post : List Byte) : le16ToCpu (pre ++ (cpuToLe16 d.toNat ++ post)) items = d.toNat := by
  rw [le16ToCpu, ← hpre, List.drop_left, List.take_left' (show (cpuToLe16 d.toNat).length = 2 from rfl)]
  exact LittleEndian.ofBytes_toBytes d.isLt

private theorem readKey_keyBytes (k : AvtabKey) :
    AvtabKey.mk (BitVec.ofNat 16 (le16ToCpu (keyBytes k) 0)) (BitVec.ofNat 16 (le16ToCpu (keyBytes k) 1))
      (BitVec.ofNat 16 (le16ToCpu (keyBytes k) 2)) (BitVec.ofNat 16 (le16ToCpu (keyBytes k) 3)) = k := by
  have hsource : le16ToCpu (keyBytes k) 0 = k.sourceType.toNat := by
    rw [keyBytes, List.append_assoc, List.append_assoc]
    exact @le16ToCpu_append [] 0 rfl k.sourceType _
  have htarget : le16ToCpu (keyBytes k) 1 = k.targetType.toNat := by
    rw [keyBytes, List.append_assoc, List.append_assoc]
    exact le16ToCpu_append rfl k.targetType _
  have hclass : le16ToCpu (keyBytes k) 2 = k.targetClass.toNat := by
    rw [keyBytes, List.append_assoc]
    exact le16ToCpu_append rfl k.targetClass _
  have hspecified : le16ToCpu (keyBytes k) 3 = k.specified.toNat := by
    have happend := @le16ToCpu_append (cpuToLe16 k.sourceType.toNat ++ cpuToLe16 k.targetType.toNat ++
      cpuToLe16 k.targetClass.toNat) 3 rfl k.specified []
    rwa [List.append_nil] at happend
  rw [hsource, htarget, hclass, hspecified]
  simp

/-- The words of a list are read back. -/
theorem le32ToCpu_flatMap {α : Type} (f : α → BitVec 32) {words : List α} {i : Nat} (hi : i < words.length) :
    le32ToCpu (words.flatMap fun w => cpuToLe32 (f w).toNat) i = (f words[i]).toNat := by
  induction words generalizing i with
  | nil => cases hi
  | cons w words ih =>
    rw [List.flatMap_cons]
    cases i with
    | zero =>
      rw [le32ToCpu_zero (length_cpuToLe32 _), ofBytes_cpuToLe32 (f w).isLt]
      rfl
    | succ i =>
      rw [le32ToCpu_succ (length_cpuToLe32 _), ih (Nat.lt_of_succ_lt_succ hi)]
      rfl

private theorem length_flatMap_words {α : Type} (f : α → BitVec 32) (words : List α) :
    (words.flatMap fun w => cpuToLe32 (f w).toNat).length = 4 * words.length := by
  induction words with
  | nil => rfl
  | cons w words ih =>
    rw [List.flatMap_cons, List.length_append, ih, length_cpuToLe32, List.length_cons]
    omega

private theorem length_nodeBytes (n : AvtabNode) : 12 ≤ (nodeBytes n).length := by
  rw [nodeBytes, List.length_append, length_keyBytes]
  split
  · rw [xpermsBytes, List.length_append, length_flatMap_words, List.length_finRange]
    show 12 ≤ 2 * 4 + (2 + 4 * 8)
    omega
  · rw [length_cpuToLe32]

/-! ### Reading a record -/

private theorem nextEntry_of_length {buf rest : List Byte} {bytes : Nat} (hlen : buf.length = bytes) :
    nextEntry (buf ++ rest) bytes = some (buf, rest) := nextEntry_eq_some.2 ⟨rfl, hlen⟩

private theorem ofNat_ofBytes_byte (b : Byte) : BitVec.ofNat 8 (LittleEndian.ofBytes [b]) = b := by
  rw [LittleEndian.ofBytes_cons]
  simp [LittleEndian.ofBytes]

private theorem ofNat_le32ToCpu_word (d : BitVec 32) : BitVec.ofNat 32 (le32ToCpu (cpuToLe32 d.toNat) 0) = d := by
  have hword := le32ToCpu_zero (length_cpuToLe32 d.toNat) []
  rw [List.append_nil, ofBytes_cpuToLe32 d.isLt] at hword
  rw [hword, BitVec.ofNat_toNat, BitVec.setWidth_eq]

private theorem perms_xpermsBytes (x : AvtabExtendedPerms) (i : Fin extendedPermsLen) :
    BitVec.ofNat 32 (le32ToCpu ((List.finRange extendedPermsLen).flatMap fun i => cpuToLe32 (x.perms i).toNat) i) =
      x.perms i := by
  rw [le32ToCpu_flatMap x.perms (by simp), List.getElem_finRange]
  simp

/-- `avtab_read_item` hands the key and what the record has of the datum to its callback. -/
private theorem avtabReadItemNew_nodeBytes {σ : Type} (insertf : AvtabKey → AvtabDatum → σ → Option σ)
    (hk : RuleKey n.key)
    (hvers : hasSpecified n.key.specified avtabXperms = true → policydbVersionXpermsIoctl ≤ vers) (rest : List Byte)
    (st : σ) : avtabReadItemNew (nodeBytes n ++ rest) vers insertf st =
      (insertf n.key (storedDatum n) st).map fun st => (st, rest) := by
  have hkey := readKey_keyBytes n.key
  have hspec : BitVec.ofNat 16 (le16ToCpu (keyBytes n.key) 3) = n.key.specified := congrArg AvtabKey.specified hkey
  have hnot : ¬ (vers < policydbVersionXpermsIoctl ∧ hasSpecified n.key.specified avtabXperms = true) := by
    rintro ⟨hlt, hx⟩
    have := hvers hx
    omega
  unfold avtabReadItemNew nodeBytes
  rw [List.append_assoc, nextEntry_of_length (length_keyBytes n.key)]
  rw [Option.bind_eq_bind, Option.bind_some]
  simp only [hkey]
  simp only [hspec, hk.mask, hk.popcount, hnot, guard, if_true, not_false_eq_true, Option.pure_def,
    Option.bind_eq_bind, Option.bind_some]
  unfold storedDatum
  cases hx : hasSpecified n.key.specified avtabXperms with
  | true =>
    have hwords := length_flatMap_words n.datum.xperms.perms (List.finRange extendedPermsLen)
    rw [List.length_finRange] at hwords
    simp only [if_true, xpermsBytes, List.cons_append, List.nil_append]
    have hspecified := nextEntry_append [n.datum.xperms.specified] (n.datum.xperms.driver ::
      ((List.finRange extendedPermsLen).flatMap (fun i => cpuToLe32 (n.datum.xperms.perms i).toNat) ++ rest))
    have hdriver := nextEntry_append [n.datum.xperms.driver]
      ((List.finRange extendedPermsLen).flatMap (fun i => cpuToLe32 (n.datum.xperms.perms i).toNat) ++ rest)
    rw [List.singleton_append, List.length_singleton] at hspecified hdriver
    rw [hspecified, Option.bind_some, hdriver, Option.bind_some, nextEntry_of_length hwords, Option.bind_some,
      ofNat_ofBytes_byte, ofNat_ofBytes_byte]
    simp only [perms_xpermsBytes]
  | false =>
    simp only [Bool.false_eq_true, if_false]
    rw [nextEntry_of_length (length_cpuToLe32 _), Option.bind_some, ofNat_le32ToCpu_word]

/-! ### Reading the table -/

/-- The key and what the record has of the datum. -/
def storedEntry (n : AvtabNode) : AvtabKey × AvtabDatum := (n.key, storedDatum n)

/-- The table that is read so far has the records of some nodes. -/
structure ReadNodes (h : Avtab) (done : List AvtabNode) : Prop where
  filled : h.Filled
  perm : ((avtabNodes h).map fun n => (n.key, n.datum)).Perm (done.map storedEntry)

theorem ReadNodes.insert (hr : ReadNodes h done) (hk : RuleKey n.key) (hnew : ∀ m ∈ done, Separate n.key m.key) :
    ∃ h', avtabInsert h n.key (storedDatum n) = some h' ∧ ReadNodes h' (n :: done) := by
  have hseparate : ∀ m ∈ avtabNodes h, sameKey n.key m.key → hasSpecified n.key.specified avtabXperms = true := by
    intro m hm hkey
    obtain ⟨m', hm', heq⟩ := List.mem_map.1 (hr.perm.subset (List.mem_map_of_mem hm))
    have hsame : m'.key = m.key := congrArg Prod.fst heq
    exact hnew m' hm' (hsame ▸ hkey)
  refine ⟨_, avtabInsert_of_separate hr.filled hk hseparate _, insertedTable_filled hr.filled hk.singleBit _, ?_⟩
  have hperm := (avtabNodes_insertedTable hr.filled.alloc n.key (storedDatum n)).map fun n => (n.key, n.datum)
  refine hperm.trans ?_
  rw [List.map_cons, List.map_cons]
  exact hr.perm.cons _

/-- The records are read one after the other. -/
private theorem avtabReadItems_nodeBytes (hvers : policydbVersionAvtab ≤ vers) (hkeys : ∀ n ∈ l, RuleKey n.key)
    (hxperms : ∀ n ∈ l, hasSpecified n.key.specified avtabXperms = true → policydbVersionXpermsIoctl ≤ vers)
    (hseparate : ((l ++ done).map AvtabNode.key).Pairwise Separate) (hr : ReadNodes h done) (rest : List Byte) :
    ∃ h', avtabReadItems vers (fun key datum h => avtabInsert h key datum) l.length (l.flatMap nodeBytes ++ rest) h =
      some (h', rest) ∧ ReadNodes h' (l ++ done) := by
  induction l generalizing h done with
  | nil => exact ⟨h, rfl, hr⟩
  | cons n l ih =>
    rw [List.cons_append, List.map_cons, List.pairwise_cons] at hseparate
    obtain ⟨h₁, hinsert, hr₁⟩ := hr.insert (hkeys n (List.mem_cons_self ..))
      fun m hm => hseparate.1 m.key (List.mem_map_of_mem (List.mem_append_right _ hm))
    have hmiddle : (l ++ n :: done).Perm (n :: (l ++ done)) := List.perm_middle
    obtain ⟨h₂, hrun, hr₂⟩ := ih (fun m hm => hkeys m (List.mem_cons_of_mem _ hm))
      (fun m hm => hxperms m (List.mem_cons_of_mem _ hm))
      (((hmiddle.map AvtabNode.key).pairwise_iff Separate.symm).2 (List.pairwise_cons.2 hseparate)) hr₁
    have hitem : avtabReadItem (nodeBytes n ++ (l.flatMap nodeBytes ++ rest)) vers
        (fun key datum h => avtabInsert h key datum) h = some (h₁, l.flatMap nodeBytes ++ rest) := by
      unfold avtabReadItem
      rw [if_neg (by omega), avtabReadItemNew_nodeBytes _ (hkeys n (List.mem_cons_self ..))
        (hxperms n (List.mem_cons_self ..)), hinsert, Option.map_some]
    refine ⟨h₂, ?_, hr₂.filled, hr₂.perm.trans (hmiddle.map _)⟩
    rw [List.length_cons, List.flatMap_cons, List.append_assoc, avtabReadItems, hitem]
    exact hrun

private theorem length_flatMap_nodeBytes (l : List AvtabNode) : l.length * 12 ≤ (l.flatMap nodeBytes).length := by
  induction l with
  | nil => simp
  | cons n l ih =>
    have := length_nodeBytes n
    rw [List.flatMap_cons, List.length_append, List.length_cons]
    omega

private theorem avtabRead_count {count : Nat} (hcount : count < 2 ^ 32) (body : List Byte) :
    avtabRead (cpuToLe32 count ++ body) vers =
      if ¬ (count = 0 ∨ count = 2 ^ 32 - 1) ∧ count * 12 ≤ body.length then
        avtabReadItems vers (fun key datum h => avtabInsert h key datum) count body (avtabAlloc count)
      else none := by
  have hnel : le32ToCpu (cpuToLe32 count) 0 = count := by
    have hzero := le32ToCpu_zero (length_cpuToLe32 count) []
    rwa [List.append_nil, ofBytes_cpuToLe32 hcount] at hzero
  unfold avtabRead
  rw [nextEntry_of_length (length_cpuToLe32 count), Option.bind_eq_bind, Option.bind_some]
  simp only [hnel, guard]
  split
  · rfl
  · rfl

/-! ### Writing the table -/

/-- The version and the platform of the policy support the rules of the table. -/
def SupportsRules (p : Policydb) (targetPlatform : Nat) (a : Avtab) : Prop :=
  ∀ n ∈ avtabNodes a, hasSpecified n.key.specified avtabXperms = true →
    policydbVersionXpermsIoctl ≤ p.policyvers ∧ targetPlatform = sepolTargetSelinux

variable {p : Policydb} {targetPlatform : Nat}

private theorem avtabWriteItemNew_eq (hsupports : hasSpecified n.key.specified avtabXperms = true →
      policydbVersionXpermsIoctl ≤ p.policyvers ∧ targetPlatform = sepolTargetSelinux) :
    avtabWriteItemNew p targetPlatform n false = some (nodeBytes n) := by
  unfold avtabWriteItemNew nodeBytes keyBytes xpermsBytes
  cases hx : hasSpecified n.key.specified avtabXperms with
  | true =>
    obtain ⟨hvers, hplatform⟩ := hsupports hx
    have hlt : ¬ p.policyvers < policydbVersionXpermsIoctl := by omega
    simp [hlt, hplatform]
  | false => simp

private theorem mapM_avtabWriteItemNew (hsupports : ∀ n ∈ l, hasSpecified n.key.specified avtabXperms = true →
      policydbVersionXpermsIoctl ≤ p.policyvers ∧ targetPlatform = sepolTargetSelinux) :
    (l.mapM fun cur => avtabWriteItemNew p targetPlatform cur false) = some (l.map nodeBytes) := by
  induction l with
  | nil => rfl
  | cons n l ih =>
    rw [List.mapM_cons, avtabWriteItemNew_eq (hsupports n (List.mem_cons_self ..)),
      ih fun m hm => hsupports m (List.mem_cons_of_mem _ hm)]
    rfl

private theorem avtabWrite_nodeBytes (hvers : policydbVersionAvtab ≤ p.policyvers)
    (hsupports : SupportsRules p targetPlatform a) :
    avtabWrite p targetPlatform a = some (cpuToLe32 a.nel.toNat ++ (avtabNodes a).flatMap nodeBytes) := by
  unfold avtabWrite
  rw [if_neg (by omega), mapM_avtabWriteItemNew hsupports, Option.map_some, List.flatMap_def]

/-- A table of rules that is written and read has the records of its nodes. -/
private theorem readNodes_avtabWrite (hvers : policydbVersionAvtab ≤ p.policyvers) (ha : a.TeRules)
    (hsupports : SupportsRules p targetPlatform a) (hpos : 0 < (avtabNodes a).length)
    (hlt : (avtabNodes a).length < 2 ^ 32 - 1) (rest : List Byte) :
    ∃ bytes h, avtabWrite p targetPlatform a = some bytes ∧
      avtabRead (bytes ++ rest) p.policyvers = some (h, rest) ∧ ReadNodes h (avtabNodes a) := by
  have hstart : ReadNodes (avtabAlloc (avtabNodes a).length) [] := by
    refine ⟨avtabAlloc_filled (by omega), ?_⟩
    rw [avtabNodes_avtabAlloc]
    exact List.Perm.nil
  obtain ⟨h, hread, hr⟩ := avtabReadItems_nodeBytes hvers ha.ruleKey (fun n hn hx => (hsupports n hn hx).1)
    (by rw [List.append_nil]; exact ha.separate) hstart rest
  rw [List.append_nil] at hr
  refine ⟨_, h, avtabWrite_nodeBytes hvers hsupports, ?_, hr⟩
  have hnel : a.nel.toNat = (avtabNodes a).length := by
    rw [ha.filled.nel, BitVec.toNat_ofNat]
    exact Nat.mod_eq_of_lt (by omega)
  have hsize := length_flatMap_nodeBytes (avtabNodes a)
  rw [hnel, List.append_assoc, avtabRead_count (by omega), if_pos, hread]
  refine ⟨by omega, ?_⟩
  rw [List.length_append]
  omega

/-! ### What is read -/

/-- The rules that are not for extended permissions. -/
def dataEntries (a : Avtab) : List (AvtabKey × BitVec 32) :=
  ((avtabNodes a).filter fun n => !hasSpecified n.key.specified avtabXperms).map fun n => (n.key, n.datum.data)

/-- The records of extended permissions with their keys. -/
def xpermsEntries (a : Avtab) : List (AvtabKey × AvtabExtendedPerms) :=
  ((avtabNodes a).filter fun n => hasSpecified n.key.specified avtabXperms).map fun n => (n.key, n.datum.xperms)

private theorem ReadNodes.perm_map {β : Type} (hr : ReadNodes h done) (keep : AvtabKey → Bool) (g : AvtabDatum → β)
    (hg : ∀ n ∈ done, keep n.key = true → g (storedDatum n) = g n.datum) :
    (((avtabNodes h).filter fun n => keep n.key).map fun n => (n.key, g n.datum)).Perm
      ((done.filter fun n => keep n.key).map fun n => (n.key, g n.datum)) := by
  have hperm := (hr.perm.filter fun e => keep e.1).map fun e => (e.1, g e.2)
  rw [List.filter_map, List.filter_map, List.map_map, List.map_map] at hperm
  refine hperm.trans (List.Perm.of_eq (List.map_congr_left fun n hn => ?_))
  obtain ⟨hn, hkeep⟩ := List.mem_filter.1 hn
  show (n.key, g (storedDatum n)) = (n.key, g n.datum)
  rw [hg n hn hkeep]

private theorem ReadNodes.datum_eq (hr : ReadNodes h done) (hn : n ∈ avtabNodes h) :
    ∃ m ∈ done, m.key = n.key ∧ storedDatum m = n.datum := by
  obtain ⟨m, hm, heq⟩ := List.mem_map.1 (hr.perm.subset (List.mem_map_of_mem hn))
  obtain ⟨hkey, hdatum⟩ := Prod.mk.inj heq
  exact ⟨m, hm, hkey, hdatum⟩

theorem ReadNodes.teRules (hr : ReadNodes h (avtabNodes a)) (ha : a.TeRules) : h.TeRules := by
  refine ⟨hr.filled, fun n hn => ?_, ?_⟩
  · obtain ⟨m, hm, hkey, _⟩ := hr.datum_eq hn
    exact hkey ▸ ha.ruleKey m hm
  · have hkeys : ((avtabNodes h).map AvtabNode.key).Perm ((avtabNodes a).map AvtabNode.key) := by
      have hperm := hr.perm.map Prod.fst
      rwa [List.map_map, List.map_map] at hperm
    exact (hkeys.pairwise_iff Separate.symm).2 ha.separate

/-- The search for extended permissions of a key finds the same records. -/
theorem ReadNodes.search_perm (hr : ReadNodes h (avtabNodes a)) (ha : a.TeRules) {key : AvtabKey} (hkey : RuleKey key)
    (hx : hasSpecified key.specified avtabXperms = true) :
    ((avtabSearchNodes h key).map fun n => n.datum.xperms).Perm
      ((avtabSearchNodes a key).map fun n => n.datum.xperms) := by
  have hstored : ∀ n ∈ avtabNodes a, decide (matchesKey key ⟨n.key, ⟨0, avtabExtendedPermsInit⟩, 0⟩) = true →
      (storedDatum n).xperms = n.datum.xperms := by
    intro n hn hmatch
    have hsame : sameKey key n.key :=
      (@matchesKey_iff_sameKey key ⟨n.key, ⟨0, avtabExtendedPermsInit⟩, 0⟩ hkey.singleBit
        (ha.filled.single n hn)).1 (of_decide_eq_true hmatch)
    have hspec : hasSpecified n.key.specified avtabXperms = true := by
      rw [← hasSpecified_xperms, ← hsame.2, hasSpecified_xperms]
      exact hx
    rw [storedDatum, if_pos hspec]
  have hperm := (hr.perm_map (fun k => matchesKey key ⟨k, ⟨0, avtabExtendedPermsInit⟩, 0⟩) AvtabDatum.xperms
    hstored).map Prod.snd
  rw [List.map_map, List.map_map] at hperm
  rw [avtabSearchNodes_eq_filter hr.filled.alloc, avtabSearchNodes_eq_filter ha.filled.alloc]
  exact hperm

/-- A table of rules that the policy supports is written and read back: as many nodes, the same keys and data, the
same extended permissions for each key, and with them no data word, which the records do not have. -/
theorem avtabRead_avtabWrite_rules (p : Policydb) (targetPlatform : Nat) (a : Avtab)
    (hvers : policydbVersionAvtab ≤ p.policyvers) (ha : a.TeRules) (hsupports : SupportsRules p targetPlatform a)
    (hpos : 0 < (avtabNodes a).length) (hlt : (avtabNodes a).length < 2 ^ 32 - 1) (rest : List Byte) :
    ∃ bytes h, avtabWrite p targetPlatform a = some bytes ∧
      avtabRead (bytes ++ rest) p.policyvers = some (h, rest) ∧ h.TeRules ∧ h.nel = a.nel ∧
      (dataEntries h).Perm (dataEntries a) ∧ (xpermsEntries h).Perm (xpermsEntries a) ∧
      (∀ key, RuleKey key → hasSpecified key.specified avtabXperms = true →
        ((avtabSearchNodes h key).map fun n => n.datum.xperms).Perm
          ((avtabSearchNodes a key).map fun n => n.datum.xperms)) ∧
      ∀ n ∈ avtabNodes h, hasSpecified n.key.specified avtabXperms = true → n.datum.data = 0 := by
  obtain ⟨bytes, h, hwrite, hread, hr⟩ := readNodes_avtabWrite hvers ha hsupports hpos hlt rest
  have hcount : h.nel = a.nel := by
    have hlength := hr.perm.length_eq
    rw [List.length_map, List.length_map] at hlength
    rw [hr.filled.nel, ha.filled.nel, hlength]
  refine ⟨bytes, h, hwrite, hread, hr.teRules ha, hcount, ?_, ?_, fun key hkey hx => hr.search_perm ha hkey hx, ?_⟩
  · refine hr.perm_map (fun k => !hasSpecified k.specified avtabXperms) AvtabDatum.data fun n _ hx => ?_
    rw [Bool.not_eq_true'] at hx
    rw [storedDatum, hx]
    rfl
  · refine hr.perm_map (fun k => hasSpecified k.specified avtabXperms) AvtabDatum.xperms fun n _ hx => ?_
    rw [storedDatum, if_pos hx]
  · intro n hn hx
    obtain ⟨m, _, hkey, hdatum⟩ := hr.datum_eq hn
    rw [← hdatum, storedDatum, if_pos (hkey ▸ hx)]

/-! ### Extended permissions for one driver -/

/-- A policy with conditional extended permissions. -/
def newPolicy : Policydb := { policydbInit with policyvers := 34 }

section

local instance neZeroPermsLen : NeZero extendedPermsLen := ⟨by decide⟩

/-- The rule of the command with number 1, with the bit of the permission `ioctl` in its data word, as the compiler of
CIL sets it. -/
def ioctlEntry : AvtabKey × AvtabDatum :=
  (⟨1, 1, 1, avtabXpermsAllowed⟩, ⟨1, avtabXpermsIoctlfunction, 0, fun i => if i = 0 then 2 else 0⟩)

end

/-- The table after `n` insertions of the rule. -/
def ioctlTable (n : Nat) : Avtab := avtabRun 1 ((List.replicate n ioctlEntry).map fun r => .insert r.1 r.2)

private theorem ioctlTable_teRules (n : Nat) : (ioctlTable n).TeRules := by
  refine teRules_avtabRun (by decide) _ fun r hr => ?_
  rw [List.eq_of_mem_replicate hr]
  decide

private theorem supportsRules_newPolicy (a : Avtab) : SupportsRules newPolicy sepolTargetSelinux a :=
  fun _ _ _ => ⟨by decide, rfl⟩

theorem avtabRead_avtabWrite_rules_ioctl :
    ∃ bytes h, avtabWrite newPolicy sepolTargetSelinux (ioctlTable 2) = some bytes ∧
    avtabRead (bytes ++ []) newPolicy.policyvers = some (h, []) ∧ h.TeRules ∧ h.nel = (ioctlTable 2).nel ∧
    (dataEntries h).Perm (dataEntries (ioctlTable 2)) ∧ (xpermsEntries h).Perm (xpermsEntries (ioctlTable 2)) ∧
    (∀ key, RuleKey key → hasSpecified key.specified avtabXperms = true →
      ((avtabSearchNodes h key).map fun n => n.datum.xperms).Perm
        ((avtabSearchNodes (ioctlTable 2) key).map fun n => n.datum.xperms)) ∧
    ∀ n ∈ avtabNodes h, hasSpecified n.key.specified avtabXperms = true → n.datum.data = 0 :=
  avtabRead_avtabWrite_rules newPolicy sepolTargetSelinux (ioctlTable 2) (by decide) (ioctlTable_teRules 2)
    (supportsRules_newPolicy _) (by decide +kernel) (by decide +kernel) []

private theorem length_ioctlTable (n : Nat) : (avtabNodes (ioctlTable n)).length = n := by
  have hrun : ∀ a : Avtab, a.Filled → (avtabNodes (((List.replicate n ioctlEntry).map fun r =>
      AvtabCall.insert r.1 r.2).foldl AvtabCall.run a)).length = (avtabNodes a).length + n := by
    induction n with
    | zero => exact fun a _ => rfl
    | succ n ih =>
      intro a ha
      have hinsert : avtabInsert a ioctlEntry.1 ioctlEntry.2 = some (insertedTable a ioctlEntry.1 ioctlEntry.2) := by
        rw [avtabInsert_eq ha.alloc, if_neg]
        rintro ⟨_, hx⟩
        exact absurd hx (by decide)
      have hfilled : (insertedTable a ioctlEntry.1 ioctlEntry.2).Filled :=
        insertedTable_filled ha ⟨8, by decide, by decide⟩ ioctlEntry.2
      rw [List.replicate_succ, List.map_cons, List.foldl_cons, AvtabCall.run, hinsert, Option.getD_some, ih _ hfilled,
        (avtabNodes_insertedTable ha.alloc _ _).length_eq, List.length_cons]
      omega
  rw [ioctlTable, avtabRun, hrun _ (avtabAlloc_filled (by decide)), avtabNodes_avtabAlloc, List.length_nil,
    Nat.zero_add]

/-- The data word of an extended-permission rule is lost, and a table with as many entries as a saturated count is
refused. -/
theorem not_avtabRead_avtabWrite_rules :
    ((ioctlTable 1).TeRules ∧ 0 < (avtabNodes (ioctlTable 1)).length ∧
      ¬ ∃ bytes h, avtabWrite newPolicy sepolTargetSelinux (ioctlTable 1) = some bytes ∧
        avtabRead bytes newPolicy.policyvers = some (h, []) ∧
        ((avtabNodes h).map fun n => (n.key, n.datum.data)).Perm
          ((avtabNodes (ioctlTable 1)).map fun n => (n.key, n.datum.data))) ∧
    (ioctlTable (2 ^ 32 - 1)).TeRules ∧ 0 < (avtabNodes (ioctlTable (2 ^ 32 - 1))).length ∧
      ¬ ∃ bytes h, avtabWrite newPolicy sepolTargetSelinux (ioctlTable (2 ^ 32 - 1)) = some bytes ∧
        avtabRead bytes newPolicy.policyvers = some (h, []) := by
  have hvers : policydbVersionAvtab ≤ newPolicy.policyvers := by decide
  refine ⟨⟨ioctlTable_teRules 1, ?_, ?_⟩, ioctlTable_teRules _, ?_, ?_⟩
  · rw [length_ioctlTable]
    omega
  · rintro ⟨bytes, h, hwrite, hread, hperm⟩
    obtain ⟨bytes', h', hwrite', hread', hr⟩ := readNodes_avtabWrite hvers (ioctlTable_teRules 1)
      (supportsRules_newPolicy _) (by rw [length_ioctlTable]; omega) (by rw [length_ioctlTable]; omega) []
    rw [hwrite] at hwrite'
    obtain rfl := Option.some.inj hwrite'
    rw [List.append_nil, hread] at hread'
    obtain rfl : h = h' := congrArg Prod.fst (Option.some.inj hread')
    have hmem : (ioctlEntry.1, ioctlEntry.2.data) ∈ (avtabNodes (ioctlTable 1)).map fun n =>
      (n.key, n.datum.data) := by
      decide +kernel
    obtain ⟨n, hn, heq⟩ := List.mem_map.1 (hperm.mem_iff.2 hmem)
    obtain ⟨hkey, hdata⟩ := Prod.mk.inj heq
    obtain ⟨m, _, hmkey, hdatum⟩ := hr.datum_eq hn
    have hx : hasSpecified m.key.specified avtabXperms = true := by
      rw [hmkey, hkey]
      decide
    rw [← hdatum, storedDatum, if_pos hx] at hdata
    exact absurd (show (0 : BitVec 32) = 1 from hdata) (by decide)
  · rw [length_ioctlTable]
    omega
  · rintro ⟨bytes, h, hwrite, hread⟩
    have hbytes := avtabWrite_nodeBytes hvers (supportsRules_newPolicy (ioctlTable (2 ^ 32 - 1)))
    have hnel : (ioctlTable (2 ^ 32 - 1)).nel.toNat = 2 ^ 32 - 1 := by
      rw [(ioctlTable_teRules _).filled.nel, length_ioctlTable, BitVec.toNat_ofNat]
      exact Nat.mod_eq_of_lt (by omega)
    rw [hwrite, hnel] at hbytes
    rw [Option.some.inj hbytes, avtabRead_count (by omega), if_neg] at hread
    · cases hread
    · rintro ⟨hcount, _⟩
      exact hcount (Or.inr rfl)

end Sepol
