import Mathlib

/-!
# Chains kept in order

A chain is a list whose entries have strictly increasing keys.  A walk along it may stop early, at the first entry
whose key is not below the wanted one (`seek`); what it finds there is what a search of the whole list would find.
Then come walks that test each entry for a hit and for a reason to stop, and tables of chains.
-/

namespace SortedChain

variable {α κ : Type*} [LinearOrder κ] {key : α → κ}

/-- The entries have strictly increasing keys. -/
def Sorted (key : α → κ) (l : List α) : Prop := l.Pairwise fun a b => key a < key b

/-- The rest of the chain from the first entry on whose key is not below `k`. -/
def seek (key : α → κ) (k : κ) (l : List α) : List α := l.dropWhile fun a => decide (key a < k)

/-- The part of the chain before the first entry whose key is not below `k`. -/
def before (key : α → κ) (k : κ) (l : List α) : List α := l.takeWhile fun a => decide (key a < k)

/-- The entry the walk stops at, when it has the wanted key. -/
def lookup (key : α → κ) (k : κ) (l : List α) : Option α :=
  match seek key k l with
  | [] => none
  | a :: _ => if k = key a then some a else none

/-- The chain with a new entry put where the walk for its key stops. -/
def insert (key : α → κ) (a : α) (l : List α) : List α := before key (key a) l ++ a :: seek key (key a) l

theorem before_append_seek (k : κ) (l : List α) : before key k l ++ seek key k l = l :=
  List.takeWhile_append_dropWhile ..

theorem lt_of_mem_before {k : κ} {l : List α} {a : α} (h : a ∈ before key k l) : key a < k := by
  simpa using List.mem_takeWhile_imp h

theorem le_of_mem_seek {k : κ} {l : List α} (hl : Sorted key l) {a : α} (h : a ∈ seek key k l) : k ≤ key a := by
  induction l with
  | nil => cases h
  | cons b l ih =>
    have hl' := List.pairwise_cons.1 hl
    rw [seek, List.dropWhile_cons] at h
    split at h
    · exact ih hl'.2 h
    · rename_i hb
      have hb : k ≤ key b := by simpa using hb
      rcases List.mem_cons.1 h with rfl | h
      · exact hb
      · exact hb.trans (hl'.1 a h).le

theorem Sorted.eq_of_key_eq {l : List α} (hl : Sorted key l) {a b : α} (ha : a ∈ l) (hb : b ∈ l)
    (h : key a = key b) : a = b := by
  induction l with
  | nil => cases ha
  | cons c l ih =>
    have hl' := List.pairwise_cons.1 hl
    rcases List.mem_cons.1 ha with rfl | ha' <;> rcases List.mem_cons.1 hb with rfl | hb'
    · rfl
    · exact absurd h (hl'.1 b hb').ne
    · exact absurd h (hl'.1 a ha').ne'
    · exact ih hl'.2 ha' hb'

/-- A walk that stops early finds exactly the entries of the chain. -/
theorem lookup_eq_some_iff {l : List α} (hl : Sorted key l) {k : κ} {a : α} :
    lookup key k l = some a ↔ a ∈ l ∧ key a = k := by
  have hsub : ∀ x ∈ seek key k l, x ∈ l := fun x hx => (List.dropWhile_suffix _).subset hx
  constructor
  · intro h
    rw [lookup] at h
    split at h
    · cases h
    · rename_i b rest hs
      split at h
      · rename_i hk
        cases h
        exact ⟨hsub a (by simp [hs]), hk.symm⟩
      · cases h
  · rintro ⟨ha, rfl⟩
    have hmem : a ∈ seek key (key a) l := by
      rw [← @before_append_seek _ _ _ key (key a) l, List.mem_append] at ha
      rcases ha with ha | ha
      · exact absurd (lt_of_mem_before ha) (lt_irrefl _)
      · exact ha
    rw [lookup]
    cases hs : seek key (key a) l with
    | nil => rw [hs] at hmem; cases hmem
    | cons b rest =>
      have hb : key a ≤ key b := le_of_mem_seek hl (by rw [hs]; exact List.mem_cons_self ..)
      have hsorted : Sorted key (b :: rest) := hs ▸ List.Pairwise.sublist (List.dropWhile_sublist _) hl
      have hab : key b ≤ key a := by
        rcases List.mem_cons.1 (hs ▸ hmem) with rfl | h
        · exact le_refl _
        · exact ((List.pairwise_cons.1 hsorted).1 a h).le
      have hk : key a = key b := le_antisymm hb hab
      have : b = a := hl.eq_of_key_eq (hsub b (by simp [hs])) ha hk.symm
      simp [this]

theorem insert_perm (a : α) (l : List α) : (insert key a l).Perm (a :: l) := by
  have := @List.perm_middle _ a (before key (key a) l) (seek key (key a) l)
  rwa [before_append_seek] at this

theorem mem_insert {a b : α} {l : List α} : b ∈ insert key a l ↔ b = a ∨ b ∈ l := by
  rw [(insert_perm a l).mem_iff, List.mem_cons]

/-- A new key may be inserted. -/
theorem insert_sorted {a : α} {l : List α} (hl : Sorted key l) (h : ∀ b ∈ l, key b ≠ key a) :
    Sorted key (insert key a l) := by
  rw [Sorted, insert, List.pairwise_append, List.pairwise_cons]
  have hseek : ∀ b ∈ seek key (key a) l, key a < key b := fun b hb =>
    lt_of_le_of_ne (le_of_mem_seek hl hb) (h b ((List.dropWhile_suffix _).subset hb)).symm
  refine ⟨hl.sublist (List.takeWhile_sublist _), ⟨hseek, hl.sublist (List.dropWhile_sublist _)⟩, ?_⟩
  intro b hb c hc
  have hba := lt_of_mem_before hb
  rcases List.mem_cons.1 hc with rfl | hc
  · exact hba
  · exact hba.trans (hseek c hc)

/-! ### Walks with a test for a hit and a test to stop -/

/-- The rest of the chain from the first hit on, nothing when an entry before it says to stop. -/
def seekUntil (hit stop : α → Bool) : List α → List α
  | [] => []
  | a :: l => if hit a then a :: l else if stop a then [] else seekUntil hit stop l

/-- The chain with its first hit changed, unless an entry before it says to stop. -/
def modifyUntil (hit stop : α → Bool) (f : α → α) : List α → List α
  | [] => []
  | a :: l => if hit a then f a :: l else if stop a then a :: l else a :: modifyUntil hit stop f l

/-- The chain with a new entry before the first one that says to stop. -/
def insertUntil (stop : α → Bool) (a : α) (l : List α) : List α :=
  l.takeWhile (fun b => !stop b) ++ a :: l.dropWhile fun b => !stop b

/-- No hit follows an entry that says to stop. -/
def StopsAfterHits (hit stop : α → Bool) (l : List α) : Prop :=
  l.Pairwise fun a b => stop a = true → hit b = false

theorem StopsAfterHits.filter_eq_nil {hit stop : α → Bool} {a : α} {l : List α}
    (h : StopsAfterHits hit stop (a :: l)) (hs : stop a = true) : l.filter hit = [] := by
  rw [List.filter_eq_nil_iff]
  intro b hb
  simp [(List.pairwise_cons.1 h).1 b hb hs]

theorem seekUntil_suffix (hit stop : α → Bool) (l : List α) : seekUntil hit stop l <:+ l := by
  induction l with
  | nil => exact List.suffix_refl _
  | cons a l ih =>
    rw [seekUntil]
    split
    · exact List.suffix_refl _
    · split
      · exact List.nil_suffix
      · exact ih.trans (List.suffix_cons ..)

theorem StopsAfterHits.suffix {hit stop : α → Bool} {l l' : List α} (h : StopsAfterHits hit stop l)
    (hs : l' <:+ l) : StopsAfterHits hit stop l' := List.Pairwise.sublist hs.sublist h

/-- The walk stops at the first hit of the whole list. -/
theorem filter_seekUntil {hit stop : α → Bool} {l : List α} (h : StopsAfterHits hit stop l) :
    (seekUntil hit stop l).filter hit = l.filter hit := by
  induction l with
  | nil => rfl
  | cons a l ih =>
    rw [seekUntil]
    split
    · rfl
    · rename_i ha
      rw [List.filter_cons_of_neg ha]
      split
      · rename_i hs
        rw [h.filter_eq_nil hs, List.filter_nil]
      · exact ih (List.pairwise_cons.1 h).2

theorem hit_of_seekUntil {hit stop : α → Bool} {l l' : List α} {a : α} (h : seekUntil hit stop l = a :: l') :
    hit a = true := by
  induction l with
  | nil => cases h
  | cons b l ih =>
    rw [seekUntil] at h
    split at h
    · rename_i hb
      cases h
      exact hb
    · split at h
      · cases h
      · exact ih h

theorem head?_seekUntil {hit stop : α → Bool} {l : List α} (h : StopsAfterHits hit stop l) :
    (seekUntil hit stop l).head? = l.find? hit := by
  rw [← List.head?_filter, ← filter_seekUntil h]
  cases hs : seekUntil hit stop l with
  | nil => rfl
  | cons a l' => rw [List.filter_cons_of_pos (hit_of_seekUntil hs)]; rfl

theorem mem_of_seekUntil {hit stop : α → Bool} {l l' : List α} {a : α} (h : seekUntil hit stop l = a :: l') :
    a ∈ l ∧ hit a = true :=
  ⟨(seekUntil_suffix hit stop l).subset (h ▸ List.mem_cons_self ..), hit_of_seekUntil h⟩

theorem insertUntil_perm (stop : α → Bool) (a : α) (l : List α) : (insertUntil stop a l).Perm (a :: l) := by
  have := @List.perm_middle _ a (l.takeWhile fun b => !stop b) (l.dropWhile fun b => !stop b)
  rwa [List.takeWhile_append_dropWhile] at this

/-- An entry that belongs before the entries that say to stop and after the other ones is put in order. -/
theorem insertUntil_pairwise {r : α → α → Prop} (htrans : ∀ {a b c}, r a b → r b c → r a c) {stop : α → Bool} {a : α}
    {l : List α} (hl : l.Pairwise r) (hafter : ∀ b ∈ l, stop b = false → r b a)
    (hbefore : ∀ b ∈ l, stop b = true → r a b) : (insertUntil stop a l).Pairwise r := by
  induction l with
  | nil => exact List.pairwise_singleton ..
  | cons b l ih =>
    have hl' := List.pairwise_cons.1 hl
    cases hb : stop b with
    | true =>
      have hab := hbefore b (List.mem_cons_self ..) hb
      rw [insertUntil, List.takeWhile_cons_of_neg (by simp [hb]), List.dropWhile_cons_of_neg (by simp [hb]),
        List.nil_append]
      refine List.pairwise_cons.2 ⟨fun c hc => ?_, hl⟩
      rcases List.mem_cons.1 hc with rfl | hc
      · exact hab
      · exact htrans hab (hl'.1 c hc)
    | false =>
      have hba := hafter b (List.mem_cons_self ..) hb
      have hrec := ih hl'.2 (fun c hc => hafter c (List.mem_cons_of_mem _ hc)) fun c hc =>
        hbefore c (List.mem_cons_of_mem _ hc)
      rw [insertUntil, List.takeWhile_cons_of_pos (by simp [hb]), List.dropWhile_cons_of_pos (by simp [hb]),
        List.cons_append]
      refine List.pairwise_cons.2 ⟨fun c hc => ?_, hrec⟩
      rcases List.mem_cons.1 ((insertUntil_perm stop a l).mem_iff.1 hc) with rfl | hc
      · exact hba
      · exact hl'.1 c hc

/-- A new entry is found after the hits that are there already. -/
theorem find?_insertUntil {hit stop : α → Bool} {a : α} {l : List α} (h : StopsAfterHits hit stop l)
    (hself : ∀ b ∈ l, stop b = true → hit b = false) (ha : hit a = true) :
    (insertUntil stop a l).find? hit = (l.find? hit).or (some a) := by
  induction l with
  | nil => simp [insertUntil, ha]
  | cons b l ih =>
    cases hb : stop b with
    | true =>
      have hnone : (b :: l).find? hit = none := by
        rw [List.find?_eq_none]
        intro c hc
        rcases List.mem_cons.1 hc with rfl | hc
        · simp [hself c (List.mem_cons_self ..) hb]
        · simp [(List.pairwise_cons.1 h).1 c hc hb]
      rw [hnone, insertUntil, List.takeWhile_cons_of_neg (by simp [hb]), List.nil_append,
        List.find?_cons_of_pos ha]
      rfl
    | false =>
      have hrec := ih (List.pairwise_cons.1 h).2 fun c hc => hself c (List.mem_cons_of_mem _ hc)
      rw [insertUntil] at hrec
      rw [insertUntil, List.takeWhile_cons_of_pos (by simp [hb]), List.dropWhile_cons_of_pos (by simp [hb]),
        List.cons_append, List.find?_cons, List.find?_cons, hrec]
      split <;> simp

theorem find?_insertUntil_of_not {hit : α → Bool} (stop : α → Bool) {a : α} (l : List α) (ha : hit a = false) :
    (insertUntil stop a l).find? hit = l.find? hit := by
  rw [insertUntil, List.find?_append, List.find?_cons_of_neg (by simp [ha]), ← List.find?_append,
    List.takeWhile_append_dropWhile]

/-- A change that keeps some part of the entries keeps it along the chain. -/
theorem map_modifyUntil {β : Type*} {hit stop : α → Bool} {f : α → α} {g : α → β} (hg : ∀ a, g (f a) = g a)
    (l : List α) : (modifyUntil hit stop f l).map g = l.map g := by
  induction l with
  | nil => rfl
  | cons a l ih =>
    rw [modifyUntil]
    split
    · rw [List.map_cons, List.map_cons, hg]
    · split
      · rfl
      · rw [List.map_cons, List.map_cons, ih]

/-- The entry that the walk finds is the one that is changed. -/
theorem find?_modifyUntil {hit stop : α → Bool} {f : α → α} {l : List α} (h : StopsAfterHits hit stop l)
    (hf : ∀ a, hit (f a) = hit a) : (modifyUntil hit stop f l).find? hit = (l.find? hit).map f := by
  induction l with
  | nil => rfl
  | cons a l ih =>
    rw [modifyUntil]
    split
    · rename_i ha
      rw [List.find?_cons_of_pos ha, List.find?_cons_of_pos ((hf a).trans ha), Option.map_some]
    · rename_i ha
      rw [List.find?_cons_of_neg ha]
      split
      · rename_i hs
        rw [List.find?_cons_of_neg ha, ← List.head?_filter, h.filter_eq_nil hs]
        rfl
      · rw [List.find?_cons_of_neg ha, ih (List.pairwise_cons.1 h).2]

theorem find?_modifyUntil_of_not {hit hit' stop : α → Bool} {f : α → α} {l : List α}
    (h : ∀ a, hit a = true → hit' a = false ∧ hit' (f a) = false) :
    (modifyUntil hit stop f l).find? hit' = l.find? hit' := by
  induction l with
  | nil => rfl
  | cons a l ih =>
    rw [modifyUntil]
    split
    · rename_i ha
      rw [List.find?_cons_of_neg (by simp [(h a ha).2]), List.find?_cons_of_neg (by simp [(h a ha).1])]
    · split
      · rfl
      · rw [List.find?_cons, List.find?_cons, ih]

/-- The node that is changed is the one that a walk finds. -/
theorem modifyUntil_eq_of_seek {hit stop : α → Bool} {f : α → α} {n : α} {l : List α}
    (h : (seekUntil hit stop l).head? = some n) :
    ∃ before after, l = before ++ n :: after ∧ modifyUntil hit stop f l = before ++ f n :: after := by
  induction l with
  | nil => cases h
  | cons a l ih =>
    rw [seekUntil] at h
    rw [modifyUntil]
    split at h
    · rename_i hhit
      obtain rfl := Option.some.inj h
      exact ⟨[], l, rfl, by rw [if_pos hhit, List.nil_append]⟩
    · rename_i hhit
      split at h
      · cases h
      · rename_i hstop
        obtain ⟨before, after, rfl, hmodify⟩ := ih h
        refine ⟨a :: before, after, rfl, ?_⟩
        rw [if_neg hhit, if_neg hstop, hmodify, List.cons_append]

/-! ### Tables of chains -/

/-- Adding one entry to one chain of a table adds it to the list of all entries. -/
theorem flatMap_update_perm {ι : Type*} [DecidableEq ι] {l : List ι} (hl : l.Nodup) {i : ι} (hi : i ∈ l)
    (f : ι → List α) {a : α} {v : List α} (hv : v.Perm (a :: f i)) :
    (l.flatMap (Function.update f i v)).Perm (a :: l.flatMap f) := by
  induction l with
  | nil => cases hi
  | cons j l ih =>
    have hl' := List.nodup_cons.1 hl
    rw [List.flatMap_cons, List.flatMap_cons]
    by_cases hj : j = i
    · subst hj
      have hrest : l.flatMap (Function.update f j v) = l.flatMap f :=
        List.flatMap_congr fun k hk => Function.update_of_ne (fun e : k = j => hl'.1 (e ▸ hk)) _ _
      rw [Function.update_self, hrest]
      exact hv.append_right _
    · have hi' : i ∈ l := (List.mem_cons.1 hi).resolve_left (Ne.symm hj)
      rw [Function.update_of_ne hj]
      exact ((ih hl'.2 hi').append_left _).trans List.perm_middle

/-- When only one chain of a table holds any entries, they are all entries. -/
theorem flatMap_eq_of_forall_ne {ι : Type*} {l : List ι} (hl : l.Nodup) {i : ι} (hi : i ∈ l) {f : ι → List α}
    (hf : ∀ j ∈ l, j ≠ i → f j = []) : l.flatMap f = f i := by
  induction l with
  | nil => cases hi
  | cons j l ih =>
    have hl' := List.nodup_cons.1 hl
    rw [List.flatMap_cons]
    by_cases hj : j = i
    · subst hj
      have hrest : l.flatMap f = [] := List.flatMap_eq_nil_iff.2 fun k hk =>
        hf k (List.mem_cons_of_mem _ hk) fun e => hl'.1 (e ▸ hk)
      rw [hrest, List.append_nil]
    · rw [hf j (List.mem_cons_self ..) hj, List.nil_append]
      exact ih hl'.2 ((List.mem_cons.1 hi).resolve_left (Ne.symm hj)) fun k hk => hf k (List.mem_cons_of_mem _ hk)

end SortedChain
