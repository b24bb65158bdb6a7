import Sepol.CilClassperms

/-!
# The algebra of class permission lists

Matching, intersection and difference of class permission lists are those of the sets of pairs the lists stand for.
Intersection and difference share their walk: it keeps a list or a permission that stays whole and opens up the
others, so that one lemma about the walk serves both.
-/

namespace Sepol

theorem mem_flatClassperms_classperms {classStr : CString} {cls : CilClass} {permStrs : List CString}
    {perms : List CilPerm} {rest : List CilClassperms} {x : CilClass × CilPerm} :
    x ∈ flatClassperms (.classperms classStr cls permStrs perms :: rest) ↔
      (x.1 = cls ∧ x.2 ∈ perms) ∨ x ∈ flatClassperms rest := by
  rw [flatClassperms, flatItem, List.mem_append, List.mem_map]
  refine or_congr_left ⟨?_, ?_⟩
  · rintro ⟨p, hp, rfl⟩
    exact ⟨rfl, hp⟩
  · rintro ⟨rfl, hp⟩
    exact ⟨x.2, hp, rfl⟩

private theorem flatClassperms_append (l l' : List CilClassperms) :
    flatClassperms (l ++ l') = flatClassperms l ++ flatClassperms l' := by
  induction l with
  | nil => simp [flatClassperms]
  | cons item rest ih => simp [flatClassperms, ih]

private theorem flatClasspermsList_destroyEmpty (items : List CilClassperms) :
    flatClasspermsList (destroyEmpty items) = flatClassperms items := by
  cases items <;> rfl

theorem flatClasspermsList_copy (cpl : Option (List CilClassperms)) :
    flatClasspermsList (cilClasspermsListCopy cpl) = flatClasspermsList cpl := by
  cases cpl with
  | none => rfl
  | some items => exact flatClasspermsList_destroyEmpty items

/-! ### Matching -/

private theorem cilPermMatch_iff {p1 : CilPerm} {pl2 : List CilPerm} : cilPermMatch p1 pl2 = true ↔ p1 ∈ pl2 := by
  simp [cilPermMatch]

/-- A permission matches a list when its pair is one of those of the list. -/
theorem cilClassPermMatch_iff {c1 : CilClass} {p1 : CilPerm} (cpl2 : List CilClassperms) :
    cilClassPermMatch c1 p1 cpl2 = true ↔ (c1, p1) ∈ flatClassperms cpl2 := by
  refine (CilClassperms.listInduction (P := fun l => cilClassPermMatch c1 p1 l = true ↔ (c1, p1) ∈ flatClassperms l)
    (Q := fun l => mapClassPermMatch c1 p1 l = true ↔ (c1, p1) ∈ flatMapPerms l) ?_ ?_ ?_ ?_ ?_ ?_).1 cpl2
  · simp [cilClassPermMatch, flatClassperms]
  · intro classStr cls permStrs perms rest ih
    rw [cilClassPermMatch, itemClassPermMatch, mem_flatClassperms_classperms, Bool.or_eq_true, Bool.and_eq_true,
      decide_eq_true_iff,
      cilPermMatch_iff, ih, eq_comm (a := cls)]
  · intro classStr cls permStrs perms rest ihm ih
    rw [cilClassPermMatch, itemClassPermMatch, flatClassperms, flatItem, Bool.or_eq_true, List.mem_append, ihm, ih]
  · intro setStr set rest ihs ih
    rw [cilClassPermMatch, itemClassPermMatch, flatClassperms, flatItem, Bool.or_eq_true, List.mem_append, ihs, ih]
  · simp [mapClassPermMatch, flatMapPerms]
  · intro fqn cps rest ihc ih
    rw [mapClassPermMatch, flatMapPerms, Bool.or_eq_true, List.mem_append, ihc, ih]

private theorem exists_mem_classperms {classStr : CString} {cls : CilClass} {permStrs : List CString}
    {perms : List CilPerm} {rest : List CilClassperms} {p : CilClass × CilPerm → Prop} :
    (∃ x ∈ flatClassperms (.classperms classStr cls permStrs perms :: rest), p x) ↔
      (∃ perm ∈ perms, p (cls, perm)) ∨ ∃ x ∈ flatClassperms rest, p x := by
  simp only [flatClassperms, flatItem, List.mem_append, List.mem_map, or_and_right, exists_or]
  refine or_congr_left ⟨?_, ?_⟩
  · rintro ⟨_, ⟨perm, hperm, rfl⟩, hp⟩
    exact ⟨perm, hperm, hp⟩
  · rintro ⟨perm, hperm, hp⟩
    exact ⟨_, ⟨perm, hperm, rfl⟩, hp⟩

private theorem exists_mem_append {l l' : List (CilClass × CilPerm)} {p : CilClass × CilPerm → Prop} :
    (∃ x ∈ l ++ l', p x) ↔ (∃ x ∈ l, p x) ∨ ∃ x ∈ l', p x := by
  simp only [List.mem_append, or_and_right, exists_or]

theorem classpermsMatchAny_iff (cpl2 cpl1 : List CilClassperms) :
    classpermsMatchAny cpl2 cpl1 = true ↔ ∃ x ∈ flatClassperms cpl1, x ∈ flatClassperms cpl2 := by
  refine (CilClassperms.listInduction
    (P := fun l => classpermsMatchAny cpl2 l = true ↔ ∃ x ∈ flatClassperms l, x ∈ flatClassperms cpl2)
    (Q := fun l => mapPermsMatchAny cpl2 l = true ↔ ∃ x ∈ flatMapPerms l, x ∈ flatClassperms cpl2)
    ?_ ?_ ?_ ?_ ?_ ?_).1 cpl1
  · simp [classpermsMatchAny, flatClassperms]
  · intro classStr cls permStrs perms rest ih
    rw [classpermsMatchAny, itemMatchAny, exists_mem_classperms, Bool.or_eq_true, ih, cilClasspermsMatchAny,
      List.any_eq_true]
    simp only [cilClassPermMatch_iff]
  · intro classStr cls permStrs perms rest ihm ih
    rw [classpermsMatchAny, itemMatchAny, flatClassperms, flatItem, Bool.or_eq_true, exists_mem_append, ihm, ih]
  · intro setStr set rest ihs ih
    rw [classpermsMatchAny, itemMatchAny, flatClassperms, flatItem, Bool.or_eq_true, exists_mem_append, ihs, ih]
  · simp [mapPermsMatchAny, flatMapPerms]
  · intro fqn cps rest ihc ih
    rw [mapPermsMatchAny, flatMapPerms, Bool.or_eq_true, exists_mem_append, ihc, ih]

private theorem classpermsMatchAll_iff (cpl2 cpl1 : List CilClassperms) :
    classpermsMatchAll cpl2 cpl1 = true ↔ ∀ x ∈ flatClassperms cpl1, x ∈ flatClassperms cpl2 := by
  refine (CilClassperms.listInduction
    (P := fun l => classpermsMatchAll cpl2 l = true ↔ ∀ x ∈ flatClassperms l, x ∈ flatClassperms cpl2)
    (Q := fun l => mapPermsMatchAll cpl2 l = true ↔ ∀ x ∈ flatMapPerms l, x ∈ flatClassperms cpl2)
    ?_ ?_ ?_ ?_ ?_ ?_).1 cpl1
  · simp [classpermsMatchAll, flatClassperms]
  · intro classStr cls permStrs perms rest ih
    rw [classpermsMatchAll, itemMatchAll, flatClassperms, flatItem, Bool.and_eq_true, ih, cilClasspermsMatchAll,
      List.all_eq_true,
      List.forall_mem_append, List.forall_mem_map]
    simp only [cilClassPermMatch_iff]
  · intro classStr cls permStrs perms rest ihm ih
    rw [classpermsMatchAll, itemMatchAll, flatClassperms, flatItem, Bool.and_eq_true, List.forall_mem_append, ihm, ih]
  · intro setStr set rest ihs ih
    rw [classpermsMatchAll, itemMatchAll, flatClassperms, flatItem, Bool.and_eq_true, List.forall_mem_append, ihs, ih]
  · simp [mapPermsMatchAll, flatMapPerms]
  · intro fqn cps rest ihc ih
    rw [mapPermsMatchAll, flatMapPerms, Bool.and_eq_true, List.forall_mem_append, ihc, ih]

/-! ### The walk of intersection and difference -/

private theorem flat_classpermsSelect {keep : CilClass → CilPerm → Bool} (classStr : CString) (cls : CilClass)
    (permStrs : List CString) (perms : List CilPerm) {x : CilClass × CilPerm} :
    x ∈ flatClassperms (classpermsSelect keep classStr cls permStrs perms) ↔
      (x.1 = cls ∧ x.2 ∈ perms) ∧ keep x.1 x.2 = true := by
  have hnil : x ∉ flatClassperms [] := by simp [flatClassperms]
  rw [classpermsSelect]
  split
  · rename_i hall
    rw [mem_flatClassperms_classperms, or_iff_left hnil]
    refine ⟨fun h => ⟨h, ?_⟩, And.left⟩
    rw [h.1]
    exact List.all_eq_true.1 hall _ h.2
  · split
    · rename_i hempty
      have hnone : perms.filter (keep cls) = [] := List.isEmpty_iff.1 hempty
      refine ⟨fun h => absurd h hnil, ?_⟩
      rintro ⟨⟨hx, hp⟩, hk⟩
      have : x.2 ∈ perms.filter (keep cls) := List.mem_filter.2 ⟨hp, hx ▸ hk⟩
      rw [hnone] at this
      cases this
    · rw [mem_flatClassperms_classperms, or_iff_left hnil, List.mem_filter]
      constructor
      · rintro ⟨hx, hp, hk⟩
        exact ⟨⟨hx, hp⟩, hx ▸ hk⟩
      · rintro ⟨⟨hx, hp⟩, hk⟩
        exact ⟨hx, hp, hx ▸ hk⟩

private theorem mem_flat_mapItems (classStr : CString) (cls : CilClass)
    (found : List CilClassperms × List CilMapPerm × List CilClassperms) {x : CilClass × CilPerm} :
    x ∈ flatClassperms (mapItems classStr cls found) ↔
      x ∈ flatClassperms found.1 ∨ x ∈ flatMapPerms found.2.1 ∨ x ∈ flatClassperms found.2.2 := by
  rw [mapItems, flatClassperms_append, flatClassperms_append, List.mem_append, List.mem_append, or_assoc]
  cases found.2.1 <;> simp [flatClassperms, flatItem, flatMapPerms]

/-- What the walk returns has the pairs of the list that are kept, when a list stays whole only if all its pairs are
kept. -/
private theorem mem_flat_selectResult {whole : List CilClassperms → Bool} {keep : CilClass → CilPerm → Bool}
    (hwhole : ∀ l, whole l = true → ∀ x ∈ flatClassperms l, keep x.1 x.2 = true) {cpl1 items : List CilClassperms}
    {x : CilClass × CilPerm} (hitems : x ∈ flatClassperms items ↔ x ∈ flatClassperms cpl1 ∧ keep x.1 x.2 = true) :
    x ∈ flatClasspermsList (selectResult whole cpl1 items) ↔ x ∈ flatClassperms cpl1 ∧ keep x.1 x.2 = true := by
  rw [selectResult]
  split
  · rename_i hall
    rw [flatClasspermsList_copy]
    exact ⟨fun h => ⟨h, hwhole cpl1 hall x h⟩, And.left⟩
  · rw [flatClasspermsList_destroyEmpty, hitems]

private theorem mem_flat_classpermsListSelect {whole : List CilClassperms → Bool} {keep : CilClass → CilPerm → Bool}
    (hwhole : ∀ l, whole l = true → ∀ x ∈ flatClassperms l, keep x.1 x.2 = true) (x : CilClass × CilPerm)
    (cpl1 : List CilClassperms) :
    x ∈ flatClassperms (classpermsListSelect whole keep cpl1) ↔ x ∈ flatClassperms cpl1 ∧ keep x.1 x.2 = true := by
  -- in the walk over map permissions the pairs may land before, in or after the new item
  refine (CilClassperms.listInduction
    (P := fun l => x ∈ flatClassperms (classpermsListSelect whole keep l) ↔
      x ∈ flatClassperms l ∧ keep x.1 x.2 = true)
    (Q := fun l => ∀ started,
      (x ∈ flatClassperms (mapPermsSelect whole keep started l).1 ∨
        x ∈ flatMapPerms (mapPermsSelect whole keep started l).2.1 ∨
        x ∈ flatClassperms (mapPermsSelect whole keep started l).2.2) ↔
      x ∈ flatMapPerms l ∧ keep x.1 x.2 = true)
    ?_ ?_ ?_ ?_ ?_ ?_).1 cpl1
  · simp [classpermsListSelect, flatClassperms]
  · intro classStr cls permStrs perms rest ih
    rw [classpermsListSelect, itemSelect, flatClassperms_append, List.mem_append, mem_flatClassperms_classperms, ih,
      flat_classpermsSelect, or_and_right]
  · intro classStr cls permStrs perms rest ihm ih
    rw [classpermsListSelect, itemSelect, flatClassperms_append, List.mem_append, flatClassperms, flatItem,
      List.mem_append,
      ih, mem_flat_mapItems, ihm false, or_and_right]
  · intro setStr set rest ihs ih
    rw [classpermsListSelect, itemSelect, flatClassperms_append, List.mem_append, flatClassperms, flatItem,
      List.mem_append,
      ih, or_and_right]
    refine or_congr_left ?_
    split
    · rename_i hset
      simp only [flatClassperms, flatItem, List.append_nil]
      exact ⟨fun h => ⟨h, hwhole set hset x h⟩, And.left⟩
    · exact mem_flat_selectResult hwhole ihs
  · intro started
    simp [mapPermsSelect, flatMapPerms, flatClassperms]
  · intro fqn cps rest ihc ih started
    rw [mapPermsSelect, flatMapPerms, List.mem_append, or_and_right]
    split
    · rename_i hcps
      have hkeep : x ∈ flatClassperms cps ∧ keep x.1 x.2 = true ↔ x ∈ flatClassperms cps :=
        ⟨And.left, fun h => ⟨h, hwhole cps hcps x h⟩⟩
      rw [hkeep, ← ih true]
      simp only [flatMapPerms, List.mem_append]
      rw [or_assoc, or_left_comm]
    · have hitems := mem_flat_selectResult hwhole ihc
      rw [← ih started, ← hitems, flatClasspermsList]
      split
      · simp only [flatClassperms_append, List.mem_append]
        grind
      · simp only [flatClassperms_append, List.mem_append]
        rw [or_assoc]

/-- Intersection, for lists that may be `NULL`. -/
theorem mem_flat_cilClasspermsListAnd (a b : Option (List CilClassperms)) (x : CilClass × CilPerm) :
    x ∈ flatClasspermsList (cilClasspermsListAnd a b) ↔ x ∈ flatClasspermsList a ∧ x ∈ flatClasspermsList b := by
  cases a with
  | none => simp [cilClasspermsListAnd, flatClasspermsList, flatClassperms]
  | some cpl1 =>
    cases b with
    | none => simp [cilClasspermsListAnd, flatClasspermsList, flatClassperms]
    | some cpl2 =>
      have hwhole : ∀ l, classpermsMatchAll cpl2 l = true → ∀ y ∈ flatClassperms l,
          cilClassPermMatch y.1 y.2 cpl2 = true := by
        intro l hl y hy
        exact (cilClassPermMatch_iff cpl2).2 ((classpermsMatchAll_iff cpl2 l).1 hl y hy)
      rw [cilClasspermsListAnd, mem_flat_selectResult hwhole (mem_flat_classpermsListSelect hwhole x cpl1),
        cilClassPermMatch_iff]
      rfl

/-- Difference, for lists that may be `NULL`. -/
theorem mem_flat_cilClasspermsListAndnot (a b : Option (List CilClassperms)) (x : CilClass × CilPerm) :
    x ∈ flatClasspermsList (cilClasspermsListAndnot a b) ↔ x ∈ flatClasspermsList a ∧ x ∉ flatClasspermsList b := by
  cases a with
  | none => simp [cilClasspermsListAndnot, flatClasspermsList, flatClassperms]
  | some cpl1 =>
    cases b with
    | none =>
      rw [cilClasspermsListAndnot, flatClasspermsList_copy]
      simp [flatClasspermsList, flatClassperms]
    | some cpl2 =>
      have hwhole : ∀ l, (!classpermsMatchAny cpl2 l) = true → ∀ y ∈ flatClassperms l,
          (!cilClassPermMatch y.1 y.2 cpl2) = true := by
        intro l hl y hy
        rw [Bool.not_eq_true', ← Bool.not_eq_true] at hl ⊢
        intro hmatch
        exact hl ((classpermsMatchAny_iff cpl2 l).2 ⟨y, hy, (cilClassPermMatch_iff cpl2).1 hmatch⟩)
      rw [cilClasspermsListAndnot, mem_flat_selectResult hwhole (mem_flat_classpermsListSelect hwhole x cpl1),
        Bool.not_eq_true', ← Bool.not_eq_true, cilClassPermMatch_iff]
      rfl

/-- The class permission algebra is that of the sets of pairs the lists stand for. -/
theorem cilClasspermsList_algebra (a b : List CilClassperms) :
    (∀ x, x ∈ flatClasspermsList (cilClasspermsListAnd (some a) (some b)) ↔
      x ∈ flatClassperms a ∧ x ∈ flatClassperms b) ∧
    (∀ x, x ∈ flatClasspermsList (cilClasspermsListAndnot (some a) (some b)) ↔
      x ∈ flatClassperms a ∧ x ∉ flatClassperms b) ∧
    (cilClasspermsListMatchAny (some a) (some b) = true ↔ ∃ x ∈ flatClassperms a, x ∈ flatClassperms b) ∧
    (cilClasspermsListMatchAll (some a) (some b) = true ↔ ∀ x ∈ flatClassperms a, x ∈ flatClassperms b) :=
  ⟨mem_flat_cilClasspermsListAnd (some a) (some b), mem_flat_cilClasspermsListAndnot (some a) (some b),
    classpermsMatchAny_iff b a, classpermsMatchAll_iff b a⟩

end Sepol
