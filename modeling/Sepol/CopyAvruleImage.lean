import Sepol.CopyAvrule

/-!
# The copies are images

The sets and the classes of a copied rule are images of those of the rule, and so are the masks of access vector rules
and the results of type rules.  For an extended permission rule the code looks the mask up in the map of the types, so
that its mask is an image only where the entry happens to be the right mask.
-/

namespace Sepol

variable {mod : PolicyModule} {rule rule' : LinkAvrule} {node node' : ClassPermNode} {specified : BitVec 32}

private theorem mapEntry_eq_some {α : Type} {map : List α} {value : Nat} (hpos : 0 < value)
    (hle : value ≤ map.length) : ∃ a, mapEntry map value = some a ∧ a ∈ map := by
  have hlt : value - 1 < map.length := by omega
  refine ⟨map[value - 1], ?_, List.getElem_mem hlt⟩
  rw [mapEntry, if_neg (by omega), List.getElem?_eq_getElem hlt]

/-! ### Sets of types -/

private theorem ebitmapConvertBits_image {map : List Nat} (hmap : ∀ value ∈ map, 0 < value ∧ value ≤ 2 ^ 32 - 64)
    {bits : List Nat} (hbits : ∀ i ∈ bits, i < map.length) {dst : Ebitmap} (hdst : dst.Canonical) :
    ∃ dst', ebitmapConvertBits map bits dst = .ok dst' ∧
      ∀ j, j ∈ dst' ↔ j ∈ dst ∨ ∃ i ∈ bits, map[i]? = some (j + 1) := by
  induction bits generalizing dst with
  | nil => exact ⟨dst, rfl, fun j => by simp⟩
  | cons bit bits ih =>
    have hlt := hbits bit List.mem_cons_self
    have hget := List.getElem?_eq_getElem hlt
    obtain ⟨hpos, hle⟩ := hmap _ (List.getElem_mem hlt)
    have hsmall : map[bit] - 1 < 2 ^ 32 - 64 := by omega
    have hset := ebitmapSetBit_true hsmall dst
    obtain ⟨dst', heq, hmem⟩ := ih (fun i hi => hbits i (List.mem_cons_of_mem bit hi)) (hdst.setBit hsmall hset)
    refine ⟨dst', ?_, fun j => ?_⟩
    · rw [ebitmapConvertBits, hget]
      dsimp only
      rw [if_neg (by omega), hset]
      exact heq
    · rw [hmem, mem_of_ebitmapSetBit hdst hsmall hset, or_assoc]
      refine or_congr_right ?_
      constructor
      · intro h
        rcases h with rfl | ⟨i, hi, hval⟩
        · exact ⟨bit, List.mem_cons_self, by rw [hget, Nat.sub_add_cancel hpos]⟩
        · exact ⟨i, List.mem_cons_of_mem bit hi, hval⟩
      · intro h
        obtain ⟨i, hi, hval⟩ := h
        rcases List.mem_cons.1 hi with rfl | hi
        · rw [hget] at hval
          have hval := Option.some.inj hval
          exact Or.inl (by omega)
        · exact Or.inr ⟨i, hi, hval⟩

private theorem ebitmapConvert_image (hmod : mod.Complete) {src : Ebitmap} (hsrc : src.Canonical)
    (hlt : ∀ i ∈ src, i < (mod.map .types).length) :
    ∃ dst, ebitmapConvert src ebitmapInit (mod.map .types) = .ok dst ∧ SetImage (mod.map .types) src dst := by
  have hbits : ∀ i ∈ ebitmapPositiveBits src, i < (mod.map .types).length :=
    fun i hi => hlt i ((mem_ebitmapPositiveBits hsrc).1 hi)
  obtain ⟨dst, heq, hmem⟩ := ebitmapConvertBits_image hmod.types hbits Ebitmap.Canonical.init
  refine ⟨dst, heq, fun j => ?_⟩
  rw [hmem, or_iff_right (not_mem_ebitmapInit j)]
  exact exists_congr fun i => and_congr_left fun _ => mem_ebitmapPositiveBits hsrc

private theorem typeSetConvert_image (hmod : mod.Complete) {set : LinkTypeSet} (hset : set.Of mod) :
    ∃ set', typeSetConvert set mod = .ok set' ∧ set.Image mod set' := by
  obtain ⟨types, htypes, himage⟩ := ebitmapConvert_image hmod hset.types_canonical hset.types_lt
  obtain ⟨negset, hnegset, himage'⟩ := ebitmapConvert_image hmod hset.negset_canonical hset.negset_lt
  exact ⟨⟨types, negset, set.flags⟩, by rw [typeSetConvert, htypes]; dsimp only; rw [hnegset], himage, himage', rfl⟩

/-! ### Permission nodes -/

private theorem and_shiftLeft_eq_zero (data : BitVec 32) {i : Nat} (hi : i < 32) :
    data &&& 1#32 <<< i = 0 ↔ data.getLsbD i = false := by
  constructor
  · intro h
    have hbit := congrArg (fun w => w.getLsbD i) h
    simpa [BitVec.getLsbD_and, BitVec.getLsbD_shiftLeft, hi] using hbit
  · intro h
    ext k hk
    by_cases hki : k = i
    · subst hki
      simp [BitVec.getLsbD_eq_getElem hk ▸ h]
    · simp only [BitVec.getElem_and, BitVec.getElem_shiftLeft, BitVec.getElem_one]
      by_cases hlt : k < i
      · simp [hlt]
      · have hne : ¬ k - i = 0 := by omega
        simp [hlt, hne]

/-- The bits that are set in the new mask come from bits of the old one from `i` on. -/
private theorem copyPermBits_image (data : BitVec 32) {permMap : List Nat} {i : Nat} (hlen : i + permMap.length ≤ 32)
    (hmap : ∀ value ∈ permMap, value ≤ 32)
    (hdata : ∀ k < permMap.length, data.getLsbD (i + k) → ∃ value, permMap[k]? = some value ∧ 0 < value)
    (newData : BitVec 32) :
    ∃ newData', copyPermBits data i permMap newData = .ok newData' ∧ ∀ j < 32, newData'.getLsbD j ↔
      newData.getLsbD j ∨ ∃ k < permMap.length, data.getLsbD (i + k) ∧ permMap[k]? = some (j + 1) := by
  induction permMap generalizing i newData with
  | nil => exact ⟨newData, rfl, fun j _ => by simp⟩
  | cons value permMap ih =>
    rw [List.length_cons] at hlen
    have hi : i < 32 := by omega
    have hstep : ∀ newData' : BitVec 32, ∃ newData'', copyPermBits data (i + 1) permMap newData' = .ok newData'' ∧
        ∀ j < 32, newData''.getLsbD j ↔ newData'.getLsbD j ∨
          ∃ k < permMap.length, data.getLsbD (i + (k + 1)) ∧ permMap[k]? = some (j + 1) := by
      intro newData'
      have hshift : ∀ k, i + 1 + k = i + (k + 1) := fun k => by omega
      have h := ih (i := i + 1) (by omega) (fun v hv => hmap v (List.mem_cons_of_mem value hv))
        (fun k hk hbit => hdata (k + 1) (by simpa using hk) (by rwa [← hshift])) newData'
      simpa only [hshift] using h
    -- the bit `i` of the old mask, and the bits after it
    have hsplit : ∀ j,
      (∃ k < (value :: permMap).length, data.getLsbD (i + k) ∧ (value :: permMap)[k]? = some (j + 1)) ↔
        (data.getLsbD i ∧ value = j + 1) ∨
          ∃ k < permMap.length, data.getLsbD (i + (k + 1)) ∧ permMap[k]? = some (j + 1) := by
      intro j
      constructor
      · intro h
        obtain ⟨k, hk, hbit, hval⟩ := h
        cases k with
        | zero => exact Or.inl ⟨hbit, Option.some.inj hval⟩
        | succ k => exact Or.inr ⟨k, by simpa using hk, hbit, hval⟩
      · intro h
        rcases h with ⟨hbit, rfl⟩ | ⟨k, hk, hbit, hval⟩
        · exact ⟨0, by simp, hbit, rfl⟩
        · exact ⟨k + 1, by simpa using hk, hbit, hval⟩
    rw [copyPermBits, if_neg (by omega)]
    cases hbit : data.getLsbD i with
    | false =>
      rw [if_pos ((and_shiftLeft_eq_zero data hi).2 hbit)]
      obtain ⟨newData', heq, hmem⟩ := hstep newData
      refine ⟨newData', heq, fun j hj => ?_⟩
      rw [hmem j hj, hsplit j, hbit]
      simp
    | true =>
      obtain ⟨value', hval, hpos⟩ := hdata 0 (by simp) hbit
      obtain rfl := Option.some.inj hval
      have hle := hmap value List.mem_cons_self
      rw [if_neg (by rw [and_shiftLeft_eq_zero data hi, hbit]; simp), if_neg (by omega)]
      obtain ⟨newData', heq, hmem⟩ := hstep (newData ||| 1#32 <<< (value - 1))
      refine ⟨newData', heq, fun j hj => ?_⟩
      rw [hmem j hj, hsplit j, hbit, BitVec.getLsbD_or, Bool.or_eq_true, or_assoc]
      refine or_congr_right (or_congr_left ?_)
      rw [BitVec.getLsbD_shiftLeft, BitVec.getLsbD_one]
      simp only [hj, decide_true, Bool.true_and, Bool.and_eq_true, Bool.not_eq_true', decide_eq_false_iff_not,
        decide_eq_true_eq, true_and]
      omega

private theorem maskImage_iff {permMap : List Nat} (hlen : permMap.length ≤ 32) {src dst : BitVec 32} :
    MaskImage permMap src dst ↔ ∀ j < 32, dst.getLsbD j ↔
      (0#32).getLsbD j ∨ ∃ k < permMap.length, src.getLsbD (0 + k) ∧ permMap[k]? = some (j + 1) := by
  refine forall₂_congr fun j _ => iff_congr Iff.rfl ?_
  rw [BitVec.getLsbD_zero, or_iff_right Bool.false_ne_true]
  refine exists_congr fun k => ?_
  rw [Nat.zero_add]
  constructor
  · exact fun h => ⟨(List.getElem?_eq_some_iff.1 h.2.2).1, h.2⟩
  · exact fun h => ⟨by omega, h.2⟩

/-- The entry of the type map that the code takes for an extended permission mask is the image of the mask. -/
def MaskAsType (mod : PolicyModule) (node : ClassPermNode) : Prop :=
  ∃ value, mapEntry (mod.map .types) node.data.toNat = some value ∧
    ∃ permMap, mapEntry mod.permMap node.tclass = some permMap ∧ MaskImage permMap node.data (BitVec.ofNat 32 value)

private theorem copyClassPerm_image_iff (hmod : mod.Complete) (hrule : rule.Of mod) (hnode : node ∈ rule.perms) :
    (∃ node', copyClassPerm mod rule.specified node = .ok node' ∧ node.Image mod rule.HasPerms node') ↔
      (rule.specified &&& avruleAv = 0 → rule.HasPerms → MaskAsType mod node) := by
  obtain ⟨hpos, hle⟩ := hrule.tclass node hnode
  obtain ⟨tclass, htclass, hmem⟩ := mapEntry_eq_some hpos hle
  have hclass : tclass ≠ 0 := (hmod.classes tclass hmem).ne'
  have hlen : node.tclass ≤ mod.permMap.length := by rwa [hmod.permMap_length]
  obtain ⟨permMap, hpermMap, hpm⟩ := mapEntry_eq_some hpos hlen
  unfold copyClassPerm
  rw [htclass]
  dsimp only
  rw [if_neg hclass]
  by_cases hav : rule.specified &&& avruleAv = 0
  · rw [if_neg (not_not.2 hav)]
    by_cases hperms : rule.HasPerms
    · -- an extended permission rule: the mask is looked up as a type
      constructor
      · intro h _ _
        obtain ⟨node', heq, himage⟩ := h
        cases hentry : mapEntry (mod.map .types) node.data.toNat with
        | none => rw [hentry] at heq; cases heq
        | some value =>
          rw [hentry] at heq
          obtain rfl := Except.ok.inj heq
          exact ⟨value, hentry, himage.perms hperms⟩
      · intro h
        obtain ⟨value, hentry, himage⟩ := h hav hperms
        rw [hentry]
        exact ⟨_, rfl, htclass, fun _ => himage, fun hnot => absurd hperms hnot⟩
    · refine iff_of_true ?_ fun _ h => absurd h hperms
      obtain ⟨hdpos, hdle⟩ := hrule.result hperms node hnode
      obtain ⟨value, hentry, _⟩ := mapEntry_eq_some hdpos hdle
      rw [hentry]
      exact ⟨_, rfl, htclass, fun h => absurd h hperms, fun _ => ⟨value, hentry, rfl⟩⟩
  · rw [if_pos hav, hpermMap]
    have hperms : rule.HasPerms := by
      intro hzero
      have hmask : rule.specified &&& avruleAv = rule.specified &&& (avruleAv ||| avruleXperms) &&& avruleAv := by
        rw [BitVec.and_assoc]
        rfl
      exact hav (by rw [hmask, hzero]; rfl)
    obtain ⟨hlen, hmap⟩ := hmod.perms permMap hpm
    have hdata : ∀ k < permMap.length, node.data.getLsbD (0 + k) → ∃ value, permMap[k]? = some value ∧ 0 < value := by
      intro k hk hbit
      rw [Nat.zero_add] at hbit
      exact hrule.perms hperms node hnode permMap hpermMap k (by omega) hbit
    obtain ⟨data, heq, hdata'⟩ := copyPermBits_image node.data (by omega) hmap hdata 0
    refine iff_of_true ?_ fun h => absurd h hav
    dsimp only
    rw [heq]
    exact ⟨_, rfl, htclass, fun _ => ⟨permMap, hpermMap, (maskImage_iff hlen).2 hdata'⟩, fun h => absurd hperms h⟩

/-! ### Lists -/

private theorem exists_forall₂_iff {α β : Type} {r : α → β → Prop} {as : List α} :
    (∃ bs, List.Forall₂ r as bs) ↔ ∀ a ∈ as, ∃ b, r a b := by
  induction as with
  | nil => exact iff_of_true ⟨[], List.Forall₂.nil⟩ fun a ha => absurd ha List.not_mem_nil
  | cons a as ih =>
    rw [List.forall_mem_cons, ← ih]
    constructor
    · intro h
      obtain ⟨bs, hbs⟩ := h
      cases hbs with
      | cons hab htail => exact ⟨⟨_, hab⟩, _, htail⟩
    · intro h
      obtain ⟨⟨b, hab⟩, bs, htail⟩ := h
      exact ⟨b :: bs, List.Forall₂.cons hab htail⟩

private theorem copyClassPerms_eq_ok {perms perms' : List ClassPermNode} :
    copyClassPerms mod specified perms = .ok perms' ↔
    List.Forall₂ (fun node node' => copyClassPerm mod specified node = .ok node') perms perms' := by
  induction perms generalizing perms' with
  | nil =>
    rw [copyClassPerms, List.forall₂_nil_left_iff, Except.ok.injEq, eq_comm]
  | cons node perms ih =>
    rw [copyClassPerms, List.forall₂_cons_left_iff]
    constructor
    · intro h
      cases hnode : copyClassPerm mod specified node with
      | error err => rw [hnode] at h; cases h
      | ok node' =>
        cases hperms : copyClassPerms mod specified perms with
        | error err => rw [hnode, hperms] at h; cases h
        | ok tail =>
          rw [hnode, hperms] at h
          exact ⟨node', tail, rfl, ih.1 hperms, (Except.ok.inj h).symm⟩
    · intro h
      obtain ⟨node', tail, hnode, htail, rfl⟩ := h
      rw [hnode, ih.2 htail]

private theorem copyAvruleList_eq_ok {rules dst dst' : List LinkAvrule} : copyAvruleList mod rules dst = .ok dst' ↔
    ∃ rules', dst' = dst ++ rules' ∧
      List.Forall₂ (fun rule rule' => copyAvrule mod rule = .ok rule') rules rules' := by
  induction rules generalizing dst with
  | nil =>
    rw [copyAvruleList, Except.ok.injEq]
    constructor
    · rintro rfl
      exact ⟨[], (List.append_nil dst).symm, List.Forall₂.nil⟩
    · intro h
      obtain ⟨rules', rfl, hrules'⟩ := h
      rw [List.forall₂_nil_left_iff.1 hrules', List.append_nil]
  | cons rule rules ih =>
    rw [copyAvruleList]
    constructor
    · intro h
      cases hrule : copyAvrule mod rule with
      | error err => rw [hrule] at h; cases h
      | ok rule' =>
        rw [hrule] at h
        obtain ⟨rules', rfl, hrules'⟩ := ih.1 h
        exact ⟨rule' :: rules', List.append_assoc dst [rule'] rules', List.Forall₂.cons hrule hrules'⟩
    · intro h
      obtain ⟨rules', rfl, hrules'⟩ := h
      cases hrules' with
      | cons hrule htail =>
        rename_i rule' rules'
        rw [hrule]
        exact ih.2 ⟨rules', (List.append_assoc dst [rule'] rules').symm, htail⟩

private theorem copyAvrule_image_iff (hmod : mod.Complete) (hrule : rule.Of mod) :
    (∃ rule', copyAvrule mod rule = .ok rule' ∧ rule.Image mod rule') ↔
      (rule.specified &&& avruleAv = 0 → rule.HasPerms → ∀ node ∈ rule.perms, MaskAsType mod node) := by
  obtain ⟨stypes, hstypes, hsimage⟩ := typeSetConvert_image hmod hrule.stypes
  obtain ⟨ttypes, httypes, htimage⟩ := typeSetConvert_image hmod hrule.ttypes
  have hperms : (∃ rule', copyAvrule mod rule = .ok rule' ∧ rule.Image mod rule') ↔
      ∃ perms, List.Forall₂ (fun node node' => copyClassPerm mod rule.specified node = .ok node' ∧
        node.Image mod rule.HasPerms node') rule.perms perms := by
    unfold copyAvrule
    rw [hstypes, httypes]
    dsimp only
    constructor
    · intro h
      obtain ⟨rule', heq, himage⟩ := h
      cases hcopy : copyClassPerms mod rule.specified rule.perms with
      | error err => rw [hcopy] at heq; cases heq
      | ok perms =>
        rw [hcopy] at heq
        obtain rfl := Except.ok.inj heq
        exact ⟨perms, (copyClassPerms_eq_ok.1 hcopy).mp (fun _ _ hok himage => ⟨hok, himage⟩) himage.perms⟩
    · intro h
      obtain ⟨perms, hall⟩ := h
      rw [copyClassPerms_eq_ok.2 (hall.imp fun _ _ h => h.1)]
      exact ⟨_, rfl, rfl, rfl, hsimage, htimage, hall.imp fun _ _ h => h.2, rfl, rfl, rfl, rfl⟩
  rw [hperms, exists_forall₂_iff]
  constructor
  · exact fun h hav hp node hnode => (copyClassPerm_image_iff hmod hrule hnode).1 (h node hnode) hav hp
  · exact fun h node hnode => (copyClassPerm_image_iff hmod hrule hnode).2 fun hav hp => h hav hp node hnode

private theorem hasPerms_iff (hav : rule.specified &&& avruleAv = 0) :
    rule.HasPerms ↔ rule.specified &&& avruleXperms ≠ 0 := by
  have hor : rule.specified &&& (avruleAv ||| avruleXperms) = 0#32 ||| rule.specified &&& avruleXperms := by
    rw [BitVec.and_or_distrib_left, hav]
    rfl
  rw [LinkAvrule.HasPerms, hor, BitVec.zero_or]

/-- The rules are appended as images of the rules of the module exactly when every mask of an extended permission
rule, taken for a type of the module, gives the image of the mask. -/
theorem copyAvruleList_image_iff (hmod : mod.Complete) (rules dst : List LinkAvrule)
    (hrules : ∀ rule ∈ rules, rule.Of mod) :
    (∃ rules', copyAvruleList mod rules dst = .ok (dst ++ rules') ∧
        List.Forall₂ (LinkAvrule.Image mod) rules rules') ↔
      ∀ rule ∈ rules, rule.specified &&& avruleAv = 0 → rule.specified &&& avruleXperms ≠ 0 →
        ∀ node ∈ rule.perms, MaskAsType mod node := by
  have hall : (∃ rules', copyAvruleList mod rules dst = .ok (dst ++ rules') ∧
      List.Forall₂ (LinkAvrule.Image mod) rules rules') ↔
      ∃ rules', List.Forall₂ (fun rule rule' => copyAvrule mod rule = .ok rule' ∧ rule.Image mod rule') rules
        rules' := by
    refine exists_congr fun rules' => ?_
    rw [copyAvruleList_eq_ok]
    constructor
    · intro h
      obtain ⟨⟨rules'', heq, hok⟩, himage⟩ := h
      obtain rfl := List.append_cancel_left heq
      exact hok.mp (fun _ _ hok himage => ⟨hok, himage⟩) himage
    · intro h
      exact ⟨⟨rules', rfl, h.imp fun _ _ h => h.1⟩, h.imp fun _ _ h => h.2⟩
  rw [hall, exists_forall₂_iff]
  refine forall₂_congr fun rule hrule => ?_
  rw [copyAvrule_image_iff hmod (hrules rule hrule)]
  exact forall_congr' fun hav => imp_congr_left (hasPerms_iff hav)

/-! ### A mask that is taken for a type -/

/-- The base has the two permissions of the class in the other order. -/
def swapModule : PolicyModule where
  map
    | .types => [1]
    | .classes => [1]
    | _ => []
  permMap := [[2, 1]]

def ioctlRule : LinkAvrule where
  specified := avruleXpermsAllowed
  flags := 0
  stypes := ⟨ebitmapOfList [0], ebitmapInit, 0⟩
  ttypes := ⟨ebitmapOfList [0], ebitmapInit, 0⟩
  perms := [⟨1, 1⟩]
  xperms := some ⟨avruleXpermsIoctlfunction, 0, fun _ => 1⟩
  line := 1
  sourceFilename := none
  sourceLine := 0

private theorem swapModule_complete : swapModule.Complete where
  types := by decide
  classes := by decide
  permMap_length := rfl
  perms := by decide

private theorem ioctlRule_of : ioctlRule.Of swapModule := by
  have hset : (⟨ebitmapOfList [0], ebitmapInit, 0⟩ : LinkTypeSet).Of swapModule := by
    refine ⟨ebitmapOfList_canonical [0], Ebitmap.Canonical.init, fun i hi => ?_, fun i hi => ?_⟩
    · rw [mem_ebitmapOfList (by simp), List.mem_singleton] at hi
      subst hi
      decide
    · exact absurd hi (not_mem_ebitmapInit i)
  refine ⟨hset, hset, ?_, by decide, ?_, fun h => absurd ?_ h⟩
  · unfold LinkAvrule.HasPerms
    decide
  · intro _ node hnode permMap hpermMap i hi hbit
    obtain rfl := List.mem_singleton.1 hnode
    obtain rfl := Option.some.inj hpermMap
    have hzero : i = 0 := by
      revert hbit
      interval_cases i <;> decide
    subst hzero
    exact ⟨2, rfl, by decide⟩
  · unfold LinkAvrule.HasPerms
    decide

theorem copyAvruleList_image_not : swapModule.Complete ∧ (∀ rule ∈ [ioctlRule], rule.Of swapModule) ∧
    ¬ ∃ rules', copyAvruleList swapModule [ioctlRule] [] = .ok ([] ++ rules') ∧
      List.Forall₂ (LinkAvrule.Image swapModule) [ioctlRule] rules' := by
  refine ⟨swapModule_complete, fun _ h => List.mem_singleton.1 h ▸ ioctlRule_of, fun h => ?_⟩
  obtain ⟨rules', heq, himage⟩ := h
  obtain ⟨rule', _, hrule, _, rfl⟩ := List.forall₂_cons_left_iff.1 himage
  obtain ⟨node', _, hnode, _, hperms⟩ := List.forall₂_cons_left_iff.1 hrule.perms
  have hdata : (copyAvruleList swapModule [ioctlRule] []).toOption.map
      (fun rules => rules.map fun rule => rule.perms.map ClassPermNode.data) = some [[1]] := by decide +kernel
  rw [heq, Except.toOption, Option.map_some, List.nil_append, List.map_cons, hperms, List.map_cons] at hdata
  have hone : node'.data = 1 := (List.cons.inj (List.cons.inj (Option.some.inj hdata)).1).1
  -- the first permission of the module is the second one of the base
  obtain ⟨permMap, hpermMap, hmask⟩ := hnode.perms (by unfold LinkAvrule.HasPerms; decide)
  obtain rfl := Option.some.inj hpermMap
  obtain ⟨i, hi, hbit, hval⟩ := (hmask 0 (by decide)).1 (by rw [hone]; decide)
  have hzero : i = 0 := by
    revert hbit
    interval_cases i <;> decide
  subst hzero
  cases hval

theorem copyAvruleList_image_ioctl : swapModule.Complete ∧ (∀ rule ∈ [ioctlRule], rule.Of swapModule) ∧
    ((∃ rules', copyAvruleList swapModule [ioctlRule] [] = .ok ([] ++ rules') ∧
        List.Forall₂ (LinkAvrule.Image swapModule) [ioctlRule] rules') ↔
      ∀ rule ∈ [ioctlRule], rule.specified &&& avruleAv = 0 → rule.specified &&& avruleXperms ≠ 0 →
        ∀ node ∈ rule.perms, MaskAsType swapModule node) :=
  ⟨swapModule_complete, fun _ h => List.mem_singleton.1 h ▸ ioctlRule_of,
    copyAvruleList_image_iff swapModule_complete [ioctlRule] [] fun _ h => List.mem_singleton.1 h ▸ ioctlRule_of⟩

end Sepol
