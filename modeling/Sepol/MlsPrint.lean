import Sepol.Lib.Runs
import Sepol.MlsGrammar

/-!
# Printing MLS ranges

The printer walks the nodes of a category set and writes each run of set bits with the category before the position
at which the run is closed as its last one.  What it writes is a level of the grammar, which denotes the intervals of
these runs.
-/

namespace Sepol

open Runs (runs intervals RunOk WalkOk)

variable {p : Policydb} {level : MlsLevel} {fin : Nat} {run : List Nat} {vs : List (Nat × Bool)}

/-- The index arrays hold the names of the tables. -/
structure MlsIndex (p : Policydb) : Prop where
  sens : ∀ {i : Nat} {name : CString}, p.pSensValToName i = some name →
    ∃ d, hashtabSearch p.pLevels.table name = some d ∧ d.level.sens = i + 1
  cat : ∀ {i : Nat} {name : CString}, p.pCatValToName i = some name →
    ∃ d, hashtabSearch p.pCats.table name = some d ∧ d.value = i + 1

/-! ### The text of a category list -/

/-- The text written for a run. -/
def runText (p : Policydb) (r : List Nat × Nat) : Option CString :=
  match r.1 with
  | [] => some []
  | a :: _ => (p.pCatValToName a).bind fun name => (mlsCloseRange p r.1.length r.2).map fun text => name ++ text

/-- The texts of the runs with their separators; `sep` says whether one was written before. -/
def glue (sep : Bool) : List CString → CString
  | [] => []
  | t :: ts => (if !sep then ':' else ',') :: t ++ glue true ts

/-- What is written from a state on: the rest of the open run and the runs behind it. -/
def restText (p : Policydb) (sep : Bool) (run : List Nat) (rs : List (List Nat × Nat)) : Option CString :=
  match run, rs with
  | _ :: _, r :: rs => (mlsCloseRange p r.1.length r.2).bind fun text =>
      (rs.mapM (runText p)).map fun ts => text ++ glue true ts
  | _, rs => (rs.mapM (runText p)).map fun ts => glue sep ts

/-- The loop body on a position with its bit. -/
def mlsFlagStep (p : Policydb) (s : MlsCatState) (v : Nat × Bool) : Option MlsCatState :=
  if v.2 then
    if s.range ≠ 0 then some { s with range := s.range + 1 }
    else (p.pCatValToName v.1).map fun name =>
      { scontextp := s.scontextp ++ (if !s.wroteSep then ':' else ',') :: name
        range := s.range + 1
        wroteSep := true }
  else (mlsCloseRange p s.range v.1).map fun text => { s with scontextp := s.scontextp ++ text, range := 0 }

/-- The loop over the rest of the positions and the code behind it. -/
def mlsFlagLoop (p : Policydb) (fin : Nat) (s : MlsCatState) (vs : List (Nat × Bool)) : Option CString :=
  (vs.foldlM (mlsFlagStep p) s).bind fun s => (mlsCloseRange p s.range fin).map fun text => s.scontextp ++ text

private theorem mlsFlagLoop_cons (s : MlsCatState) (v : Nat × Bool) :
    mlsFlagLoop p fin s (v :: vs) = (mlsFlagStep p s v).bind fun s => mlsFlagLoop p fin s vs := by
  rw [mlsFlagLoop, List.foldlM_cons]
  exact Option.bind_assoc ..

/-- The text that the loop and the code behind it write. -/
private theorem mlsFlagLoop_eq (p : Policydb) (fin : Nat) (run : List Nat) (vs : List (Nat × Bool)) (out : CString)
    (sep : Bool) (hsep : run ≠ [] → sep = true) :
    mlsFlagLoop p fin ⟨out, run.length, sep⟩ vs =
      (restText p sep run (runs fin run vs)).map fun text => out ++ text := by
  induction vs generalizing run out sep with
  | nil =>
    cases run with
    | nil => simp [mlsFlagLoop, runs, restText, mlsCloseRange, glue]
    | cons a l =>
      have hruns : runs fin (a :: l) [] = [(a :: l, fin)] := rfl
      rw [hruns, restText, mlsFlagLoop]
      simp only [List.foldlM_nil, List.mapM_nil]
      change (mlsCloseRange p (a :: l).length fin).map _ = _
      cases mlsCloseRange p (a :: l).length fin with
      | none => rfl
      | some text => simp [glue]
  | cons v vs ih =>
    obtain ⟨i, b⟩ := v
    rw [mlsFlagLoop_cons]
    cases b with
    | true =>
      cases run with
      | nil =>
        -- the run starts here, with the name of its first category
        have hruns : runs fin [] ((i, true) :: vs) = runs fin [i] vs := rfl
        obtain ⟨l', y, rs, hr⟩ := Runs.exists_runs_cons fin i [] vs
        have hstep : mlsFlagStep p ⟨out, 0, sep⟩ (i, true) = (p.pCatValToName i).map fun name =>
            ⟨out ++ (if !sep then ':' else ',') :: name, 1, true⟩ := rfl
        rw [List.length_nil, hstep, hruns, hr]
        cases hn : p.pCatValToName i with
        | none => simp [restText, runText, hn]
        | some name =>
          have ih' := ih [i] (out ++ (if !sep then ':' else ',') :: name) true fun _ => rfl
          rw [hr, List.length_singleton] at ih'
          rw [Option.map_some, Option.bind_some, ih']
          simp only [restText, runText, List.mapM_cons, hn, Option.bind_some]
          cases mlsCloseRange p (i :: l').length y with
          | none => rfl
          | some text =>
            cases rs.mapM (runText p) with
            | none => rfl
            | some ts => simp [glue]
      | cons a l =>
        have hruns : runs fin (a :: l) ((i, true) :: vs) = runs fin (a :: (l ++ [i])) vs := rfl
        have hstep : mlsFlagStep p ⟨out, (a :: l).length, sep⟩ (i, true) =
          some ⟨out, (a :: (l ++ [i])).length, sep⟩ := by
          simp [mlsFlagStep]
        obtain ⟨l', y, rs, hr⟩ := Runs.exists_runs_cons fin a (l ++ [i]) vs
        rw [hstep, hruns, Option.bind_some, ih (a :: (l ++ [i])) out sep fun _ => hsep (by simp), hr]
        rfl
    | false =>
      cases run with
      | nil =>
        have hruns : runs fin [] ((i, false) :: vs) = runs fin [] vs := rfl
        have hstep : mlsFlagStep p ⟨out, 0, sep⟩ (i, false) = some ⟨out, 0, sep⟩ := by
          simp [mlsFlagStep, mlsCloseRange]
        rw [List.length_nil, hstep, hruns]
        exact ih [] out sep hsep
      | cons a l =>
        obtain rfl := hsep (by simp)
        have hruns : runs fin (a :: l) ((i, false) :: vs) = (a :: l, i) :: runs fin [] vs := rfl
        have hstep : mlsFlagStep p ⟨out, (a :: l).length, true⟩ (i, false) =
            (mlsCloseRange p (a :: l).length i).map fun text => ⟨out ++ text, 0, true⟩ := rfl
        rw [hstep, hruns, restText]
        cases mlsCloseRange p (a :: l).length i with
        | none => rfl
        | some text =>
          have ih' := ih [] (out ++ text) true fun _ => rfl
          rw [List.length_nil] at ih'
          rw [Option.map_some, Option.bind_some, ih', restText]
          · change _ = ((some text).bind fun text => _).map _
            cases (runs fin [] vs).mapM (runText p) with
            | none => rfl
            | some ts => simp
          · simp

/-! ### The text of a level -/

/-- The positions that the walk through a bitmap visits, with their bits. -/
def bitVisits (e : Ebitmap) : List (Nat × Bool) :=
  (e.node.flatMap nodeVisits).map fun v => (v.2, ebitmapNodeGetBit v.1 v.2)

/-- The runs of a category set. -/
def catRuns (e : Ebitmap) : List (List Nat × Nat) := runs e.highbit [] (bitVisits e)

theorem mlsLevelToContext_eq (p : Policydb) (hc : level.cat.Canonical) :
    mlsLevelToContext p level = (p.pSensValToName (level.sens - 1)).bind fun name =>
      ((catRuns level.cat).mapM (runText p)).map fun ts => name ++ glue false ts := by
  rw [mlsLevelToContext, ebitmapForEachBit_eq hc]
  refine Option.bind_congr fun name _ => ?_
  have h := mlsFlagLoop_eq p level.cat.highbit [] (bitVisits level.cat) name false (absurd rfl)
  rw [restText, mlsFlagLoop, bitVisits, List.foldlM_map] at h
  · rw [Option.map_map] at h
    refine Eq.trans (Option.bind_congr fun s _ => ?_) h
    cases mlsCloseRange p s.range level.cat.highbit <;> rfl
  · simp

private theorem mapM_cons_some {α β : Type} {f : α → Option β} {a : α} {l : List α} {bs : List β}
    (h : (a :: l).mapM f = some bs) : ∃ b bs', f a = some b ∧ l.mapM f = some bs' ∧ bs = b :: bs' := by
  rw [List.mapM_cons] at h
  obtain ⟨b, hb, h⟩ := Option.bind_eq_some_iff.1 h
  obtain ⟨bs', hbs, h⟩ := Option.bind_eq_some_iff.1 h
  exact ⟨b, bs', hb, hbs, (Option.some.inj h).symm⟩

/-- The text of a run is one or two elements of a category list. -/
private theorem catList_of_runText (hi : MlsIndex p) {r : List Nat × Nat} (hr : RunOk r) {t : CString}
    (h : runText p r = some t) : CatList p t (intervals r) := by
  have single : ∀ {i : Nat} {name : CString}, p.pCatValToName i = some name → CatElem p name i (i + 1) := by
    intro i name hn
    obtain ⟨d, hd, hv⟩ := hi.cat hn
    have := CatElem.single hd
    rwa [hv, Nat.add_sub_cancel] at this
  obtain ⟨run, y⟩ := r
  match run, hr, h with
  | [], hr, _ => exact absurd rfl hr.ne_nil
  | [a], _, h =>
    obtain ⟨name, hn, h⟩ := Option.bind_eq_some_iff.1 h
    obtain ⟨text, ht, rfl⟩ := Option.map_eq_some_iff.1 h
    obtain rfl : [] = text := by simpa [mlsCloseRange] using ht
    rw [List.append_nil]
    exact .single (single hn)
  | [a, x], _, h =>
    obtain ⟨name, hn, h⟩ := Option.bind_eq_some_iff.1 h
    obtain ⟨text, ht, rfl⟩ := Option.map_eq_some_iff.1 h
    obtain ⟨name', hn', rfl⟩ := Option.map_eq_some_iff.1 ht
    exact .cons (single hn) (.single (single hn'))
  | a :: b :: c :: l, hr, h =>
    obtain ⟨name, hn, h⟩ := Option.bind_eq_some_iff.1 h
    obtain ⟨text, ht, rfl⟩ := Option.map_eq_some_iff.1 h
    have hab : a < b := (List.pairwise_cons.1 hr.sorted).1 b (by simp)
    have hby : b < y := hr.lt b (by simp)
    rw [mlsCloseRange, if_pos (by simp)] at ht
    obtain ⟨name', hn', rfl⟩ := Option.map_eq_some_iff.1 ht
    obtain ⟨d, hd, hv⟩ := hi.cat hn
    obtain ⟨d', hd', hv'⟩ := hi.cat hn'
    have := CatElem.range hd hd' (by omega)
    rw [hv, hv', Nat.add_sub_cancel] at this
    exact .single (by simpa using this)

theorem CatList.append {t u : CString} {ivs ivs' : List (Nat × Nat)} (h : CatList p t ivs) (h' : CatList p u ivs') :
    CatList p (t ++ ',' :: u) (ivs ++ ivs') := by
  induction h with
  | single he => exact .cons he h'
  | cons he _ ih =>
    rw [List.append_assoc, List.cons_append]
    exact .cons he ih

private theorem catList_of_glue (hi : MlsIndex p) {r : List Nat × Nat} {rs : List (List Nat × Nat)}
    (hr : ∀ r' ∈ r :: rs, RunOk r') {ts : List CString} {t : CString} (ht : runText p r = some t)
    (hts : rs.mapM (runText p) = some ts) : CatList p (t ++ glue true ts) ((r :: rs).flatMap intervals) := by
  induction rs generalizing r t ts with
  | nil =>
    obtain rfl : [] = ts := by simpa using hts
    simpa [glue] using catList_of_runText hi (hr r (by simp)) ht
  | cons r' rs ih =>
    obtain ⟨t', ts', ht', hts', rfl⟩ := mapM_cons_some hts
    have hrest := ih (fun r' hr' => hr r' (List.mem_cons_of_mem _ hr')) ht' hts'
    exact (catList_of_runText hi (hr r (by simp)) ht).append hrest

/-- What the printer writes for a level is a level of the grammar. -/
theorem levelText_of_mlsLevelToContext (hi : MlsIndex p) (hc : level.cat.Canonical) (hsens : 1 ≤ level.sens)
    (hr : ∀ r ∈ catRuns level.cat, RunOk r) {t : CString} (h : mlsLevelToContext p level = some t) :
    LevelText p t level.sens ((catRuns level.cat).flatMap intervals) := by
  rw [mlsLevelToContext_eq p hc] at h
  obtain ⟨name, hn, h⟩ := Option.bind_eq_some_iff.1 h
  obtain ⟨ts, hts, rfl⟩ := Option.map_eq_some_iff.1 h
  obtain ⟨d, hd, hv⟩ := hi.sens hn
  have hv : d.level.sens = level.sens := by omega
  rw [← hv]
  cases hrs : catRuns level.cat with
  | nil =>
    obtain rfl : [] = ts := by simpa [hrs] using hts
    rw [glue, List.append_nil]
    exact .bare hd
  | cons r rs =>
    rw [hrs] at hts hr
    obtain ⟨t, ts', ht, hts', rfl⟩ := mapM_cons_some hts
    exact .cats hd (catList_of_glue hi hr ht hts')

/-! ### The length of the text -/

private theorem mlsCatLenStep_eq (k : Nat) (s : MlsCatState) (v : EbitmapNode × Nat) :
    mlsCatLenStep p (k + s.scontextp.length, s.range) v.1 v.2 =
      (mlsCatStep p s v.1 v.2).map fun s => (k + s.scontextp.length, s.range) := by
  rw [mlsCatLenStep, mlsCatStep, mlsCloseRange]
  split
  · split
    · rfl
    · cases p.pCatValToName v.2 with
      | none => rfl
      | some name => simp [Nat.add_assoc]
  · split
    · cases p.pCatValToName (v.2 - 1) with
      | none => rfl
      | some name => simp [Nat.add_assoc]
    · simp

private theorem foldlM_mlsCatLenStep (k : Nat) (s : MlsCatState) (vs : List (EbitmapNode × Nat)) :
    vs.foldlM (fun s v => mlsCatLenStep p s v.1 v.2) (k + s.scontextp.length, s.range) =
      (vs.foldlM (fun s v => mlsCatStep p s v.1 v.2) s).map fun s => (k + s.scontextp.length, s.range) := by
  induction vs generalizing s with
  | nil => rfl
  | cons v vs ih =>
    rw [List.foldlM_cons, List.foldlM_cons, mlsCatLenStep_eq]
    cases mlsCatStep p s v.1 v.2 with
    | none => rfl
    | some s' => exact ih s'

private theorem mlsLevelLen_eq (p : Policydb) (len : Nat) (level : MlsLevel) :
    mlsLevelLen p len level = (mlsLevelToContext p level).map fun t => len + t.length := by
  rw [mlsLevelLen, mlsLevelToContext]
  cases p.pSensValToName (level.sens - 1) with
  | none => rfl
  | some name =>
    have h := @foldlM_mlsCatLenStep p len ⟨name, 0, false⟩ (ebitmapForEachBit level.cat).1
    simp only [Option.bind_eq_bind, Option.bind_some, h]
    cases (ebitmapForEachBit level.cat).1.foldlM (fun s v => mlsCatStep p s v.1 v.2) ⟨name, 0, false⟩ with
    | none => rfl
    | some s =>
      simp only [Option.map_some, Option.bind_some, mlsCloseRange]
      split
      · cases p.pCatValToName ((ebitmapForEachBit level.cat).2 - 1) with
        | none => rfl
        | some name => simp [Nat.add_assoc]
      · simp

private theorem mlsContextLen_eq (p : Policydb) (c : Context) :
    mlsContextLen p c = (mlsSidToContext p c).map List.length := by
  rw [mlsContextLen, mlsSidToContext]
  cases p.mls with
  | false => rfl
  | true =>
    rw [mlsLevelLen_eq]
    cases mlsLevelToContext p c.range.level0 with
    | none => rfl
    | some low =>
      cases mlsLevelEq c.range.level0 c.range.level1 with
      | true => simp [Nat.add_comm]
      | false =>
        simp only [Option.bind_eq_bind, Option.map_some, Option.bind_some, mlsLevelLen_eq]
        cases mlsLevelToContext p c.range.level1 with
        | none => rfl
        | some high => simp; omega

theorem mlsComputeContextLen_eq (p : Policydb) (c : Context) :
    mlsComputeContextLen p c = (mlsSidToContext p c).map fun text => sizeToInt text.length := by
  rw [mlsComputeContextLen, mlsContextLen_eq, Option.map_map]
  rfl

/-- The text of the range of a context, with its colon and the final NUL, has a size that is an `int`. -/
def Context.TextFits (p : Policydb) (c : Context) : Prop :=
  ∀ text, mlsSidToContext p c = some text → text.length < intMax

/-- The string is what was written without the colon in front, when its size is an `int`. -/
private theorem mlsToString_eq_drop (p : Policydb) (c : Context) (hm : p.mls = true) :
    mlsToString p c = (mlsSidToContext p c).bind fun text => if text.length < intMax then some (text.drop 1)
      else none := by
  rw [mlsToString, mlsComputeContextLen_eq]
  cases htext : mlsSidToContext p c with
  | none => rfl
  | some text =>
    have hpos : 0 < text.length := by
      rw [mlsSidToContext, hm] at htext
      simp only [Bool.not_true, Bool.false_eq_true, if_false, Option.bind_eq_bind] at htext
      obtain ⟨low, _, htext⟩ := Option.bind_eq_some_iff.1 htext
      split at htext
      · obtain rfl := Option.some.inj htext
        exact Nat.succ_pos _
      · obtain ⟨high, _, htext⟩ := Option.bind_eq_some_iff.1 htext
        obtain rfl := Option.some.inj htext
        exact Nat.succ_pos _
    simp only [Option.map_some, Option.bind_eq_bind, Option.bind_some]
    have hint : intMax = 2 ^ 31 - 1 := rfl
    by_cases hlt : text.length < intMax
    · rw [if_pos hlt, sizeToInt_of_lt (by omega), if_neg (by omega)]
      rfl
    · have hmax := sizeToInt_lt text.length
      rw [if_neg hlt, if_pos (by omega)]
      rfl

theorem textFits_of_mlsToString {p : Policydb} {c : Context} (hm : p.mls = true) {s : CString}
    (h : mlsToString p c = some s) : c.TextFits p := by
  intro text htext
  rw [mlsToString_eq_drop p c hm, htext, Option.bind_some] at h
  by_contra hlt
  rw [if_neg hlt] at h
  cases h

theorem mlsToString_eq (p : Policydb) (c : Context) (hm : p.mls = true) (hfits : c.TextFits p) :
    mlsToString p c = (mlsLevelToContext p c.range.level0).bind fun low =>
      if mlsLevelEq c.range.level0 c.range.level1 then some low
      else (mlsLevelToContext p c.range.level1).map fun high => low ++ '-' :: high := by
  have hdrop : mlsToString p c = (mlsSidToContext p c).map fun t => t.drop 1 := by
    rw [mlsToString_eq_drop p c hm]
    cases htext : mlsSidToContext p c with
    | none => rfl
    | some text => exact if_pos (hfits text htext)
  rw [hdrop, mlsSidToContext, hm]
  cases mlsLevelToContext p c.range.level0 with
  | none => rfl
  | some low =>
    cases mlsLevelEq c.range.level0 c.range.level1 with
    | true => rfl
    | false =>
      cases mlsLevelToContext p c.range.level1 with
      | none => rfl
      | some high => simp

end Sepol
