import Sepol.Lib.AssocTable
import Sepol.Policydb

/-!
# Scope records

`symtab_insert` adds a symbol to its table and keeps the record of the declarations that require or declare it.  The
record of a declared symbol shall end with the id of a declaration that declared it, and shall list only such ids for
roles and users.  One call changes the record of one symbol, in one of the ways of `ScopeStep`.
-/

namespace Sepol

inductive SymNum where
  | commons
  | classes
  | roles
  | types
  | users
  | bools
  | levels
  | cats
deriving DecidableEq

/-- `SCOPE_REQ` and `SCOPE_DECL`. -/
inductive SymbolScope where
  | req
  | decl
deriving DecidableEq

structure ScopeDatum where
  scope : SymbolScope
  declIds : List Nat
deriving DecidableEq

inductive RoleFlavor where
  | role
  | attrib
deriving DecidableEq

/-- The symbol and the scope tables of a policy. -/
structure ScopedSymtabs (δ : Type) where
  symtab : SymNum → Symtab δ
  scope : SymNum → List (CString × ScopeDatum)

/-- The return codes of `symtab_insert`: 0, 1, -1, -2 and -ENOMEM. -/
inductive SymtabRc where
  | success
  | existed
  | error
  | conflict
  | enomem
deriving DecidableEq

abbrev uint32Max : Nat := 2 ^ 32 - 1

/-- `hashtab_insert`; the counter of the table is the length of the list. -/
def hashtabInsert {α : Type} (table : List (CString × α)) (key : CString) (datum : α) :
    Except Errno (List (CString × α)) :=
  if table.length = uint32Max then .error .enomem
  else if (AssocTable.get key table).isSome then .error .eexist
  else .ok (AssocTable.put key datum table)

/-- `add_i_to_a`. -/
def addIToA (i : Nat) (a : List Nat) : Option (List Nat) := if a.length = uint32Max then none else some (a ++ [i])

/-- The last two elements of a list are exchanged. -/
def swapLast : List Nat → List Nat
  | [a, b] => [b, a]
  | a :: l => a :: swapLast l
  | [] => []

/-! ### Insertion of a symbol -/

variable {δ : Type} (flavor : δ → RoleFlavor)

/-- The scope datum that `symtab_insert` works on, or the code that it returns before it adds the id. -/
def symtabScopeDatum (pol : ScopedSymtabs δ) (sym : SymNum) (key : CString) (datum : δ) (scope : SymbolScope) :
    Except SymtabRc ScopeDatum :=
  match AssocTable.get key (pol.scope sym) with
  | none => if (pol.scope sym).length = uint32Max then .error .enomem else .ok ⟨scope, []⟩
  | some scopeDatum =>
    if scopeDatum.scope = .decl ∧ scope = .decl then
      if sym ≠ .roles ∧ sym ≠ .users then .error .conflict
      else if sym = .roles then
        -- the role is in the table, because it was inserted before
        if (AssocTable.get key (pol.symtab sym).table).any (fun baseRole => flavor baseRole = .role) &&
            flavor datum = .role then .ok scopeDatum
        else .error .conflict
      else .ok scopeDatum
    else if scopeDatum.scope = .req ∧ scope = .decl then .ok { scopeDatum with scope := .decl }
    else .ok scopeDatum

/-- The end of `symtab_insert`: the id is added to the list unless it is there. -/
def symtabAddDecl (avruleDeclId : Nat) (scope : SymbolScope) (retval : SymtabRc) (scopeDatum : ScopeDatum) :
    SymtabRc × ScopeDatum :=
  if avruleDeclId ∈ scopeDatum.declIds then (retval, scopeDatum)
  else
    match addIToA avruleDeclId scopeDatum.declIds with
    | none => (.enomem, scopeDatum)
    | some declIds =>
      if scopeDatum.scope = .decl ∧ scope = .req then
        if declIds.length < 2 then (.error, { scopeDatum with declIds := declIds })
        else (retval, { scopeDatum with declIds := swapLast declIds })
      else (retval, { scopeDatum with declIds := declIds })

/-- `symtab_insert` after the symbol is in its table. -/
def symtabInsertScope (pol : ScopedSymtabs δ) (sym : SymNum) (key : CString) (datum : δ) (scope : SymbolScope)
    (avruleDeclId : Nat) (retval : SymtabRc) : SymtabRc × ScopedSymtabs δ :=
  match symtabScopeDatum flavor pol sym key datum scope with
  | .error rc => (rc, pol)
  | .ok scopeDatum =>
    let r := symtabAddDecl avruleDeclId scope retval scopeDatum
    (r.1, { pol with scope := Function.update pol.scope sym (AssocTable.put key r.2 (pol.scope sym)) })

/-- The arguments of a call of `symtab_insert`; `value` says whether the pointer of this name is not `NULL`. -/
structure SymtabCall (δ : Type) where
  sym : SymNum
  key : CString
  datum : δ
  scope : SymbolScope
  avruleDeclId : Nat
  value : Bool

/-- `symtab_insert`: the return code, the value that is assigned to the symbol, and the policy. -/
def symtabInsert (pol : ScopedSymtabs δ) (call : SymtabCall δ) : SymtabRc × Option Nat × ScopedSymtabs δ :=
  match hashtabInsert (pol.symtab call.sym).table call.key call.datum with
  | .error .eexist =>
    let r := symtabInsertScope flavor pol call.sym call.key call.datum call.scope call.avruleDeclId .existed
    (r.1, none, r.2)
  | .error _ => (.enomem, none, pol)
  | .ok table =>
    let nprim := (pol.symtab call.sym).nprim + if call.value then 1 else 0
    let pol := { pol with symtab := Function.update pol.symtab call.sym ⟨table, nprim⟩ }
    let r := symtabInsertScope flavor pol call.sym call.key call.datum call.scope call.avruleDeclId .success
    (r.1, if call.value then some nprim else none, r.2)

/-! ### Runs -/

/-- The tables after some calls, and the declarations that declared a symbol in a call with success. -/
structure ScopeRun (δ : Type) where
  pol : ScopedSymtabs δ
  declared : List (SymNum × CString × Nat)

/-- The call added its symbol, or found it. -/
def SymtabRc.isOk (rc : SymtabRc) : Bool := rc = .success || rc = .existed

def ScopeRun.step (st : ScopeRun δ) (call : SymtabCall δ) : ScopeRun δ :=
  let r := symtabInsert flavor st.pol call
  ⟨r.2.2, if r.1.isOk && call.scope = .decl then (call.sym, call.key, call.avruleDeclId) :: st.declared
    else st.declared⟩

/-- The calls one after the other, from empty tables. -/
def symtabRun (calls : List (SymtabCall δ)) : ScopeRun δ :=
  calls.foldl (ScopeRun.step flavor) ⟨⟨fun _ => symtabInit, fun _ => []⟩, []⟩

/-- Roles and users may have several declarations. -/
def SymNum.Multiple (sym : SymNum) : Prop := sym = .roles ∨ sym = .users

instance (sym : SymNum) : Decidable sym.Multiple := inferInstanceAs (Decidable (_ ∨ _))

/-- The record of a symbol is as the linker needs it. -/
structure ScopeDatum.Usable (multiple : Prop) (declared : Nat → Prop) (scopeDatum : ScopeDatum) : Prop where
  nodup : scopeDatum.declIds.Nodup
  last : scopeDatum.scope = .decl → ∃ id, scopeDatum.declIds.getLast? = some id ∧ declared id
  all : scopeDatum.scope = .decl → multiple → ∀ id ∈ scopeDatum.declIds, declared id

/-- All records are. -/
def ScopeRun.Usable (st : ScopeRun δ) : Prop :=
  ∀ sym key scopeDatum, AssocTable.get key (st.pol.scope sym) = some scopeDatum →
    scopeDatum.Usable sym.Multiple fun id => (sym, key, id) ∈ st.declared

/-! ### What a call does to a record -/

/-- A record after a call of the given scope found it. -/
def ScopeDatum.upgrade (scopeDatum : ScopeDatum) (scope : SymbolScope) : ScopeDatum :=
  if scope = .decl then { scopeDatum with scope := .decl } else scopeDatum

/-- The changes of a record in a call with a scope and an id; the last argument says whether the call is one with
success.  `full` is that the table of the symbols is full. -/
inductive ScopeStep (multiple full : Prop) (scope : SymbolScope) (id : Nat) :
    Option ScopeDatum → Option ScopeDatum → Bool → Prop
  | rejected (entry : Option ScopeDatum)
      (hrejected : ∀ sd, entry = some sd → full ∨ sd.scope = .decl ∧ scope = .decl) :
      ScopeStep multiple full scope id entry entry false
  | listed (sd : ScopeDatum) (hid : id ∈ sd.declIds) (hfull : ¬ full)
      (hmultiple : sd.scope = .decl → scope = .decl → multiple) :
      ScopeStep multiple full scope id (some sd) (some (sd.upgrade scope)) true
  | listFull (sd : ScopeDatum) (hid : id ∉ sd.declIds) (hfull : ¬ full) (hlength : sd.declIds.length = uint32Max) :
      ScopeStep multiple full scope id (some sd) (some (sd.upgrade scope)) false
  | first : ScopeStep multiple full scope id none (some ⟨scope, [id]⟩) true
  | added (sd : ScopeDatum) (hid : id ∉ sd.declIds) (hfull : ¬ full) (hlength : sd.declIds.length ≠ uint32Max)
      (hscope : sd.scope = .req ∨ scope = .decl) (hmultiple : sd.scope = .decl → multiple) :
      ScopeStep multiple full scope id (some sd) (some ⟨scope, sd.declIds ++ [id]⟩) true
  | required (sd : ScopeDatum) (hid : id ∉ sd.declIds) (hfull : ¬ full) (hlength : sd.declIds.length ≠ uint32Max)
      (hdecl : sd.scope = .decl) (hreq : scope = .req) (hne : sd.declIds ≠ []) :
      ScopeStep multiple full scope id (some sd) (some ⟨.decl, swapLast (sd.declIds ++ [id])⟩) true
  | alone (sd : ScopeDatum) (hdecl : sd.scope = .decl) (hreq : scope = .req) (hnil : sd.declIds = []) :
      ScopeStep multiple full scope id (some sd) (some ⟨.decl, [id]⟩) false

variable {flavor} {pol : ScopedSymtabs δ} {sym : SymNum} {key : CString} {datum : δ} {scope : SymbolScope} {id : Nat}
  {retval : SymtabRc} {sd : ScopeDatum} {multiple full : Prop} {declared : Nat → Prop} {l : List Nat}

private theorem ScopeDatum.upgrade_decl (hdecl : sd.scope = .decl) : sd.upgrade .decl = sd := by
  unfold ScopeDatum.upgrade
  rw [if_pos rfl, ← hdecl]

/-- The record that is worked on is the one that was found, upgraded. -/
private theorem symtabScopeDatum_some (hsd : AssocTable.get key (pol.scope sym) = some sd) :
    symtabScopeDatum flavor pol sym key datum scope = .ok (sd.upgrade scope) ∧
        (sd.scope = .decl → scope = .decl → sym.Multiple) ∨
      symtabScopeDatum flavor pol sym key datum scope = .error .conflict ∧ sd.scope = .decl ∧ scope = .decl := by
  unfold symtabScopeDatum
  rw [hsd]
  dsimp only
  by_cases hdecl : sd.scope = .decl ∧ scope = .decl
  · have hupgrade : sd.upgrade scope = sd := by
      unfold ScopeDatum.upgrade
      rw [if_pos hdecl.2, ← hdecl.1]
    rw [if_pos hdecl, hupgrade]
    by_cases hmultiple : sym ≠ .roles ∧ sym ≠ .users
    · rw [if_pos hmultiple]
      exact Or.inr ⟨rfl, hdecl⟩
    · have hsym : sym.Multiple := by
        unfold SymNum.Multiple
        tauto
      rw [if_neg hmultiple]
      split
      · split
        · exact Or.inl ⟨rfl, fun _ _ => hsym⟩
        · exact Or.inr ⟨rfl, hdecl⟩
      · exact Or.inl ⟨rfl, fun _ _ => hsym⟩
  · left
    refine ⟨?_, fun h h' => absurd ⟨h, h'⟩ hdecl⟩
    rw [if_neg hdecl]
    unfold ScopeDatum.upgrade
    cases hscope : scope with
    | decl =>
      have hreq : sd.scope = .req := by
        cases h : sd.scope with
        | req => rfl
        | decl => exact absurd ⟨h, hscope⟩ hdecl
      rw [if_pos ⟨hreq, rfl⟩, if_pos rfl]
    | req =>
      rw [if_neg (fun h => by cases h.2), if_neg (by decide)]

/-- The id is added to a record that was found. -/
private theorem symtabAddDecl_step (hretval : retval.isOk = true) (hfull : ¬ full)
    (hmultiple : sd.scope = .decl → scope = .decl → multiple) :
    ScopeStep multiple full scope id (some sd) (some (symtabAddDecl id scope retval (sd.upgrade scope)).2)
      (symtabAddDecl id scope retval (sd.upgrade scope)).1.isOk := by
  have hids : (sd.upgrade scope).declIds = sd.declIds := by
    unfold ScopeDatum.upgrade
    split <;> rfl
  unfold symtabAddDecl
  rw [hids]
  by_cases hid : id ∈ sd.declIds
  · rw [if_pos hid]
    dsimp only
    rw [hretval]
    exact .listed sd hid hfull hmultiple
  · rw [if_neg hid]
    unfold addIToA
    by_cases hlength : sd.declIds.length = uint32Max
    · rw [if_pos hlength]
      exact .listFull sd hid hfull hlength
    · rw [if_neg hlength]
      dsimp only
      have hupgrade : (sd.upgrade scope).scope = .decl ∧ scope = .req ↔ sd.scope = .decl ∧ scope = .req := by
        unfold ScopeDatum.upgrade
        cases scope with
        | req => rw [if_neg (by decide)]
        | decl => simp
      by_cases hreq : sd.scope = .decl ∧ scope = .req
      · -- a requirement of a declared symbol
        have hdecl : (sd.upgrade scope).scope = .decl := (hupgrade.2 hreq).1
        rw [if_pos (hupgrade.2 hreq), List.length_append]
        by_cases hnil : sd.declIds = []
        · rw [if_pos (by simp [hnil]), hdecl, hnil]
          exact .alone sd hreq.1 hreq.2 hnil
        · have hpos := List.length_pos_of_ne_nil hnil
          rw [if_neg (by rw [List.length_singleton]; omega), hdecl]
          dsimp only
          rw [hretval]
          exact .required sd hid hfull hlength hreq.1 hreq.2 hnil
      · have hscope : (sd.upgrade scope).scope = scope := by
          unfold ScopeDatum.upgrade
          cases scope with
          | decl => rfl
          | req =>
            rw [if_neg (by decide)]
            cases h : sd.scope with
            | req => rfl
            | decl => exact absurd ⟨h, rfl⟩ hreq
        rw [if_neg (fun h => hreq (hupgrade.1 h)), hscope]
        dsimp only
        rw [hretval]
        have hdecl : sd.scope = .decl → scope = .decl := fun h => by
          cases scope with
          | decl => rfl
          | req => exact absurd ⟨h, rfl⟩ hreq
        refine .added sd hid hfull hlength ?_ fun h => hmultiple h (hdecl h)
        cases h : sd.scope with
        | req => exact Or.inl rfl
        | decl => exact Or.inr (hdecl h)

/-- The second half of `symtab_insert` makes a step of the record of its symbol, and leaves the others alone. -/
private theorem symtabInsertScope_step (hretval : retval.isOk = true) (hfull : ¬ full) :
    ScopeStep sym.Multiple full scope id (AssocTable.get key (pol.scope sym))
        (AssocTable.get key ((symtabInsertScope flavor pol sym key datum scope id retval).2.scope sym))
        (symtabInsertScope flavor pol sym key datum scope id retval).1.isOk ∧
      ∀ sym' key', (sym', key') ≠ (sym, key) →
        AssocTable.get key' ((symtabInsertScope flavor pol sym key datum scope id retval).2.scope sym') =
          AssocTable.get key' (pol.scope sym') := by
  have hput : ∀ sd', AssocTable.get key (Function.update pol.scope sym (AssocTable.put key sd' (pol.scope sym)) sym) =
      some sd' := fun sd' => by
    rw [Function.update_self, AssocTable.get_put, if_pos rfl]
  have hother : ∀ sd' sym' key', (sym', key') ≠ (sym, key) →
      AssocTable.get key' (Function.update pol.scope sym (AssocTable.put key sd' (pol.scope sym)) sym') =
        AssocTable.get key' (pol.scope sym') := by
    intro sd' sym' key' hne
    by_cases hsym : sym' = sym
    · subst hsym
      rw [Function.update_self, AssocTable.get_put, if_neg fun h => hne (by rw [h])]
    · rw [Function.update_of_ne hsym]
  unfold symtabInsertScope
  cases hentry : AssocTable.get key (pol.scope sym) with
  | none =>
    unfold symtabScopeDatum
    rw [hentry]
    dsimp only
    by_cases hlength : (pol.scope sym).length = uint32Max
    · rw [if_pos hlength]
      dsimp only
      rw [hentry]
      exact ⟨.rejected none fun sd h => (by cases h), fun _ _ _ => rfl⟩
    · rw [if_neg hlength]
      dsimp only
      refine ⟨?_, fun sym' key' hne => hother _ sym' key' hne⟩
      have hadd : symtabAddDecl id scope retval ⟨scope, []⟩ = (retval, ⟨scope, [id]⟩) := by
        cases scope <;> rfl
      rw [hput, hadd, hretval]
      exact .first
  | some sd =>
    rcases @symtabScopeDatum_some _ flavor _ _ _ datum scope _ hentry with ⟨hok, hmultiple⟩ | ⟨hconflict, hdecl⟩
    · rw [hok]
      dsimp only
      refine ⟨?_, fun sym' key' hne => hother _ sym' key' hne⟩
      rw [hput]
      exact symtabAddDecl_step hretval hfull hmultiple
    · rw [hconflict]
      dsimp only
      rw [hentry]
      refine ⟨.rejected _ fun sd' hsd' => Or.inr ?_, fun _ _ _ => rfl⟩
      rw [← Option.some.inj hsd']
      exact hdecl

/-- A call of `symtab_insert` makes a step of the record of its symbol, and leaves the others alone. -/
private theorem symtabInsert_step (pol : ScopedSymtabs δ) (call : SymtabCall δ) :
    ScopeStep call.sym.Multiple ((pol.symtab call.sym).table.length = uint32Max) call.scope call.avruleDeclId
        (AssocTable.get call.key (pol.scope call.sym))
        (AssocTable.get call.key ((symtabInsert flavor pol call).2.2.scope call.sym))
        (symtabInsert flavor pol call).1.isOk ∧
      ∀ sym key, (sym, key) ≠ (call.sym, call.key) →
        AssocTable.get key ((symtabInsert flavor pol call).2.2.scope sym) = AssocTable.get key (pol.scope sym) := by
  unfold symtabInsert hashtabInsert
  by_cases hfull : (pol.symtab call.sym).table.length = uint32Max
  · rw [if_pos hfull]
    exact ⟨.rejected _ fun _ _ => Or.inl hfull, fun _ _ _ => rfl⟩
  · rw [if_neg hfull]
    by_cases hsome : (AssocTable.get call.key (pol.symtab call.sym).table).isSome = true
    · rw [if_pos hsome]
      refine symtabInsertScope_step ?_ hfull
      rfl
    · rw [if_neg hsome]
      exact @symtabInsertScope_step δ flavor ⟨Function.update pol.symtab call.sym _, pol.scope⟩ call.sym call.key
        call.datum call.scope call.avruleDeclId .success _ rfl hfull

/-! ### The record and the declarations -/

/-- What the record of a symbol says about the declarations that declared it. -/
structure ScopeDatum.Logged (declared : Nat → Prop) (sd : ScopeDatum) : Prop where
  required : sd.scope = .req → ∀ id, ¬ declared id
  nodup : sd.declIds.Nodup
  ne_nil : sd.declIds ≠ []
  listed : ∀ id, declared id → id ∈ sd.declIds

/-- The same for a symbol that may have no record. -/
def ScopeLog (declared : Nat → Prop) : Option ScopeDatum → Prop
  | none => ∀ id, ¬ declared id
  | some sd => sd.Logged declared

/-- The declarations that declared a symbol after a call for it. -/
def declaredAfter (declared : Nat → Prop) (scope : SymbolScope) (id : Nat) (ok : Bool) (i : Nat) : Prop :=
  (ok = true ∧ scope = .decl ∧ i = id) ∨ declared i

private theorem swapLast_append (l : List Nat) (a b : Nat) : swapLast (l ++ [a, b]) = l ++ [b, a] := by
  induction l with
  | nil => rfl
  | cons c l ih =>
    have hcons : swapLast (c :: (l ++ [a, b])) = c :: swapLast (l ++ [a, b]) := by
      cases l with
      | nil => rfl
      | cons d l => cases l <;> rfl
    rw [List.cons_append, hcons, ih, List.cons_append]

private theorem swapLast_concat (hne : l ≠ []) (id : Nat) :
    (swapLast (l ++ [id])).getLast? = l.getLast? ∧ (swapLast (l ++ [id])).Perm (id :: l) := by
  obtain ⟨init, a, rfl⟩ := (List.eq_nil_or_concat' l).resolve_left hne
  rw [List.append_assoc, List.singleton_append, swapLast_append]
  refine ⟨by simp, ?_⟩
  exact List.perm_middle

private theorem ScopeStep.logged {entry entry' : Option ScopeDatum} {ok : Bool}
    (h : ScopeStep multiple full scope id entry entry' ok) (hlog : ScopeLog declared entry) :
    ScopeLog (declaredAfter declared scope id ok) entry' := by
  have hno : ∀ i, ¬ (ok = true ∧ scope = .decl) → (declaredAfter declared scope id ok i ↔ declared i) := by
    unfold declaredAfter
    tauto
  have hupgrade : ∀ sd : ScopeDatum, (sd.upgrade scope).declIds = sd.declIds := fun sd => by
    unfold ScopeDatum.upgrade
    split <;> rfl
  have hreq : ∀ sd : ScopeDatum, (sd.upgrade scope).scope = .req → scope ≠ .decl ∧ sd.scope = .req := by
    intro sd hsd
    unfold ScopeDatum.upgrade at hsd
    by_cases hscope : scope = .decl
    · rw [if_pos hscope] at hsd
      cases hsd
    · rw [if_neg hscope] at hsd
      exact ⟨hscope, hsd⟩
  cases h with
  | rejected entry _ =>
    have heq : declaredAfter declared scope id false = declared :=
      funext fun i => propext (hno i fun h => by cases h.1)
    rwa [heq]
  | listed sd hid _ _ =>
    refine ⟨fun hsd i hi => ?_, ?_, ?_, fun i hi => ?_⟩
    · rcases hi with hi | hi
      · exact (hreq sd hsd).1 hi.2.1
      · exact hlog.required (hreq sd hsd).2 i hi
    · rw [hupgrade]
      exact hlog.nodup
    · rw [hupgrade]
      exact hlog.ne_nil
    · rw [hupgrade]
      rcases hi with hi | hi
      · rw [hi.2.2]
        exact hid
      · exact hlog.listed i hi
  | listFull sd _ _ _ =>
    refine ⟨fun hsd i hi => ?_, ?_, ?_, fun i hi => ?_⟩
    · exact hlog.required (hreq sd hsd).2 i (hi.resolve_left fun h => by cases h.1)
    · rw [hupgrade]
      exact hlog.nodup
    · rw [hupgrade]
      exact hlog.ne_nil
    · rw [hupgrade]
      exact hlog.listed i (hi.resolve_left fun h => by cases h.1)
  | first =>
    refine ⟨fun hsd i hi => ?_, List.nodup_singleton _, List.cons_ne_nil _ _, fun i hi => ?_⟩
    · rcases hi with hi | hi
      · rw [hi.2.1] at hsd
        cases hsd
      · exact hlog i hi
    · rcases hi with hi | hi
      · exact List.mem_singleton.2 hi.2.2
      · exact absurd hi (hlog i)
  | added sd hid _ _ hscope _ =>
    refine ⟨fun hsd i hi => ?_, ?_, by simp, fun i hi => ?_⟩
    · change scope = .req at hsd
      rcases hi with hi | hi
      · rw [hi.2.1] at hsd
        cases hsd
      · exact hlog.required (hscope.resolve_right fun h => by rw [h] at hsd; cases hsd) i hi
    · exact List.nodup_append.2 ⟨hlog.nodup, List.nodup_singleton _, fun a ha b hb hab =>
        hid (by rwa [← List.mem_singleton.1 hb, ← hab])⟩
    · rcases hi with hi | hi
      · exact List.mem_append_right _ (List.mem_singleton.2 hi.2.2)
      · exact List.mem_append_left _ (hlog.listed i hi)
  | required sd hid _ _ hdecl hscope hne =>
    obtain ⟨_, hperm⟩ := swapLast_concat hne id
    refine ⟨fun hsd => (by cases hsd), ?_, ?_, fun i hi => ?_⟩
    · exact hperm.nodup_iff.2 (List.nodup_cons.2 ⟨hid, hlog.nodup⟩)
    · intro hnil
      have hlength := hperm.length_eq
      change swapLast (sd.declIds ++ [id]) = [] at hnil
      rw [hnil] at hlength
      cases hlength
    · rcases hi with hi | hi
      · rw [hi.2.1] at hscope
        cases hscope
      · exact hperm.mem_iff.2 (List.mem_cons_of_mem _ (hlog.listed i hi))
  | alone sd _ _ hnil => exact absurd hnil hlog.ne_nil

/-- The call keeps the record usable: a declaration of a required symbol does not leave the id of a requirer at the
end, or in the list of a role or user, and a requirement of a declared role or user does not add an id. -/
structure ScopeDatum.Keeps (multiple : Prop) (scope : SymbolScope) (id : Nat) (sd : ScopeDatum) : Prop where
  last : sd.scope = .req → scope = .decl → ¬ multiple →
    sd.declIds.getLast? = some id ∨ id ∉ sd.declIds ∧ sd.declIds.length ≠ uint32Max
  all : sd.scope = .req → scope = .decl → multiple → ∀ i ∈ sd.declIds, i = id
  requires : sd.scope = .decl → scope = .req → multiple → id ∈ sd.declIds ∨ sd.declIds.length = uint32Max

theorem ScopeDatum.Usable.mono {declared' : Nat → Prop} (h : sd.Usable multiple declared)
    (hmono : ∀ i, declared i → declared' i) : sd.Usable multiple declared' := by
  refine ⟨h.nodup, fun hdecl => ?_, fun hdecl hm i hi => hmono i (h.all hdecl hm i hi)⟩
  obtain ⟨i, hlast, hi⟩ := h.last hdecl
  exact ⟨i, hlast, hmono i hi⟩

private theorem ScopeDatum.keeps_of_decl (hdecl : sd.scope = .decl) (hscope : scope = .decl) :
    sd.Keeps multiple scope id := by
  refine ⟨fun h => ?_, fun h => ?_, fun _ h => ?_⟩
  · rw [hdecl] at h
    cases h
  · rw [hdecl] at h
    cases h
  · rw [hscope] at h
    cases h

private theorem ScopeDatum.keeps_of_req (hscope : scope = .req)
    (h : sd.scope = .decl → multiple → id ∈ sd.declIds ∨ sd.declIds.length = uint32Max) :
    sd.Keeps multiple scope id := by
  refine ⟨fun _ h => ?_, fun _ h => ?_, fun hdecl _ => h hdecl⟩
  · rw [hscope] at h
    cases h
  · rw [hscope] at h
    cases h

section Required

variable (hlog : sd.Logged declared) (hreq : sd.scope = .req)
include hlog hreq

private theorem ScopeDatum.Logged.declaredAfter_iff (i : Nat) : declaredAfter declared .decl id true i ↔ i = id := by
  have hno := hlog.required hreq i
  unfold declaredAfter
  tauto

private theorem ScopeDatum.Logged.usable_upgrade_iff (hid : id ∈ sd.declIds) :
    (sd.upgrade .decl).Usable multiple (declaredAfter declared .decl id true) ↔ sd.Keeps multiple .decl id := by
  have hafter := @ScopeDatum.Logged.declaredAfter_iff id sd declared hlog hreq
  constructor
  · intro hu
    refine ⟨fun _ _ _ => ?_, fun _ _ hm i hi => (hafter i).1 (hu.all rfl hm i hi), fun h => ?_⟩
    · obtain ⟨i, hlast, hi⟩ := hu.last rfl
      rw [(hafter i).1 hi] at hlast
      exact Or.inl hlast
    · rw [hreq] at h
      cases h
  · intro hk
    refine ⟨hlog.nodup, fun _ => ?_, fun _ hm i hi => (hafter i).2 (hk.all hreq rfl hm i hi)⟩
    by_cases hm : multiple
    · have hlast := List.getLast?_eq_some_getLast hlog.ne_nil
      exact ⟨_, hlast, (hafter _).2 (hk.all hreq rfl hm _ (List.getLast_mem hlog.ne_nil))⟩
    · exact ⟨id, (hk.last hreq rfl hm).resolve_right fun h => h.1 hid, (hafter id).2 rfl⟩

private theorem ScopeDatum.Logged.usable_full_iff (hid : id ∉ sd.declIds) (hlength : sd.declIds.length = uint32Max) :
    (sd.upgrade .decl).Usable multiple (declaredAfter declared .decl id false) ↔ sd.Keeps multiple .decl id := by
  refine iff_of_false (fun hu => ?_) fun hk => ?_
  · obtain ⟨i, _, hi⟩ := hu.last rfl
    exact hlog.required hreq i (hi.resolve_left fun h => by cases h.1)
  · by_cases hm : multiple
    · obtain ⟨i, hi⟩ := List.exists_mem_of_ne_nil _ hlog.ne_nil
      exact hid (hk.all hreq rfl hm i hi ▸ hi)
    · rcases hk.last hreq rfl hm with hlast | hlast
      · exact hid (List.mem_of_getLast? hlast)
      · exact hlast.2 hlength

private theorem ScopeDatum.Logged.usable_added_iff (hid : id ∉ sd.declIds) (hlength : sd.declIds.length ≠ uint32Max)
    (hnodup : (sd.declIds ++ [id]).Nodup) :
    ScopeDatum.Usable multiple (declaredAfter declared .decl id true) ⟨.decl, sd.declIds ++ [id]⟩ ↔
      sd.Keeps multiple .decl id := by
  have hafter := @ScopeDatum.Logged.declaredAfter_iff id sd declared hlog hreq
  constructor
  · intro hu
    refine ⟨fun _ _ _ => Or.inr ⟨hid, hlength⟩, fun _ _ hm i hi => ?_, fun h => by rw [hreq] at h; cases h⟩
    exact (hafter i).1 (hu.all rfl hm i (List.mem_append_left _ hi))
  · intro hk
    refine ⟨hnodup, fun _ => ⟨id, List.getLast?_concat, (hafter id).2 rfl⟩, fun _ hm i hi => (hafter i).2 ?_⟩
    rcases List.mem_append.1 hi with hi | hi
    · exact hk.all hreq rfl hm i hi
    · exact List.mem_singleton.1 hi

end Required

/-- The record is usable after a step exactly when the call keeps it. -/
private theorem ScopeStep.usable_iff {entry entry' : Option ScopeDatum} {ok : Bool}
    (h : ScopeStep multiple full scope id entry entry' ok) (hlog : ScopeLog declared entry)
    (husable : ∀ sd, entry = some sd → sd.Usable multiple declared) :
    (∀ sd', entry' = some sd' → sd'.Usable multiple (declaredAfter declared scope id ok)) ↔
      (¬ full → ∀ sd, entry = some sd → sd.Keeps multiple scope id) := by
  have hmono : ∀ i, declared i → declaredAfter declared scope id ok i := fun i hi => Or.inr hi
  cases h with
  | rejected entry hrejected =>
    refine iff_of_true (fun sd hsd => (husable sd hsd).mono hmono) fun hfull sd hsd => ?_
    obtain ⟨hdecl, hscope⟩ := (hrejected sd hsd).resolve_left hfull
    exact ScopeDatum.keeps_of_decl hdecl hscope
  | listed sd hid hfull _ =>
    have hsd := (husable sd rfl).mono hmono
    simp only [Option.some.injEq, forall_eq', hfull, not_false_eq_true, forall_const]
    cases scope with
    | req => exact iff_of_true hsd (ScopeDatum.keeps_of_req rfl fun _ _ => Or.inl hid)
    | decl =>
      cases hreq : sd.scope with
      | decl =>
        rw [ScopeDatum.upgrade_decl hreq]
        exact iff_of_true hsd (ScopeDatum.keeps_of_decl hreq rfl)
      | req => exact ScopeDatum.Logged.usable_upgrade_iff hlog hreq hid
  | listFull sd hid hfull hlength =>
    have hsd := (husable sd rfl).mono hmono
    simp only [Option.some.injEq, forall_eq', hfull, not_false_eq_true, forall_const]
    cases scope with
    | req => exact iff_of_true hsd (ScopeDatum.keeps_of_req rfl fun _ _ => Or.inr hlength)
    | decl =>
      cases hreq : sd.scope with
      | decl =>
        rw [ScopeDatum.upgrade_decl hreq]
        exact iff_of_true hsd (ScopeDatum.keeps_of_decl hreq rfl)
      | req => exact ScopeDatum.Logged.usable_full_iff hlog hreq hid hlength
  | first =>
    refine iff_of_true (fun sd' hsd' => ?_) fun _ sd hsd => by cases hsd
    obtain rfl := Option.some.inj hsd'
    refine ⟨List.nodup_singleton _, fun hdecl => ⟨id, rfl, Or.inl ⟨rfl, hdecl, rfl⟩⟩, fun hdecl _ i hi => ?_⟩
    exact Or.inl ⟨rfl, hdecl, List.mem_singleton.1 hi⟩
  | added sd hid hfull hlength hscopes hmultiple =>
    have hnodup := ((ScopeStep.added sd hid hfull hlength hscopes hmultiple).logged hlog).nodup
    simp only [Option.some.injEq, forall_eq', hfull, not_false_eq_true, forall_const]
    cases hreq : sd.scope with
    | req =>
      cases scope with
      | req =>
        exact iff_of_true ⟨hnodup, fun h => (by cases h), fun h => (by cases h)⟩
          (ScopeDatum.keeps_of_req rfl fun h => by rw [hreq] at h; cases h)
      | decl => exact ScopeDatum.Logged.usable_added_iff hlog hreq hid hlength hnodup
    | decl =>
      obtain rfl := hscopes.resolve_left fun h => by rw [hreq] at h; cases h
      refine iff_of_true ⟨hnodup, fun _ => ⟨id, List.getLast?_concat, Or.inl ⟨rfl, rfl, rfl⟩⟩, fun _ hm i hi => ?_⟩
        (ScopeDatum.keeps_of_decl hreq rfl)
      rcases List.mem_append.1 hi with hi | hi
      · exact Or.inr ((husable sd rfl).all hreq hm i hi)
      · exact Or.inl ⟨rfl, rfl, List.mem_singleton.1 hi⟩
  -- the id of the requirer goes before the last one
  | required sd hid hfull hlength hdecl hscope hne =>
    have hlogged := (@ScopeStep.required multiple full scope id sd hid hfull hlength hdecl hscope hne).logged hlog
    obtain ⟨hlast, hperm⟩ := swapLast_concat hne id
    simp only [Option.some.injEq, forall_eq', hfull, not_false_eq_true, forall_const]
    constructor
    · intro hu
      refine ScopeDatum.keeps_of_req hscope fun _ hm => ?_
      have hid' := hu.all rfl hm id (hperm.mem_iff.2 (List.mem_cons_self ..))
      exact Or.inl (hlog.listed id (hid'.resolve_left fun h => by rw [hscope] at h; cases h.2.1))
    · intro hk
      have hm : ¬ multiple := fun hm => (hk.requires hdecl hscope hm).elim hid hlength
      obtain ⟨i, hi, hdeclared⟩ := (husable sd rfl).last hdecl
      exact ⟨hlogged.nodup, fun _ => ⟨i, hlast.trans hi, hmono i hdeclared⟩, fun _ h => absurd h hm⟩
  | alone sd _ _ hnil => exact absurd hnil hlog.ne_nil

/-! ### Whole runs -/

/-- The records of a run and its declarations agree. -/
def ScopeRun.Log (st : ScopeRun δ) : Prop :=
  ∀ sym key, ScopeLog (fun id => (sym, key, id) ∈ st.declared) (AssocTable.get key (st.pol.scope sym))

/-- The call keeps the record of its symbol usable.  When the table of the symbols is full, the call changes nothing.
-/
def SymtabCall.Keeps (call : SymtabCall δ) (pol : ScopedSymtabs δ) : Prop :=
  (pol.symtab call.sym).table.length ≠ uint32Max →
    ∀ sd, AssocTable.get call.key (pol.scope call.sym) = some sd →
      sd.Keeps call.sym.Multiple call.scope call.avruleDeclId

variable {st : ScopeRun δ} {call : SymtabCall δ}

private theorem ScopeRun.declared_step (flavor : δ → RoleFlavor) (st : ScopeRun δ) (call : SymtabCall δ) (id : Nat) :
    (call.sym, call.key, id) ∈ (st.step flavor call).declared ↔
      declaredAfter (fun id => (call.sym, call.key, id) ∈ st.declared) call.scope call.avruleDeclId
        (symtabInsert flavor st.pol call).1.isOk id := by
  unfold ScopeRun.step declaredAfter
  dsimp only
  by_cases hok : ((symtabInsert flavor st.pol call).1.isOk && call.scope = .decl) = true
  · rw [if_pos hok, List.mem_cons, Prod.mk.injEq, Prod.mk.injEq]
    rw [Bool.and_eq_true, decide_eq_true_eq] at hok
    simp [hok.1, hok.2]
  · rw [if_neg hok]
    rw [Bool.and_eq_true, decide_eq_true_eq] at hok
    tauto

private theorem ScopeRun.declared_step_of_ne (flavor : δ → RoleFlavor) (st : ScopeRun δ) (call : SymtabCall δ)
    (hne : (sym, key) ≠ (call.sym, call.key)) (id : Nat) :
    (sym, key, id) ∈ (st.step flavor call).declared ↔ (sym, key, id) ∈ st.declared := by
  unfold ScopeRun.step
  dsimp only
  split
  · rw [List.mem_cons, or_iff_right]
    intro heq
    rw [Prod.mk.injEq, Prod.mk.injEq] at heq
    exact hne (by rw [heq.1, heq.2.1])
  · rfl

private theorem ScopeRun.log_step (flavor : δ → RoleFlavor) (hlog : st.Log) (call : SymtabCall δ) :
    (st.step flavor call).Log := by
  obtain ⟨hstep, hother⟩ := @symtabInsert_step δ flavor st.pol call
  intro sym key
  by_cases heq : (sym, key) = (call.sym, call.key)
  · obtain ⟨rfl, rfl⟩ := Prod.mk.inj heq
    rw [funext fun id => propext (ScopeRun.declared_step flavor st call id)]
    exact hstep.logged (hlog call.sym call.key)
  · rw [funext fun id => propext (ScopeRun.declared_step_of_ne flavor st call heq id)]
    change ScopeLog _ (AssocTable.get key ((symtabInsert flavor st.pol call).2.2.scope sym))
    rw [hother sym key heq]
    exact hlog sym key

/-- One more call leaves all records usable exactly when it keeps that of its symbol. -/
private theorem ScopeRun.usable_step_iff (flavor : δ → RoleFlavor) (hlog : st.Log) (husable : st.Usable)
    (call : SymtabCall δ) : (st.step flavor call).Usable ↔ call.Keeps st.pol := by
  obtain ⟨hstep, hother⟩ := @symtabInsert_step δ flavor st.pol call
  have hiff := hstep.usable_iff (hlog call.sym call.key) fun sd hsd => husable call.sym call.key sd hsd
  have hdeclared : (fun id => (call.sym, call.key, id) ∈ (st.step flavor call).declared) = _ :=
    funext fun id => propext (ScopeRun.declared_step flavor st call id)
  unfold SymtabCall.Keeps
  rw [Ne, ← hiff]
  constructor
  · intro h sd hsd
    rw [← hdeclared]
    exact h call.sym call.key sd hsd
  · intro h sym key sd hsd
    by_cases heq : (sym, key) = (call.sym, call.key)
    · obtain ⟨rfl, rfl⟩ := Prod.mk.inj heq
      rw [hdeclared]
      exact h sd hsd
    · rw [funext fun id => propext (ScopeRun.declared_step_of_ne flavor st call heq id)]
      change AssocTable.get key ((symtabInsert flavor st.pol call).2.2.scope sym) = some sd at hsd
      rw [hother sym key heq] at hsd
      exact husable sym key sd hsd

private theorem symtabRun_concat (flavor : δ → RoleFlavor) (calls : List (SymtabCall δ)) (call : SymtabCall δ) :
    symtabRun flavor (calls ++ [call]) = (symtabRun flavor calls).step flavor call := by
  unfold symtabRun
  rw [List.foldl_append]
  rfl

private theorem symtabRun_log (flavor : δ → RoleFlavor) (calls : List (SymtabCall δ)) :
    (symtabRun flavor calls).Log := by
  induction calls using List.reverseRecOn with
  | nil => exact fun sym key id h => by cases h
  | append_singleton calls call ih =>
    rw [symtabRun_concat]
    exact ScopeRun.log_step flavor ih call

/-- The records are usable after all calls of a run exactly when every call keeps the record of its symbol. -/
theorem symtabRun_usable_iff (flavor : δ → RoleFlavor) (calls : List (SymtabCall δ)) :
    (∀ done, done <+: calls → (symtabRun flavor done).Usable) ↔
      ∀ done call, done ++ [call] <+: calls → call.Keeps (symtabRun flavor done).pol := by
  constructor
  · intro h done call hprefix
    have hnext := h _ hprefix
    rw [symtabRun_concat] at hnext
    have hdone := h done ((List.prefix_append ..).trans hprefix)
    exact (ScopeRun.usable_step_iff flavor (symtabRun_log flavor done) hdone call).1 hnext
  · intro h done
    induction done using List.reverseRecOn with
    | nil => exact fun _ sym key sd hsd => by cases hsd
    | append_singleton done call ih =>
      intro hprefix
      have hdone := ih ((List.prefix_append ..).trans hprefix)
      rw [symtabRun_concat]
      exact (ScopeRun.usable_step_iff flavor (symtabRun_log flavor done) hdone call).2 (h done call hprefix)

/-- A type that two declarations require and the first of them declares has the id of the second one at the end; a
role that one declaration requires and another one declares lists both. -/
theorem symtabRun_usable_not :
    ¬ (symtabRun (fun f : RoleFlavor => f) [⟨.types, ['t'], .role, .req, 1, true⟩,
      ⟨.types, ['t'], .role, .req, 2, true⟩,
      ⟨.types, ['t'], .role, .decl, 1, true⟩]).Usable ∧
    ¬ (symtabRun (fun f : RoleFlavor => f) [⟨.roles, ['r'], .role, .req, 1, true⟩,
      ⟨.roles, ['r'], .role, .decl, 2, true⟩]).Usable := by
  constructor
  · intro h
    obtain ⟨id, hlast, hdeclared⟩ := (h .types ['t'] ⟨.decl, [1, 2]⟩ (by decide +kernel)).last rfl
    rw [← Option.some.inj hlast] at hdeclared
    revert hdeclared
    decide +kernel
  · intro h
    have hdeclared := (h .roles ['r'] ⟨.decl, [1, 2]⟩ (by decide +kernel)).all rfl (Or.inl rfl) 1 (by decide)
    revert hdeclared
    decide +kernel

end Sepol
