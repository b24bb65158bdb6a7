import Sepol.Lib.Outcome
import Sepol.HashtabMap
import Sepol.Validate

/-!
# Types and attributes of a CIL policy

A declared type has a value and a declared attribute the bitmap of its types.  A deny rule is turned into allow rules
over derived sets of types: a set that is empty has no datum, a set of one type is that type, a set that an attribute
has already is that attribute, and any other set becomes a new attribute.
-/

namespace Sepol

open Outcome

structure CilType where
  value : Nat
  name : CString
  fqn : CString
  symtab : Nat
  parentSymtab : Nat
deriving DecidableEq

/-- The set expression of a generated attribute. -/
inductive CilTypeExpr where
  | and (s1 s2 : CString)
  | andnot (s1 s2 : CString)
  | allAndnot (s : CString)
deriving DecidableEq

structure CilTypeattribute where
  address : Nat
  name : CString
  fqn : CString
  symtab : Nat
  parentSymtab : Nat
  exprList : List CilTypeExpr
  types : Ebitmap
deriving DecidableEq

/-- The datum of a type or an attribute; `symtab` is the table it is in and `parentSymtab` the one `cil_get_symtab`
finds from the parent of its node. -/
inductive CilDatum where
  | type (t : CilType)
  | typeattribute (a : CilTypeattribute)
deriving DecidableEq

namespace CilDatum

def name : CilDatum → CString
  | .type t => t.name
  | .typeattribute a => a.name

def fqn : CilDatum → CString
  | .type t => t.fqn
  | .typeattribute a => a.fqn

def symtab : CilDatum → Nat
  | .type t => t.symtab
  | .typeattribute a => a.symtab

def parentSymtab : CilDatum → Nat
  | .type t => t.parentSymtab
  | .typeattribute a => a.parentSymtab

end CilDatum

/-- The parts of a `cil_db` that deny rules use; the tables of types and attributes are given by their address. -/
structure CilDb where
  numTypes : Nat
  valToType : Nat → CilType
  symtabs : Nat → Hashtab CString CilDatum
  rootSymtab : Nat
  numTypesAndAttrs : Nat
  nextAddress : Nat

/-- Why the processing of deny rules stops.  Where the name of a new attribute is taken (`symtab`), the bitmap of its
types is freed twice; `full` is a table or a counter of attributes at its limit. -/
inductive CilDenyError where
  | ebitmap
  | symtab
  | full
  | noMatch
  | invalid
deriving DecidableEq

def liftEbitmap (e : Option Ebitmap) : Except CilDenyError Ebitmap :=
  match e with
  | some e => .ok e
  | none => .error .ebitmap

/-! ### Sets of types -/

def cilDatumCardinality : Option CilDatum → Nat
  | none => 0
  | some (.type _) => 1
  | some (.typeattribute a) => ebitmapCardinality a.types

/-- The bitmap of one type. -/
def ebitmapOfType (t : CilType) : Option Ebitmap := ebitmapSetBit ebitmapInit t.value true

def cilDatumNot (d : CilDatum) (max : Nat) : Option Ebitmap :=
  match d with
  | .type t => (ebitmapOfType t).bind fun e => ebitmapNot e max
  | .typeattribute a => ebitmapNot a.types max

def cilDatumsAnd : CilDatum → CilDatum → Option Ebitmap
  | .type t1, .type t2 => if t1.value = t2.value then ebitmapOfType t1 else some ebitmapInit
  | .typeattribute a1, .type t2 => if ebitmapGetBit a1.types t2.value then ebitmapOfType t2 else some ebitmapInit
  | .type t1, .typeattribute a2 => if ebitmapGetBit a2.types t1.value then ebitmapOfType t1 else some ebitmapInit
  | .typeattribute a1, .typeattribute a2 => some (ebitmapAnd a1.types a2.types)

def cilDatumsAndnot : CilDatum → CilDatum → Option Ebitmap
  | .type t1, .type t2 => if t1.value ≠ t2.value then ebitmapOfType t1 else some ebitmapInit
  | .typeattribute a1, .type t2 => ebitmapSetBit (ebitmapCpy a1.types) t2.value false
  | .type t1, .typeattribute a2 => if !ebitmapGetBit a2.types t1.value then ebitmapOfType t1 else some ebitmapInit
  | .typeattribute a1, .typeattribute a2 => ebitmapAndnot a1.types a2.types a1.types.highbit

/-! ### Derived attributes -/

def cilDenyAttrPrefix : CString := "deny_rule_attr".toList

def cilCreateNewAttributeName (num : Nat) : CString := cilDenyAttrPrefix ++ '_' :: Nat.toDigits 10 num

/-- The callback that looks for an attribute with the same types; the last one found stays. -/
def cilCheckAttributeInSymtab (types : Ebitmap) (_k : CString) (d : CilDatum) (found : Option CilDatum) :
    Int × Option CilDatum :=
  match d with
  | .typeattribute a => (0, if ebitmapCmp types a.types then some d else found)
  | .type _ => (0, found)

def cilCheckForPreviouslyDefinedAttribute (db : CilDb) (types : Ebitmap) (d : CilDatum) : Option CilDatum :=
  let found :=
    if d.symtab ≠ db.rootSymtab then ((db.symtabs d.symtab).map (cilCheckAttributeInSymtab types) none).2 else none
  if found.isNone then ((db.symtabs db.rootSymtab).map (cilCheckAttributeInSymtab types) none).2 else found

/-- The attribute `cil_create_and_insert_attribute_and_set` makes. -/
def cilNewAttribute (db : CilDb) (symtab : Nat) (expr : CilTypeExpr) (types : Ebitmap) : CilTypeattribute where
  address := db.nextAddress
  name := cilCreateNewAttributeName db.numTypesAndAttrs
  fqn := cilCreateNewAttributeName db.numTypesAndAttrs
  symtab := symtab
  parentSymtab := symtab
  exprList := [expr]
  types := types

/-- The new attribute goes into the table of the block that the datum `d` stands in, where its name may be taken; the
counter is an int. -/
def cilCreateAndInsertAttributeAndSet (db : CilDb) (d : CilDatum) (expr : CilTypeExpr) (types : Ebitmap) :
    Except CilDenyError (CilDatum × CilDb) :=
  let attr := cilNewAttribute db d.parentSymtab expr types
  let inserted := (db.symtabs d.parentSymtab).insert symtabOps attr.name (.typeattribute attr) true true
  match inserted.1 with
  | .ok =>
    if db.numTypesAndAttrs < intMax then
      .ok (.typeattribute attr, { db with
        symtabs := Function.update db.symtabs d.parentSymtab inserted.2
        numTypesAndAttrs := db.numTypesAndAttrs + 1
        nextAddress := db.nextAddress + 1 })
    else .error .full
  | .eexist => .error .symtab
  | _ => .error .full

/-- The common end of the three functions below: a datum for a set of types. -/
def cilCreateAttribute (db : CilDb) (d : CilDatum) (expr : CilTypeExpr) (types : Ebitmap) :
    Except CilDenyError (Option CilDatum × CilDb) :=
  if ebitmapIsEmpty types then .ok (none, db)
  else if ebitmapCardinality types = 1 then .ok (some (.type (db.valToType (ebitmapHighestSetBit types))), db)
  else
    match cilCheckForPreviouslyDefinedAttribute db types d with
    | some d3 => .ok (some d3, db)
    | none => (cilCreateAndInsertAttributeAndSet db d expr types).map fun r => (some r.1, r.2)

def cilCreateAttributeAllAndNotD (db : CilDb) : Option CilDatum → Except CilDenyError (Option CilDatum × CilDb)
  | none => .error .invalid
  | some d => do
    let types ← liftEbitmap (cilDatumNot d db.numTypes)
    cilCreateAttribute db d (.allAndnot d.fqn) types

def cilCreateAttributeD1AndNotD2 (db : CilDb) :
    Option CilDatum → Option CilDatum → Except CilDenyError (Option CilDatum × CilDb)
  | d1, none => .ok (d1, db)
  | none, some _ => .ok (none, db)
  | some d1, some d2 =>
    if d1 = d2 then .ok (none, db)
    else do
      let types ← liftEbitmap (cilDatumsAndnot d1 d2)
      cilCreateAttribute db d1 (.andnot d1.fqn d2.fqn) types

def cilCreateAttributeD1AndD2 (db : CilDb) :
    Option CilDatum → Option CilDatum → Except CilDenyError (Option CilDatum × CilDb)
  | some d1, some d2 =>
    if d1 = d2 then .ok (some d1, db)
    else do
      let types ← liftEbitmap (cilDatumsAnd d1 d2)
      cilCreateAttribute db d1 (.and d1.fqn d2.fqn) types
  | _, _ => .ok (none, db)

/-! ### What the functions compute -/

/-- The datum stands for the type with value `i`. -/
def CilDatum.Has : CilDatum → Nat → Prop
  | .type t, i => i = t.value
  | .typeattribute a, i => i ∈ a.types

/-- The values of a datum are those of declared types. -/
def CilDatum.Ok (n : Nat) : CilDatum → Prop
  | .type t => t.value < n
  | .typeattribute a => a.types.Canonical ∧ ∀ i ∈ a.types, i < n

/-- A datum that may be `NULL`, which stands for no type. -/
def HasType (d : Option CilDatum) (i : Nat) : Prop := ∃ d' ∈ d, d'.Has i

def CilDatumOk (n : Nat) (d : Option CilDatum) : Prop := ∀ d' ∈ d, d'.Ok n

@[simp] theorem hasType_some {d : CilDatum} {i : Nat} : HasType (some d) i ↔ d.Has i := by simp [HasType]

@[simp] theorem hasType_none {i : Nat} : ¬ HasType none i := by simp [HasType]

@[simp] theorem datumOk_some {n : Nat} {d : CilDatum} : CilDatumOk n (some d) ↔ d.Ok n := by simp [CilDatumOk]

@[simp] theorem datumOk_none {n : Nat} : CilDatumOk n none := by simp [CilDatumOk]

/-- The policy has `n` types, and `val_to_type` lists them by value; the number of types is an `int`. -/
structure CilDb.Ok (n : Nat) (db : CilDb) : Prop where
  numTypes : db.numTypes = n
  numTypes_lt : n < 2 ^ 31
  value : ∀ v < n, (db.valToType v).value = v
  tables : ∀ i, (db.symtabs i).Ok symtabOps

/-- No type or attribute is declared under a name that the counter will give to a new attribute. -/
def CilDb.NamesFree (db : CilDb) : Prop :=
  ∀ i, ∀ num ≥ db.numTypesAndAttrs, (db.symtabs i).search symtabOps (cilCreateNewAttributeName num) = none

/-- A database of a run that started with the names free, if `free` holds. -/
structure CilDb.OkIf (n : Nat) (free : Prop) (db : CilDb) : Prop extends CilDb.Ok n db where
  names : free → db.NamesFree

/-- The failures that are left: a limit, or a name that is taken. -/
def DenyStops (free : Prop) (e : CilDenyError) : Prop := e = .full ∨ e = .symtab ∧ ¬ free

theorem CilDatum.Ok.has_lt {n : Nat} {d : CilDatum} (h : d.Ok n) {i : Nat} (hi : d.Has i) : i < n := by
  cases d with
  | type t => exact (show i = t.value from hi) ▸ h
  | typeattribute a => exact h.2 i hi

theorem CilDatumOk.has_lt {n : Nat} {d : Option CilDatum} (h : CilDatumOk n d) {i : Nat} (hi : HasType d i) :
    i < n := by
  obtain ⟨d', hd', hi⟩ := hi
  exact (h d' hd').has_lt hi

end Sepol
