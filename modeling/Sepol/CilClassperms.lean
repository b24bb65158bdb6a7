import Sepol.Policydb

/-!
# Class permission lists

A list of class permissions names permissions of a class, permissions of a class map, each of which stands for a
list of class permissions of its own, or a named list.  Classes and permissions are told apart by their address, so
that two of them are equal when they are the same object.  A list without items is destroyed and left `NULL`.
-/

namespace Sepol

structure CilClass where
  address : Nat
deriving DecidableEq

structure CilPerm where
  address : Nat
  fqn : CString
deriving DecidableEq

mutual

/-- An item of a list: a `cil_classperms` of a class or of a class map, or a `cil_classperms_set`. -/
inductive CilClassperms where
  | classperms (classStr : CString) (cls : CilClass) (permStrs : List CString) (perms : List CilPerm)
  | mapClassperms (classStr : CString) (cls : CilClass) (permStrs : List CString) (perms : List CilMapPerm)
  | classpermsSet (setStr : CString) (set : List CilClassperms)

/-- A permission of a class map, with its class permissions. -/
inductive CilMapPerm where
  | mk (fqn : CString) (classperms : List CilClassperms)

end

def CilMapPerm.fqn : CilMapPerm → CString
  | .mk fqn _ => fqn

/-- An induction over class permission lists and lists of map permissions at once. -/
theorem CilClassperms.listInduction {P : List CilClassperms → Prop} {Q : List CilMapPerm → Prop} (nil : P [])
    (classperms : ∀ classStr cls permStrs perms rest, P rest → P (.classperms classStr cls permStrs perms :: rest))
    (mapClassperms : ∀ classStr cls permStrs perms rest, Q perms → P rest →
      P (.mapClassperms classStr cls permStrs perms :: rest))
    (classpermsSet : ∀ setStr set rest, P set → P rest → P (.classpermsSet setStr set :: rest))
    (mapNil : Q []) (mapCons : ∀ fqn cps rest, P cps → Q rest → Q (.mk fqn cps :: rest)) :
    (∀ l, P l) ∧ ∀ l, Q l :=
  ⟨items, mapPerms⟩
where
  items : ∀ l, P l
    | [] => nil
    | .classperms classStr cls permStrs perms :: rest => classperms classStr cls permStrs perms rest (items rest)
    | .mapClassperms classStr cls permStrs perms :: rest =>
      mapClassperms classStr cls permStrs perms rest (mapPerms perms) (items rest)
    | .classpermsSet setStr set :: rest => classpermsSet setStr set rest (items set) (items rest)
  mapPerms : ∀ l, Q l
    | [] => mapNil
    | .mk fqn cps :: rest => mapCons fqn cps rest (items cps) (mapPerms rest)

/-! ### What a list denotes -/

mutual

/-- The pairs of a class and a permission an item stands for. -/
def flatItem : CilClassperms → List (CilClass × CilPerm)
  | .classperms _ cls _ perms => perms.map (cls, ·)
  | .mapClassperms _ _ _ perms => flatMapPerms perms
  | .classpermsSet _ set => flatClassperms set

def flatClassperms : List CilClassperms → List (CilClass × CilPerm)
  | [] => []
  | item :: rest => flatItem item ++ flatClassperms rest

def flatMapPerms : List CilMapPerm → List (CilClass × CilPerm)
  | [] => []
  | .mk _ classperms :: rest => flatClassperms classperms ++ flatMapPerms rest

end

/-- The pairs of a list that may be `NULL`. -/
def flatClasspermsList (cpl : Option (List CilClassperms)) : List (CilClass × CilPerm) :=
  flatClassperms (cpl.getD [])

/-! ### Matching -/

def cilPermMatch (p1 : CilPerm) (pl2 : List CilPerm) : Bool := pl2.any (· = p1)

mutual

def cilClassPermMatch (c1 : CilClass) (p1 : CilPerm) : List CilClassperms → Bool
  | [] => false
  | item :: rest => itemClassPermMatch c1 p1 item || cilClassPermMatch c1 p1 rest

def itemClassPermMatch (c1 : CilClass) (p1 : CilPerm) : CilClassperms → Bool
  | .classperms _ cls _ perms => cls = c1 && cilPermMatch p1 perms
  | .mapClassperms _ _ _ perms => mapClassPermMatch c1 p1 perms
  | .classpermsSet _ set => cilClassPermMatch c1 p1 set

def mapClassPermMatch (c1 : CilClass) (p1 : CilPerm) : List CilMapPerm → Bool
  | [] => false
  | .mk _ classperms :: rest => cilClassPermMatch c1 p1 classperms || mapClassPermMatch c1 p1 rest

end

def cilClasspermsMatchAny (cls : CilClass) (perms : List CilPerm) (cpl2 : List CilClassperms) : Bool :=
  perms.any fun perm => cilClassPermMatch cls perm cpl2

def cilClasspermsMatchAll (cls : CilClass) (perms : List CilPerm) (cpl2 : List CilClassperms) : Bool :=
  perms.all fun perm => cilClassPermMatch cls perm cpl2

mutual

/-- The loop of `cil_classperms_list_match_any`. -/
def classpermsMatchAny (cpl2 : List CilClassperms) : List CilClassperms → Bool
  | [] => false
  | item :: rest => itemMatchAny cpl2 item || classpermsMatchAny cpl2 rest

def itemMatchAny (cpl2 : List CilClassperms) : CilClassperms → Bool
  | .classperms _ cls _ perms => cilClasspermsMatchAny cls perms cpl2
  | .mapClassperms _ _ _ perms => mapPermsMatchAny cpl2 perms
  | .classpermsSet _ set => classpermsMatchAny cpl2 set

def mapPermsMatchAny (cpl2 : List CilClassperms) : List CilMapPerm → Bool
  | [] => false
  | .mk _ classperms :: rest => classpermsMatchAny cpl2 classperms || mapPermsMatchAny cpl2 rest

end

mutual

/-- The loop of `cil_classperms_list_match_all`. -/
def classpermsMatchAll (cpl2 : List CilClassperms) : List CilClassperms → Bool
  | [] => true
  | item :: rest => itemMatchAll cpl2 item && classpermsMatchAll cpl2 rest

def itemMatchAll (cpl2 : List CilClassperms) : CilClassperms → Bool
  | .classperms _ cls _ perms => cilClasspermsMatchAll cls perms cpl2
  | .mapClassperms _ _ _ perms => mapPermsMatchAll cpl2 perms
  | .classpermsSet _ set => classpermsMatchAll cpl2 set

def mapPermsMatchAll (cpl2 : List CilClassperms) : List CilMapPerm → Bool
  | [] => true
  | .mk _ classperms :: rest => classpermsMatchAll cpl2 classperms && mapPermsMatchAll cpl2 rest

end

/-- The test of both matches for lists that are `NULL`. -/
def classpermsListMatch (loop : List CilClassperms → List CilClassperms → Bool) :
    Option (List CilClassperms) → Option (List CilClassperms) → Bool
  | none, none => true
  | some cpl1, some cpl2 => loop cpl2 cpl1
  | _, _ => false

def cilClasspermsListMatchAny : Option (List CilClassperms) → Option (List CilClassperms) → Bool :=
  classpermsListMatch classpermsMatchAny

def cilClasspermsListMatchAll : Option (List CilClassperms) → Option (List CilClassperms) → Bool :=
  classpermsListMatch classpermsMatchAll

/-! ### Intersection and difference -/

/-- The result of a walk that appended `items`; a list without items is destroyed. -/
def destroyEmpty (items : List CilClassperms) : Option (List CilClassperms) :=
  if items.isEmpty then none else some items

/-- `cil_classperms_list_copy`; the copy is a list of the same items. -/
def cilClasspermsListCopy (old : Option (List CilClassperms)) : Option (List CilClassperms) := old.bind destroyEmpty

/-- The items appended for the permissions of a class: all of them, or a new item for the ones that are kept. -/
def classpermsSelect (keep : CilClass → CilPerm → Bool) (classStr : CString) (cls : CilClass)
    (permStrs : List CString)
    (perms : List CilPerm) : List CilClassperms :=
  if perms.all (keep cls) then [.classperms classStr cls permStrs perms]
  else if (perms.filter (keep cls)).isEmpty then []
  else [.classperms classStr cls ((perms.filter (keep cls)).map CilPerm.fqn) (perms.filter (keep cls))]

/-- The items appended for a class map: those found before the first permission that stays whole, the item for the
permissions that stay whole, and those found after it. -/
def mapItems (classStr : CString) (cls : CilClass)
    (found : List CilClassperms × List CilMapPerm × List CilClassperms) :
    List CilClassperms :=
  found.1 ++
    (if found.2.1.isEmpty then [] else [.mapClassperms classStr cls (found.2.1.map CilMapPerm.fqn) found.2.1]) ++
    found.2.2

/-- What a walk returns for a list: a copy when the list stays whole. -/
def selectResult (whole : List CilClassperms → Bool) (cpl1 items : List CilClassperms) :
    Option (List CilClassperms) :=
  if whole cpl1 then cilClasspermsListCopy (some cpl1) else destroyEmpty items

mutual

/-- The loop of `cil_classperms_list_and` and `cil_classperms_list_andnot`: `whole` tells which lists stay as they are
and `keep` which permissions of a class. -/
def classpermsListSelect (whole : List CilClassperms → Bool) (keep : CilClass → CilPerm → Bool) :
    List CilClassperms → List CilClassperms
  | [] => []
  | item :: rest => itemSelect whole keep item ++ classpermsListSelect whole keep rest

def itemSelect (whole : List CilClassperms → Bool) (keep : CilClass → CilPerm → Bool) :
    CilClassperms → List CilClassperms
  | .classperms classStr cls permStrs perms => classpermsSelect keep classStr cls permStrs perms
  | .mapClassperms classStr cls _ perms => mapItems classStr cls (mapPermsSelect whole keep false perms)
  | .classpermsSet setStr set =>
    if whole set then [.classpermsSet setStr set]
    else (selectResult whole set (classpermsListSelect whole keep set)).getD []

/-- The loop over the permissions of a class map; `started` tells whether one of them stayed whole before. -/
def mapPermsSelect (whole : List CilClassperms → Bool) (keep : CilClass → CilPerm → Bool) (started : Bool) :
    List CilMapPerm → List CilClassperms × List CilMapPerm × List CilClassperms
  | [] => ([], [], [])
  | .mk fqn classperms :: rest =>
    if whole classperms then
      let found := mapPermsSelect whole keep true rest
      (found.1, .mk fqn classperms :: found.2.1, found.2.2)
    else
      let items := (selectResult whole classperms (classpermsListSelect whole keep classperms)).getD []
      let found := mapPermsSelect whole keep started rest
      if started then (found.1, found.2.1, items ++ found.2.2) else (items ++ found.1, found.2.1, found.2.2)

end

def cilClasspermsListAnd : Option (List CilClassperms) → Option (List CilClassperms) → Option (List CilClassperms)
  | some cpl1, some cpl2 =>
    selectResult (classpermsMatchAll cpl2) cpl1
      (classpermsListSelect (classpermsMatchAll cpl2) (fun cls perm => cilClassPermMatch cls perm cpl2) cpl1)
  | _, _ => none

def cilClasspermsListAndnot : Option (List CilClassperms) → Option (List CilClassperms) → Option (List CilClassperms)
  | none, _ => none
  | some cpl1, none => cilClasspermsListCopy (some cpl1)
  | some cpl1, some cpl2 =>
    selectResult (fun cpl => !classpermsMatchAny cpl2 cpl) cpl1
      (classpermsListSelect (fun cpl => !classpermsMatchAny cpl2 cpl)
        (fun cls perm => !cilClassPermMatch cls perm cpl2) cpl1)

end Sepol
