import Sepol.Lib.Neighbours

/-!
# Merging ordered lists

The statements that order classes, SIDs, categories and sensitivities are merged into one list (`cil_resolve_ast.c`),
which is then compared with the statements again (`cil_verify.c`).  An item carries a mark that it is in the list
already.  A place in a list is given by what is before it and what starts there.
-/

namespace Sepol

variable {α : Type} [DecidableEq α]

/-- `cil_ordered`: the items of an order statement, and whether they are merged. -/
structure CilOrdered (α : Type) where
  merged : Bool
  datums : List α

/-- The list so far, and the `ordered` mark of each item. -/
structure OrderedState (α : Type) where
  list : List α
  ordered : α → Bool

/-- Why there is no merged list: statements that cannot be merged, an order that was guessed, or an unordered item
that is marked already. -/
inductive OrderedError where
  | unmerged
  | unverified
  | unordered
deriving DecidableEq

/-! ### Inserting items -/

/-- `__cil_ordered_item_insert`: `front` ends with the item to insert after. -/
def cilOrderedItemInsert (ordered : α → Bool) (front : List α) (item : α) : Option (List α × (α → Bool)) :=
  if ordered item then none else some (front ++ [item], Function.update ordered item true)

/-- `__cil_ordered_list_insert`: also when it fails, the items before the failing one stay. -/
def cilOrderedListInsert (ordered : α → Bool) (front : List α) : List α → Bool × List α × (α → Bool)
  | [] => (true, front, ordered)
  | item :: items =>
    match cilOrderedItemInsert ordered front item with
    | none => (false, front, ordered)
    | some (front, ordered) => cilOrderedListInsert ordered front items

/-! ### Merging one list -/

/-- The loop of `__cil_ordered_lists_merge`: `rest` starts at `ocurr` and `front` is what is before it, `new` starts
at `ncurr` and `skipped` is what is between `nfirst` and it.  The search of `__cil_ordered_find_next_match` for the
next match is part of the loop. -/
def cilOrderedListsMergeFrom (ordered : α → Bool) (front rest skipped : List α) :
    List α → Bool × OrderedState α
  | [] => (skipped.isEmpty, ⟨front ++ rest, ordered⟩)
  | i :: new =>
    if rest = [] then
      let r := cilOrderedListInsert ordered front (i :: new)
      (r.1, ⟨r.2.1, r.2.2⟩)
    else if i ∈ rest then
      let r := cilOrderedListInsert ordered (front ++ rest.takeWhile fun j => decide (j ≠ i)) skipped
      let j := rest.dropWhile fun j => decide (j ≠ i)
      if r.1 then cilOrderedListsMergeFrom r.2.2 (r.2.1 ++ [i]) j.tail [] new
      else (false, ⟨r.2.1 ++ j, r.2.2⟩)
    else cilOrderedListsMergeFrom ordered front rest (skipped ++ [i]) new

/-- `__cil_ordered_lists_merge`. -/
def cilOrderedListsMerge (s : OrderedState α) (new : List α) : Bool × OrderedState α :=
  if new = [] then (true, s)
  else if s.list = [] then
    let r := cilOrderedListInsert s.ordered [] new
    (r.1, ⟨r.2.1, r.2.2⟩)
  else cilOrderedListsMergeFrom s.ordered [] s.list [] new

/-- The items given in an unordered statement, one after another: those in the list are left out. -/
def insertUnorderedItems (s : OrderedState α) : List α → Option (OrderedState α)
  | [] => some s
  | item :: items =>
    if item ∈ s.list then insertUnorderedItems s items
    else
      match cilOrderedItemInsert s.ordered s.list item with
      | none => none
      | some (list, ordered) => insertUnorderedItems ⟨list, ordered⟩ items

/-- `insert_unordered`. -/
def insertUnordered (s : OrderedState α) : List (CilOrdered α) → Option (OrderedState α)
  | [] => some s
  | o :: os => (insertUnorderedItems s o.datums).bind fun s => insertUnordered s os

/-! ### Verifying the order -/

/-- Where `cil_verify_completed_ordered_list` is: `cprev`, the list from `ccurr` on, and its flags. -/
structure OrderedVerify (α : Type) where
  prev : Option α
  rest : List α
  foundPrev : Bool
  foundNext : Bool
  change : Bool

/-- One item `ocurr` of a statement, between `oprev` and `onext`. -/
def OrderedVerify.item (v : OrderedVerify α) (oprev : Option α) (ocurr : α) (onext : Option α) : OrderedVerify α :=
  match v.rest with
  | [] => v
  | ccurr :: cnext =>
    if ccurr = ocurr then
      let newPrev := !v.foundPrev && decide (v.prev = oprev)
      let newNext := !v.foundNext && decide (cnext.head? = onext)
      let foundPrev := v.foundPrev || newPrev
      let foundNext := v.foundNext || newNext
      let change := v.change || newPrev || newNext
      if foundPrev && foundNext then ⟨some ccurr, cnext, false, false, change⟩
      else ⟨v.prev, v.rest, foundPrev, foundNext, change⟩
    else v

def OrderedVerify.items (v : OrderedVerify α) (oprev : Option α) : List α → OrderedVerify α
  | [] => v
  | ocurr :: datums => (v.item oprev ocurr datums.head?).items (some ocurr) datums

/-- One pass over all statements. -/
def OrderedVerify.pass (v : OrderedVerify α) (orderedLists : List (CilOrdered α)) : OrderedVerify α :=
  orderedLists.foldl (fun v o => v.items none o.datums) { v with change := false }

/-- The rounds of `cil_verify_completed_ordered_list` while `ccurr` is an item, with `rc` so far. -/
def cilVerifyRounds (orderedLists : List (CilOrdered α)) : Nat → OrderedVerify α → Bool → Option Bool
  | 0, _, _ => none
  | fuel + 1, v, rc =>
    if v.rest = [] then some rc
    else
      let v := v.pass orderedLists
      if v.change then cilVerifyRounds orderedLists fuel v rc
      else cilVerifyRounds orderedLists fuel ⟨v.rest.head?, v.rest.tail, false, false, false⟩ false

/-- `cil_verify_completed_ordered_list`. -/
def cilVerifyCompletedOrderedList (fuel : Nat) (complete : List α) (orderedLists : List (CilOrdered α)) :
    Option Bool :=
  cilVerifyRounds orderedLists fuel ⟨none, complete, false, false, false⟩ true

/-! ### Merging all lists -/

/-- One pass over the statements: the list, the statements with their marks, how many are still waiting, and whether
one was merged. -/
def cilOrderedListsPass (s : OrderedState α) : List (CilOrdered α) → OrderedState α × List (CilOrdered α) × Nat × Bool
  | [] => (s, [], 0, false)
  | o :: os =>
    if o.merged then
      let r := cilOrderedListsPass s os
      (r.1, o :: r.2.1, r.2.2)
    else
      let m := cilOrderedListsMerge s o.datums
      let r := cilOrderedListsPass m.2 os
      if m.1 then (r.1, { o with merged := true } :: r.2.1, r.2.2.1, true)
      else (r.1, o :: r.2.1, r.2.2.1 + 1, r.2.2.2)

/-- The passes, until none is waiting or nothing has changed; `none` inside when statements stay unmerged. -/
def cilOrderedListsPasses : Nat → OrderedState α → List (CilOrdered α) → Option (Option (OrderedState α))
  | 0, _, _ => none
  | fuel + 1, s, orderedLists =>
    let r := cilOrderedListsPass s orderedLists
    if r.2.2.1 = 0 then some (some r.1)
    else if r.2.2.2 then cilOrderedListsPasses fuel r.1 r.2.1
    else some none

/-- `__cil_ordered_lists_merge_all`, for items with the marks `ordered`. -/
def cilOrderedListsMergeAll (fuel : Nat) (ordered : α → Bool) (orderedLists : List (CilOrdered α))
    (unorderedLists : List (CilOrdered α)) : Option (Except OrderedError (OrderedState α)) :=
  (cilOrderedListsPasses fuel ⟨[], ordered⟩ orderedLists).bind fun r =>
    match r with
    | none => some (.error .unmerged)
    | some s =>
      (cilVerifyCompletedOrderedList fuel s.list orderedLists).bind fun verified =>
        if verified then
          match insertUnordered s unorderedLists with
          | none => some (.error .unordered)
          | some s => some (.ok s)
        else some (.error .unverified)

end Sepol
