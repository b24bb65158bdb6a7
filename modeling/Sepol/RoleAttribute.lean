import Sepol.EbitmapOps
import Sepol.Lib.Worklist
import Sepol.Scope

/-!
# Expanding role attributes

`expand_role_attributes` is called for every role of the base, in the order of the hash table.  It replaces the role
attributes in the set of an attribute by their own sets, and scans the set again after each of them.  A state of the
machine is between two calls, or inside the scan of one.
-/

namespace Sepol

open Relation

/-- The fields of `role_datum_t` that are for role attributes. -/
structure LinkRole where
  flavor : RoleFlavor
  value : Nat
  roles : Ebitmap
deriving DecidableEq

/-- The roles of a base policy: the entries of the hash table are positions of `role_val_to_struct`. -/
structure RoleSymtab where
  table : List (CString × Nat)
  roleValToStruct : Nat → Option LinkRole

/-- Between two calls `cur` is `none`; in a call it has the attribute, and the positions that the scan has still to
visit. -/
structure RoleConfig where
  roleValToStruct : Nat → Option LinkRole
  todo : List (CString × Nat)
  cur : Option (Nat × List Nat)

/-- How the calls end: all of them returned 0, one returned -1, or one read memory that is not there. -/
inductive RoleEnd where
  | returned (roleValToStruct : Nat → Option LinkRole)
  | failed
  | undefined

/-- `ebitmap_set_bit` frees the node of a bit that it clears, because the node has no other bit. -/
def freesNode (e : Ebitmap) (bit : Nat) : Bool :=
  e.node.any fun n => n.startbit ≤ bit && bit < n.startbit + mapsize && n.map = mapbit n bit

/-- The set of a role in an array is replaced. -/
def setRoles (roleValToStruct : Nat → Option LinkRole) (x : Nat) (roles : Ebitmap) : Nat → Option LinkRole :=
  Function.update roleValToStruct x ((roleValToStruct x).map fun role => { role with roles := roles })

/-- One step of `expand_role_attributes` under `hashtab_map`: the start of a call, one position of a scan, or the end
of a scan. -/
def expandRoleAttributesStep (c : RoleConfig) : Except RoleEnd RoleConfig :=
  match c.cur with
  | none =>
    match c.todo with
    | [] => .error (.returned c.roleValToStruct)
    | (id, i) :: todo =>
      match c.roleValToStruct i with
      | none => .error .undefined
      | some role =>
        if id = objectR then .ok { c with todo := todo }
        else if role.flavor ≠ .attrib then .ok { c with todo := todo }
        else .ok { c with todo := todo, cur := some (i, ebitmapPositiveBits role.roles) }
  | some (_, []) => .ok { c with cur := none }
  | some (x, i :: bits) =>
    match c.roleValToStruct x, c.roleValToStruct i with
    | some role, some subAttr =>
      if subAttr.flavor ≠ .attrib then .ok { c with cur := some (x, bits) }
      else
        match ebitmapSetBit role.roles i false with
        | none => .error .failed
        | some roles =>
          if subAttr.value = role.value then
            -- the scan goes on from the node of the bit
            if freesNode role.roles i then .error .undefined
            else .ok { c with roleValToStruct := setRoles c.roleValToStruct x roles, cur := some (x, bits) }
          else
            let roles := ebitmapUnion roles subAttr.roles
            .ok { c with
              roleValToStruct := setRoles c.roleValToStruct x roles
              cur := some (x, ebitmapPositiveBits roles) }
    | _, _ => .error .undefined

/-- The state before the first call. -/
def RoleSymtab.start (base : RoleSymtab) : RoleConfig := ⟨base.roleValToStruct, base.table, none⟩

def RoleStep (c c' : RoleConfig) : Prop := expandRoleAttributesStep c = .ok c'

/-- The calls end with success, with these roles. -/
def RoleConfig.Returns (c : RoleConfig) (roleValToStruct : Nat → Option LinkRole) : Prop :=
  ∃ c', ReflTransGen RoleStep c c' ∧ expandRoleAttributesStep c' = .error (.returned roleValToStruct)

/-! ### The graph of the role attributes -/

variable (roleValToStruct : Nat → Option LinkRole)

def IsRoleAttribute (i : Nat) : Prop := ∃ role, roleValToStruct i = some role ∧ role.flavor = .attrib

def HasRole (a b : Nat) : Prop := ∃ role, roleValToStruct a = some role ∧ b ∈ role.roles

/-- A role attribute in the set of a role. -/
def AttributeEdge (a b : Nat) : Prop := HasRole roleValToStruct a b ∧ IsRoleAttribute roleValToStruct b

/-- A regular role that is reachable through role attributes. -/
def ReachesRole (a j : Nat) : Prop :=
  ¬ IsRoleAttribute roleValToStruct j ∧ ∃ b, ReflTransGen (AttributeEdge roleValToStruct) a b ∧
    HasRole roleValToStruct b j

/-- The edges from the attributes that are not among the first calls. -/
def LaterEdge (done : List Nat) (a b : Nat) : Prop := a ∉ done ∧ AttributeEdge roleValToStruct a b

/-- The tables of a policy that is indexed; `object_r` is never a role attribute. -/
structure RoleSymtab.Ok (base : RoleSymtab) : Prop where
  canonical : ∀ i role, base.roleValToStruct i = some role → role.roles.Canonical
  value : ∀ i role, base.roleValToStruct i = some role → role.value = i + 1
  exist : ∀ i j, HasRole base.roleValToStruct i j → ∃ role, base.roleValToStruct j = some role
  entry : ∀ e ∈ base.table, ∃ role, base.roleValToStruct e.2 = some role
  nodup : (base.table.map Prod.snd).Nodup
  complete : ∀ i, IsRoleAttribute base.roleValToStruct i → i ∈ base.table.map Prod.snd
  object : ∀ e ∈ base.table, e.1 = objectR → ¬ IsRoleAttribute base.roleValToStruct e.2

/-- From no attribute, a cycle of attributes that come later in the hash table can be reached through such attributes.
-/
def RoleSymtab.NoLaterCycle (base : RoleSymtab) : Prop :=
  ∀ pre id x post, base.table = pre ++ (id, x) :: post → IsRoleAttribute base.roleValToStruct x →
    ∀ b, AttributeEdge base.roleValToStruct x b →
      ¬ Worklist.LeadsToCycle (LaterEdge base.roleValToStruct (pre.map Prod.snd ++ [x])) b

/-- The scan is at the own bit of the attribute, which is the only one of its node. -/
def RoleConfig.FreesOwn (c : RoleConfig) : Prop :=
  ∃ x bits role, c.cur = some (x, x :: bits) ∧ c.roleValToStruct x = some role ∧ role.flavor = .attrib ∧
    freesNode role.roles x = true

end Sepol
