import Sepol.ModuleToCil
import Sepol.Lib.Outcome

/-!
# The types of roles in CIL

What the statements that `module_to_cil.c` writes for a role or a type say, against what they are to say: the types of
a role that are in scope, and the parents of bounded roles and types.  A type set that is more than a list becomes an
attribute, whose name no scope has, and the operands of `rolebounds` are in the order child, parent.
-/

namespace Sepol

open Outcome

/-! ### What statements say -/

/-- The types of a name: the type itself, or the members of the attribute. -/
def ModulePolicydb.nameTypes (p : ModulePolicydb) (name : CString) : Set Nat :=
  {j | ∃ i, p.typeValToName i = some name ∧ j ∈ p.typeTable.members true i}

def CilNameExpr.denote (p : ModulePolicydb) : CilNameExpr → Set Nat
  | .all => p.typeTable.types
  | .names l => {j | ∃ name ∈ l, j ∈ p.nameTypes name}
  | .not e => p.typeTable.types \ e.denote p
  | .notNothing => ∅
  | .and e₁ e₂ => e₁.denote p ∩ e₂.denote p

/-- The types of an attribute; its statement is not well formed unless it has one expression. -/
def nameExprTypes (p : ModulePolicydb) : List CilNameExpr → Set Nat
  | [e] => e.denote p
  | _ => ∅

/-- The types of a name in a `roletype` statement, which is that of an attribute that the statements define, or of the
policy. -/
def ModulePolicydb.operandTypes (p : ModulePolicydb) (statements : List ModuleStatement) (name : CString) : Set Nat :=
  {j | (∃ es, .typeattributeset name es ∈ statements ∧ j ∈ nameExprTypes p es) ∨
    (∀ es, .typeattributeset name es ∉ statements) ∧ j ∈ p.nameTypes name}

/-! ### What statements are to say -/

/-- The types of the set of a role that are in scope.  In a plain list each name in scope counts, and the name of an
attribute stands for its members. -/
def ModulePolicydb.typesDue (p : ModulePolicydb) (declStack : List ModuleDecl) (set : LinkTypeSet) : Set Nat :=
  if set.isPlain then
    {j | ∃ i ∈ ebitmapPositiveBits set.types, ∃ name, p.typeValToName i = some name ∧
      isIdInScope p.typesScope declStack name ∧ j ∈ p.nameTypes name}
  else {j | j ∈ set.denote p.typeTable true ∧ ∃ name, p.typeValToName j = some name ∧
    isIdInScope p.typesScope declStack name}

/-- The set of a role of an ancestor has a type that is declared deeper than the role.  A plain list names it; of
other sets the types in scope of the ancestor are due with the role. -/
def ModulePolicydb.DueWithType (p : ModulePolicydb) (declStack : List ModuleDecl) (set : LinkTypeSet)
    (typeName : CString) : Prop :=
  if set.isPlain then ∃ i ∈ ebitmapPositiveBits set.types, p.typeValToName i = some typeName
  else (∃ j ∈ set.denote p.typeTable true, p.typeValToName j = some typeName) ∧
    isIdInAncestorScope p.typesScope declStack typeName = false

/-- The role is in scope of an ancestor, and the type is due with the type. -/
def ModulePolicydb.PairDue (p : ModulePolicydb) (declStack : List ModuleDecl) (roleName typeName : CString) : Prop :=
  ∃ role, (roleName, role) ∈ p.roles ∧ isIdInAncestorScope p.rolesScope declStack roleName ∧
    p.DueWithType declStack role.types typeName

/-- The role that has each declared type. -/
def ImplicitRole (type : KernelType) (scope : SymbolScope) (roleName : CString) : Prop :=
  roleName = defaultObject ∧ scope = .decl ∧ type.flavor = .type

/-- The statements of a role give it exactly the types that are due, and exactly its parent. -/
structure SymbolGroup.KeepsRole (g : SymbolGroup) (p : ModulePolicydb) (key : CString) (role : KernelRole) :
    Prop where
  types : ∀ j, (∃ name, .roletype key name ∈ g.statements ∧ j ∈ p.operandTypes g.statements name) ↔
    j ∈ p.typesDue g.declStack role.types
  others : ∀ roleName name, .roletype roleName name ∈ g.statements → roleName = key
  parent : ∀ first second, .rolebounds first second ∈ g.statements ↔
    role.flavor = roleRole ∧ 0 < role.bounds ∧ p.roleValToName (role.bounds - 1) = some first ∧ second = key

/-- The statements of a type give it to exactly the roles that it is due to, and give exactly its parent. -/
structure SymbolGroup.KeepsType (g : SymbolGroup) (p : ModulePolicydb) (key : CString) (type : KernelType) :
    Prop where
  roles : ∀ roleName name, .roletype roleName name ∈ g.statements ↔
    name = key ∧ (p.PairDue g.declStack roleName key ∨ ImplicitRole type g.scope roleName)
  parent : ∀ first second, .typebounds first second ∈ g.statements ↔
    type.flavor = .type ∧ 0 < type.bounds ∧ p.typeValToName (type.bounds - 1) = some first ∧ second = key

def SymbolGroup.Keeps (g : SymbolGroup) (p : ModulePolicydb) : Prop :=
  match g.symbol with
  | .role key role => g.KeepsRole p key role
  | .type key type => g.KeepsType p key type

/-! ### When they say it -/

def namesOf (valToName : Nat → Option CString) (map : Ebitmap) : List CString :=
  (ebitmapPositiveBits map).filterMap valToName

/-- The role has no bounds but itself.  Its type set is a plain list, or no type of the set is in scope, nor a name
that happens to be that of the attribute made for it. -/
def SymbolGroup.RoleCondition (g : SymbolGroup) (p : ModulePolicydb) (key : CString) (role : KernelRole) : Prop :=
  (role.flavor = roleRole → 0 < role.bounds → ∀ name, p.roleValToName (role.bounds - 1) = some name → name = key) ∧
    (role.types.isPlain = false →
      (∀ j ∈ role.types.denote p.typeTable true, ∀ name, p.typeValToName j = some name →
        isIdInScope p.typesScope g.declStack name = false) ∧
      isIdInScope p.typesScope g.declStack (newAttrName p (nextNumAttrs g.numAttrs)) = false)

/-- Each role of an ancestor has a plain list, or a set that does not have the type as one that is declared deeper
than the role; in the second case the type has no name that an attribute can be made with. -/
def SymbolGroup.TypeCondition (g : SymbolGroup) (p : ModulePolicydb) (key : CString) (type : KernelType) : Prop :=
  ∀ roleName role, (roleName, role) ∈ p.roles → isIdInAncestorScope p.rolesScope g.declStack roleName →
    role.types.isPlain = false → ¬ ImplicitRole type g.scope roleName →
      ((∃ j ∈ role.types.denote p.typeTable true, p.typeValToName j = some key) →
        isIdInAncestorScope p.typesScope g.declStack key) ∧ ∀ n, key ≠ newAttrName p n

def SymbolGroup.Condition (g : SymbolGroup) (p : ModulePolicydb) : Prop :=
  match g.symbol with
  | .role key role => g.RoleCondition p key role
  | .type key type => g.TypeCondition p key type

variable {p : ModulePolicydb} {declStack : List ModuleDecl} {key : CString} {role : KernelRole} {type : KernelType}
  {scope : SymbolScope} {numAttrs next : Nat} {statements : List ModuleStatement}

private theorem nameOrNull_eq_ok_iff {valToName : Nat → Option CString} {i : Nat} {name : CString} :
    nameOrNull valToName i = .ok name ↔ valToName i = some name := by
  unfold nameOrNull
  cases valToName i <;> simp

private theorem namesOfBits_eq {valToName : Nat → Option CString} {bits : List Nat} {names : List CString}
    (h : namesOfBits valToName bits = .ok names) : names = bits.filterMap valToName := by
  induction bits generalizing names with
  | nil =>
    simp only [namesOfBits, Except.ok.injEq] at h
    simp [← h]
  | cons i bits ih =>
    simp only [namesOfBits, bind_eq_ok_iff] at h
    obtain ⟨name, hname, rest, hrest, hnames⟩ := h
    rw [nameOrNull_eq_ok_iff] at hname
    simp only [pure, Except.pure, Except.ok.injEq] at hnames
    rw [← hnames, ih hrest, List.filterMap_cons, hname]

theorem ebitmapToCil_eq {valToName : Nat → Option CString} {map : Ebitmap} {names : List CString}
    (h : ebitmapToCil map valToName = .ok names) : names = namesOf valToName map := namesOfBits_eq h

private theorem ebitmapToNames_eq {valToName : Nat → Option CString} {map : Ebitmap} {names : List CString}
    (h : ebitmapToNames map valToName = .ok names) : names = namesOf valToName map := by
  unfold ebitmapToNames at h
  split at h
  · cases h
  · exact ebitmapToCil_eq h

theorem mem_namesOf {valToName : Nat → Option CString} {map : Ebitmap} {name : CString} :
    name ∈ namesOf valToName map ↔ ∃ i ∈ ebitmapPositiveBits map, valToName i = some name := List.mem_filterMap

private theorem mem_printAttrList {attrList : List (CString × LinkTypeSet)} {attributes : List ModuleStatement}
    (h : printAttrList p attrList = .ok attributes) (s : ModuleStatement) :
    s ∈ attributes ↔ ∃ e ∈ attrList, s = .typeattribute e.1 ∨ s = .typeattributeset e.1
      (attrStrs e.2 (namesOf p.typeValToName e.2.types) (namesOf p.typeValToName e.2.negset)) := by
  induction attrList generalizing attributes with
  | nil =>
    simp only [printAttrList, Except.ok.injEq] at h
    simp [← h]
  | cons e attrList ih =>
    obtain ⟨attrName, set⟩ := e
    simp only [printAttrList, bind_eq_ok_iff] at h
    obtain ⟨pos, hpos, neg, hneg, rest, hrest, hattributes⟩ := h
    simp only [pure, Except.pure, Except.ok.injEq] at hattributes
    rw [← hattributes, List.mem_cons, List.mem_cons, ih hrest, ebitmapToCil_eq hpos, ebitmapToCil_eq hneg]
    simp only [List.exists_mem_cons_iff, or_assoc]

private theorem processTypeset_of_plain {ts : LinkTypeSet} {attrs attrs' : AttrState} {names : List CString}
    (hplain : ts.isPlain = true) (h : processTypeset p ts attrs = .ok (names, attrs')) :
    names = namesOf p.typeValToName ts.types ∧ attrs' = attrs := by
  simp only [processTypeset, hplain, ↓reduceIte, bind_eq_ok_iff] at h
  obtain ⟨names', hnames, hpair⟩ := h
  simp only [pure, Except.pure, Except.ok.injEq, Prod.mk.injEq] at hpair
  exact ⟨by rw [← hpair.1, ebitmapToNames_eq hnames], hpair.2.symm⟩

private theorem getNewAttrName_eq {name : CString} (h : getNewAttrName p numAttrs = .ok name) :
    name = newAttrName p numAttrs := by
  unfold getNewAttrName at h
  dsimp only at h
  split at h
  · exact (Except.ok.inj h).symm
  · cases h

private theorem setToNames_of_search_eq_none {ts : LinkTypeSet} {attrs attrs' : AttrState} {names : List CString}
    (hsearch : searchAttrList attrs.attrList ts = none) (h : setToNames p ts attrs = .ok (names, attrs')) :
    names = [newAttrName p (nextNumAttrs attrs.numAttrs)] ∧
      attrs'.attrList = (newAttrName p (nextNumAttrs attrs.numAttrs), ts) :: attrs.attrList := by
  simp only [setToNames, hsearch, bind_eq_ok_iff] at h
  obtain ⟨attrName, hname, hpair⟩ := h
  obtain rfl := getNewAttrName_eq hname
  simp only [pure, Except.pure, Except.ok.injEq, Prod.mk.injEq] at hpair
  exact ⟨hpair.1.symm, by rw [← hpair.2]⟩

private theorem processTypeset_of_not_plain {ts : LinkTypeSet} {attrs attrs' : AttrState} {names : List CString}
    (hplain : ts.isPlain = false) (hattrs : attrs.attrList = [])
    (h : processTypeset p ts attrs = .ok (names, attrs')) :
    names = [newAttrName p (nextNumAttrs attrs.numAttrs)] ∧
      attrs'.attrList = [(newAttrName p (nextNumAttrs attrs.numAttrs), ts)] := by
  simp only [processTypeset, hplain, Bool.false_eq_true, ↓reduceIte] at h
  have hsearch : searchAttrList attrs.attrList ts = none := by rw [hattrs]; rfl
  have hspec := setToNames_of_search_eq_none hsearch h
  rwa [hattrs] at hspec

/-- The attributes of a list have names that are made. -/
def AttrState.Made (p : ModulePolicydb) (attrs : AttrState) : Prop := ∀ e ∈ attrs.attrList, ∃ n, e.1 = newAttrName p n

/-- A set that is more than a list has the name of an attribute made. -/
private theorem processTypeset_made {ts : LinkTypeSet} {attrs attrs' : AttrState} {names : List CString}
    (hmade : attrs.Made p) (h : processTypeset p ts attrs = .ok (names, attrs')) :
    attrs'.Made p ∧ (ts.isPlain = false → ∃ n, names = [newAttrName p n]) := by
  cases hplain : ts.isPlain with
  | true =>
    obtain ⟨-, rfl⟩ := processTypeset_of_plain hplain h
    exact ⟨hmade, by simp⟩
  | false =>
    simp only [processTypeset, hplain, Bool.false_eq_true, ↓reduceIte] at h
    cases hsearch : searchAttrList attrs.attrList ts with
    | some attrName =>
      simp only [setToNames, hsearch, Except.ok.injEq, Prod.mk.injEq] at h
      obtain ⟨rfl, rfl⟩ := h
      rw [searchAttrList, Option.map_eq_some_iff] at hsearch
      obtain ⟨e, hfind, rfl⟩ := hsearch
      obtain ⟨n, hname⟩ := hmade e (List.mem_of_find?_eq_some hfind)
      exact ⟨hmade, fun _ => ⟨n, by rw [hname]⟩⟩
    | none =>
      obtain ⟨rfl, hattrs⟩ := setToNames_of_search_eq_none hsearch h
      refine ⟨fun e he => ?_, fun _ => ⟨_, rfl⟩⟩
      rw [hattrs, List.mem_cons] at he
      rcases he with rfl | he
      · exact ⟨_, rfl⟩
      · exact hmade e he

private theorem mem_roletypesInScope {names : List CString} {s : ModuleStatement} :
    s ∈ roletypesInScope p declStack key names ↔
      ∃ name ∈ names, isIdInScope p.typesScope declStack name ∧ s = .roletype key name := by
  simp only [roletypesInScope, List.mem_map, List.mem_filter, and_assoc]
  constructor
  · rintro ⟨name, hname, hscope, rfl⟩
    exact ⟨name, hname, hscope, rfl⟩
  · rintro ⟨name, hname, hscope, rfl⟩
    exact ⟨name, hname, hscope, rfl⟩

/-! ### The statements of a role -/

/-- A statement that says nothing about the types or the parent of a role, nor about the types of an attribute. -/
def ModuleStatement.Declares (s : ModuleStatement) : Prop :=
  (∃ key, s = .role key) ∨ (∃ key, s = .roleattribute key) ∨ ∃ attr names, s = .roleattributeset attr names

private theorem roleRolesToCil_declares {roles : List ModuleStatement} (h : roleRolesToCil p key role = .ok roles) :
    ∀ s ∈ roles, s.Declares := by
  unfold roleRolesToCil at h
  split at h
  · simp only [Except.ok.injEq] at h
    simp [← h]
  · simp only [bind_eq_ok_iff] at h
    obtain ⟨names, -, hroles⟩ := h
    simp only [pure, Except.pure, Except.ok.injEq] at hroles
    intro s hs
    rw [← hroles, List.mem_singleton] at hs
    exact .inr (.inr ⟨key, names, hs⟩)

/-- What is written for a role: declarations, the names of its set that are in scope, its bounds, and the attributes
made. -/
private theorem roleToCil_eq_ok (h : roleToCil p declStack key role scope numAttrs = .ok (statements, next)) :
    ∃ declare types attrs bounds attributes, processTypeset p role.types ⟨[], numAttrs⟩ = .ok (types, attrs) ∧
      printAttrList p attrs.attrList = .ok attributes ∧ (∀ s ∈ declare, ModuleStatement.Declares s) ∧
      (role.flavor = roleRole ∧ roleBoundsToCil p key role = .ok bounds ∨ role.flavor ≠ roleRole ∧ bounds = []) ∧
      statements = declare ++ roletypesInScope p declStack key types ++ bounds ++ attributes := by
  have hrequire : ∀ s ∈ (if scope = .req then [ModuleStatement.roleattributeset genRequireAttr [key]] else []),
      s.Declares := by
    intro s hs
    split at hs
    · exact .inr (.inr ⟨_, _, List.mem_singleton.mp hs⟩)
    · simp at hs
  by_cases hrole : role.flavor = roleRole
  · simp only [roleToCil, hrole, bind_eq_ok_iff] at h
    obtain ⟨⟨types, attrs⟩, hprocess, bounds, hbounds, attributes, hprint, hstatements⟩ := h
    simp only [pure, Except.pure, Except.ok.injEq, Prod.mk.injEq] at hstatements
    refine ⟨_, types, attrs, bounds, attributes, hprocess, hprint, ?_, .inl ⟨hrole, hbounds⟩, hstatements.1.symm⟩
    intro s hs
    rcases List.mem_append.mp hs with hs | hs
    · exact hrequire s hs
    · split at hs
      · exact .inl ⟨_, List.mem_singleton.mp hs⟩
      · simp at hs
  by_cases hattrib : role.flavor = roleAttrib
  · simp only [roleToCil, hattrib, bind_eq_ok_iff] at h
    obtain ⟨roles, hroles, ⟨types, attrs⟩, hprocess, attributes, hprint, hstatements⟩ := h
    simp only [pure, Except.pure, Except.ok.injEq, Prod.mk.injEq] at hstatements
    refine ⟨_, types, attrs, [], attributes, hprocess, hprint, ?_, .inr ⟨hrole, rfl⟩,
      by rw [List.append_nil]; exact hstatements.1.symm⟩
    intro s hs
    rcases List.mem_append.mp hs with hs | hs
    · rcases List.mem_append.mp hs with hs | hs
      · exact hrequire s hs
      · split at hs
        · exact .inr (.inl ⟨_, List.mem_singleton.mp hs⟩)
        · simp at hs
    · exact roleRolesToCil_declares hroles s hs
  · unfold roleToCil at h
    simp only at h
    cases h

private theorem mem_roleBoundsToCil {bounds : List ModuleStatement} (h : roleBoundsToCil p key role = .ok bounds)
    (s : ModuleStatement) :
    s ∈ bounds ↔
      ∃ name, 0 < role.bounds ∧ p.roleValToName (role.bounds - 1) = some name ∧ s = .rolebounds key name := by
  unfold roleBoundsToCil at h
  split at h
  next hpos =>
    simp only [bind_eq_ok_iff] at h
    obtain ⟨name, hname, hbounds⟩ := h
    rw [nameOrNull_eq_ok_iff] at hname
    simp only [pure, Except.pure, Except.ok.injEq] at hbounds
    simp [← hbounds, hpos, hname]
  next hzero =>
    simp only [Except.ok.injEq] at h
    simp [← h, hzero]

/-- The statements of a role that say something about its types or its parent. -/
private theorem mem_roleToCil (h : roleToCil p declStack key role scope numAttrs = .ok (statements, next)) :
    ∃ types attrs, processTypeset p role.types ⟨[], numAttrs⟩ = .ok (types, attrs) ∧
      (∀ roleName name, .roletype roleName name ∈ statements ↔
        roleName = key ∧ name ∈ types ∧ isIdInScope p.typesScope declStack name) ∧
      (∀ name es, .typeattributeset name es ∈ statements ↔ ∃ e ∈ attrs.attrList, name = e.1 ∧
        es = attrStrs e.2 (namesOf p.typeValToName e.2.types) (namesOf p.typeValToName e.2.negset)) ∧
      ∀ first second, .rolebounds first second ∈ statements ↔
        role.flavor = roleRole ∧ 0 < role.bounds ∧ p.roleValToName (role.bounds - 1) = some second ∧ first = key := by
  obtain ⟨declare, types, attrs, bounds, attributes, hprocess, hprint, hdeclare, hbounds, rfl⟩ := roleToCil_eq_ok h
  have hboundsMem : ∀ s, s ∈ bounds ↔ role.flavor = roleRole ∧ ∃ name, 0 < role.bounds ∧
      p.roleValToName (role.bounds - 1) = some name ∧ s = .rolebounds key name := by
    intro s
    rcases hbounds with ⟨hflavor, hbounds⟩ | ⟨hflavor, rfl⟩
    · simp [hflavor, mem_roleBoundsToCil hbounds s]
    · simp [hflavor]
  have hroletype : ∀ roleName name, ModuleStatement.roletype roleName name ∉ declare := by
    intro roleName name hs
    simpa [ModuleStatement.Declares] using hdeclare _ hs
  have hset : ∀ name es, ModuleStatement.typeattributeset name es ∉ declare := by
    intro name es hs
    simpa [ModuleStatement.Declares] using hdeclare _ hs
  have hrolebounds : ∀ first second, ModuleStatement.rolebounds first second ∉ declare := by
    intro first second hs
    simpa [ModuleStatement.Declares] using hdeclare _ hs
  refine ⟨types, attrs, hprocess, ?_, ?_, ?_⟩
  · intro roleName name
    simp only [List.mem_append, hroletype, mem_roletypesInScope, hboundsMem, mem_printAttrList hprint]
    simp
    tauto
  · intro name es
    simp only [List.mem_append, hset, mem_roletypesInScope, hboundsMem, mem_printAttrList hprint]
    simp
  · intro first second
    simp only [List.mem_append, hrolebounds, mem_roletypesInScope, hboundsMem, mem_printAttrList hprint]
    simp

/-- A plain list gives a role the types that are due. -/
private theorem given_iff_of_plain (h : roleToCil p declStack key role scope numAttrs = .ok (statements, next))
    (hplain : role.types.isPlain = true) (j : Nat) :
    (∃ name, .roletype key name ∈ statements ∧ j ∈ p.operandTypes statements name) ↔
      j ∈ p.typesDue declStack role.types := by
  obtain ⟨types, attrs, hprocess, hroletype, hset, -⟩ := mem_roleToCil h
  obtain ⟨rfl, rfl⟩ := processTypeset_of_plain hplain hprocess
  have hoperand : ∀ name, j ∈ p.operandTypes statements name ↔ j ∈ p.nameTypes name := by
    intro name
    have hnone : ∀ es, ModuleStatement.typeattributeset name es ∉ statements := by
      intro es
      simp [hset]
    simp [ModulePolicydb.operandTypes, hnone]
  simp only [hroletype, hoperand, true_and, ModulePolicydb.typesDue, hplain, ↓reduceIte, mem_namesOf,
    Set.mem_ofPred_eq]
  constructor
  · rintro ⟨name, ⟨⟨i, hi, hname⟩, hscope⟩, hj⟩
    exact ⟨i, hi, name, hname, hscope, hj⟩
  · rintro ⟨i, hi, name, hname, hscope, hj⟩
    exact ⟨name, ⟨⟨i, hi, hname⟩, hscope⟩, hj⟩

private theorem not_roletype_of_not_plain (h : roleToCil p declStack key role scope numAttrs = .ok (statements, next))
    (hplain : role.types.isPlain = false)
    (hmade : isIdInScope p.typesScope declStack (newAttrName p (nextNumAttrs numAttrs)) = false)
    (roleName name : CString) : .roletype roleName name ∉ statements := by
  obtain ⟨types, attrs, hprocess, hroletype, -, -⟩ := mem_roleToCil h
  obtain ⟨rfl, -⟩ := processTypeset_of_not_plain hplain rfl hprocess
  rw [hroletype, List.mem_singleton]
  rintro ⟨-, rfl, hscope⟩
  rw [hmade] at hscope
  cases hscope

private theorem mem_typesDue_of_not_plain {set : LinkTypeSet} (hplain : set.isPlain = false) {j : Nat} :
    j ∈ p.typesDue declStack set ↔ j ∈ set.denote p.typeTable true ∧ ∃ name, p.typeValToName j = some name ∧
      isIdInScope p.typesScope declStack name := by
  simp [ModulePolicydb.typesDue, hplain]

/-- The statements of a role say what they are to say under the condition. -/
theorem keepsRole_of_condition {g : SymbolGroup}
    (h : roleToCil p g.declStack key role g.scope g.numAttrs = .ok (g.statements, next))
    (hcondition : g.RoleCondition p key role) : g.KeepsRole p key role := by
  obtain ⟨types, attrs, -, hroletype, -, hbounds⟩ := mem_roleToCil h
  obtain ⟨hparent, hnotPlain⟩ := hcondition
  refine ⟨?_, ?_, ?_⟩
  · intro j
    cases hplain : role.types.isPlain with
    | true => exact given_iff_of_plain h hplain j
    | false =>
      obtain ⟨hnone, hmade⟩ := hnotPlain hplain
      rw [mem_typesDue_of_not_plain hplain]
      constructor
      · rintro ⟨name, hstatement, -⟩
        exact absurd hstatement (not_roletype_of_not_plain h hplain hmade key name)
      · rintro ⟨hj, name, hname, hscope⟩
        rw [hnone j hj name hname] at hscope
        cases hscope
  · intro roleName name hstatement
    exact ((hroletype roleName name).mp hstatement).1
  · intro first second
    rw [hbounds first second]
    constructor
    · rintro ⟨hflavor, hpos, hname, rfl⟩
      obtain rfl := hparent hflavor hpos second hname
      exact ⟨hflavor, hpos, hname, rfl⟩
    · rintro ⟨hflavor, hpos, hname, rfl⟩
      obtain rfl := hparent hflavor hpos first hname
      exact ⟨hflavor, hpos, hname, rfl⟩

/-- The roles of ancestors are those of the list that are in scope there, in the order of the list, and each plain set
is named as it is. -/
private theorem ancestorRoles_eq_ok {roleList : List (CString × KernelRole)} {attrs attrs' : AttrState}
    {roles : List (CString × KernelRole × List CString)}
    (h : ancestorRoles p declStack roleList attrs = .ok (roles, attrs')) :
    roles.map (fun e => (e.1, e.2.1)) =
        roleList.filter (fun e => isIdInAncestorScope p.rolesScope declStack e.1) ∧
      ∀ e ∈ roles, e.2.1.types.isPlain = true → e.2.2 = namesOf p.typeValToName e.2.1.types.types := by
  induction roleList generalizing attrs attrs' roles with
  | nil =>
    simp only [ancestorRoles, Except.ok.injEq, Prod.mk.injEq] at h
    simp [← h.1]
  | cons e roleList ih =>
    obtain ⟨roleName, role⟩ := e
    by_cases hscope : isIdInAncestorScope p.rolesScope declStack roleName
    · simp only [ancestorRoles, hscope, ↓reduceIte, bind_eq_ok_iff] at h
      obtain ⟨⟨names, attrs₁⟩, hprocess, ⟨rest, attrs₂⟩, hrest, hroles⟩ := h
      simp only [pure, Except.pure, Except.ok.injEq, Prod.mk.injEq] at hroles
      obtain ⟨hkeys, hplain⟩ := ih hrest
      rw [← hroles.1]
      refine ⟨by simp [hkeys, hscope], ?_⟩
      intro e he hplainSet
      rcases List.mem_cons.mp he with rfl | he
      · exact (processTypeset_of_plain hplainSet hprocess).1
      · exact hplain e he hplainSet
    · simp only [ancestorRoles, hscope, Bool.false_eq_true, ↓reduceIte] at h
      simpa [hscope] using ih h

/-- The sets that are more than lists are named by attributes made. -/
private theorem ancestorRoles_made {roleList : List (CString × KernelRole)} {attrs attrs' : AttrState}
    {roles : List (CString × KernelRole × List CString)} (hmade : attrs.Made p)
    (h : ancestorRoles p declStack roleList attrs = .ok (roles, attrs')) :
    ∀ e ∈ roles, e.2.1.types.isPlain = false → ∃ n, e.2.2 = [newAttrName p n] := by
  induction roleList generalizing attrs attrs' roles with
  | nil =>
    simp only [ancestorRoles, Except.ok.injEq, Prod.mk.injEq] at h
    simp [← h.1]
  | cons e roleList ih =>
    obtain ⟨roleName, role⟩ := e
    by_cases hscope : isIdInAncestorScope p.rolesScope declStack roleName
    · simp only [ancestorRoles, hscope, ↓reduceIte, bind_eq_ok_iff] at h
      obtain ⟨⟨names, attrs₁⟩, hprocess, ⟨rest, attrs₂⟩, hrest, hroles⟩ := h
      simp only [pure, Except.pure, Except.ok.injEq, Prod.mk.injEq] at hroles
      obtain ⟨hmade₁, hnames⟩ := processTypeset_made hmade hprocess
      rw [← hroles.1]
      intro e he hplain
      rcases List.mem_cons.mp he with rfl | he
      · exact hnames hplain
      · exact ih hmade₁ hrest e he hplain
    · simp only [ancestorRoles, hscope, Bool.false_eq_true, ↓reduceIte] at h
      exact ih hmade h

/-- What is written for a type of the flavor `TYPE_TYPE`. -/
private theorem mem_typeTypeToCil {own : List ModuleStatement} (h : typeTypeToCil p key type scope = .ok own) :
    (∀ roleName name, .roletype roleName name ∈ own ↔ name = key ∧ roleName = defaultObject ∧ scope = .decl) ∧
      ∀ first second, .typebounds first second ∈ own ↔
        0 < type.bounds ∧ p.typeValToName (type.bounds - 1) = some first ∧ second = key := by
  have hdeclare : ∀ s, s ∈ (if scope = .decl then [ModuleStatement.type key, .roletype defaultObject key] else []) ↔
      scope = .decl ∧ (s = .type key ∨ s = .roletype defaultObject key) := by
    intro s
    split <;> simp [*]
  have hpermissive : ∀ s, s ∈ (if type.flags &&& typeFlagsPermissive ≠ 0 then [ModuleStatement.typepermissive key]
      else []) → s = .typepermissive key := by
    intro s hs
    split at hs
    · exact List.mem_singleton.mp hs
    · simp at hs
  have hnoRole : ∀ roleName name, ModuleStatement.roletype roleName name ∉
      (if type.flags &&& typeFlagsPermissive ≠ 0 then [ModuleStatement.typepermissive key] else []) :=
    fun roleName name hs => by cases hpermissive _ hs
  have hnoBounds : ∀ first second, ModuleStatement.typebounds first second ∉
      (if type.flags &&& typeFlagsPermissive ≠ 0 then [ModuleStatement.typepermissive key] else []) :=
    fun first second hs => by cases hpermissive _ hs
  simp only [typeTypeToCil, pure, Except.pure] at h
  split at h
  next hpos =>
    simp only [bind_eq_ok_iff, Except.ok.injEq] at h
    obtain ⟨name, hname, rfl⟩ := h
    rw [nameOrNull_eq_ok_iff] at hname
    refine ⟨?_, ?_⟩
    · intro roleName name'
      simp only [List.mem_append, hdeclare, hnoRole]
      simp
      tauto
    · intro first second
      simp only [List.mem_append, hdeclare, hnoBounds]
      simp [hname, hpos, eq_comm]
  next hzero =>
    simp only [Except.ok.injEq] at h
    subst h
    refine ⟨?_, ?_⟩
    · intro roleName name'
      simp only [List.mem_append, hdeclare, hnoRole]
      simp
      tauto
    · intro first second
      simp only [List.mem_append, hdeclare, hnoBounds]
      simp [hzero]

/-- The statements of an attribute say nothing about roles or parents. -/
private theorem typeAttribToCil_says {own : List ModuleStatement} (h : typeAttribToCil p key type scope = .ok own) :
    ∀ s ∈ own, s = .typeattribute key ∨ (∃ value, s = .expandtypeattribute key value) ∨
      ∃ es, s = .typeattributeset key es := by
  have hbase : ∀ s ∈ (if scope = .decl then [ModuleStatement.typeattribute key] else []) ++
      (if type.flags &&& typeFlagsExpandAttrTrue ≠ 0 then [ModuleStatement.expandtypeattribute key true]
        else if type.flags &&& typeFlagsExpandAttrFalse ≠ 0 then [ModuleStatement.expandtypeattribute key false]
        else []), s = .typeattribute key ∨ (∃ value, s = .expandtypeattribute key value) ∨
          ∃ es, s = .typeattributeset key es := by
    intro s hs
    rcases List.mem_append.mp hs with hs | hs
    · split at hs
      · exact .inl (List.mem_singleton.mp hs)
      · simp at hs
    · split at hs
      · exact .inr (.inl ⟨true, List.mem_singleton.mp hs⟩)
      · split at hs
        · exact .inr (.inl ⟨false, List.mem_singleton.mp hs⟩)
        · simp at hs
  simp only [typeAttribToCil, pure, Except.pure] at h
  split at h
  · simp only [Except.ok.injEq] at h
    rw [← h]
    exact hbase
  · simp only [bind_eq_ok_iff, Except.ok.injEq] at h
    obtain ⟨names, -, rfl⟩ := h
    intro s hs
    rcases List.mem_append.mp hs with hs | hs
    · exact hbase s hs
    · exact .inr (.inr ⟨_, List.mem_singleton.mp hs⟩)

/-- The statements of a type that say something about its roles or its parent. -/
private theorem mem_typeToCil (h : typeToCil p declStack key type scope numAttrs = .ok (statements, next)) :
    ∃ roles attrs, ancestorRoles p declStack p.roleList ⟨[], numAttrs⟩ = .ok (roles, attrs) ∧
      (∀ roleName name, .roletype roleName name ∈ statements ↔
        name = key ∧ ((∃ e ∈ roles, e.1 = roleName ∧ key ∈ e.2.2) ∨ ImplicitRole type scope roleName)) ∧
      ∀ first second, .typebounds first second ∈ statements ↔
        type.flavor = .type ∧ 0 < type.bounds ∧ p.typeValToName (type.bounds - 1) = some first ∧ second = key := by
  simp only [typeToCil, bind_eq_ok_iff] at h
  obtain ⟨⟨roletypes, next'⟩, hroletypes, own, hown, hstatements⟩ := h
  simp only [pure, Except.pure, Except.ok.injEq, Prod.mk.injEq] at hstatements
  obtain ⟨rfl, -⟩ := hstatements
  simp only [roletypeRoleInAncestorToCil, bind_eq_ok_iff] at hroletypes
  obtain ⟨⟨roles, attrs⟩, hroles, attributes, hprint, hpair⟩ := hroletypes
  simp only [pure, Except.pure, Except.ok.injEq, Prod.mk.injEq] at hpair
  obtain ⟨rfl, -⟩ := hpair
  have hrequire : ∀ s ∈ (if scope = .req then
        [ModuleStatement.typeattributeset genRequireAttr [.names [key]]] else []),
      s = .typeattributeset genRequireAttr [.names [key]] := by
    intro s hs
    split at hs
    · exact List.mem_singleton.mp hs
    · simp at hs
  have hrequireRole : ∀ roleName name, ModuleStatement.roletype roleName name ∉
      (if scope = .req then [ModuleStatement.typeattributeset genRequireAttr [.names [key]]] else []) :=
    fun roleName name hs => by cases hrequire _ hs
  have hrequireBounds : ∀ first second, ModuleStatement.typebounds first second ∉
      (if scope = .req then [ModuleStatement.typeattributeset genRequireAttr [.names [key]]] else []) :=
    fun first second hs => by cases hrequire _ hs
  -- the part for the flavor of the type
  have hownMem : (∀ roleName name, .roletype roleName name ∈ own ↔ name = key ∧ ImplicitRole type scope roleName) ∧
      ∀ first second, .typebounds first second ∈ own ↔
        type.flavor = .type ∧ 0 < type.bounds ∧ p.typeValToName (type.bounds - 1) = some first ∧ second = key := by
    cases hflavor : type.flavor with
    | type =>
      simp only [typeFlavorToCil, hflavor] at hown
      obtain ⟨hownRole, hownBounds⟩ := mem_typeTypeToCil hown
      refine ⟨fun roleName name => ?_, fun first second => ?_⟩
      · simp [hownRole, ImplicitRole, hflavor]
      · simp [hownBounds]
    | attrib =>
      simp only [typeFlavorToCil, hflavor] at hown
      have hsays := typeAttribToCil_says hown
      refine ⟨fun roleName name => ?_, fun first second => ?_⟩
      · have hnot : ModuleStatement.roletype roleName name ∉ own := fun hs => by simpa using hsays _ hs
        simp [hnot, ImplicitRole, hflavor]
      · have hnot : ModuleStatement.typebounds first second ∉ own := fun hs => by simpa using hsays _ hs
        simp [hnot]
    | _ =>
      simp only [typeFlavorToCil, hflavor, Except.ok.injEq] at hown
      simp [← hown, ImplicitRole, hflavor]
  refine ⟨roles, attrs, hroles, ?_, ?_⟩
  · intro roleName name
    simp only [List.mem_append, hrequireRole, hownMem.1, mem_printAttrList hprint, List.mem_flatMap, List.mem_map,
      List.mem_filter]
    simp
    constructor
    · rintro (⟨role, names, he, hkey, rfl⟩ | ⟨rfl, himplicit⟩)
      · exact ⟨rfl, .inl ⟨role, names, he, hkey⟩⟩
      · exact ⟨rfl, .inr himplicit⟩
    · rintro ⟨rfl, ⟨role, names, he, hkey⟩ | himplicit⟩
      · exact .inl ⟨role, names, he, hkey, rfl⟩
      · exact .inr ⟨rfl, himplicit⟩
  · intro first second
    simp only [List.mem_append, hrequireBounds, hownMem.2, mem_printAttrList hprint, List.mem_flatMap, List.mem_map,
      List.mem_filter]
    simp

private theorem ancestorRoles_mem_iff {attrs attrs' : AttrState} {roles : List (CString × KernelRole × List CString)}
    (h : ancestorRoles p declStack p.roleList attrs = .ok (roles, attrs')) (e : CString × KernelRole) :
    (∃ e' ∈ roles, (e'.1, e'.2.1) = e) ↔ e ∈ p.roles ∧ isIdInAncestorScope p.rolesScope declStack e.1 := by
  rw [← List.mem_map, (ancestorRoles_eq_ok h).1, List.mem_filter, ModulePolicydb.roleList, List.mem_reverse]

private theorem pairDue_iff {attrs attrs' : AttrState} {roles : List (CString × KernelRole × List CString)}
    (h : ancestorRoles p declStack p.roleList attrs = .ok (roles, attrs')) (roleName typeName : CString) :
    p.PairDue declStack roleName typeName ↔
      ∃ e ∈ roles, e.1 = roleName ∧ p.DueWithType declStack e.2.1.types typeName := by
  have hmem := ancestorRoles_mem_iff h
  constructor
  · rintro ⟨role, hrole, hscope, hdue⟩
    obtain ⟨e, he, heq⟩ := (hmem (roleName, role)).mpr ⟨hrole, hscope⟩
    simp only [Prod.mk.injEq] at heq
    exact ⟨e, he, heq.1, by rw [heq.2]; exact hdue⟩
  · rintro ⟨e, he, rfl, hdue⟩
    obtain ⟨hrole, hscope⟩ := (hmem (e.1, e.2.1)).mp ⟨e, he, rfl⟩
    exact ⟨e.2.1, hrole, hscope, hdue⟩

private theorem mem_names_iff_of_plain {attrs attrs' : AttrState} {roles : List (CString × KernelRole × List CString)}
    (h : ancestorRoles p declStack p.roleList attrs = .ok (roles, attrs')) {e : CString × KernelRole × List CString}
    (he : e ∈ roles) (hplain : e.2.1.types.isPlain = true) :
    key ∈ e.2.2 ↔ p.DueWithType declStack e.2.1.types key := by
  rw [(ancestorRoles_eq_ok h).2 e he hplain, mem_namesOf]
  simp [ModulePolicydb.DueWithType, hplain]

/-- A set that is more than a list names no type whose name is not that of an attribute made. -/
private theorem notMem_names_of_not_plain {attrs' : AttrState} {roles : List (CString × KernelRole × List CString)}
    (h : ancestorRoles p declStack p.roleList ⟨[], numAttrs⟩ = .ok (roles, attrs'))
    (hfresh : ∀ n, key ≠ newAttrName p n) {e : CString × KernelRole × List CString} (he : e ∈ roles)
    (hplain : e.2.1.types.isPlain = false) : key ∉ e.2.2 := by
  have hmade : AttrState.Made p ⟨[], numAttrs⟩ := by simp [AttrState.Made]
  obtain ⟨n, hnames⟩ := ancestorRoles_made hmade h e he hplain
  rw [hnames, List.mem_singleton]
  exact hfresh n

private theorem dueWithType_iff_of_not_plain {set : LinkTypeSet} (hplain : set.isPlain = false) :
    p.DueWithType declStack set key ↔ (∃ j ∈ set.denote p.typeTable true, p.typeValToName j = some key) ∧
      isIdInAncestorScope p.typesScope declStack key = false := by
  simp [ModulePolicydb.DueWithType, hplain]

/-- The statements of a type say what they are to say under the condition. -/
theorem keepsType_of_condition {g : SymbolGroup}
    (h : typeToCil p g.declStack key type g.scope g.numAttrs = .ok (g.statements, next))
    (hcondition : g.TypeCondition p key type) : g.KeepsType p key type := by
  obtain ⟨roles, attrs, hroles, hroletype, hbounds⟩ := mem_typeToCil h
  refine ⟨?_, hbounds⟩
  intro roleName name
  rw [hroletype roleName name, pairDue_iff hroles]
  by_cases himplicit : ImplicitRole type g.scope roleName
  · simp [himplicit]
  · simp only [himplicit, or_false]
    have hnames : ∀ e ∈ roles, e.1 = roleName → (key ∈ e.2.2 ↔ p.DueWithType g.declStack e.2.1.types key) := by
      rintro e he rfl
      cases hplain : e.2.1.types.isPlain with
      | true => exact mem_names_iff_of_plain hroles he hplain
      | false =>
        obtain ⟨hrole, hscope⟩ := (ancestorRoles_mem_iff hroles (e.1, e.2.1)).mp ⟨e, he, rfl⟩
        obtain ⟨hnone, hfresh⟩ := hcondition e.1 e.2.1 hrole hscope hplain himplicit
        refine iff_of_false (notMem_names_of_not_plain hroles hfresh he hplain) ?_
        rw [dueWithType_iff_of_not_plain hplain]
        rintro ⟨hdue, hdeeper⟩
        rw [hnone hdue] at hdeeper
        cases hdeeper
    constructor
    · rintro ⟨hname, e, he, hsame, hkey⟩
      exact ⟨hname, e, he, hsame, (hnames e he hsame).mp hkey⟩
    · rintro ⟨hname, e, he, hsame, hdue⟩
      exact ⟨hname, e, he, hsame, (hnames e he hsame).mpr hdue⟩

end Sepol
