import Mathlib.Data.List.Basic

/-!
Settings as libconfig stores them, and the operations of the tree container
that the routines of `contrib/copy_setting.c` call.

A setting lives at an address of the store, which allocates addresses in
order; an `Option ℕ` stands for a `config_setting_t *`, with `none` the
`NULL` pointer. Reading through `NULL` (or through an address the store never
handed out) is a fault.

The container itself (`libconfig.c`) is not among the sources. Its operations
are modelled from the specification of the tree container: a group member
carries a name no sibling has, an array holds scalars of one type, and
insertion that would break either returns `NULL`.
-/

namespace LibConfig

/-- `CONFIG_TYPE_NONE` to `CONFIG_TYPE_LIST`, in the order of `libconfig.h`. -/
inductive ConfigType
  | none | group | int | int64 | float | string | bool | array | list
  deriving DecidableEq, Repr

namespace ConfigType

/-- `config_setting_is_aggregate`. -/
def isAggregate : ConfigType → Bool
  | group | array | list => true
  | _ => false

/-- The types an array may hold. -/
def isScalar : ConfigType → Bool
  | int | int64 | float | string | bool => true
  | _ => false

end ConfigType

/-- `CONFIG_FORMAT_DEFAULT` and `CONFIG_FORMAT_HEX`. -/
inductive ConfigFormat
  | default | hex
  deriving DecidableEq, Repr

/-- A setting name. The container never stores an empty one. -/
structure SettingName where
  val : String
  ne_empty : val ≠ ""
  deriving DecidableEq

/-- The `type` tag of a setting together with the member of its `value` union
that the tag selects. An aggregate holds the addresses of its children in
order. A double is kept as its IEEE-754 bit pattern: the copy only moves it. -/
inductive ConfigValue
  | none
  | group (members : List ℕ)
  | int (v : BitVec 32)
  | int64 (v : BitVec 64)
  | float (bits : BitVec 64)
  | string (s : String)
  | bool (b : Bool)
  | array (elems : List ℕ)
  | list (elems : List ℕ)
  deriving DecidableEq, Repr

namespace ConfigValue

/-- `config_setting_type`. -/
def type : ConfigValue → ConfigType
  | none => .none
  | group _ => .group
  | int _ => .int
  | int64 _ => .int64
  | float _ => .float
  | string _ => .string
  | bool _ => .bool
  | array _ => .array
  | list _ => .list

/-- The children of an aggregate; a scalar has none. -/
def children : ConfigValue → List ℕ
  | group cs | array cs | list cs => cs
  | _ => []

/-- The value of a setting just created with type `t`: the container zeroes
it. -/
def initial : ConfigType → ConfigValue
  | .none => none
  | .group => group []
  | .int => int 0
  | .int64 => int64 0
  | .float => float 0
  | .string => string ""
  | .bool => bool false
  | .array => array []
  | .list => list []

/-- Appends one child to an aggregate. -/
def push (c : ℕ) : ConfigValue → ConfigValue
  | group cs => group (cs ++ [c])
  | array cs => array (cs ++ [c])
  | list cs => list (cs ++ [c])
  | v => v

@[simp] theorem type_initial (t : ConfigType) : (initial t).type = t := by
  cases t <;> rfl

@[simp] theorem children_initial (t : ConfigType) : (initial t).children = [] := by
  cases t <;> rfl

@[simp] theorem type_push (c : ℕ) (v : ConfigValue) : (v.push c).type = v.type := by
  cases v <;> rfl

theorem children_push {c : ℕ} {v : ConfigValue} (h : v.type.isAggregate) :
    (v.push c).children = v.children ++ [c] := by
  cases v <;> simp_all [push, children, type, ConfigType.isAggregate]

theorem children_eq_nil {v : ConfigValue} (h : v.type.isAggregate = false) :
    v.children = [] := by
  cases v <;> simp_all [children, type, ConfigType.isAggregate]

end ConfigValue

/-- A `config_setting_t`: its name, its typed value, its display format and
the address of its parent. -/
structure Setting where
  name : Option SettingName
  value : ConfigValue
  format : ConfigFormat
  parent : Option ℕ
  deriving DecidableEq

/-- The settings of every tree, by address. -/
abbrev Store := List Setting

/-- Every child of every setting is a setting of the store: what a pointer in
a child list of the C code always is. -/
def Store.WellLinked (st : Store) : Prop :=
  ∀ s ∈ st, ∀ c ∈ s.value.children, c < st.length

instance (st : Store) : Decidable st.WellLinked :=
  inferInstanceAs (Decidable (∀ s ∈ st, ∀ c ∈ s.value.children, c < st.length))

theorem Store.WellLinked.children_lt {st : Store} {a : ℕ} {s : Setting} (h : st.WellLinked)
    (hs : st[a]? = some s) : ∀ c ∈ s.value.children, c < st.length :=
  h s (List.getElem?_mem hs)

/-- How a run stops early: the C code dereferences `NULL`, or the model's
bound on the depth of nested calls is used up. -/
inductive Fault
  | nullDeref
  | outOfFuel
  deriving DecidableEq, Repr

/-- A computation of the C code over the store. -/
abbrev Exec := StateT Store (Except Fault)

section Except

variable {ε α β : Type}

@[simp] theorem except_ok_bind (a : α) (f : α → Except ε β) : (Except.ok a >>= f) = f a := rfl

@[simp] theorem except_error_bind (e : ε) (f : α → Except ε β) :
    (Except.error e >>= f) = Except.error e := rfl

@[simp] theorem except_map_ok (f : α → β) (a : α) : (f <$> Except.ok a : Except ε β) = .ok (f a) :=
  rfl

@[simp] theorem except_map_error (f : α → β) (e : ε) :
    (f <$> Except.error e : Except ε β) = .error e := rfl

@[simp] theorem except_pure (a : α) : (pure a : Except ε α) = .ok a := rfl

@[simp] theorem except_map_ok' (f : α → β) (a : α) : (Except.ok a : Except ε α).map f = .ok (f a) :=
  rfl

@[simp] theorem except_map_error' (f : α → β) (e : ε) :
    (Except.error e : Except ε α).map f = .error e := rfl

end Except

/-- Reads the setting a pointer points to. -/
def deref (p : Option ℕ) : Exec Setting := fun st =>
  match p.bind (st[·]?) with
  | some s => .ok (s, st)
  | none => .error .nullDeref

/-! ### The container -/

/-- The name and type of each child: all that an insertion checks. -/
def Store.kids (st : Store) (cs : List ℕ) : List (Option SettingName × ConfigType) :=
  cs.filterMap fun c => st[c]?.map fun s => (s.name, s.value.type)

/-- Whether an aggregate of type `pt` whose children are `kids` takes a new
child named `name` of type `t`: a group member needs a name that no member has,
an array element needs the scalar type of the elements already there, and a
scalar takes no children. -/
def admits (pt : ConfigType) (kids : List (Option SettingName × ConfigType))
    (name : Option SettingName) (t : ConfigType) : Bool :=
  match pt with
  | .group => name.isSome && kids.all fun k => k.1 != name
  | .array => t.isScalar && kids.head?.all fun k => k.2 == t
  | .list => true
  | _ => false

/-- Allocates `s` at the next free address and appends that address to the
children of `p`, the setting at `a`. -/
def Store.insert (st : Store) (a : ℕ) (p : Setting) (s : Setting) : Store :=
  st.set a { p with value := p.value.push st.length } ++ [s]

@[simp] theorem length_insert (st : Store) (a : ℕ) (p s : Setting) :
    (st.insert a p s).length = st.length + 1 := by
  simp [Store.insert]

theorem getElem?_insert_of_lt {st : Store} {a q : ℕ} (p s : Setting) (hq : q < st.length)
    (hne : q ≠ a) : (st.insert a p s)[q]? = st[q]? := by
  simp [Store.insert, List.getElem?_append_left, hq, List.getElem?_set, Ne.symm hne]

theorem getElem?_insert_self {st : Store} {a : ℕ} (p s : Setting) (ha : a < st.length) :
    (st.insert a p s)[a]? = some { p with value := p.value.push st.length } := by
  simp [Store.insert, List.getElem?_append_left, ha]

@[simp] theorem getElem?_insert_length (st : Store) (a : ℕ) (p s : Setting) :
    (st.insert a p s)[st.length]? = some s := by
  simp [Store.insert]

@[simp] theorem insert_set_length (st : Store) (a : ℕ) (p s s' : Setting) :
    (st.insert a p s).set st.length s' = st.insert a p s' := by
  simp [Store.insert, List.set_append]

/-- `config_setting_add`: a new setting of type `t`, named `name` when the
parent is a group and unnamed otherwise; `NULL` when the parent is `NULL` or
does not admit it. Modelled from the spec: the tree container's "add"
operation (`createNode`). -/
def configSettingAdd (parent : Option ℕ) (name : Option SettingName) (t : ConfigType) :
    Exec (Option ℕ) := fun st =>
  match parent with
  | none => .ok (none, st)
  | some a =>
    match st[a]? with
    | none => .error .nullDeref
    | some p =>
      if admits p.value.type (st.kids p.value.children) name t then
        .ok (some st.length, st.insert a p
          ⟨if p.value.type = .group then name else none, .initial t, .default, some a⟩)
      else .ok (none, st)

/-- `config_setting_set_<type>_elem(parent, -1, v)`: appends an unnamed element
holding `v` to a list or array, or gives `NULL` when the parent does not admit
it. Modelled from the spec: the tree container's `appendElement`. The copy
only ever passes the index `-1`. -/
def setElem (parent : Option ℕ) (v : ConfigValue) : Exec (Option ℕ) := fun st =>
  match parent.bind (st[·]?), parent with
  | some p, some a =>
    if admits p.value.type (st.kids p.value.children) none v.type then
      .ok (some st.length, st.insert a p ⟨none, v, .default, some a⟩)
    else .ok (none, st)
  | _, _ => .error .nullDeref

def configSettingSetIntElem (parent : Option ℕ) (v : BitVec 32) : Exec (Option ℕ) :=
  setElem parent (.int v)

def configSettingSetInt64Elem (parent : Option ℕ) (v : BitVec 64) : Exec (Option ℕ) :=
  setElem parent (.int64 v)

def configSettingSetFloatElem (parent : Option ℕ) (v : BitVec 64) : Exec (Option ℕ) :=
  setElem parent (.float v)

def configSettingSetStringElem (parent : Option ℕ) (v : String) : Exec (Option ℕ) :=
  setElem parent (.string v)

def configSettingSetBoolElem (parent : Option ℕ) (v : Bool) : Exec (Option ℕ) :=
  setElem parent (.bool v)

/-- Writes back `f` of the setting at `set` when `f` accepts it, and reports
whether it did; `CONFIG_TRUE` and `CONFIG_FALSE` of the setters. -/
def modifySetting (set : Option ℕ) (f : Setting → Option Setting) : Exec Bool := fun st =>
  match set.bind (st[·]?), set with
  | some s, some a =>
    match f s with
    | some s' => .ok (true, st.set a s')
    | none => .ok (false, st)
  | _, _ => .error .nullDeref

/-- The typed setters `config_setting_set_<type>`: the type of a setting never
changes, so `v` is stored only into a setting of its own type. Modelled from
the spec: the tree container's typed setters. -/
def setValue (set : Option ℕ) (v : ConfigValue) : Exec Bool :=
  modifySetting set fun s => if s.value.type = v.type then some { s with value := v } else none

def configSettingSetInt (set : Option ℕ) (v : BitVec 32) : Exec Bool := setValue set (.int v)

def configSettingSetInt64 (set : Option ℕ) (v : BitVec 64) : Exec Bool := setValue set (.int64 v)

def configSettingSetFloat (set : Option ℕ) (v : BitVec 64) : Exec Bool := setValue set (.float v)

def configSettingSetString (set : Option ℕ) (v : String) : Exec Bool := setValue set (.string v)

def configSettingSetBool (set : Option ℕ) (v : Bool) : Exec Bool := setValue set (.bool v)

/-- `config_setting_set_format`: only an integer setting carries a format.
Modelled from the spec. -/
def configSettingSetFormat (set : Option ℕ) (f : ConfigFormat) : Exec Bool :=
  modifySetting set fun s =>
    if s.value.type = .int ∨ s.value.type = .int64 then some { s with format := f } else none

/-- `config_setting_length`. -/
def configSettingLength (src : Option ℕ) : Exec ℕ := do
  return (← deref src).value.children.length

/-- `config_setting_get_elem`: `NULL` past the last child. -/
def configSettingGetElem (src : Option ℕ) (i : ℕ) : Exec (Option ℕ) := do
  return (← deref src).value.children[i]?

/-! ### One lemma per operation -/

section Run

variable {st : Store} {a : ℕ}

theorem deref_run {s : Setting} (h : st[a]? = some s) : (deref (some a)).run st = .ok (s, st) := by
  simp [deref, StateT.run, h]

@[simp] theorem deref_run_none : (deref none).run st = .error .nullDeref := rfl

@[simp] theorem configSettingAdd_run_none (n : Option SettingName) (t : ConfigType) :
    (configSettingAdd none n t).run st = .ok (none, st) := rfl

theorem configSettingAdd_run {p : Setting} (h : st[a]? = some p) (n : Option SettingName)
    (t : ConfigType) :
    (configSettingAdd (some a) n t).run st =
      if admits p.value.type (st.kids p.value.children) n t then
        .ok (some st.length, st.insert a p
          ⟨if p.value.type = .group then n else none, .initial t, .default, some a⟩)
      else .ok (none, st) := by
  simp only [configSettingAdd, StateT.run, h]

@[simp] theorem setElem_run_none (v : ConfigValue) : (setElem none v).run st = .error .nullDeref := rfl

theorem setElem_run {p : Setting} (h : st[a]? = some p) (v : ConfigValue) :
    (setElem (some a) v).run st =
      if admits p.value.type (st.kids p.value.children) none v.type then
        .ok (some st.length, st.insert a p ⟨none, v, .default, some a⟩)
      else .ok (none, st) := by
  simp only [setElem, StateT.run, Option.some_bind, h]

@[simp] theorem modifySetting_run_none (f : Setting → Option Setting) :
    (modifySetting none f).run st = .error .nullDeref := rfl

theorem modifySetting_run {s : Setting} (h : st[a]? = some s) (f : Setting → Option Setting) :
    (modifySetting (some a) f).run st =
      match f s with
      | some s' => .ok (true, st.set a s')
      | none => .ok (false, st) := by
  simp only [modifySetting, StateT.run, Option.some_bind, h]

@[simp] theorem modifySetting_run_insert (p s : Setting) (f : Setting → Option Setting) :
    (modifySetting (some st.length) f).run (st.insert a p s) =
      match f s with
      | some s' => .ok (true, st.insert a p s')
      | none => .ok (false, st.insert a p s) := by
  rw [modifySetting_run (getElem?_insert_length st a p s)]
  cases f s <;> simp

@[simp] theorem discard_run {α : Type} (x : Exec α) :
    (discard x).run st = x.run st >>= fun p => .ok ((), p.2) := rfl

theorem configSettingLength_run {s : Setting} (h : st[a]? = some s) :
    (configSettingLength (some a)).run st = .ok (s.value.children.length, st) := by
  simp [configSettingLength, StateT.run_bind, deref_run h]

theorem configSettingGetElem_run {s : Setting} (h : st[a]? = some s) (i : ℕ) :
    (configSettingGetElem (some a) i).run st = .ok (s.value.children[i]?, st) := by
  simp [configSettingGetElem, StateT.run_bind, deref_run h]

end Run

end LibConfig
