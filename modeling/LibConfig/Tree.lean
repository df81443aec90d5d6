import LibConfig.Setting

/-!
Settings trees as values, and how the store holds one.

`Denotes st a t` says that the setting at address `a`, with everything below
it, is the tree `t`: same types, names, scalar values, integer formats and
children in the same order. `Reach st a q` says that `q` lies in the subtree
of `a`. A store is only ever read and written at addresses, so the frame
lemmas at the end are what every proof about the copy runs on: a subtree
whose settings a run does not write still denotes the same tree afterwards.
-/

namespace LibConfig

/-- The payload of a scalar setting that a copy has to carry over: its value,
and for the two integer types its format. -/
inductive ScalarValue
  | none
  | int (v : BitVec 32) (format : ConfigFormat)
  | int64 (v : BitVec 64) (format : ConfigFormat)
  | float (bits : BitVec 64)
  | string (s : String)
  | bool (b : Bool)
  deriving DecidableEq

namespace ScalarValue

/-- The value a setting holding this payload has. -/
def value : ScalarValue → ConfigValue
  | none => .none
  | int v _ => .int v
  | int64 v _ => .int64 v
  | float b => .float b
  | string s => .string s
  | bool b => .bool b

def format : ScalarValue → Option ConfigFormat
  | int _ f | int64 _ f => some f
  | _ => Option.none

def type (v : ScalarValue) : ConfigType := v.value.type

def HeldBy (v : ScalarValue) (s : Setting) : Prop :=
  s.value = v.value ∧ ∀ f ∈ v.format, s.format = f

@[simp] theorem isAggregate_type (v : ScalarValue) : v.type.isAggregate = false := by
  cases v <;> rfl

@[simp] theorem children_value (v : ScalarValue) : v.value.children = [] := by
  cases v <;> rfl

end ScalarValue

/-- `CONFIG_TYPE_GROUP`, `CONFIG_TYPE_ARRAY` and `CONFIG_TYPE_LIST`. -/
inductive AggKind
  | group | array | list
  deriving DecidableEq

namespace AggKind

def type : AggKind → ConfigType
  | group => .group
  | array => .array
  | list => .list

/-- The value of an aggregate of this kind with children `cs`. -/
def value : AggKind → List ℕ → ConfigValue
  | group, cs => .group cs
  | array, cs => .array cs
  | list, cs => .list cs

@[simp] theorem type_value (k : AggKind) (cs : List ℕ) : (k.value cs).type = k.type := by
  cases k <;> rfl

@[simp] theorem children_value (k : AggKind) (cs : List ℕ) : (k.value cs).children = cs := by
  cases k <;> rfl

@[simp] theorem isAggregate_type (k : AggKind) : k.type.isAggregate = true := by
  cases k <;> rfl

@[simp] theorem initial_type (k : AggKind) : ConfigValue.initial k.type = k.value [] := by
  cases k <;> rfl

end AggKind

/-- A settings tree. -/
inductive ConfigTree
  | scalar (name : Option SettingName) (v : ScalarValue)
  | aggregate (name : Option SettingName) (kind : AggKind) (children : List ConfigTree)

namespace ConfigTree

def name : ConfigTree → Option SettingName
  | scalar n _ | aggregate n _ _ => n

def type : ConfigTree → ConfigType
  | scalar _ v => v.type
  | aggregate _ k _ => k.type

/-- Induction over trees, with a hypothesis for every child of an aggregate. -/
theorem ind {P : ConfigTree → Prop} (scalar : ∀ n v, P (.scalar n v))
    (aggregate : ∀ n k ts, (∀ t ∈ ts, P t) → P (.aggregate n k ts)) : ∀ t, P t
  | .scalar n v => scalar n v
  | .aggregate n k ts => aggregate n k ts fun t _ => ind scalar aggregate t

mutual

/-- The number of nested aggregates, which bounds the depth of calls of a
copy. -/
def height : ConfigTree → ℕ
  | scalar _ _ => 0
  | aggregate _ _ ts => heightAll ts + 1

def heightAll : List ConfigTree → ℕ
  | [] => 0
  | t :: ts => max t.height (heightAll ts)

end

mutual

def size : ConfigTree → ℕ
  | scalar _ _ => 1
  | aggregate _ _ ts => sizeAll ts + 1

def sizeAll : List ConfigTree → ℕ
  | [] => 0
  | t :: ts => t.size + sizeAll ts

end

@[simp] theorem sizeAll_nil : sizeAll [] = 0 := rfl

@[simp] theorem sizeAll_cons (t : ConfigTree) (ts : List ConfigTree) :
    sizeAll (t :: ts) = t.size + sizeAll ts := rfl

@[simp] theorem sizeAll_append (ts us : List ConfigTree) :
    sizeAll (ts ++ us) = sizeAll ts + sizeAll us := by
  induction ts with
  | nil => simp
  | cons t ts ih => simp [ih, Nat.add_assoc]

theorem height_le_heightAll {t : ConfigTree} {ts : List ConfigTree} (h : t ∈ ts) :
    t.height ≤ heightAll ts := by
  induction ts with
  | nil => cases h
  | cons u us ih =>
    rcases List.mem_cons.mp h with rfl | h
    · exact le_max_left _ _
    · exact (ih h).trans (le_max_right _ _)

mutual

/-- Whether the tree has a scalar of a type other than `CONFIG_TYPE_NONE`, a
value a copy has to set. -/
def holdsValue : ConfigTree → Bool
  | scalar _ v => v != .none
  | aggregate _ _ ts => holdsValueAll ts

def holdsValueAll : List ConfigTree → Bool
  | [] => false
  | t :: ts => t.holdsValue || holdsValueAll ts

end

theorem holdsValueAll_eq_false_iff {ts : List ConfigTree} :
    holdsValueAll ts = false ↔ ∀ t ∈ ts, t.holdsValue = false := by
  induction ts with
  | nil => simp [holdsValueAll]
  | cons t ts ih => simp [holdsValueAll, ih]

end ConfigTree

def ConfigValue.append (v : ConfigValue) (cs : List ℕ) : ConfigValue :=
  cs.foldl (fun v c => v.push c) v

@[simp] theorem ConfigValue.append_nil (v : ConfigValue) : v.append [] = v := rfl

@[simp] theorem ConfigValue.append_append (v : ConfigValue) (cs ds : List ℕ) :
    (v.append cs).append ds = v.append (cs ++ ds) := by
  simp [ConfigValue.append, List.foldl_append]

@[simp] theorem ConfigValue.type_append (v : ConfigValue) (cs : List ℕ) :
    (v.append cs).type = v.type := by
  induction cs generalizing v with
  | nil => rfl
  | cons c cs ih => exact (ih (v.push c)).trans (type_push c v)

theorem AggKind.value_append (k : AggKind) (cs ds : List ℕ) :
    (k.value cs).append ds = k.value (cs ++ ds) := by
  induction ds generalizing cs with
  | nil => simp
  | cons d ds ih =>
    rw [show (k.value cs).append (d :: ds) = (k.value (cs ++ [d])).append ds by cases k <;> rfl, ih]
    simp

/-! ### A tree in the store -/

mutual

/-- The setting at `a` and everything below it is the tree `t`. -/
def Denotes (st : Store) : ℕ → ConfigTree → Prop
  | a, .scalar n v => ∃ s, st[a]? = some s ∧ s.name = n ∧ v.HeldBy s
  | a, .aggregate n k ts =>
    ∃ s cs, st[a]? = some s ∧ s.name = n ∧ s.value = k.value cs ∧ DenotesAll st cs ts

/-- The settings at `cs` are the trees `ts`, one to one. -/
def DenotesAll (st : Store) : List ℕ → List ConfigTree → Prop
  | [], [] => True
  | c :: cs, t :: ts => Denotes st c t ∧ DenotesAll st cs ts
  | _, _ => False

end

@[simp] theorem denotesAll_nil (st : Store) : DenotesAll st [] [] := trivial

@[simp] theorem denotesAll_cons {st : Store} {c : ℕ} {cs : List ℕ} {t : ConfigTree}
    {ts : List ConfigTree} :
    DenotesAll st (c :: cs) (t :: ts) ↔ Denotes st c t ∧ DenotesAll st cs ts := Iff.rfl

theorem DenotesAll.append {st : Store} {cs ds : List ℕ} {ts us : List ConfigTree}
    (h₁ : DenotesAll st cs ts) (h₂ : DenotesAll st ds us) : DenotesAll st (cs ++ ds) (ts ++ us) := by
  induction cs generalizing ts with
  | nil => cases ts <;> simp_all [DenotesAll]
  | cons c cs ih =>
    cases ts with
    | nil => simp [DenotesAll] at h₁
    | cons t ts => exact ⟨h₁.1, ih h₁.2⟩

theorem DenotesAll.mem {st : Store} {cs : List ℕ} {ts : List ConfigTree} {c : ℕ}
    (h : DenotesAll st cs ts) (hc : c ∈ cs) : ∃ t ∈ ts, Denotes st c t := by
  induction cs generalizing ts with
  | nil => cases hc
  | cons d cs ih =>
    cases ts with
    | nil => simp [DenotesAll] at h
    | cons t ts =>
      rcases List.mem_cons.mp hc with rfl | hc
      · exact ⟨t, List.mem_cons_self _ _, h.1⟩
      · obtain ⟨u, hu, hd⟩ := ih h.2 hc
        exact ⟨u, List.mem_cons_of_mem _ hu, hd⟩

theorem Denotes.exists_setting {st : Store} {a : ℕ} {t : ConfigTree} (h : Denotes st a t) :
    ∃ s, st[a]? = some s ∧ s.name = t.name ∧ s.value.type = t.type := by
  cases t with
  | scalar n v =>
    obtain ⟨s, hs, hn, hv, -⟩ := h
    exact ⟨s, hs, hn, by simp [hv, ScalarValue.type, ConfigTree.type]⟩
  | aggregate n k ts =>
    obtain ⟨s, cs, hs, hn, hv, -⟩ := h
    exact ⟨s, hs, hn, by simp [hv, ConfigTree.type]⟩

theorem Denotes.lt_length {st : Store} {a : ℕ} {t : ConfigTree} (h : Denotes st a t) :
    a < st.length := by
  obtain ⟨s, hs, -⟩ := h.exists_setting
  exact (List.getElem?_eq_some_iff.mp hs).1

/-- `q` is `a` or a descendant of `a`. -/
inductive Reach (st : Store) (a : ℕ) : ℕ → Prop
  | refl : Reach st a a
  | child {q c : ℕ} {s : Setting} :
      Reach st a q → st[q]? = some s → c ∈ s.value.children → Reach st a c

theorem Reach.trans {st : Store} {a b q : ℕ} (h₁ : Reach st a b) (h₂ : Reach st b q) :
    Reach st a q := by
  induction h₂ with
  | refl => exact h₁
  | child _ hs hc ih => exact .child ih hs hc

theorem Reach.of_child {st : Store} {a c q : ℕ} {s : Setting} (hs : st[a]? = some s)
    (hc : c ∈ s.value.children) (h : Reach st c q) : Reach st a q :=
  (Reach.child .refl hs hc).trans h

/-- Every setting in the subtree of a tree is a tree. -/
theorem Denotes.reach {st : Store} {a q : ℕ} {t : ConfigTree} (h : Denotes st a t)
    (hq : Reach st a q) : ∃ u, Denotes st q u := by
  induction hq with
  | refl => exact ⟨t, h⟩
  | child _ hs hc ih =>
    obtain ⟨u, hu⟩ := ih
    cases u with
    | scalar n v =>
      obtain ⟨s', hs', -, hv, -⟩ := hu
      simp [Option.some.inj (hs.symm.trans hs'), hv] at hc
    | aggregate n k us =>
      obtain ⟨s', cs, hs', -, hv, hcs⟩ := hu
      rw [Option.some.inj (hs.symm.trans hs'), hv, AggKind.children_value] at hc
      obtain ⟨v, -, hv⟩ := hcs.mem hc
      exact ⟨v, hv⟩

theorem Denotes.reach_lt {st : Store} {a q : ℕ} {t : ConfigTree} (h : Denotes st a t)
    (hq : Reach st a q) : q < st.length := by
  obtain ⟨u, hu⟩ := h.reach hq
  exact hu.lt_length

theorem Reach.head {st : Store} {a q : ℕ} (h : Reach st a q) :
    q = a ∨ ∃ s c, st[a]? = some s ∧ c ∈ s.value.children ∧ Reach st c q := by
  induction h with
  | refl => exact .inl rfl
  | @child q c s _ hs hc ih =>
    rcases ih with rfl | ⟨s', c', hs', hc', hr⟩
    · exact .inr ⟨s, c, hs, hc, .refl⟩
    · exact .inr ⟨s', c', hs', hc', .child hr hs hc⟩

theorem Reach.eq_of_children_nil {st : Store} {a q : ℕ} {s : Setting} (hs : st[a]? = some s)
    (hnil : s.value.children = []) (h : Reach st a q) : q = a := by
  rcases h.head with rfl | ⟨s', c, hs', hc, -⟩
  · rfl
  · rw [Option.some.inj (hs'.symm.trans hs), hnil] at hc
    cases hc

/-! ### Frames -/

theorem Reach.frame {st st' : Store} {a q : ℕ}
    (hsame : ∀ q, Reach st a q → st'[q]? = st[q]?) (h : Reach st' a q) : Reach st a q := by
  induction h with
  | refl => exact .refl
  | child _ hs hc ih => exact .child ih ((hsame _ ih).symm.trans hs) hc

/-- A subtree is the same tree in `st'` when `st'` agrees with `st` on it. -/
theorem Denotes.frame {st st' : Store} :
    ∀ {t : ConfigTree} {a : ℕ}, Denotes st a t →
      (∀ q, Reach st a q → st'[q]? = st[q]?) → Denotes st' a t := by
  intro t
  induction t using ConfigTree.ind with
  | scalar n v =>
    rintro a ⟨s, hs, hn, hv⟩ hsame
    exact ⟨s, (hsame a .refl).trans hs, hn, hv⟩
  | aggregate n k ts ih =>
    rintro a ⟨s, cs, hs, hn, hv, hcs⟩ hsame
    refine ⟨s, cs, (hsame a .refl).trans hs, hn, hv, ?_⟩
    have hchild : ∀ c ∈ cs, ∀ q, Reach st c q → st'[q]? = st[q]? := fun c hc q hq =>
      hsame q (Reach.of_child hs (by simp [hv, hc]) hq)
    clear hs hv hsame
    induction cs generalizing ts with
    | nil =>
      cases ts with
      | nil => trivial
      | cons => exact hcs.elim
    | cons c cs ihc =>
      cases ts with
      | nil => exact hcs.elim
      | cons t ts =>
        exact ⟨ih t (List.mem_cons_self _ _) hcs.1 (hchild c (List.mem_cons_self _ _)),
          ihc ts (fun u hu => ih u (List.mem_cons_of_mem _ hu)) hcs.2
            (fun d hd => hchild d (List.mem_cons_of_mem _ hd))⟩

theorem DenotesAll.frame {st st' : Store} {cs : List ℕ} {ts : List ConfigTree}
    (h : DenotesAll st cs ts) (hsame : ∀ c ∈ cs, ∀ q, Reach st c q → st'[q]? = st[q]?) :
    DenotesAll st' cs ts := by
  induction cs generalizing ts with
  | nil => cases ts <;> simp_all [DenotesAll]
  | cons c cs ih =>
    cases ts with
    | nil => simp [DenotesAll] at h
    | cons t ts =>
      exact ⟨h.1.frame (hsame c (List.mem_cons_self _ _)),
        ih h.2 fun d hd => hsame d (List.mem_cons_of_mem _ hd)⟩

end LibConfig
