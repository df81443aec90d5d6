import LibConfig.CopyCorrect
import LibConfig.CopyRuns

/-!
Invariants of the store that every run of `config_setting_copy` keeps.

A run writes to the store only through the container: it inserts a child with
no children under a setting that admits it, and it rewrites a scalar setting
keeping its name, type, children and parent. An invariant that these two writes
keep (`KeptByInsert`, `KeptBySet`) is a `CopyRel`, and so is kept by every run
of the copy that returns, whatever the destination, the source and the bound
(`CopyRel.runsWithin_configSettingCopy`).

Three are kept so: the links of the store (`Store.Linked`: each child points
back to its parent); on a linked store, the data model (`Store.ChildrenFit`:
the children of every setting fit its type); and growth from the store a run
starts from (`Store.Extends`). The copy never leaves a dangling child, never
gives a group two children of one name, never puts an aggregate or a second
type into an array, and never removes, renames, retypes or moves a setting,
whatever it is asked to copy.
-/

namespace LibConfig

/-! ### Invariants of the container -/

/-- Adding, under a setting `p` at `a` that admits it, a child with no children
named as `config_setting_add` names it. -/
def KeptByInsert (I : Store → Prop) : Prop :=
  ∀ st a p n (v : ConfigValue) f, I st → st[a]? = some p →
    admits p.value.type (st.kids p.value.children) n v.type → v.children = [] →
    I (st.insert a p ⟨if p.value.type = .group then n else none, v, f, some a⟩)

/-- Rewriting a setting keeping its name, its type, its children and its
parent pointer. -/
def KeptBySet (I : Store → Prop) : Prop :=
  ∀ st a s (s' : Setting), I st → st[a]? = some s → s'.name = s.name →
    s'.value.type = s.value.type → s'.value.children = s.value.children →
    s'.parent = s.parent → I (st.set a s')

/-- An invariant the two writes keep is kept by every write of the copy,
whatever its destination. -/
theorem copyRel_of_kept {I : Store → Prop} (hins : KeptByInsert I) (hset : KeptBySet I) :
    CopyRel fun _ st st' => I st → I st' where
  refl _ _ := id
  trans h₁ h₂ hI := h₂ (h₁ hI)
  inserted := by
    rintro p st r st₁ st₂ (⟨-, rfl⟩ | ⟨a, pp, n, v, f, -, hp, hadm, hv, -, rfl⟩) h₂ hI
    · exact h₂ hI
    · exact h₂ (hins st a pp n v f hI hp hadm hv)
  set hs hn hty hkids hpar hI := hset _ _ _ _ hI hs hn hty hkids hpar

/-! ### The links -/

/-- Every child of every setting is a setting of the store whose parent pointer
leads back. -/
def Store.Linked (st : Store) : Prop :=
  ∀ q < st.length, ∀ s ∈ st[q]?, ∀ c ∈ s.value.children, st[c]?.bind Setting.parent = some q

instance (st : Store) : Decidable st.Linked :=
  inferInstanceAs (Decidable (∀ q < st.length, ∀ s ∈ st[q]?, ∀ c ∈ s.value.children,
    st[c]?.bind Setting.parent = some q))

theorem Store.Linked.wellLinked {st : Store} (h : st.Linked) : st.WellLinked := by
  intro s hs c hc
  obtain ⟨q, hq, hsq⟩ := List.getElem_of_mem hs
  have hlink := h q hq s (by simp [← hsq]) c hc
  by_contra hlt
  rw [List.getElem?_eq_none (by omega)] at hlink
  cases hlink

/-- A store changed so that the old settings keep their parent pointers, and
every child is an old child of the same setting or points back to it, stays
linked. -/
theorem Store.Linked.of_update {st st' : Store} (h : st.Linked)
    (hpar : ∀ c < st.length, st'[c]?.bind Setting.parent = st[c]?.bind Setting.parent)
    (hkids : ∀ q < st'.length, ∀ s' ∈ st'[q]?, ∀ c ∈ s'.value.children,
      (∃ s ∈ st[q]?, c ∈ s.value.children) ∨ st'[c]?.bind Setting.parent = some q) :
    st'.Linked := by
  intro q hq s' hs' c hc
  rcases hkids q hq s' hs' c hc with ⟨s, hs, hcs⟩ | hback
  · have hq' : q < st.length := (List.getElem?_eq_some_iff.mp hs).1
    have hold := h q hq' s hs c hcs
    have hc' : c < st.length := by
      by_contra hlt
      rw [List.getElem?_eq_none (by omega)] at hold
      cases hold
    rw [hpar c hc', hold]
  · exact hback

theorem ConfigValue.mem_children_push {n c : ℕ} {v : ConfigValue}
    (h : c ∈ (v.push n).children) : c ∈ v.children ∨ c = n := by
  cases v <;> simp_all [ConfigValue.push, ConfigValue.children]

/-- Adding a setting with no children whose parent pointer leads to `a`. -/
theorem Store.Linked.insert {st : Store} {a : ℕ} {p s : Setting} (h : st.Linked)
    (hp : st[a]? = some p) (hs : s.value.children = []) (hpar : s.parent = some a) :
    (st.insert a p s).Linked := by
  have ha : a < st.length := (List.getElem?_eq_some_iff.mp hp).1
  have hold : ∀ c < st.length, (st.insert a p s)[c]?.bind Setting.parent =
      st[c]?.bind Setting.parent := fun c hc => by
    by_cases hca : c = a
    · subst hca
      rw [getElem?_insert_self _ _ ha, hp]
      rfl
    · rw [getElem?_insert_of_lt _ _ hc hca]
  refine h.of_update hold fun q hq s' hs' c hc => ?_
  rw [length_insert] at hq
  by_cases hql : q = st.length
  · subst hql
    rw [getElem?_insert_length, Option.mem_def, Option.some.injEq] at hs'
    subst hs'
    simp [hs] at hc
  by_cases hqa : q = a
  · subst hqa
    rw [getElem?_insert_self _ _ ha, Option.mem_def, Option.some.injEq] at hs'
    subst hs'
    rcases ConfigValue.mem_children_push hc with hc | rfl
    · exact .inl ⟨p, hp, hc⟩
    · right
      rw [getElem?_insert_length, Option.some_bind, hpar]
  · rw [getElem?_insert_of_lt _ _ (by omega) hqa] at hs'
    exact .inl ⟨s', hs', hc⟩

/-- Writing over a setting without touching its children or its parent
pointer. -/
theorem Store.Linked.set {st : Store} {a : ℕ} {s s' : Setting} (h : st.Linked)
    (hs : st[a]? = some s) (hkids : s'.value.children = s.value.children)
    (hpar : s'.parent = s.parent) : Store.Linked (st.set a s') := by
  have ha : a < st.length := (List.getElem?_eq_some_iff.mp hs).1
  have hget : ∀ q, (st.set a s')[q]? = if q = a then some s' else st[q]? := fun q => by
    by_cases hqa : q = a
    · subst hqa; simp [ha]
    · simp [List.getElem?_set, Ne.symm hqa, hqa]
  refine h.of_update (fun c _ => ?_) fun q _ s'' hs'' c hc => ?_
  · rw [hget]
    split_ifs with hca
    · subst hca; simp [hs, hpar]
    · rfl
  · rw [hget] at hs''
    split_ifs at hs'' with hqa
    · subst hqa
      rw [Option.mem_def, Option.some.injEq] at hs''
      subst hs''
      exact .inl ⟨s, hs, hkids ▸ hc⟩
    · exact .inl ⟨s'', hs'', hc⟩

theorem copyRel_linked : CopyRel fun _ (st st' : Store) => st.Linked → st'.Linked :=
  copyRel_of_kept (fun _ _ _ _ _ _ hI hp _ hv => hI.insert hp hv rfl)
    (fun _ _ _ _ hI hs _ _ hkids hpar => hI.set hs hkids hpar)

/-- Every run of `config_setting_copy` that returns leaves a linked store linked. -/
theorem configSettingCopy_keeps_linked (fuel P src : ℕ) {st st' : Store} {b : Bool}
    (h : st.Linked) (hrun : (configSettingCopy fuel P src).run st = .ok (b, st')) :
    st'.Linked :=
  copyRel_linked.runsWithin_configSettingCopy fuel P src st b st' hrun h

theorem configSettingCopy_keeps_linked_demo :
    ∃ st', (configSettingCopy 4 1 2).run copyDemo = .ok (true, st') ∧ st'.Linked :=
  have h : copyDemo.Linked := by decide
  ⟨_, rfl, configSettingCopy_keeps_linked 4 1 2 h rfl⟩

/-! ### The data model -/

/-- The children of every setting fit its type: a group's are named, each name
once; an array's are unnamed scalars of one type; a list's are unnamed. -/
def Store.ChildrenFit (st : Store) : Prop :=
  ∀ q < st.length, ∀ s ∈ st[q]?, childrenFit s.value.type (st.kids s.value.children)

instance (st : Store) : Decidable st.ChildrenFit :=
  inferInstanceAs (Decidable (∀ q < st.length, ∀ s ∈ st[q]?,
    childrenFit s.value.type (st.kids s.value.children)))

theorem Store.kids_congr {st st' : Store} {cs : List ℕ}
    (h : ∀ c ∈ cs, st'[c]?.map (fun s => (s.name, s.value.type)) =
      st[c]?.map fun s => (s.name, s.value.type)) :
    st'.kids cs = st.kids cs :=
  List.filterMap_congr h

theorem Store.kids_append (st : Store) (cs ds : List ℕ) :
    st.kids (cs ++ ds) = st.kids cs ++ st.kids ds :=
  List.filterMap_append _ _ _

theorem Store.ChildrenFit.insert {st : Store} {a : ℕ} {p : Setting} {n : Option SettingName}
    {v : ConfigValue} {f : ConfigFormat} (h : st.ChildrenFit) (hl : st.WellLinked)
    (hp : st[a]? = some p) (hadm : admits p.value.type (st.kids p.value.children) n v.type)
    (hv : v.children = []) :
    Store.ChildrenFit (st.insert a p ⟨if p.value.type = .group then n else none, v, f, some a⟩) := by
  set s : Setting := ⟨if p.value.type = .group then n else none, v, f, some a⟩
  have ha : a < st.length := (List.getElem?_eq_some_iff.mp hp).1
  have hkids : ∀ cs, (∀ c ∈ cs, c < st.length) → (st.insert a p s).kids cs = st.kids cs :=
    fun cs hcs => Store.kids_congr fun c hc => by
      by_cases hca : c = a
      · subst hca
        simp [getElem?_insert_self _ _ ha, hp]
      · rw [getElem?_insert_of_lt _ _ (hcs c hc) hca]
  have hnew : (st.insert a p s).kids [st.length] = [(s.name, s.value.type)] := by
    simp only [Store.kids, List.filterMap_cons, List.filterMap_nil, getElem?_insert_length,
      Option.map_some']
  intro q hq s' hs'
  rw [length_insert] at hq
  rcases Nat.lt_succ_iff_lt_or_eq.mp hq with hq | rfl
  · by_cases hqa : q = a
    · subst hqa
      rw [getElem?_insert_self _ _ ha, Option.mem_def, Option.some.injEq] at hs'
      subst hs'
      rw [ConfigValue.type_push, ConfigValue.children_push (admits_isAggregate hadm),
        Store.kids_append, hkids _ (hl.children_lt hp), hnew]
      exact childrenFit_push hadm (h q hq p hp)
    · rw [getElem?_insert_of_lt _ _ hq hqa] at hs'
      rw [hkids _ (hl.children_lt hs')]
      exact h q hq s' hs'
  · rw [getElem?_insert_length, Option.mem_def, Option.some.injEq] at hs'
    subst hs'
    simp [s, hv, Store.kids]

theorem Store.ChildrenFit.set {st : Store} {a : ℕ} {s s' : Setting} (h : st.ChildrenFit)
    (hs : st[a]? = some s) (hn : s'.name = s.name) (hty : s'.value.type = s.value.type)
    (hkids : s'.value.children = s.value.children) : Store.ChildrenFit (st.set a s') := by
  have ha : a < st.length := (List.getElem?_eq_some_iff.mp hs).1
  have hget : ∀ q, (st.set a s')[q]? = if q = a then some s' else st[q]? := fun q => by
    by_cases hqa : q = a
    · subst hqa; simp [ha]
    · simp [List.getElem?_set, Ne.symm hqa, hqa]
  have hk : ∀ cs, Store.kids (st.set a s') cs = st.kids cs := fun cs =>
    Store.kids_congr fun c _ => by
      rw [hget]
      by_cases hca : c = a
      · subst hca; simp [hs, hn, hty]
      · rw [if_neg hca]
  intro q hq s'' hs''
  rw [List.length_set] at hq
  rw [hget] at hs''
  rw [hk]
  split_ifs at hs'' with hqa
  · subst hqa
    rw [Option.mem_def, Option.some.injEq] at hs''
    subst hs''
    rw [hty, hkids]
    exact h q hq s hs
  · exact h q hq s'' hs''

theorem copyRel_childrenFit :
    CopyRel fun _ (st st' : Store) => st.Linked ∧ st.ChildrenFit → st'.Linked ∧ st'.ChildrenFit :=
  copyRel_of_kept (fun _ _ _ _ _ _ hI hp hadm hv =>
      ⟨hI.1.insert hp hv rfl, hI.2.insert hI.1.wellLinked hp hadm hv⟩)
    (fun _ _ _ _ hI hs hn hty hkids hpar => ⟨hI.1.set hs hkids hpar, hI.2.set hs hn hty hkids⟩)

/-- Every run of `config_setting_copy` that returns leaves a linked store whose
settings' children fit their types linked and fitting, whatever it copies where: a
name taken at the destination, a source around its destination, a bound on calls too
small. -/
theorem configSettingCopy_keeps_childrenFit (fuel P src : ℕ) {st st' : Store} {b : Bool}
    (hl : st.Linked) (hfit : st.ChildrenFit)
    (hrun : (configSettingCopy fuel P src).run st = .ok (b, st')) :
    st'.Linked ∧ st'.ChildrenFit :=
  copyRel_childrenFit.runsWithin_configSettingCopy fuel P src st b st' hrun ⟨hl, hfit⟩

theorem configSettingCopy_keeps_childrenFit_demo :
    ∃ st', (configSettingCopy 4 1 2).run copyDemo = .ok (true, st') ∧
      st'.Linked ∧ st'.ChildrenFit :=
  have hl : copyDemo.Linked := by decide
  have hfit : copyDemo.ChildrenFit := by decide
  ⟨_, rfl, configSettingCopy_keeps_childrenFit 4 1 2 hl hfit rfl⟩

/-! ### Growth -/

/-- `st'` grew from `st`: every setting of `st` is in `st'` with its name, its
type and its parent pointer, and its children followed by more. -/
def Store.Extends (st st' : Store) : Prop :=
  st.length ≤ st'.length ∧ ∀ q < st.length, ∀ s ∈ st[q]?, ∃ s' ∈ st'[q]?,
    s'.name = s.name ∧ s'.value.type = s.value.type ∧ s'.parent = s.parent ∧
      s.value.children <+: s'.value.children

theorem Store.Extends.refl (st : Store) : st.Extends st :=
  ⟨le_rfl, fun _ _ s hs => ⟨s, hs, rfl, rfl, rfl, List.prefix_refl _⟩⟩

theorem Store.Extends.trans {st₁ st₂ st₃ : Store} (h₁ : st₁.Extends st₂) (h₂ : st₂.Extends st₃) :
    st₁.Extends st₃ := by
  refine ⟨h₁.1.trans h₂.1, fun q hq s hs => ?_⟩
  obtain ⟨s', hs', hn, hty, hpar, hpre⟩ := h₁.2 q hq s hs
  obtain ⟨s'', hs'', hn', hty', hpar', hpre'⟩ :=
    h₂.2 q (List.getElem?_eq_some_iff.mp hs').1 s' hs'
  exact ⟨s'', hs'', hn'.trans hn, hty'.trans hty, hpar'.trans hpar, hpre.trans hpre'⟩

theorem ConfigValue.children_prefix_push (c : ℕ) (v : ConfigValue) :
    v.children <+: (v.push c).children := by
  cases v <;> simp [ConfigValue.push, ConfigValue.children]

theorem Store.extends_insert {st : Store} {a : ℕ} {p : Setting} (s : Setting)
    (hp : st[a]? = some p) : st.Extends (st.insert a p s) := by
  refine ⟨by simp, fun q hq s₀ hs₀ => ?_⟩
  by_cases hqa : q = a
  · subst hqa
    rw [hp, Option.mem_def, Option.some.injEq] at hs₀
    subst hs₀
    exact ⟨_, getElem?_insert_self _ _ hq, rfl, ConfigValue.type_push _ _, rfl,
      ConfigValue.children_prefix_push _ _⟩
  · exact ⟨s₀, by rw [getElem?_insert_of_lt _ _ hq hqa]; exact hs₀, rfl, rfl, rfl,
      List.prefix_refl _⟩

theorem Store.extends_set {st : Store} {a : ℕ} {s s' : Setting} (hs : st[a]? = some s)
    (hn : s'.name = s.name) (hty : s'.value.type = s.value.type)
    (hkids : s'.value.children = s.value.children) (hpar : s'.parent = s.parent) :
    st.Extends (st.set a s') := by
  refine ⟨by simp, fun q hq s₀ hs₀ => ?_⟩
  by_cases hqa : q = a
  · subst hqa
    rw [hs, Option.mem_def, Option.some.injEq] at hs₀
    subst hs₀
    exact ⟨s', by simp [hq], hn, hty, hpar, hkids ▸ List.prefix_refl _⟩
  · exact ⟨s₀, by simpa [List.getElem?_set, Ne.symm hqa] using hs₀, rfl, rfl, rfl,
      List.prefix_refl _⟩

theorem copyRel_extends : CopyRel fun _ => Store.Extends where
  refl _ := Store.Extends.refl
  trans := Store.Extends.trans
  inserted := by
    rintro p st r st₁ st₂ (⟨-, rfl⟩ | ⟨a, pp, n, v, f, -, hp, -, -, -, rfl⟩) h₂
    · exact h₂
    · exact (Store.extends_insert _ hp).trans h₂
  set := Store.extends_set

/-- Every run of `config_setting_copy` that returns, from every store, keeps every
setting with its name, its type and its parent pointer, and keeps its children in
order, at most followed by new ones: the copy never removes, renames, retypes or
moves a setting, nor drops or reorders a child. -/
theorem configSettingCopy_extends (fuel P src : ℕ) {st st' : Store} {b : Bool}
    (hrun : (configSettingCopy fuel P src).run st = .ok (b, st')) : st.Extends st' :=
  copyRel_extends.runsWithin_configSettingCopy fuel P src st b st' hrun

theorem configSettingCopy_extends_demo :
    ∃ st', (configSettingCopy 4 1 2).run copyDemo = .ok (true, st') ∧ copyDemo.Extends st' :=
  ⟨_, rfl, configSettingCopy_extends 4 1 2 rfl⟩

end LibConfig
