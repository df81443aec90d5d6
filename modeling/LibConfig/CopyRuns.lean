import LibConfig.Copy

/-!
What the runs of the copy routines do to the store, once for every relation
their writes respect.

The copy writes to the store only through the container, in two ways: an
insertion (`config_setting_add` or an element setter) of a new setting with no
children under its destination, which returns the new setting or `NULL`
(`Inserted`), and a setter that rewrites a setting keeping its name, type,
children and parent. `CopyRel R` says that a family of relations on stores,
`R p` for the writes under `p`, is reflexive and transitive and respects these
two writes, where what follows an insertion writes under what the insertion
returned. Every run of the copy routines under `p` that returns then goes from
a store to one related by `R p` (`CopyRel.runsWithin_configSettingCopy`), by
induction on the bound on calls.
-/

namespace LibConfig

/-- Every run of `x` that returns goes from `st` to an `st'` with `R st st'`. -/
def RunsWithin {α : Type} (R : Store → Store → Prop) (x : Exec α) : Prop :=
  ∀ st a st', x.run st = .ok (a, st') → R st st'

section RunsWithin

variable {R : Store → Store → Prop} {α : Type}

theorem RunsWithin.outOfFuel : RunsWithin R (throw .outOfFuel : Exec α) := by
  intro st b st' h
  cases h

theorem RunsWithin.ite {c : Prop} [Decidable c] {x y : Exec α} (hx : RunsWithin R x)
    (hy : RunsWithin R y) : RunsWithin R (if c then x else y) := by
  split <;> assumption

theorem RunsWithin.discard {x : Exec α} (hx : RunsWithin R x) :
    RunsWithin R (Functor.discard x) := by
  intro st b st' h
  rw [discard_run] at h
  cases hr : x.run st with
  | error e => rw [hr] at h; cases h
  | ok p => rw [hr] at h; cases h; exact hx st p.1 p.2 hr

end RunsWithin

/-! ### The two writes -/

/-- An insertion under `p` from `st` returned `r` and left `st'`: `NULL` with
nothing changed, or a new setting with no children, which the setting at `p`
admits, named as `config_setting_add` names it. -/
def Inserted (p : Option ℕ) (st : Store) (r : Option ℕ) (st' : Store) : Prop :=
  (r = none ∧ st' = st) ∨ ∃ a pp n v f, p = some a ∧ st[a]? = some pp ∧
    admits pp.value.type (st.kids pp.value.children) n v.type ∧ v.children = [] ∧
    r = some st.length ∧ st' = st.insert a pp ⟨if pp.value.type = .group then n else none, v, f, some a⟩

theorem inserted_configSettingAdd (p : Option ℕ) (n : Option SettingName) (t : ConfigType) :
    ∀ st r st', (configSettingAdd p n t).run st = .ok (r, st') → Inserted p st r st' := by
  intro st r st' h
  cases p with
  | none => cases h; exact .inl ⟨rfl, rfl⟩
  | some a =>
    cases hp : st[a]? with
    | none => simp [configSettingAdd, StateT.run, hp] at h
    | some pp =>
      rw [configSettingAdd_run hp] at h
      split at h <;> cases h
      · exact .inr ⟨a, pp, n, _, _, rfl, hp, by rwa [ConfigValue.type_initial],
          ConfigValue.children_initial t, rfl, rfl⟩
      · exact .inl ⟨rfl, rfl⟩

theorem inserted_setElem (p : Option ℕ) {v : ConfigValue} (hv : v.children = []) :
    ∀ st r st', (setElem p v).run st = .ok (r, st') → Inserted p st r st' := by
  intro st r st' h
  cases p with
  | none => cases h
  | some a =>
    cases hp : st[a]? with
    | none => simp [setElem, StateT.run, hp] at h
    | some pp =>
      rw [setElem_run hp] at h
      split at h <;> cases h
      · exact .inr ⟨a, pp, none, v, .default, rfl, hp, ‹_›, hv, rfl, by rw [ite_self]⟩
      · exact .inl ⟨rfl, rfl⟩

/-- A family of relations on stores, one for the writes under each
destination, that the copy's writes respect. -/
structure CopyRel (R : Option ℕ → Store → Store → Prop) : Prop where
  refl : ∀ p st, R p st st
  trans : ∀ {p st₁ st₂ st₃}, R p st₁ st₂ → R p st₂ st₃ → R p st₁ st₃
  /-- An insertion under `p`, then writes under what it returned. -/
  inserted : ∀ {p st r st₁ st₂}, Inserted p st r st₁ → R r st₁ st₂ → R p st st₂
  /-- A setter on the setting at `a` that keeps its shape. -/
  set : ∀ {st a s s'}, st[a]? = some s → s'.name = s.name → s'.value.type = s.value.type →
    s'.value.children = s.value.children → s'.parent = s.parent → R (some a) st (st.set a s')

namespace CopyRel

variable {R : Option ℕ → Store → Store → Prop} (hR : CopyRel R)
include hR

theorem bind {α β : Type} {p : Option ℕ} {x : Exec α} {f : α → Exec β}
    (hx : RunsWithin (R p) x) (hf : ∀ a, RunsWithin (R p) (f a)) : RunsWithin (R p) (x >>= f) := by
  intro st b st₂ h
  rw [StateT.run_bind] at h
  cases hr : x.run st with
  | error e => rw [hr] at h; cases h
  | ok q => rw [hr] at h; exact hR.trans (hx st q.1 q.2 hr) (hf q.1 q.2 b st₂ h)

theorem pure {α : Type} (p : Option ℕ) (a : α) : RunsWithin (R p) (Pure.pure a : Exec α) := by
  intro st b st' h
  cases h
  exact hR.refl p st

theorem forM {β : Type} {p : Option ℕ} {l : List β} {f : β → Exec PUnit}
    (hf : ∀ b, RunsWithin (R p) (f b)) : RunsWithin (R p) (l.forM f) := by
  induction l with
  | nil => exact hR.pure p _
  | cons b l ih => exact hR.bind (hf b) fun _ => ih

theorem deref (p q : Option ℕ) : RunsWithin (R p) (LibConfig.deref q) := by
  intro st s st' h
  simp only [LibConfig.deref, StateT.run] at h
  split at h <;> cases h
  exact hR.refl p st

theorem runsWithin_insert_bind {α : Type} {p : Option ℕ} {x : Exec (Option ℕ)}
    (hx : ∀ st r st', x.run st = .ok (r, st') → Inserted p st r st')
    {k : Option ℕ → Exec α} (hk : ∀ r, RunsWithin (R r) (k r)) : RunsWithin (R p) (x >>= k) := by
  intro st b st₂ h
  rw [StateT.run_bind] at h
  cases hr : x.run st with
  | error e => rw [hr] at h; cases h
  | ok q => rw [hr] at h; exact hR.inserted (hx st q.1 q.2 hr) (hk q.1 q.2 b st₂ h)

theorem runsWithin_setElem (p : Option ℕ) {v : ConfigValue} (hv : v.children = []) :
    RunsWithin (R p) (setElem p v) := by
  have h := hR.runsWithin_insert_bind (inserted_setElem p hv) fun r => hR.pure r r
  rwa [bind_pure] at h

/-- A setter that keeps the name, type, children and parent of what it rewrites. -/
theorem runsWithin_modifySetting (set : Option ℕ) {f : Setting → Option Setting}
    (hf : ∀ s s', f s = some s' → s'.name = s.name ∧ s'.value.type = s.value.type ∧
      s'.value.children = s.value.children ∧ s'.parent = s.parent) :
    RunsWithin (R set) (modifySetting set f) := by
  intro st r st' h
  cases set with
  | none => cases h
  | some a =>
    cases hs : st[a]? with
    | none => simp [modifySetting, StateT.run, hs] at h
    | some s =>
      rw [modifySetting_run hs] at h
      cases hfs : f s with
      | none => rw [hfs] at h; cases h; exact hR.refl _ st
      | some s' =>
        rw [hfs] at h
        cases h
        obtain ⟨hn, hty, hkids, hpar⟩ := hf s s' hfs
        exact hR.set hs hn hty hkids hpar

theorem runsWithin_setValue (set : Option ℕ) {v : ConfigValue} (hv : v.type.isAggregate = false) :
    RunsWithin (R set) (setValue set v) :=
  hR.runsWithin_modifySetting set fun s s' h => by
    split_ifs at h with hty
    cases h
    exact ⟨rfl, hty.symm,
      by rw [ConfigValue.children_eq_nil hv, ConfigValue.children_eq_nil (hty ▸ hv)], rfl⟩

theorem runsWithin_configSettingSetFormat (set : Option ℕ) (f : ConfigFormat) :
    RunsWithin (R set) (configSettingSetFormat set f) :=
  hR.runsWithin_modifySetting set fun s s' h => by
    split_ifs at h
    cases h
    exact ⟨rfl, rfl, rfl, rfl⟩

/-! ### The copy routines -/

theorem runsWithin_setValueFrom (set : Option ℕ) (s : Setting) :
    RunsWithin (R set) (setValueFrom set s) := by
  unfold setValueFrom
  split
  · exact hR.bind (hR.runsWithin_setValue set (by rfl)).discard fun _ =>
      (hR.runsWithin_configSettingSetFormat set _).discard
  · exact hR.bind (hR.runsWithin_setValue set (by rfl)).discard fun _ =>
      (hR.runsWithin_configSettingSetFormat set _).discard
  · exact (hR.runsWithin_setValue set (by rfl)).discard
  · exact (hR.runsWithin_setValue set (by rfl)).discard
  · exact (hR.runsWithin_setValue set (by rfl)).discard
  · exact hR.pure set _

theorem runsWithin_appendValueFrom (parent : Option ℕ) (s : Setting) :
    RunsWithin (R parent) (appendValueFrom parent s) := by
  unfold appendValueFrom
  split
  · exact hR.runsWithin_insert_bind (inserted_setElem parent (by rfl)) fun set =>
      (hR.runsWithin_configSettingSetFormat set _).discard
  · exact hR.runsWithin_insert_bind (inserted_setElem parent (by rfl)) fun set =>
      (hR.runsWithin_configSettingSetFormat set _).discard
  · exact (hR.runsWithin_setElem parent (by rfl)).discard
  · exact (hR.runsWithin_setElem parent (by rfl)).discard
  · exact (hR.runsWithin_setElem parent (by rfl)).discard
  · exact hR.pure parent _

/-- The three copy routines under `p`, by induction on the bound on calls: each
step is a read, an insertion under `p` followed by writes under what it
returned, a setter, or a call with a smaller bound. -/
theorem runsWithin_copyRoutines (fuel : ℕ) :
    (∀ p q, RunsWithin (R p) (configSettingCopySimple fuel p q)) ∧
    (∀ p q, RunsWithin (R p) (configSettingCopyElem fuel p q)) ∧
    (∀ p q, RunsWithin (R p) (configSettingCopyAggregate fuel p q)) := by
  induction fuel with
  | zero => exact ⟨fun _ _ => .outOfFuel, fun _ _ => .outOfFuel, fun _ _ => .outOfFuel⟩
  | succ fuel ih =>
    obtain ⟨hS, hE, hA⟩ := ih
    refine ⟨fun p q => ?simple, fun p q => ?elem, fun p q => ?aggregate⟩
    case simple =>
      rw [configSettingCopySimple]
      exact hR.bind (hR.deref p q) fun s => .ite (hA p q)
        (hR.runsWithin_insert_bind (inserted_configSettingAdd _ _ _) fun set =>
          hR.runsWithin_setValueFrom set s)
    case elem =>
      rw [configSettingCopyElem]
      exact hR.bind (hR.deref p q) fun s => .ite (hA p q) (hR.runsWithin_appendValueFrom p s)
    case aggregate =>
      rw [configSettingCopyAggregate]
      exact hR.bind (hR.deref p q) fun s =>
        hR.runsWithin_insert_bind (inserted_configSettingAdd _ _ _) fun agg =>
          hR.bind (hR.bind (hR.deref agg q) fun _ => hR.pure agg _) fun n => hR.forM fun i =>
            hR.bind (hR.bind (hR.deref agg q) fun _ => hR.pure agg _) fun c =>
              .ite (hS agg c) (hE agg c)

/-- Every run of `config_setting_copy fuel P src` that returns is related by
`R (some P)`. -/
theorem runsWithin_configSettingCopy (fuel P src : ℕ) :
    RunsWithin (R (some P)) (configSettingCopy fuel P src) := by
  obtain ⟨hS, -, hA⟩ := hR.runsWithin_copyRoutines fuel
  unfold configSettingCopy
  refine hR.bind (hR.deref _ _) fun _ => .ite (hR.pure _ _) ?_
  simp only [pure_bind]
  exact hR.bind (hR.deref _ _) fun _ =>
    .ite (hR.bind (hA _ _) fun _ => hR.pure _ _) (hR.bind (hS _ _) fun _ => hR.pure _ _)

end CopyRel

end LibConfig
