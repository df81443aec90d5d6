import LibConfig.Copy
import LibConfig.CopySpec

/-!
The copy routines on the store compute the copy on trees.

Take a source `src` whose subtree is the tree `t`, and a destination `a` (an
existing setting, or `NULL`) that does not lie in that subtree. Then
`configSettingCopySimple`, `configSettingCopyElem` and
`configSettingCopyAggregate`, given a bound on the depth of calls above twice
the height of `t`, end as `copySimpleT`, `copyElemT` and `copyAggregateT` do on
`t`: with the same fault, or with the store unchanged when nothing was
appended, or with the store grown by settings that denote the appended tree
(`Grows`).
-/

namespace LibConfig

open ConfigTree

/-- The destination `a` as the copy sees it in `st`. -/
def viewOf (st : Store) : Option ℕ → DestView
  | some a =>
    match st[a]? with
    | some p => .setting p.value.type (st.kids p.value.children)
    | none => .null
  | none => .null

theorem viewOf_some {st : Store} {a : ℕ} {p : Setting} (h : st[a]? = some p) :
    viewOf st (some a) = .setting p.value.type (st.kids p.value.children) := by
  simp [viewOf, h]

/-- A destination the copy may write to: `NULL`, or an existing setting whose
children all exist. -/
def ValidDest (st : Store) (a : Option ℕ) : Prop :=
  ∀ p, a = some p → p < st.length ∧ ∀ s, st[p]? = some s → ∀ c ∈ s.value.children, c < st.length

/-- `st'` is `st` with settings denoting `ts` appended, in order, to the
children of `a`: those settings and all below them are new, one for each
setting of `ts`, and no other setting of `st` changed. -/
structure Grows (st st' : Store) (a : Option ℕ) (ts : List ConfigTree) : Prop where
  frame : ∀ q < st.length, some q ≠ a → st'[q]? = st[q]?
  length_eq : st'.length = st.length + sizeAll ts
  added : ∃ cs, DenotesAll st' cs ts ∧ (∀ c ∈ cs, ∀ q, Reach st' c q → st.length ≤ q) ∧
    ∀ p s, a = some p → st[p]? = some s →
      st'[p]? = some { s with value := s.value.append cs } ∧
        (s.value.append cs).children = s.value.children ++ cs

namespace Grows

variable {st st' st'' : Store} {a : Option ℕ} {ts us : List ConfigTree}

theorem refl (st : Store) (a : Option ℕ) : Grows st st a [] :=
  ⟨fun _ _ _ => rfl, by simp, ⟨[], trivial, by simp, fun _ _ _ hs => ⟨by simpa using hs, by simp⟩⟩⟩

theorem eq_of_nil (h : Grows st st' a []) : st' = st := by
  apply List.ext_getElem?
  intro q
  by_cases hq : q < st.length
  · by_cases hqa : some q = a
    · obtain ⟨cs, hcs, -, hp⟩ := h.added
      cases cs <;> simp [DenotesAll] at hcs
      cases hs : st[q]? with
      | none => simp [List.getElem?_eq_none_iff] at hs; omega
      | some s => simpa using (hp q s hqa.symm hs).1
    · exact h.frame q hq hqa
  · have h' := h.length_eq
    simp only [sizeAll_nil, Nat.add_zero] at h'
    rw [List.getElem?_eq_none (by omega), List.getElem?_eq_none (by omega)]

theorem same_of_reach {c q : ℕ} {t : ConfigTree} (h : Grows st st' a ts) (hc : Denotes st c t)
    (hq : Reach st c q) (ha : ∀ p, a = some p → ¬ Reach st c p) : st'[q]? = st[q]? :=
  h.frame q (hc.reach_lt hq) fun hqa => ha q hqa.symm hq

theorem denotes {c : ℕ} {t : ConfigTree} (h : Grows st st' a ts) (hc : Denotes st c t)
    (ha : ∀ p, a = some p → ¬ Reach st c p) : Denotes st' c t :=
  hc.frame fun _ hq => h.same_of_reach hc hq ha

theorem not_reach {c : ℕ} {t : ConfigTree} (h : Grows st st' a ts) (hc : Denotes st c t)
    (ha : ∀ p, a = some p → ¬ Reach st c p) : ∀ p, a = some p → ¬ Reach st' c p :=
  fun p hp hr => ha p hp (Reach.frame (fun _ hq => h.same_of_reach hc hq ha) hr)

theorem validDest (h : Grows st st' a ts) (ha : ValidDest st a) : ValidDest st' a := by
  intro p hp
  obtain ⟨hlt, hkids⟩ := ha p hp
  obtain ⟨cs, hcs, -, hpar⟩ := h.added
  have hlen := h.length_eq
  refine ⟨by omega, fun s' hs' c hc => ?_⟩
  cases hs : st[p]? with
  | none => simp [List.getElem?_eq_none_iff] at hs; omega
  | some s =>
    obtain ⟨hp', hch⟩ := hpar p s hp hs
    rw [hs'] at hp'
    obtain rfl := Option.some.inj hp'
    rw [hch] at hc
    rcases List.mem_append.mp hc with hc | hc
    · have := hkids s hs c hc; omega
    · obtain ⟨u, -, hu⟩ := hcs.mem hc
      exact hu.lt_length

theorem trans (h₁ : Grows st st' a ts) (h₂ : Grows st' st'' a us) (ha : ValidDest st a) :
    Grows st st'' a (ts ++ us) := by
  obtain ⟨cs, hcs, hfresh, hpar⟩ := h₁.added
  obtain ⟨ds, hds, hfresh', hpar'⟩ := h₂.added
  have hlen₁ := h₁.length_eq
  have hlen₂ := h₂.length_eq
  have hsame : ∀ c ∈ cs, ∀ q, Reach st' c q → st''[q]? = st'[q]? := by
    intro c hc q hq
    obtain ⟨u, -, hu⟩ := hcs.mem hc
    refine h₂.frame q (hu.reach_lt hq) fun hqa => ?_
    have := (ha q hqa.symm).1
    have := hfresh c hc q hq
    omega
  refine ⟨fun q hq hqa => ?_, by simp [hlen₁, hlen₂, Nat.add_assoc], cs ++ ds,
    (hcs.frame hsame).append hds, fun c hc q hq => ?_, fun p s hp hs => ?_⟩
  · rw [h₂.frame q (by omega) hqa, h₁.frame q hq hqa]
  · rcases List.mem_append.mp hc with hc | hc
    · exact hfresh c hc q (Reach.frame (hsame c hc) hq)
    · have := hfresh' c hc q hq; omega
  · obtain ⟨h₁p, h₁c⟩ := hpar p s hp hs
    obtain ⟨h₂p, h₂c⟩ := hpar' p _ hp h₁p
    refine ⟨by simpa using h₂p, ?_⟩
    simpa [h₁c] using h₂c

theorem kids_eq (h : Grows st st' a ts) {cs : List ℕ} (hcs : ∀ c ∈ cs, c < st.length) :
    st'.kids cs = st.kids cs := by
  refine List.filterMap_congr fun c hc => ?_
  by_cases hca : some c = a
  · obtain ⟨ds, -, -, hpar⟩ := h.added
    cases hs : st[c]? with
    | none => simp [List.getElem?_eq_none_iff] at hs; have := hcs c hc; omega
    | some s => simp [(hpar c s hca.symm hs).1, hs]
  · rw [h.frame c (hcs c hc) hca]

/-- The destination after a step of the loop is the destination before it
with the appended tree. -/
theorem viewOf_eq (h : Grows st st' a r.toList) (ha : ValidDest st a) :
    viewOf st' a = (viewOf st a).push r := by
  cases r with
  | none => rw [h.eq_of_nil, DestView.push_none]
  | some t =>
    cases a with
    | none => rfl
    | some p =>
      obtain ⟨hlt, hkids⟩ := ha p rfl
      obtain ⟨ps, hps⟩ : ∃ ps, st[p]? = some ps := ⟨_, (List.getElem?_eq_getElem hlt)⟩
      obtain ⟨cs, hcs, -, hpar⟩ := h.added
      obtain ⟨hp', hch⟩ := hpar p ps rfl hps
      cases cs with
      | nil => simp [DenotesAll] at hcs
      | cons c cs =>
        cases cs with
        | cons => simp [DenotesAll] at hcs
        | nil =>
          obtain ⟨s, hs, hn, hty⟩ := hcs.1.exists_setting
          rw [viewOf_some hp', viewOf_some hps, hch, Store.kids, List.filterMap_append,
            ← Store.kids, h.kids_eq (hkids ps hps)]
          simp [DestView.push, Store.kids, hs, hn, hty]

end Grows

theorem admits_isAggregate {pt : ConfigType} {kids : List (Option SettingName × ConfigType)}
    {n : Option SettingName} {t : ConfigType} (h : admits pt kids n t) : pt.isAggregate := by
  cases pt <;> simp_all [admits, ConfigType.isAggregate]

section Insert

variable {st st' : Store} {p : ℕ} {ps : Setting}

/-- Appending one new scalar setting. -/
theorem Grows.insert_scalar {s : Setting} {n : Option SettingName} {v : ScalarValue}
    (hp : st[p]? = some ps) (hagg : ps.value.type.isAggregate) (hn : s.name = n)
    (hv : v.HeldBy s) : Grows st (st.insert p ps s) (some p) [.scalar n v] := by
  have hlt : p < st.length := (List.getElem?_eq_some_iff.mp hp).1
  refine ⟨fun q hq hqp => getElem?_insert_of_lt ps s hq fun h => hqp (by rw [h]),
    by simp [size], [st.length], ⟨⟨s, getElem?_insert_length st p ps s, hn, hv⟩, trivial⟩, ?_, ?_⟩
  · intro c hc q hq
    obtain rfl := List.mem_singleton.mp hc
    rw [Reach.eq_of_children_nil (getElem?_insert_length st p ps s) (by simp [hv.1]) hq]
  · rintro p' s' hp' hs'
    cases hp'
    obtain rfl := Option.some.inj (hs'.symm.trans hp)
    exact ⟨getElem?_insert_self _ _ hlt, ConfigValue.children_push hagg⟩

/-- Appending one new aggregate and, below it, the settings of its
children. -/
theorem Grows.insert_aggregate {n : Option SettingName} {k : AggKind} {f : ConfigFormat}
    {par : Option ℕ} {ts : List ConfigTree} (hp : st[p]? = some ps)
    (hagg : ps.value.type.isAggregate)
    (h : Grows (st.insert p ps ⟨n, k.value [], f, par⟩) st' (some st.length) ts) :
    Grows st st' (some p) [.aggregate n k ts] := by
  have hlt : p < st.length := (List.getElem?_eq_some_iff.mp hp).1
  obtain ⟨cs, hcs, hfresh, hpar⟩ := h.added
  obtain ⟨hna, -⟩ := hpar st.length _ rfl (getElem?_insert_length st p ps _)
  have hlen := h.length_eq
  simp only [length_insert] at hlen
  refine ⟨fun q hq hqp => ?_, by simp only [sizeAll_cons, sizeAll_nil, size]; omega, [st.length],
    ⟨⟨_, cs, hna, rfl, by simp [AggKind.value_append], hcs⟩, trivial⟩, ?_, ?_⟩
  · rw [h.frame q (by simp; omega) (by simp; omega)]
    exact getElem?_insert_of_lt ps _ hq fun h => hqp (by rw [h])
  · intro c hc q hq
    obtain rfl := List.mem_singleton.mp hc
    rcases hq.head with rfl | ⟨s, c, hs, hc, hq⟩
    · exact le_refl _
    · rw [hna, Option.some.inj hs.symm] at *
      simp only [AggKind.value_append, List.nil_append, AggKind.children_value] at hc
      have := hfresh c hc q hq
      simp at this
      omega
  · rintro p' s' hp' hs'
    cases hp'
    obtain rfl := Option.some.inj (hs'.symm.trans hp)
    rw [h.frame p (by simp; omega) (by simp; omega), getElem?_insert_self _ _ hlt]
    exact ⟨rfl, ConfigValue.children_push hagg⟩

end Insert

theorem ScalarValue.heldBy_mk (v : ScalarValue) (n : Option SettingName) (par : Option ℕ) :
    v.HeldBy ⟨n, v.value, v.format.getD .default, par⟩ := by
  refine ⟨rfl, fun f hf => ?_⟩
  simp [Option.mem_def.mp hf]

section Setters
variable {st : Store} {s : Setting} {v : ScalarValue}

theorem setValueFrom_run_none (hv : s.value = v.value) :
    (setValueFrom none s).run st = if v = .none then .ok ((), st) else .error .nullDeref := by
  unfold setValueFrom
  rw [hv]
  cases v <;> simp [ScalarValue.value, configSettingSetInt, configSettingSetInt64,
    configSettingSetFloat, configSettingSetString, configSettingSetBool, setValue]

theorem setValueFrom_run_insert {a : ℕ} {p : Setting} (hv : v.HeldBy s) (n : Option SettingName)
    (par : Option ℕ) :
    (setValueFrom (some st.length) s).run (st.insert a p ⟨n, .initial v.type, .default, par⟩) =
      .ok ((), st.insert a p ⟨n, v.value, v.format.getD .default, par⟩) := by
  obtain ⟨hv, hf⟩ := hv
  unfold setValueFrom
  rw [hv]
  cases v with
  | none => rfl
  | int x f | int64 x f =>
    rw [hf f rfl]
    simp [configSettingSetInt, configSettingSetInt64, setValue, configSettingSetFormat,
      ScalarValue.value, ScalarValue.type, ConfigValue.initial, ConfigValue.type, ScalarValue.format]
  | float x | string x | bool x =>
    simp [configSettingSetFloat, configSettingSetString, configSettingSetBool, setValue,
      ScalarValue.value, ScalarValue.type, ConfigValue.initial, ConfigValue.type, ScalarValue.format]

theorem appendValueFrom_run_none (hv : s.value = v.value) :
    (appendValueFrom none s).run st = if v = .none then .ok ((), st) else .error .nullDeref := by
  unfold appendValueFrom
  rw [hv]
  cases v <;> simp [ScalarValue.value, configSettingSetIntElem, configSettingSetInt64Elem,
    configSettingSetFloatElem, configSettingSetStringElem, configSettingSetBoolElem]

theorem setElem_setFormat_run {a : ℕ} {p : Setting} (hp : st[a]? = some p) (w : ConfigValue)
    (hw : w.type = .int ∨ w.type = .int64) (f : ConfigFormat) :
    (setElem (some a) w >>= fun set => discard (configSettingSetFormat set f)).run st =
      if admits p.value.type (st.kids p.value.children) none w.type then
        .ok ((), st.insert a p ⟨none, w, f, some a⟩)
      else .error .nullDeref := by
  rw [StateT.run_bind, setElem_run hp]
  split_ifs <;> simp [configSettingSetFormat, hw]

theorem appendValueFrom_run {a : ℕ} {p : Setting} (hp : st[a]? = some p) (hv : v.HeldBy s) :
    (appendValueFrom (some a) s).run st =
      if v = .none then .ok ((), st)
      else if admits p.value.type (st.kids p.value.children) none v.type then
        .ok ((), st.insert a p ⟨none, v.value, v.format.getD .default, some a⟩)
      else if v.format.isSome then .error .nullDeref else .ok ((), st) := by
  obtain ⟨hv, hf⟩ := hv
  unfold appendValueFrom
  rw [hv]
  cases v with
  | none => rfl
  | int x f =>
    rw [hf f rfl]
    simpa [ScalarValue.value, ScalarValue.type] using setElem_setFormat_run hp (.int x) (.inl rfl) f
  | int64 x f =>
    rw [hf f rfl]
    simpa [ScalarValue.value, ScalarValue.type] using setElem_setFormat_run hp (.int64 x) (.inr rfl) f
  | float x | string x | bool x =>
    simp only [ScalarValue.value, ScalarValue.type, ScalarValue.format, configSettingSetFloatElem,
      configSettingSetStringElem, configSettingSetBoolElem, discard_run, setElem_run hp,
      reduceCtorEq, if_false, Option.isSome_none, Bool.false_eq_true]
    split_ifs <;> rfl

end Setters

/-- The run `r` on the store ends as the copy on trees does with outcome `o`:
with the same fault, or having appended settings denoting the trees of `o`. -/
def Refines (st : Store) (a : Option ℕ) (o : Except Fault (List ConfigTree))
    (r : Except Fault (Unit × Store)) : Prop :=
  match o with
  | .error e => r = .error e
  | .ok ts => ∃ st', r = .ok ((), st') ∧ Grows st st' a ts

/-- A run that refines the rest of a copy, once settings denoting `ts` have
been appended, refines the whole copy. -/
theorem Refines.append {st st' : Store} {a : Option ℕ} {ts : List ConfigTree}
    {o : Except Fault (List ConfigTree)} {r : Except Fault (Unit × Store)}
    (hg : Grows st st' a ts) (ha : ValidDest st a) (h : Refines st' a o r) :
    Refines st a (o.map (ts ++ ·)) r := by
  cases o with
  | error e => exact h
  | ok us =>
    obtain ⟨st'', rfl, hg'⟩ := h
    exact ⟨st'', rfl, hg.trans hg' ha⟩

/-- A copy step followed by the rest of the copy: the step either faults as the
run does, or appends the settings of its result and leaves the rest to do. -/
theorem Refines.bind {st : Store} {a : Option ℕ} {o : Except Fault (Option ConfigTree)}
    {r : Except Fault (Unit × Store)} {K : Option ConfigTree → Except Fault (List ConfigTree)}
    {R : Unit × Store → Except Fault (Unit × Store)} (h : Refines st a (o.map Option.toList) r)
    (hk : ∀ t st', Grows st st' a t.toList → Refines st a (K t) (R ((), st'))) :
    Refines st a (o >>= K) (r >>= R) := by
  cases o with
  | error e =>
    obtain rfl : r = .error e := h
    rfl
  | ok t =>
    obtain ⟨st', rfl, hg⟩ := h
    exact hk t st' hg

section Steps

variable {st : Store} {a : Option ℕ} {src : ℕ} {n : Option SettingName} {v : ScalarValue}

theorem refines_of_null : Refines st a
    (Except.map Option.toList (if v = .none then .ok none else .error .nullDeref))
    (if v = .none then .ok ((), st) else .error .nullDeref) := by
  split_ifs <;> simp [Refines, Grows.refl]

theorem copySimple_scalar (hsrc : Denotes st src (.scalar n v)) (ha : ValidDest st a) (fuel : ℕ) :
    Refines st a ((copySimpleT (viewOf st a) (.scalar n v)).map Option.toList)
      ((configSettingCopySimple (fuel + 1) a (some src)).run st) := by
  obtain ⟨s, hs, hn, hv⟩ := hsrc
  have hty : s.value.type = v.type := by rw [hv.1]; rfl
  simp only [configSettingCopySimple, StateT.run_bind, deref_run hs, except_ok_bind, hty,
    ScalarValue.isAggregate_type, Bool.false_eq_true, if_false, hn]
  cases a with
  | none =>
    simp only [configSettingAdd_run_none, except_ok_bind, setValueFrom_run_none hv.1, viewOf,
      copySimpleT, DestView.add]
    exact refines_of_null
  | some p =>
    obtain ⟨hlt, -⟩ := ha p rfl
    obtain ⟨ps, hps⟩ : ∃ ps, st[p]? = some ps := ⟨_, List.getElem?_eq_getElem hlt⟩
    rw [configSettingAdd_run hps]
    simp only [viewOf_some hps, copySimpleT, DestView.add]
    by_cases hadm : admits ps.value.type (st.kids ps.value.children) n v.type
    · simp only [hadm, if_true, except_ok_bind, setValueFrom_run_insert hv]
      exact ⟨_, rfl, Grows.insert_scalar hps (admits_isAggregate hadm) rfl (v.heldBy_mk _ _)⟩
    · simp only [hadm, Bool.false_eq_true, if_false, except_ok_bind, setValueFrom_run_none hv.1]
      exact refines_of_null

theorem copyElem_scalar (hsrc : Denotes st src (.scalar n v)) (ha : ValidDest st a) (fuel : ℕ) :
    Refines st a ((copyElemT (viewOf st a) (.scalar n v)).map Option.toList)
      ((configSettingCopyElem (fuel + 1) a (some src)).run st) := by
  obtain ⟨s, hs, hn, hv⟩ := hsrc
  have hty : s.value.type = v.type := by rw [hv.1]; rfl
  simp only [configSettingCopyElem, StateT.run_bind, deref_run hs, except_ok_bind, hty,
    ScalarValue.isAggregate_type, Bool.false_eq_true, if_false]
  cases a with
  | none =>
    rw [appendValueFrom_run_none hv.1]
    cases v <;> simp [viewOf, copyElemT, Refines, Grows.refl]
  | some p =>
    obtain ⟨hlt, -⟩ := ha p rfl
    obtain ⟨ps, hps⟩ : ∃ ps, st[p]? = some ps := ⟨_, List.getElem?_eq_getElem hlt⟩
    rw [appendValueFrom_run hps hv, viewOf_some hps]
    by_cases hnone : v = .none
    · subst hnone
      simp [copyElemT, Refines, Grows.refl]
    · have hcopy : copyElemT (.setting ps.value.type (st.kids ps.value.children)) (.scalar n v) =
          if admits ps.value.type (st.kids ps.value.children) none v.type then
            .ok (some (.scalar none v))
          else if v.format.isSome then .error .nullDeref else .ok none := by
        cases v
        · exact absurd rfl hnone
        all_goals rfl
      rw [hcopy]
      split_ifs with hadm hf
      · exact ⟨_, rfl, Grows.insert_scalar hps (admits_isAggregate hadm) rfl (v.heldBy_mk _ _)⟩
      · rfl
      · exact ⟨st, rfl, Grows.refl st _⟩

end Steps

theorem Grows.denotesAll {st st' : Store} {a : Option ℕ} {ts us : List ConfigTree}
    {cs : List ℕ} (h : Grows st st' a ts) (hcs : DenotesAll st cs us)
    (ha : ∀ p, a = some p → ∀ c ∈ cs, ¬ Reach st c p) : DenotesAll st' cs us :=
  hcs.frame fun c hc q hq => by
    obtain ⟨u, -, hu⟩ := hcs.mem hc
    exact h.same_of_reach hu hq fun p hp => ha p hp c hc

/-- The loop of `config_setting_copy_aggregate`, from index `j` on, copies the
children that are left as `copyChildrenT` does. -/
theorem forM_refines {fuel : ℕ} (src : ℕ) {s : Setting} {ts : List ConfigTree}
    (hstep : ∀ t ∈ ts, ∀ st a c, Denotes st c t → ValidDest st a →
      (∀ p, a = some p → ¬ Reach st c p) →
      Refines st a ((if s.value.type = .group then copySimpleT (viewOf st a) t
          else copyElemT (viewOf st a) t).map Option.toList)
        ((if s.value.type = .group then configSettingCopySimple fuel a (some c)
          else configSettingCopyElem fuel a (some c)).run st)) :
    ∀ (m j : ℕ) (st : Store) (a : Option ℕ) (us : List ConfigTree),
      st[src]? = some s → j + m = s.value.children.length →
      DenotesAll st (s.value.children.drop j) us → (∀ u ∈ us, u ∈ ts) → ValidDest st a →
      (∀ p, a = some p → p ≠ src ∧ ∀ c ∈ s.value.children.drop j, ¬ Reach st c p) →
      Refines st a (copyChildrenT (s.value.type = .group) (viewOf st a) us)
        (((List.range' j m).forM fun i => do
            let child ← configSettingGetElem (some src) i
            if s.value.type = ConfigType.group then configSettingCopySimple fuel a child
            else configSettingCopyElem fuel a child).run st) := by
  intro m
  induction m with
  | zero =>
    intro j st a us _ hj hus _ _ _
    rw [show s.value.children.drop j = [] by simp; omega] at hus
    cases us with
    | nil => exact ⟨st, rfl, Grows.refl st a⟩
    | cons => simp [DenotesAll] at hus
  | succ m ih =>
    intro j st a us hsrc hj hus hts ha hsep
    have hlt : j < s.value.children.length := by omega
    have hdrop := List.drop_eq_getElem_cons hlt
    have hsrc_lt : src < st.length := (List.getElem?_eq_some_iff.mp hsrc).1
    rw [hdrop] at hus
    cases us with
    | nil => simp [DenotesAll] at hus
    | cons u us =>
    obtain ⟨hu, hus⟩ := hus
    have hsep' : ∀ p, a = some p → ¬ Reach st s.value.children[j] p := fun p hp =>
      (hsep p hp).2 _ (hdrop ▸ List.mem_cons_self _ _)
    have hstep := hstep u (hts u (List.mem_cons_self _ _)) st a _ hu ha hsep'
    simp only [List.range'_succ, List.forM_cons', StateT.run_bind, configSettingGetElem_run hsrc,
      except_ok_bind, List.getElem?_eq_getElem hlt, copyChildrenT_cons, decide_eq_true_eq]
    refine hstep.bind fun o st' hg => ?_
    have hrest' : ∀ p, a = some p → ∀ c ∈ s.value.children.drop (j + 1), ¬ Reach st c p :=
      fun p hp c hc => (hsep p hp).2 c (hdrop ▸ List.mem_cons_of_mem _ hc)
    have hrest := ih (j + 1) st' a us
      (by rw [hg.frame src hsrc_lt fun h => (hsep src h.symm).1 rfl, hsrc])
      (by omega) (hg.denotesAll hus hrest')
      (fun u hu => hts u (List.mem_cons_of_mem _ hu)) (hg.validDest ha)
      (fun p hp => ⟨(hsep p hp).1, fun c hc hr => ?_⟩)
    · rw [hg.viewOf_eq ha] at hrest
      exact hrest.append hg ha
    · obtain ⟨u', -, hu'⟩ := hus.mem hc
      exact hg.not_reach hu' (fun p hp => hrest' p hp c hc) p hp hr

/-- The children of an aggregate copied as the run does, and the aggregate
made of them: the run refines the aggregate's copy when what the children's
copy appends is, seen from the aggregate's destination, the aggregate. -/
theorem Refines.map {st₁ st : Store} {a₁ a : Option ℕ} {o : Except Fault (List ConfigTree)}
    {r : Except Fault (Unit × Store)} {g : List ConfigTree → Option ConfigTree}
    (h : Refines st₁ a₁ o r)
    (hg : ∀ us st', o = .ok us → Grows st₁ st' a₁ us → Grows st st' a (g us).toList) :
    Refines st a ((o.map g).map Option.toList) r := by
  cases o with
  | error e => exact h
  | ok us =>
    obtain ⟨st', rfl, hgr⟩ := h
    exact ⟨st', rfl, hg us st' rfl hgr⟩

/-- An aggregate whose `config_setting_add` gave `NULL`: its children are
copied into `NULL`, which appends nothing. -/
theorem refines_of_null_dest {st : Store} {a : Option ℕ} {o : Except Fault (List ConfigTree)}
    {r : Except Fault (Unit × Store)} (h : Refines st none o r) (hnil : ∀ rs, o = .ok rs → rs = []) :
    Refines st a ((o.map fun _ => (none : Option ConfigTree)).map Option.toList) r :=
  h.map fun us _ ho hg => by
    obtain rfl := hnil us ho
    rw [hg.eq_of_nil]
    exact Grows.refl st a

/-- The children hypothesis the loop needs, from the refinement of each
child's copy. -/
def StepRefines (fuel : ℕ) (t : ConfigTree) : Prop :=
  ∀ st a c, Denotes st c t → ValidDest st a → (∀ p, a = some p → ¬ Reach st c p) →
    Refines st a ((copySimpleT (viewOf st a) t).map Option.toList)
      ((configSettingCopySimple fuel a (some c)).run st) ∧
    Refines st a ((copyElemT (viewOf st a) t).map Option.toList)
      ((configSettingCopyElem fuel a (some c)).run st)

theorem copyAggregate_refines {fuel : ℕ} {st : Store} {a : Option ℕ} {src : ℕ}
    {n : Option SettingName} {k : AggKind} {ts : List ConfigTree}
    (ih : ∀ t ∈ ts, StepRefines fuel t) (hsrc : Denotes st src (.aggregate n k ts))
    (ha : ValidDest st a) (hsep : ∀ p, a = some p → (viewOf st a).add n k.type ≠ none →
      ¬ Reach st src p) :
    Refines st a
      ((copyAggregateT (viewOf st a) n k fun d => copyChildrenT (k = .group) d ts).map Option.toList)
      ((configSettingCopyAggregate (fuel + 1) a (some src)).run st) := by
  obtain ⟨s, cs, hs, hn, hv, hcs⟩ := hsrc
  have hsrc_lt : src < st.length := (List.getElem?_eq_some_iff.mp hs).1
  have hg : decide (s.value.type = .group) = decide (k = .group) := by
    rw [hv]; cases k <;> rfl
  have hstep : ∀ t ∈ ts, ∀ st a c, Denotes st c t → ValidDest st a →
      (∀ p, a = some p → ¬ Reach st c p) →
      Refines st a ((if s.value.type = .group then copySimpleT (viewOf st a) t
          else copyElemT (viewOf st a) t).map Option.toList)
        ((if s.value.type = .group then configSettingCopySimple fuel a (some c)
          else configSettingCopyElem fuel a (some c)).run st) := fun t ht st a c hc ha hsep => by
    obtain ⟨h₁, h₂⟩ := ih t ht st a c hc ha hsep
    split_ifs <;> assumption
  have htype : s.value.type = k.type := by rw [hv]; simp
  have hlen : 0 + s.value.children.length = s.value.children.length := Nat.zero_add _
  have hcs0 : DenotesAll st (s.value.children.drop 0) ts := by simpa [hv] using hcs
  have hnull := forM_refines src hstep s.value.children.length 0 st none ts hs hlen hcs0
    (fun _ hu => hu) (fun p hp => nomatch hp) (fun p hp => nomatch hp)
  rw [hg] at hnull
  simp only [configSettingCopyAggregate, StateT.run_bind, deref_run hs, except_ok_bind, hn,
    List.range_eq_range']
  cases a with
  | none =>
    simp only [configSettingAdd_run_none, except_ok_bind, configSettingLength_run hs, viewOf,
      copyAggregateT, DestView.add]
    exact refines_of_null_dest hnull fun _ h => copyChildrenT_null h
  | some p =>
    obtain ⟨hlt, -⟩ := ha p rfl
    obtain ⟨ps, hps⟩ : ∃ ps, st[p]? = some ps := ⟨_, List.getElem?_eq_getElem hlt⟩
    rw [configSettingAdd_run hps]
    simp only [viewOf_some hps, copyAggregateT, DestView.add, ← htype]
    by_cases hadm : admits ps.value.type (st.kids ps.value.children) n s.value.type
    · have hsep₀ : ¬ Reach st src p :=
        hsep p rfl (by simp [viewOf_some hps, DestView.add, ← htype, hadm])
      have hsrc_p : src ≠ p := fun h => hsep₀ (h ▸ .refl)
      have hs1 : (st.insert p ps ⟨if ps.value.type = .group then n else none,
          .initial s.value.type, .default, some p⟩)[src]? = some s := by
        rw [getElem?_insert_of_lt _ _ hsrc_lt hsrc_p, hs]
      simp only [hadm, if_true, except_ok_bind, configSettingLength_run hs1]
      have hsame : ∀ c ∈ s.value.children.drop 0, ∀ q, Reach st c q →
          (st.insert p ps ⟨if ps.value.type = .group then n else none,
            .initial s.value.type, .default, some p⟩)[q]? = st[q]? := by
        intro c hc q hq
        obtain ⟨u, -, hu⟩ := hcs0.mem hc
        refine getElem?_insert_of_lt _ _ (hu.reach_lt hq) fun hqp => hsep₀ ?_
        exact hqp ▸ Reach.of_child hs (by simpa using hc) hq
      have hloop := forM_refines src hstep s.value.children.length 0 _ (some st.length) ts hs1 hlen
        (hcs0.frame hsame) (fun _ hu => hu)
        (fun q hq => by
          cases hq
          refine ⟨by simp, fun s' hs' => ?_⟩
          rw [getElem?_insert_length] at hs'
          cases hs'
          simp)
        (fun q hq => by
          cases hq
          refine ⟨by omega, fun c hc hr => ?_⟩
          obtain ⟨u, -, hu⟩ := hcs0.mem hc
          have := hu.reach_lt (Reach.frame (hsame c hc) hr)
          omega)
      rw [viewOf_some (getElem?_insert_length _ _ _ _), hg] at hloop
      simp only [Store.kids, List.filterMap_nil, ConfigValue.children_initial,
        ConfigValue.type_initial] at hloop
      refine hloop.map fun us st' _ hgrow => ?_
      rw [htype, AggKind.initial_type] at hgrow
      exact Grows.insert_aggregate hps (admits_isAggregate hadm) hgrow
    · simp only [hadm, Bool.false_eq_true, if_false, except_ok_bind, configSettingLength_run hs]
      exact refines_of_null_dest hnull fun _ h => copyChildrenT_null h

/-- Every source tree, with a budget above twice its height. -/
theorem stepRefines : ∀ (t : ConfigTree) (fuel : ℕ), 2 * t.height + 1 < fuel → StepRefines fuel t := by
  intro t
  induction t using ConfigTree.ind with
  | scalar n v =>
    intro fuel hf st a c hc ha _
    obtain ⟨f, rfl⟩ : ∃ f, fuel = f + 1 := ⟨fuel - 1, by omega⟩
    exact ⟨copySimple_scalar hc ha f, copyElem_scalar hc ha f⟩
  | aggregate n k ts ih =>
    intro fuel hf st a c hc ha hsep
    simp only [height] at hf
    obtain ⟨f, rfl⟩ : ∃ f, fuel = f + 2 := ⟨fuel - 2, by omega⟩
    have hagg := copyAggregate_refines
      (fun t ht => ih t ht f (by have := height_le_heightAll ht; omega)) hc ha
      fun p hp _ => hsep p hp
    obtain ⟨s, cs, hs, -, hv, -⟩ := hc
    simp only [configSettingCopySimple, configSettingCopyElem, StateT.run_bind, deref_run hs,
      except_ok_bind, hv, AggKind.type_value, AggKind.isAggregate_type, if_true,
      copySimpleT_aggregate, copyElemT_aggregate]
    exact ⟨hagg, hagg⟩

/-- `config_setting_copy` on a destination that is neither a group nor a list. -/
theorem configSettingCopy_run_false {fuel : ℕ} {st : Store} {P src : ℕ} {p : Setting}
    (hP : st[P]? = some p) (hguard : p.value.type ≠ .group ∧ p.value.type ≠ .list) :
    (configSettingCopy fuel P src).run st = .ok (false, st) := by
  simp [configSettingCopy, StateT.run_bind, deref_run hP, hguard]

/-- The run `r` of `config_setting_copy` under `a` against the copy `o` on
trees: the same fault, or `CONFIG_TRUE` and a store grown by the copy. -/
def RefinesCopy (st : Store) (a : Option ℕ) :
    Except Fault (Option ConfigTree) → Except Fault (Bool × Store) → Prop
  | .error e, r => r = .error e
  | .ok t, r => ∃ st', r = .ok (true, st') ∧ Grows st st' a t.toList

theorem refines_then_true {st : Store} {a : Option ℕ} {o : Except Fault (Option ConfigTree)}
    {x : Exec Unit} (h : Refines st a (o.map Option.toList) (x.run st)) :
    RefinesCopy st a o ((do x; pure true : Exec Bool).run st) := by
  cases o with
  | error e => simp only [Refines, except_map_error'] at h; simp [RefinesCopy, StateT.run_bind, h]
  | ok r =>
    obtain ⟨st', hr, hg⟩ := h
    exact ⟨st', by simp [StateT.run_bind, hr], hg⟩

/-- `config_setting_copy` on a group or a list is the copy on trees, then
`CONFIG_TRUE`: for a source `P` takes, outside the source's subtree, and for
one it refuses, wherever `P` lies. -/
theorem configSettingCopy_refines {fuel : ℕ} {st : Store} {P src : ℕ} {p : Setting}
    {t : ConfigTree} (hP : st[P]? = some p) (hkids : ∀ c ∈ p.value.children, c < st.length)
    (hguard : p.value.type = .group ∨ p.value.type = .list) (hsrc : Denotes st src t)
    (hsep : (viewOf st (some P)).add t.name t.type ≠ none → ¬ Reach st src P)
    (hf : 2 * t.height + 1 < fuel) :
    RefinesCopy st (some P) (copySimpleT (viewOf st (some P)) t)
      ((configSettingCopy fuel P src).run st) := by
  have ha : ValidDest st (some P) := fun q hq => by
    cases hq
    exact ⟨(List.getElem?_eq_some_iff.mp hP).1, fun s hs => by rw [hP] at hs; cases hs; exact hkids⟩
  have hstep : Refines st (some P) ((copySimpleT (viewOf st (some P)) t).map Option.toList)
      ((if t.type.isAggregate then configSettingCopyAggregate fuel (some P) (some src)
        else configSettingCopySimple fuel (some P) (some src)).run st) := by
    cases t with
    | scalar n v =>
      obtain ⟨f, rfl⟩ : ∃ f, fuel = f + 1 := ⟨fuel - 1, by omega⟩
      simpa [ConfigTree.type] using copySimple_scalar hsrc ha f
    | aggregate n k ts =>
      simp only [height] at hf
      obtain ⟨f, rfl⟩ : ∃ f, fuel = f + 1 := ⟨fuel - 1, by omega⟩
      simpa [ConfigTree.type] using copyAggregate_refines
        (fun u hu => stepRefines u f (by have := height_le_heightAll hu; omega)) hsrc ha
          fun q hq h => by cases hq; exact hsep h
  obtain ⟨s, hs, -, hty⟩ := hsrc.exists_setting
  have hnot : ¬ (p.value.type ≠ .group ∧ p.value.type ≠ .list) := by tauto
  simp only [configSettingCopy, StateT.run_bind, deref_run hP, except_ok_bind, hnot, if_false,
    StateT.run_pure, except_pure, deref_run hs, hty]
  cases hb : t.type.isAggregate <;>
    simp only [hb, if_true, Bool.false_eq_true, if_false, StateT.run_pure, except_pure,
      except_ok_bind] at hstep ⊢ <;>
    exact refines_then_true hstep

end LibConfig
