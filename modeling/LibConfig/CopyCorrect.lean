import LibConfig.WellFormed

/-!
What `config_setting_copy` does to the store.

A well-formed source copied into a group or a list that admits it is cloned,
and the trees of a well-formed store stay well formed. The type guard of `config_setting_copy` alone does not make the copy
safe: a source whose name the group already has makes `config_setting_add`
return `NULL`, and the setters then dereference it. Nor does it make the copy
end: the aggregate loop reads the length of the source after adding the new
aggregate, so a source that contains its destination can grow for ever.

Outside the source's subtree the copy on the store is the copy on trees
(`configSettingCopy_simulates`), whatever the source: it faults only by setting
a value through `NULL`, and a second copy of one source into one group adds
nothing.
-/

namespace LibConfig

open ConfigTree

/-! ### Copying into a destination that admits the source -/

theorem Store.mem_kids {st : Store} {cs : List ℕ} {k : Option SettingName × ConfigType} :
    k ∈ st.kids cs ↔ ∃ c ∈ cs, ∃ s, st[c]? = some s ∧ (s.name, s.value.type) = k := by
  simp [Store.kids, Option.map_eq_some']

theorem name_ne_of_fresh {st : Store} {cs : List ℕ} {n : Option SettingName}
    (hfresh : ∀ c ∈ cs, st[c]?.bind Setting.name ≠ n) : ∀ k ∈ st.kids cs, k.1 ≠ n := by
  intro k hk
  obtain ⟨c, hc, s, hs, rfl⟩ := Store.mem_kids.mp hk
  simpa [hs] using hfresh c hc

/-- The name of the copy of `t` under `p`: `t`'s own in a group, none in a list. -/
def copyName (p : Setting) (t : ConfigTree) : Option SettingName :=
  if p.value.type = .group then t.name else none

/-- A group or a list `p` admits `t`, when a group only if no child of `p` has
`t`'s name. -/
theorem admits_kids_of_fresh {st : Store} {p : Setting} {t : ConfigTree}
    (hguard : p.value.type = .group ∨ p.value.type = .list)
    (hname : p.value.type = .group →
      t.name.isSome ∧ ∀ c ∈ p.value.children, st[c]?.bind Setting.name ≠ t.name) :
    admits p.value.type (st.kids p.value.children) t.name t.type := by
  rcases hguard with hg | hg
  · obtain ⟨hsome, hfresh⟩ := hname hg
    simpa [admits, hg, hsome] using fun a b h => name_ne_of_fresh hfresh (a, b) h
  · simp [admits, hg]

theorem admits_of_fresh {st : Store} {P : ℕ} {p : Setting} {t : ConfigTree}
    (hP : st[P]? = some p) (hguard : p.value.type = .group ∨ p.value.type = .list)
    (hname : p.value.type = .group →
      t.name.isSome ∧ ∀ c ∈ p.value.children, st[c]?.bind Setting.name ≠ t.name) :
    (viewOf st (some P)).add t.name t.type = some (copyName p t) := by
  simp [viewOf_some hP, DestView.add, admits_kids_of_fresh hguard hname, copyName]

/-- The copy of a well-formed `t` into a group or a list that admits it ends
with `CONFIG_TRUE`, having appended the clone of `t` to `P`. -/
theorem configSettingCopy_grows {st : Store} {P src fuel : ℕ} {p : Setting} {t : ConfigTree}
    (hP : st[P]? = some p) (hkids : ∀ c ∈ p.value.children, c < st.length)
    (hguard : p.value.type = .group ∨ p.value.type = .list)
    (hsrc : Denotes st src t) (hwf : t.wellFormed) (hsep : ¬ Reach st src P)
    (hname : p.value.type = .group →
      t.name.isSome ∧ ∀ c ∈ p.value.children, st[c]?.bind Setting.name ≠ t.name)
    (hf : 2 * t.height + 1 < fuel) :
    ∃ st', (configSettingCopy fuel P src).run st = .ok (true, st') ∧
      Grows st st' (some P) [t.cloneAs (copyName p t)] := by
  have hadd := admits_of_fresh hP hguard hname
  have h := configSettingCopy_refines hP hkids hguard hsrc (fun _ => hsep) hf
  rwa [(copiesClone_of_wellFormed t hwf).1 _ _ hadd] at h

theorem Grows.single {st st' : Store} {P : ℕ} {p : Setting} {u : ConfigTree}
    (hg : Grows st st' (some P) [u]) (hP : st[P]? = some p) :
    ∃ c, st'[P]? = some { p with value := p.value.push c } ∧ Denotes st' c u ∧
      (∀ q, Reach st' c q → st.length ≤ q) ∧ ∀ q < st.length, q ≠ P → st'[q]? = st[q]? := by
  obtain ⟨cs, hcs, hfresh, hpar⟩ := hg.added
  obtain ⟨c, rfl⟩ : ∃ c, cs = [c] := by
    match cs, hcs with
    | [c], _ => exact ⟨c, rfl⟩
  exact ⟨c, (hpar P p rfl hP).1, hcs.1, hfresh c (List.mem_singleton_self c),
    fun q hq hqP => hg.frame q hq (by simpa using hqP)⟩

/-- A well-formed source `src`, copied into a group or a list `P` outside its
subtree, and when `P` is a group under a name no child of `P` has, gives
`CONFIG_TRUE`: `P` gains one last child `c`, the clone of `src`, made of new
settings, and no other setting changes. -/
theorem configSettingCopy_clones {st : Store} {P src fuel : ℕ} {p : Setting} {t : ConfigTree}
    (hlinked : st.WellLinked) (hP : st[P]? = some p)
    (hguard : p.value.type = .group ∨ p.value.type = .list)
    (hsrc : Denotes st src t) (hwf : t.wellFormed) (hsep : ¬ Reach st src P)
    (hname : p.value.type = .group →
      t.name.isSome ∧ ∀ c ∈ p.value.children, st[c]?.bind Setting.name ≠ t.name)
    (hf : 2 * t.height + 1 < fuel) :
    ∃ st' c, (configSettingCopy fuel P src).run st = .ok (true, st') ∧
      st'[P]? = some { p with value := p.value.push c } ∧
      Denotes st' c (t.cloneAs (if p.value.type = .group then t.name else none)) ∧
      (∀ q, Reach st' c q → st.length ≤ q) ∧
      ∀ q < st.length, q ≠ P → st'[q]? = st[q]? := by
  obtain ⟨st', hrun, hg⟩ :=
    configSettingCopy_grows hP (hlinked.children_lt hP) hguard hsrc hwf hsep hname hf
  obtain ⟨c, hc⟩ := hg.single hP
  exact ⟨st', c, hrun, hc⟩

/-- A root group holding an empty group `p` and a group `s` with one
hexadecimal integer `x`. -/
def copyDemo : Store :=
  [⟨none, .group [1, 2], .default, none⟩,
   ⟨some ⟨"p", by decide⟩, .group [], .default, some 0⟩,
   ⟨some ⟨"s", by decide⟩, .group [3], .default, some 0⟩,
   ⟨some ⟨"x", by decide⟩, .int 5, .hex, some 2⟩]

def copyDemoS : ConfigTree :=
  .aggregate (some ⟨"s", by decide⟩) .group [.scalar (some ⟨"x", by decide⟩) (.int 5 .hex)]

theorem copyDemo_denotes_s : Denotes copyDemo 2 copyDemoS :=
  ⟨_, [3], rfl, rfl, rfl, ⟨_, rfl, rfl, rfl, fun f hf => by cases hf; rfl⟩, trivial⟩

theorem copyDemo_reach_x {q : ℕ} (h : Reach copyDemo 3 q) : q = 3 :=
  h.eq_of_children_nil
    (show copyDemo[3]? = some ⟨some ⟨"x", by decide⟩, .int 5, .hex, some 2⟩ from rfl) rfl

theorem copyDemo_not_reach_p : ¬ Reach copyDemo 2 1 := by
  intro h
  rcases h.head with h | ⟨s, c, hs, hc, h⟩
  · cases h
  · cases hs
    obtain rfl : c = 3 := by simpa [copyDemo, ConfigValue.children] using hc
    exact absurd (copyDemo_reach_x h) (by decide)

theorem configSettingCopy_clones_demo :
    ∃ st' c, (configSettingCopy 4 1 2).run copyDemo = .ok (true, st') ∧
      st'[1]? = some ⟨some ⟨"p", by decide⟩, .group [c], .default, some 0⟩ ∧
      Denotes st' c (copyDemoS.cloneAs (some ⟨"s", by decide⟩)) ∧
      (∀ q, Reach st' c q → copyDemo.length ≤ q) ∧
      ∀ q < copyDemo.length, q ≠ 1 → st'[q]? = copyDemo[q]? :=
  configSettingCopy_clones (by decide)
    (show copyDemo[1]? = some ⟨some ⟨"p", by decide⟩, .group [], .default, some 0⟩ from rfl)
    (.inl rfl) copyDemo_denotes_s (by decide)
    copyDemo_not_reach_p (fun _ => ⟨rfl, by decide⟩) (by decide)

/-! ### The type guard is not enough -/

def copyDemoX : ConfigTree := .scalar (some ⟨"x", by decide⟩) (.int 5 .hex)

def copyDemoRoot : ConfigTree :=
  .aggregate none .group [.aggregate (some ⟨"p", by decide⟩) .group [], copyDemoS]

theorem copyDemo_denotes_root : Denotes copyDemo 0 copyDemoRoot :=
  ⟨_, [1, 2], rfl, rfl, rfl, ⟨_, [], rfl, rfl, rfl, trivial⟩, copyDemo_denotes_s, trivial⟩

theorem copyDemo_wellFormedAt : copyDemo.WellFormedAt 0 :=
  copyDemo_denotes_root.wellFormedAt_iff.mpr (by decide)

/-- An empty list copied into itself: `config_setting_add` puts a new empty
list `st.length` under it, the loop then reads one child, which is that new
list, and copies it into itself, one level down, without end. -/
theorem copyAggregate_into_itself : ∀ (fuel : ℕ) {st : Store} {x : ℕ} {s : Setting},
    st[x]? = some s → s.value = .list [] →
    (configSettingCopyAggregate fuel (some x) (some x)).run st = .error .outOfFuel ∧
      (configSettingCopyElem fuel (some x) (some x)).run st = .error .outOfFuel := by
  intro fuel
  induction fuel with
  | zero => intro st x s _ _; exact ⟨rfl, rfl⟩
  | succ f ih =>
    intro st x s hs hv
    have hty : s.value.type = .list := by rw [hv]; rfl
    have hx : (st.insert x s ⟨none, .list [], .default, some x⟩)[x]? =
        some { s with value := .list [st.length] } := by
      rw [getElem?_insert_self _ _ (List.getElem?_eq_some_iff.mp hs).1, hv]
      rfl
    have hnew := (ih (getElem?_insert_length st x s ⟨none, .list [], .default, some x⟩) rfl).2
    refine ⟨?_, ?_⟩
    · simp only [configSettingCopyAggregate, StateT.run_bind, deref_run hs, except_ok_bind,
        configSettingAdd_run hs, hty, admits, if_true, ConfigValue.initial, reduceCtorEq,
        if_false, configSettingLength_run hx, ConfigValue.children, List.length_singleton,
        List.range_succ, List.range_zero, List.nil_append, List.forM_cons', configSettingGetElem_run hx,
        List.getElem?_cons_zero]
      simp [hnew]
    · simp [configSettingCopyElem, StateT.run_bind, deref_run hs, hty, ConfigType.isAggregate,
        (ih hs hv).1]

/-- A list holding nothing, copied into itself: the store is well linked and
the destination is a list, which the guard accepts, and the run uses up every
bound on the depth of calls. -/
theorem configSettingCopy_into_itself_diverges :
    Store.WellLinked [⟨none, .list [], .default, none⟩] ∧
    ([⟨none, .list [], .default, none⟩] : Store)[0]?.map (·.value.type) = some .list ∧
    ∀ fuel, (configSettingCopy fuel 0 0).run [⟨none, .list [], .default, none⟩] =
      .error .outOfFuel := by
  refine ⟨by decide, rfl, fun fuel => ?_⟩
  have h0 : ([⟨none, .list [], .default, none⟩] : Store)[0]? =
      some ⟨none, .list [], .default, none⟩ := rfl
  simp [configSettingCopy, StateT.run_bind, deref_run h0, ConfigValue.type, ConfigType.isAggregate,
    (copyAggregate_into_itself fuel h0 rfl).1]

/-- When `P` lies outside the source's subtree, with a bound on the depth of
calls above twice the height of the source, the copy never runs out of calls: it
gives `CONFIG_FALSE` or `CONFIG_TRUE` having added
at most as many settings as the source has, or it dereferences `NULL`. -/
theorem configSettingCopy_terminates {st : Store} {P src fuel : ℕ} {t : ConfigTree}
    (hlinked : st.WellLinked) (hP : P < st.length) (hsrc : Denotes st src t)
    (hsep : ¬ Reach st src P) (hf : 2 * t.height + 1 < fuel) :
    (∃ b st', (configSettingCopy fuel P src).run st = .ok (b, st') ∧
        st'.length ≤ st.length + t.size) ∨
      (configSettingCopy fuel P src).run st = .error .nullDeref := by
  obtain ⟨p, hp⟩ : ∃ p, st[P]? = some p := ⟨_, List.getElem?_eq_getElem hP⟩
  by_cases hguard : p.value.type = .group ∨ p.value.type = .list
  · have h := configSettingCopy_refines hp (hlinked.children_lt hp) hguard hsrc (fun _ => hsep) hf
    have hb := (copyT_bounded t (viewOf st (some P))).1
    revert h hb
    cases copySimpleT (viewOf st (some P)) t with
    | error e =>
      intro h hb
      simp only [RefinesCopy, Bounded] at h hb
      exact .inr (hb ▸ h)
    | ok r =>
      rintro ⟨st', hrun, hg⟩ hb
      have hlen := hg.length_eq
      simp only [Bounded] at hb
      exact .inl ⟨true, st', hrun, by omega⟩
  · exact .inl ⟨false, st, configSettingCopy_run_false hp (by tauto), by omega⟩

theorem configSettingCopy_terminates_demo :
    (∃ b st', (configSettingCopy 4 1 2).run copyDemo = .ok (b, st') ∧
        st'.length ≤ copyDemo.length + copyDemoS.size) ∨
      (configSettingCopy 4 1 2).run copyDemo = .error .nullDeref :=
  configSettingCopy_terminates (by decide) (by decide) copyDemo_denotes_s copyDemo_not_reach_p
    (by decide)

/-! ### A source the destination refuses -/

/-- When the group `P` refuses the source at the top, because the source has
no name, as the root setting has when `main` copies one configuration into
another, or because `P` already has a child of its name, the copy adds nothing,
wherever `P` lies, inside the source included: `CONFIG_TRUE` with the store as
it was when the source holds no value, and a `NULL` dereference otherwise. -/
theorem configSettingCopy_refused {st : Store} {P src fuel : ℕ} {p : Setting} {t : ConfigTree}
    (hlinked : st.WellLinked) (hP : st[P]? = some p) (hgroup : p.value.type = .group)
    (hsrc : Denotes st src t) (hf : 2 * t.height + 1 < fuel)
    (hname : t.name = none ∨ ∃ k ∈ st.kids p.value.children, k.1 = t.name) :
    (configSettingCopy fuel P src).run st =
      if t.holdsValue then .error .nullDeref else .ok (true, st) := by
  have hadd : (viewOf st (some P)).add t.name t.type = none := by
    rcases hname with h | ⟨⟨n, ty⟩, hk, rfl⟩
    · simp [viewOf_some hP, DestView.add, admits, hgroup, h]
    · simpa [viewOf_some hP, DestView.add, admits, hgroup] using fun _ => ⟨ty, hk⟩
  have h := configSettingCopy_refines hP (hlinked.children_lt hP) (.inl hgroup) hsrc
    (absurd hadd) hf
  rw [copySimpleT_of_add_none hadd, NullCopy] at h
  split_ifs at h ⊢
  · exact h
  · obtain ⟨st', hr, hg⟩ := h
    rw [hr, hg.eq_of_nil]

theorem configSettingCopy_refused_demo :
    (configSettingCopy 6 1 0).run copyDemo = .error .nullDeref :=
  (configSettingCopy_refused (by decide)
    (show copyDemo[1]? = some ⟨some ⟨"p", by decide⟩, .group [], .default, some 0⟩ from rfl) rfl
    copyDemo_denotes_root (show 2 * copyDemoRoot.height + 1 < 6 by decide) (.inl rfl)).trans
    (if_pos (by decide))

/-! ### The copy on trees -/

/-- For every setting `P` of the store outside the source's subtree, with a bound on
calls above twice the height of the source, the copy faults exactly when
`configSettingCopyT` does on what it reads of `P` and the source's tree, and
otherwise returns what that returns. With `CONFIG_FALSE` the store is unchanged;
with `CONFIG_TRUE` the tree `copySimpleT` gives, if any, is appended to `P` as new
settings, and nothing else changes. -/
theorem configSettingCopy_simulates {st : Store} {P src fuel : ℕ} {t : ConfigTree}
    (hlinked : st.WellLinked) (hP : P < st.length) (hsrc : Denotes st src t)
    (hsep : ¬ Reach st src P) (hf : 2 * t.height + 1 < fuel) :
    ((configSettingCopy fuel P src).run st).map Prod.fst =
      configSettingCopyT (viewOf st (some P)) t ∧
    (∀ st', (configSettingCopy fuel P src).run st = .ok (false, st') → st' = st) ∧
    ∀ st', (configSettingCopy fuel P src).run st = .ok (true, st') →
      ∃ r, copySimpleT (viewOf st (some P)) t = .ok r ∧ Grows st st' (some P) r.toList := by
  obtain ⟨p, hp⟩ : ∃ p, st[P]? = some p := ⟨_, List.getElem?_eq_getElem hP⟩
  by_cases hguard : p.value.type = .group ∨ p.value.type = .list
  case neg =>
    rw [configSettingCopy_run_false hp (not_or.mp hguard), viewOf_some hp, configSettingCopyT,
      if_pos (not_or.mp hguard)]
    exact ⟨rfl, fun _ h => (Prod.mk.inj (Except.ok.inj h)).2.symm, fun _ h => by cases h⟩
  case pos =>
    have h := configSettingCopy_refines hp (hlinked.children_lt hp) hguard hsrc (fun _ => hsep) hf
    have hT : configSettingCopyT (viewOf st (some P)) t =
        (copySimpleT (viewOf st (some P)) t).map fun _ => true := by
      rw [viewOf_some hp, configSettingCopyT, if_neg fun hn => hguard.elim hn.1 hn.2]
    rw [hT]
    revert h
    cases copySimpleT (viewOf st (some P)) t with
    | error e =>
      intro (h : _ = _)
      exact ⟨by rw [h]; rfl, fun _ h' => (by rw [h] at h'; cases h'),
        fun _ h' => (by rw [h] at h'; cases h')⟩
    | ok r =>
      rintro ⟨st', hrun, hg⟩
      refine ⟨by rw [hrun]; rfl, fun _ h => (by rw [hrun] at h; cases h), fun _ h => ?_⟩
      rw [hrun] at h
      cases h
      exact ⟨r, rfl, hg⟩

theorem configSettingCopy_simulates_demo :
    ((configSettingCopy 4 1 2).run copyDemo).map Prod.fst =
      configSettingCopyT (viewOf copyDemo (some 1)) copyDemoS ∧
    (∀ st', (configSettingCopy 4 1 2).run copyDemo = .ok (false, st') → st' = copyDemo) ∧
    ∀ st', (configSettingCopy 4 1 2).run copyDemo = .ok (true, st') →
      ∃ r, copySimpleT (viewOf copyDemo (some 1)) copyDemoS = .ok r ∧
        Grows copyDemo st' (some 1) r.toList :=
  configSettingCopy_simulates (by decide) (by decide) copyDemo_denotes_s copyDemo_not_reach_p
    (by decide)

/-- For every setting `P` of the store outside the source's subtree, with a bound on
calls above twice the height of the source, a fault of `config_setting_copy` is a
`NULL` dereference, and it needs a source holding a scalar of a type other than
`CONFIG_TYPE_NONE`: a source of typeless settings and empty aggregates is copied, or
refused, without one. -/
theorem configSettingCopy_fault_holdsValue {st : Store} {P src fuel : ℕ} {t : ConfigTree}
    {e : Fault} (hlinked : st.WellLinked) (hP : P < st.length) (hsrc : Denotes st src t)
    (hsep : ¬ Reach st src P) (hf : 2 * t.height + 1 < fuel)
    (h : (configSettingCopy fuel P src).run st = .error e) : e = .nullDeref ∧ t.holdsValue := by
  obtain ⟨p, hp⟩ : ∃ p, st[P]? = some p := ⟨_, List.getElem?_eq_getElem hP⟩
  by_cases hguard : p.value.type = .group ∨ p.value.type = .list
  case neg => rw [configSettingCopy_run_false hp (not_or.mp hguard)] at h; cases h
  case pos =>
    have hr := configSettingCopy_refines hp (hlinked.children_lt hp) hguard hsrc (fun _ => hsep) hf
    have hb := (copyT_bounded t (viewOf st (some P))).1
    cases hc : copySimpleT (viewOf st (some P)) t with
    | error e' =>
      rw [hc] at hr hb
      have hr' : (configSettingCopy fuel P src).run st = .error e' := hr
      rw [h, Except.error.injEq] at hr'
      subst hr'
      refine ⟨hb, ?_⟩
      by_contra hv
      obtain ⟨r, hok⟩ := (copyT_ok t (by simpa using hv) (viewOf st (some P))).1
      rw [hc] at hok
      cases hok
    | ok r =>
      rw [hc] at hr
      obtain ⟨st', hrun, -⟩ := hr
      rw [hrun] at h
      cases h

theorem configSettingCopy_fault_holdsValue_demo :
    (configSettingCopy 4 2 3).run copyDemo = .error .nullDeref ∧ copyDemoX.holdsValue :=
  ⟨rfl, (configSettingCopy_fault_holdsValue (by decide) (show 2 < copyDemo.length by decide)
    (show Denotes copyDemo 3 copyDemoX from ⟨_, rfl, rfl, rfl, fun f hf => by cases hf; rfl⟩)
    (fun h => absurd (copyDemo_reach_x h) (by decide)) (show 2 * copyDemoX.height + 1 < 4 by decide)
    rfl).2⟩

/-! ### Copying twice -/

/-- Once `config_setting_copy` has copied a source into a group, outside the
source's subtree, copying it there again adds nothing: the first copy gave the group
a child of the source's name, or was refused itself. The second gives `CONFIG_TRUE`
with the store as the first left it when the source holds no value, and a `NULL`
dereference otherwise. -/
theorem configSettingCopy_repeat {st st₁ : Store} {P src fuel : ℕ} {p : Setting} {t : ConfigTree}
    (hlinked : st.WellLinked) (hP : st[P]? = some p) (hgroup : p.value.type = .group)
    (hsrc : Denotes st src t) (hsep : ¬ Reach st src P) (hf : 2 * t.height + 1 < fuel)
    (hrun : (configSettingCopy fuel P src).run st = .ok (true, st₁)) :
    (configSettingCopy fuel P src).run st₁ =
      if t.holdsValue then .error .nullDeref else .ok (true, st₁) := by
  have ha : ValidDest st (some P) := fun q hq => by
    cases hq
    exact ⟨(List.getElem?_eq_some_iff.mp hP).1, fun s hs => by
      rw [hP] at hs; cases hs; exact hlinked.children_lt hP⟩
  have hsep' : ∀ q, some P = some q → ¬ Reach st src q := fun q hq => by cases hq; exact hsep
  have h₁ := configSettingCopy_refines hP (hlinked.children_lt hP) (.inl hgroup) hsrc
    (fun _ => hsep) hf
  rw [hrun, viewOf_some hP, hgroup] at h₁
  cases hc : copySimpleT (.setting .group (st.kids p.value.children)) t with
  | error e => rw [hc] at h₁; cases h₁
  | ok r =>
    rw [hc] at h₁
    obtain ⟨st', hst', hg⟩ := h₁
    cases hst'
    obtain ⟨cs, -, -, hpar⟩ := hg.added
    have hP₁ := (hpar P p rfl hP).1
    have hview := hg.viewOf_eq ha
    rw [viewOf_some hP, hgroup] at hview
    have h₂ := configSettingCopy_refines hP₁ ((hg.validDest ha P rfl).2 _ hP₁)
      (.inl (by rw [ConfigValue.type_append, hgroup])) (hg.denotes hsrc hsep')
      (fun _ => hg.not_reach hsrc hsep' P rfl) hf
    rw [hview, copySimpleT_repeat hc, NullCopy] at h₂
    split_ifs at h₂ ⊢
    · exact h₂
    · obtain ⟨st₂, hr, hg₂⟩ := h₂
      rw [hr, hg₂.eq_of_nil]

theorem configSettingCopy_repeat_demo :
    ∃ st₁, (configSettingCopy 4 1 2).run copyDemo = .ok (true, st₁) ∧
      (configSettingCopy 4 1 2).run st₁ = .error .nullDeref :=
  ⟨_, rfl, (configSettingCopy_repeat (by decide)
    (show copyDemo[1]? = some ⟨some ⟨"p", by decide⟩, .group [], .default, some 0⟩ from rfl) rfl
    copyDemo_denotes_s copyDemo_not_reach_p (show 2 * copyDemoS.height + 1 < 4 by decide) rfl).trans
    (if_pos (by decide))⟩

end LibConfig
