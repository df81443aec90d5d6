import LibConfig.CopyRefine
import Mathlib.Data.List.Nodup

/-!
Well-formed settings in the store.

`Store.WellFormedAt st r` reads the invariants of the data model off the store,
one setting at a time, below `r`. On a tree the store holds it is
`ConfigTree.wellFormed`, and it survives what `config_setting_copy` does to the
store: appending a well-formed tree whose name and type fit its new parent.
-/

namespace LibConfig

open ConfigTree

/-- The invariants of the data model on the children of a setting of type
`pt`, read from their names and types. -/
def childrenFit : ConfigType → List (Option SettingName × ConfigType) → Bool
  | .group, kids => kids.all (·.1.isSome) && decide (kids.map (·.1)).Nodup
  | .array, kids => kids.all fun k => k.1.isNone && k.2.isScalar && kids.head?.all (·.2 == k.2)
  | .list, kids => kids.all (·.1.isNone)
  | _, _ => true

@[simp] theorem childrenFit_nil (pt : ConfigType) : childrenFit pt [] = true := by
  cases pt <;> rfl

/-- A child that the container admits keeps the children fitting. -/
theorem childrenFit_push {pt : ConfigType} {kids : List (Option SettingName × ConfigType)}
    {n : Option SettingName} {t : ConfigType} (hadm : admits pt kids n t) (hfit : childrenFit pt kids) :
    childrenFit pt (kids ++ [(if pt = .group then n else none, t)]) := by
  cases pt with
  | group =>
    simp only [admits, Bool.and_eq_true, List.all_eq_true, bne_iff_ne, ne_eq] at hadm
    simp only [childrenFit, Bool.and_eq_true, List.all_eq_true, decide_eq_true_eq] at hfit ⊢
    refine ⟨fun k hk => ?_, ?_⟩
    · rcases List.mem_append.mp hk with hk | hk
      · exact hfit.1 k hk
      · simp only [List.mem_singleton] at hk; subst hk; exact hadm.1
    · rw [List.map_append, List.nodup_append]
      refine ⟨hfit.2, List.nodup_singleton _, ?_⟩
      simp only [List.map_cons, List.map_nil, if_true, List.disjoint_singleton, List.mem_map,
        not_exists, not_and]
      exact fun k hk => hadm.2 k hk
  | array =>
    cases kids with
    | nil => simpa [childrenFit, admits] using hadm
    | cons k0 ks =>
      have hhead : ((k0 :: ks) ++ [(none, t)]).head? = some k0 := rfl
      simp only [admits, Bool.and_eq_true, List.head?_cons, Option.all_some] at hadm
      simp only [childrenFit, List.all_eq_true, List.head?_cons, Option.all_some, hhead,
        Bool.and_eq_true, reduceCtorEq, if_false] at hfit ⊢
      intro k hk
      rcases List.mem_append.mp hk with hk | hk
      · exact hfit k hk
      · simp only [List.mem_singleton] at hk
        subst hk
        exact ⟨⟨rfl, hadm.1⟩, hadm.2⟩
  | list =>
    simp only [childrenFit] at hfit ⊢
    simp [List.all_append, hfit]
  | _ => simp [admits] at hadm

theorem all_map_kids (ts : List ConfigTree) (p : Option SettingName × ConfigType → Bool) :
    (ts.map fun t => (t.name, t.type)).all p = ts.all fun t => p (t.name, t.type) := by
  induction ts <;> simp_all

theorem AggKind.fits_eq (k : AggKind) (ts : List ConfigTree) :
    k.fits ts = childrenFit k.type (ts.map fun t => (t.name, t.type)) := by
  cases k <;> simp [AggKind.fits, childrenFit, AggKind.type, all_map_kids, Function.comp_def]
  cases ts <;> rfl

/-- The setting at `q` is there and is not of type `none`, and its children are
there and fit it. -/
def Store.SettingFits (st : Store) (q : ℕ) : Prop :=
  ∃ s, st[q]? = some s ∧ s.value.type ≠ .none ∧ (∀ c ∈ s.value.children, c < st.length) ∧
    childrenFit s.value.type (st.kids s.value.children)

/-- Every setting of the tree at `r` is well formed. -/
def Store.WellFormedAt (st : Store) (r : ℕ) : Prop :=
  ∀ q, Reach st r q → st.SettingFits q

theorem Store.wellFormedAt_iff {st : Store} {r : ℕ} {s : Setting} (hs : st[r]? = some s) :
    st.WellFormedAt r ↔ st.SettingFits r ∧ ∀ c ∈ s.value.children, st.WellFormedAt c := by
  refine ⟨fun h => ⟨h r .refl, fun c hc q hq => h q (Reach.of_child hs hc hq)⟩,
    fun ⟨hr, hcs⟩ q hq => ?_⟩
  rcases hq.head with rfl | ⟨s', c, hs', hc, hq⟩
  · exact hr
  · rw [hs] at hs'
    cases hs'
    exact hcs c hc q hq

theorem DenotesAll.kids {st : Store} {cs : List ℕ} {ts : List ConfigTree}
    (h : DenotesAll st cs ts) : st.kids cs = ts.map fun t => (t.name, t.type) := by
  induction cs generalizing ts with
  | nil => cases ts <;> simp_all [DenotesAll, Store.kids]
  | cons c cs ih =>
    cases ts with
    | nil => simp [DenotesAll] at h
    | cons t ts =>
      obtain ⟨s, hs, hn, hty⟩ := h.1.exists_setting
      have := ih h.2
      simp only [Store.kids] at this ⊢
      simp [hs, hn, hty, this]

theorem DenotesAll.forall_iff {st : Store} {cs : List ℕ} {ts : List ConfigTree}
    {P : ℕ → Prop} {Q : ConfigTree → Prop} (h : DenotesAll st cs ts)
    (hPQ : ∀ c, ∀ t ∈ ts, Denotes st c t → (P c ↔ Q t)) : (∀ c ∈ cs, P c) ↔ ∀ t ∈ ts, Q t := by
  induction cs generalizing ts with
  | nil => cases ts <;> simp_all [DenotesAll]
  | cons c cs ih =>
    cases ts with
    | nil => simp [DenotesAll] at h
    | cons t ts =>
      simp only [List.forall_mem_cons, hPQ c t (List.mem_cons_self _ _) h.1,
        ih h.2 fun c u hu => hPQ c u (List.mem_cons_of_mem _ hu)]

/-- On a tree the store holds, the invariants read setting by setting are the
invariants of the tree. -/
theorem Denotes.wellFormedAt_iff {st : Store} :
    ∀ {t : ConfigTree} {r : ℕ}, Denotes st r t → (st.WellFormedAt r ↔ t.wellFormed) := by
  intro t
  induction t using ConfigTree.ind with
  | scalar n v =>
    rintro r ⟨s, hs, -, hv, -⟩
    simp [Store.wellFormedAt_iff hs, Store.SettingFits, hs, hv, wellFormed, Store.kids]
    rfl
  | aggregate n k ts ih =>
    rintro r ⟨s, cs, hs, -, hv, hcs⟩
    have hlt : ∀ c ∈ cs, c < st.length := fun c hc => by
      obtain ⟨u, -, hu⟩ := hcs.mem hc
      exact hu.lt_length
    rw [Store.wellFormedAt_iff hs, hv, AggKind.children_value,
      hcs.forall_iff fun c u hu hc => ih u hu hc]
    have hk : k.type ≠ .none := by cases k <;> simp [AggKind.type]
    simp [Store.SettingFits, hs, hv, hk, hcs.kids, wellFormed, wellFormedAll_iff, AggKind.fits_eq]
    exact fun _ _ => hlt

/-! ### Appending a tree -/

/-- A path of `st'` from `r` runs in `st`, or enters the tree appended at `c`. -/
theorem Grows.reach_cases {st st' : Store} {r P c : ℕ} {p : Setting} {u : ConfigTree}
    (hg : Grows st st' (some P) [u]) (hD : st.WellFormedAt r) (hp : st[P]? = some p)
    (hP' : st'[P]? = some { p with value := p.value.append [c] })
    (hch : (p.value.append [c]).children = p.value.children ++ [c]) :
    ∀ q, Reach st' r q → Reach st r q ∨ Reach st' c q := by
  intro q hq
  induction hq with
  | refl => exact .inl .refl
  | @child b d s' _ hs' hd ih =>
    rcases ih with hb | hb
    · obtain ⟨s, hs, -⟩ := hD b hb
      by_cases hbP : b = P
      · rw [hbP, hP'] at hs'
        cases hs'
        rcases List.mem_append.mp (hch ▸ hd) with hd | hd
        · exact .inl (.child hb (hbP ▸ hp) hd)
        · exact .inr (List.mem_singleton.mp hd ▸ .refl)
      · rw [hg.frame b (List.getElem?_eq_some_iff.mp hs).1 (by simpa using hbP), hs] at hs'
        cases hs'
        exact .inl (.child hb hs hd)
    · exact .inr (.child hb hs' hd)

/-- Appending to `P` a well-formed tree `u` whose name and type fit `P`'s
children keeps every tree of the store well formed. -/
theorem Grows.wellFormedAt {st st' : Store} {r P : ℕ} {p : Setting} {u : ConfigTree}
    (hg : Grows st st' (some P) [u]) (hD : st.WellFormedAt r) (hp : st[P]? = some p)
    (hu : u.wellFormed)
    (hfit : childrenFit p.value.type (st.kids p.value.children ++ [(u.name, u.type)])) :
    st'.WellFormedAt r := by
  obtain ⟨cs, hcs, -, hpar⟩ := hg.added
  obtain ⟨c, rfl⟩ : ∃ c, cs = [c] := by
    match cs, hcs with
    | [c], _ => exact ⟨c, rfl⟩
  obtain ⟨hP', hch⟩ := hpar P p rfl hp
  have hlen : st.length ≤ st'.length := by have := hg.length_eq; omega
  have hold : ∀ q, st.SettingFits q → st'.SettingFits q := by
    rintro q ⟨s, hs, hty, hlt, hfq⟩
    have hq : q < st.length := (List.getElem?_eq_some_iff.mp hs).1
    by_cases hqP : q = P
    · rw [hqP, hp] at hs
      cases hs
      refine ⟨_, hqP ▸ hP', by simpa using hty, ?_, ?_⟩
      · intro d hd
        rcases List.mem_append.mp (hch ▸ hd) with hd | hd
        · have := hlt d hd; omega
        · exact List.mem_singleton.mp hd ▸ hcs.1.lt_length
      · rw [ConfigValue.type_append, hch, Store.kids, List.filterMap_append, ← Store.kids,
          ← Store.kids, hg.kids_eq hlt, hcs.kids]
        exact hfit
    · refine ⟨s, (hg.frame q hq (by simpa using hqP)).trans hs, hty,
        fun d hd => by have := hlt d hd; omega, ?_⟩
      rw [hg.kids_eq hlt]
      exact hfq
  have hnew : st'.WellFormedAt c := hcs.1.wellFormedAt_iff.mpr hu
  intro q hq
  rcases hg.reach_cases hD hp hP' hch q hq with hq | hq
  · exact hold q (hD q hq)
  · exact hnew q hq

end LibConfig
