import LibConfig.Invariants

/-!
Where a run of `config_setting_copy` writes.

The routines add settings under their destination, then write into the settings
they have just added. So every run that returns leaves every setting of the
store it started from as it was, value and format included, except the
destination, which gains children. `Store.WritesOnly a` (a destination `a`
keeps its shape and every other old setting is unchanged) is a `CopyRel`: what
`config_setting_add` and the element setters return is new, so what the rest of
a routine writes there leaves the old store alone.
-/

namespace LibConfig

/-- `st'` grew from `st` (`Store.Extends`) and every setting of `st` other than
`a` is in `st'` as it was. -/
def Store.WritesOnly (a : Option ℕ) (st st' : Store) : Prop :=
  st.Extends st' ∧ ∀ q < st.length, some q ≠ a → st'[q]? = st[q]?

namespace Store.WritesOnly

variable {a : Option ℕ} {st st₁ st₂ : Store}

theorem refl (a : Option ℕ) (st : Store) : Store.WritesOnly a st st :=
  ⟨.refl st, fun _ _ _ => rfl⟩

theorem trans (h₁ : Store.WritesOnly a st st₁) (h₂ : Store.WritesOnly a st₁ st₂) :
    Store.WritesOnly a st st₂ :=
  ⟨h₁.1.trans h₂.1, fun q hq hqa => by
    rw [h₂.2 q (lt_of_lt_of_le hq h₁.1.1) hqa, h₁.2 q hq hqa]⟩

theorem trans_fresh {b : Option ℕ} (h₁ : Store.WritesOnly a st st₁)
    (h₂ : Store.WritesOnly b st₁ st₂) (hb : ∀ q ∈ b, st.length ≤ q) :
    Store.WritesOnly a st st₂ :=
  ⟨h₁.1.trans h₂.1, fun q hq hqa => by
    rw [h₂.2 q (lt_of_lt_of_le hq h₁.1.1) fun h => absurd (hb q h.symm) (by omega),
      h₁.2 q hq hqa]⟩

end Store.WritesOnly

theorem Store.writesOnly_insert {st : Store} {a : ℕ} {pp : Setting} (s : Setting)
    (hp : st[a]? = some pp) : Store.WritesOnly (some a) st (st.insert a pp s) :=
  ⟨Store.extends_insert s hp, fun _ hq hqa =>
    getElem?_insert_of_lt _ _ hq fun h => hqa (congrArg some h)⟩

/-- The copy's writes under `p` write only under `p`: what follows an insertion
writes into the new setting, which the old store does not hold. -/
theorem copyRel_writesOnly : CopyRel Store.WritesOnly where
  refl := Store.WritesOnly.refl
  trans := Store.WritesOnly.trans
  inserted := by
    rintro p st r st₁ st₂ (⟨rfl, rfl⟩ | ⟨a, pp, n, v, f, rfl, hp, -, -, rfl, rfl⟩) h₂
    · exact (Store.WritesOnly.refl p _).trans_fresh h₂ (by simp)
    · exact (Store.writesOnly_insert _ hp).trans_fresh h₂ (by simp)
  set hs hn hty hkids hpar := ⟨Store.extends_set hs hn hty hkids hpar, fun _ _ hqa =>
    List.getElem?_set_ne fun h => hqa (congrArg some h.symm)⟩

/-- Every run of `config_setting_copy fuel P src` that returns, from every store,
leaves every setting other than `P` exactly as it was, its value and format
included; `P` keeps its name, type and parent and gains children (`Store.Extends`),
and all else the store holds is new. -/
theorem configSettingCopy_writesOnly (fuel P src : ℕ) {st st' : Store} {b : Bool}
    (hrun : (configSettingCopy fuel P src).run st = .ok (b, st')) :
    ∀ q < st.length, q ≠ P → st'[q]? = st[q]? := by
  have hw := copyRel_writesOnly.runsWithin_configSettingCopy fuel P src st b st' hrun
  exact fun q hq hqP => hw.2 q hq fun h => hqP (Option.some.inj h)

theorem configSettingCopy_writesOnly_demo :
    ∃ st', (configSettingCopy 4 1 2).run copyDemo = .ok (true, st') ∧
      ∀ q < copyDemo.length, q ≠ 1 → st'[q]? = copyDemo[q]? :=
  ⟨_, rfl, configSettingCopy_writesOnly 4 1 2 rfl⟩

end LibConfig
