import LibConfig.Copy

/-!
The bound on calls of the copy model is not the program's: a run of
`config_setting_copy` that does not run out of it ends the same way under every
larger bound.

`Agrees y x` says that `y` ends as `x` does wherever `x` does not run out of
calls. It goes through binds, conditionals and the loop of
`config_setting_copy_aggregate`, and the copy routines with a larger bound agree
with the same routines with a smaller one, by induction on the smaller.
-/

namespace LibConfig

/-- `y` ends as `x` does from every store from which `x` does not run out of
calls. -/
def Agrees {α : Type} (y x : Exec α) : Prop :=
  ∀ st, x.run st ≠ .error .outOfFuel → y.run st = x.run st

section Agrees

variable {α β : Type}

theorem Agrees.refl (x : Exec α) : Agrees x x := fun _ _ => rfl

theorem Agrees.bind {x x' : Exec α} {f f' : α → Exec β} (hx : Agrees x' x)
    (hf : ∀ a, Agrees (f' a) (f a)) : Agrees (x' >>= f') (x >>= f) := by
  intro st h
  simp only [StateT.run_bind] at h ⊢
  have hx' := hx st
  cases hr : x.run st with
  | error e =>
    rw [hr, except_error_bind] at h
    have he : e ≠ .outOfFuel := by rintro rfl; exact h rfl
    rw [hr] at hx'
    rw [hx' fun h' => he (Except.error.inj h')]
    rfl
  | ok p =>
    rw [hr, except_ok_bind] at h
    rw [hr] at hx'
    rw [hx' Except.noConfusion, except_ok_bind, except_ok_bind]
    exact hf p.1 p.2 h

theorem Agrees.outOfFuel (y : Exec α) : Agrees y (throw .outOfFuel) :=
  fun _ h => absurd rfl h

theorem Agrees.ite {c : Prop} [Decidable c] {x x' y y' : Exec α} (hx : Agrees x' x)
    (hy : Agrees y' y) : Agrees (if c then x' else y') (if c then x else y) := by
  split <;> assumption

theorem Agrees.forM {l : List β} {f f' : β → Exec PUnit} (hf : ∀ b, Agrees (f' b) (f b)) :
    Agrees (l.forM f') (l.forM f) := by
  induction l with
  | nil => exact Agrees.refl _
  | cons b l ih => exact (hf b).bind fun _ => ih

end Agrees

/-- The copy routines with `k` more calls agree with them, by induction on the
bound: a call with a bound of 0 runs out, and otherwise each routine makes the
same reads and writes and calls the others with the bound one less. -/
theorem agrees_copyRoutines (k : ℕ) : ∀ fuel,
    (∀ p q, Agrees (configSettingCopySimple (fuel + k) p q) (configSettingCopySimple fuel p q)) ∧
    (∀ p q, Agrees (configSettingCopyElem (fuel + k) p q) (configSettingCopyElem fuel p q)) ∧
    (∀ p q, Agrees (configSettingCopyAggregate (fuel + k) p q)
      (configSettingCopyAggregate fuel p q))
  | 0 => ⟨fun _ _ => Agrees.outOfFuel _, fun _ _ => Agrees.outOfFuel _,
      fun _ _ => Agrees.outOfFuel _⟩
  | fuel + 1 => by
    obtain ⟨hS, hE, hA⟩ := agrees_copyRoutines k fuel
    rw [show fuel + 1 + k = fuel + k + 1 by omega]
    refine ⟨fun p q => ?simple, fun p q => ?elem, fun p q => ?aggregate⟩
    case simple =>
      rw [configSettingCopySimple, configSettingCopySimple]
      exact (Agrees.refl _).bind fun _ => Agrees.ite (hA p q) (Agrees.refl _)
    case elem =>
      rw [configSettingCopyElem, configSettingCopyElem]
      exact (Agrees.refl _).bind fun _ => Agrees.ite (hA p q) (Agrees.refl _)
    case aggregate =>
      rw [configSettingCopyAggregate, configSettingCopyAggregate]
      exact (Agrees.refl _).bind fun _ => (Agrees.refl _).bind fun agg =>
        (Agrees.refl _).bind fun _ => Agrees.forM fun _ =>
          (Agrees.refl _).bind fun c => Agrees.ite (hS agg c) (hE agg c)

/-- A run of `config_setting_copy` that does not run out of the bound on calls ends
the same way under every larger bound: the same `CONFIG_TRUE` or `CONFIG_FALSE` and
store, or the same `NULL` dereference. -/
theorem configSettingCopy_fuel_mono {fuel fuel' P src : ℕ} {st : Store} (hle : fuel ≤ fuel')
    (h : (configSettingCopy fuel P src).run st ≠ .error .outOfFuel) :
    (configSettingCopy fuel' P src).run st = (configSettingCopy fuel P src).run st := by
  obtain ⟨k, rfl⟩ := Nat.exists_eq_add_of_le hle
  obtain ⟨hS, -, hA⟩ := agrees_copyRoutines k fuel
  have hcopy : Agrees (configSettingCopy (fuel + k) P src) (configSettingCopy fuel P src) := by
    unfold configSettingCopy
    refine (Agrees.refl _).bind fun _ => Agrees.ite (Agrees.refl _) ?_
    simp only [pure_bind]
    exact (Agrees.refl _).bind fun _ =>
      Agrees.ite ((hA _ _).bind fun _ => Agrees.refl _) ((hS _ _).bind fun _ => Agrees.refl _)
  exact hcopy st h

end LibConfig
