import LibConfig.Tree

/-!
What a copy does, on trees.

`copySimpleT`, `copyElemT` and `copyChildrenT` are the routines of
`copy_setting.c` over `ConfigTree`, with the destination seen only through
what the copy reads of it (`DestView`): its type, and the name and type of each
child it already has. Each returns the tree it appended to the destination,
if any, or the fault that ended it. They mirror the C control flow, a failed
`config_setting_add` included: the copy then carries on into `NULL`.

`LibConfig.CopyRefine` shows that the routines on the store compute these.
The results here say what they compute on a well-formed tree: the clone the
specification describes, `ConfigTree.cloneAs`.
-/

namespace LibConfig

/-- What a copy reads of a destination setting. -/
inductive DestView
  | null
  | setting (type : ConfigType) (kids : List (Option SettingName × ConfigType))

namespace DestView

/-- `config_setting_add` on the destination: the name the new setting gets,
or `none` when the result is `NULL`. -/
def add : DestView → Option SettingName → ConfigType → Option (Option SettingName)
  | setting pt kids, n, t =>
    if admits pt kids n t then some (if pt = .group then n else none) else none
  | null, _, _ => none

def push : DestView → Option ConfigTree → DestView
  | setting pt kids, some t => setting pt (kids ++ [(t.name, t.type)])
  | d, _ => d

@[simp] theorem push_none (d : DestView) : d.push none = d := by
  cases d <;> rfl

end DestView

/-- `config_setting_copy_aggregate` on trees, given how the children are
copied into the new aggregate. -/
def copyAggregateT (d : DestView) (n : Option SettingName) (k : AggKind)
    (copyChildren : DestView → Except Fault (List ConfigTree)) :
    Except Fault (Option ConfigTree) :=
  match d.add n k.type with
  | some n' => (copyChildren (.setting k.type [])).map fun cs => some (.aggregate n' k cs)
  | none => (copyChildren .null).map fun _ => none

mutual

/-- `config_setting_copy_simple` on trees. -/
def copySimpleT : DestView → ConfigTree → Except Fault (Option ConfigTree)
  | d, .scalar n v =>
    match d.add n v.type with
    | some n' => .ok (some (.scalar n' v))
    | none => if v = .none then .ok none else .error .nullDeref
  | d, .aggregate n k ts => copyAggregateT d n k fun d' => copyChildrenT (k = .group) d' ts

/-- `config_setting_copy_elem` on trees. Setting the format of an integer
element that was not appended dereferences `NULL`. -/
def copyElemT : DestView → ConfigTree → Except Fault (Option ConfigTree)
  | _, .scalar _ .none => .ok none
  | .null, .scalar _ _ => .error .nullDeref
  | .setting pt kids, .scalar _ v =>
    if admits pt kids none v.type then .ok (some (.scalar none v))
    else if v.format.isSome then .error .nullDeref else .ok none
  | d, .aggregate n k ts => copyAggregateT d n k fun d' => copyChildrenT (k = .group) d' ts

/-- The loop of `config_setting_copy_aggregate`: by name when `g`, by position
otherwise, each child seeing the siblings copied before it. -/
def copyChildrenT : Bool → DestView → List ConfigTree → Except Fault (List ConfigTree)
  | _, _, [] => .ok []
  | g, d, t :: ts => do
    let r ← if g then copySimpleT d t else copyElemT d t
    let rs ← copyChildrenT g (d.push r) ts
    return r.toList ++ rs

end

@[simp] theorem copySimpleT_aggregate (d : DestView) (n : Option SettingName) (k : AggKind)
    (ts : List ConfigTree) :
    copySimpleT d (.aggregate n k ts) =
      copyAggregateT d n k fun d' => copyChildrenT (k = .group) d' ts := by
  cases d <;> rfl

@[simp] theorem copyElemT_aggregate (d : DestView) (n : Option SettingName) (k : AggKind)
    (ts : List ConfigTree) :
    copyElemT d (.aggregate n k ts) =
      copyAggregateT d n k fun d' => copyChildrenT (k = .group) d' ts := by
  cases d <;> rfl

theorem copyChildrenT_cons (g : Bool) (d : DestView) (t : ConfigTree) (ts : List ConfigTree) :
    copyChildrenT g d (t :: ts) =
      (if g then copySimpleT d t else copyElemT d t) >>= fun r =>
        copyChildrenT g (d.push r) ts >>= fun rs => pure (r.toList ++ rs) := by
  cases g <;> rfl

theorem copyChildrenT_null_of {g : Bool} {ts : List ConfigTree}
    (hts : ∀ t ∈ ts, (∀ r, copySimpleT .null t = .ok r → r = none) ∧
      (∀ r, copyElemT .null t = .ok r → r = none)) :
    ∀ rs, copyChildrenT g .null ts = .ok rs → rs = [] := by
  induction ts with
  | nil => intro rs h; simpa [copyChildrenT] using h.symm
  | cons t ts ih =>
    intro rs h
    have ht := hts t (List.mem_cons_self _ _)
    rw [copyChildrenT_cons] at h
    cases hr : (if g then copySimpleT .null t else copyElemT .null t) with
    | error e => simp [hr] at h
    | ok r =>
      have hnone : r = none := by
        cases g
        · exact ht.2 r (by simpa using hr)
        · exact ht.1 r (by simpa using hr)
      subst hnone
      simp only [hr, except_ok_bind, DestView.push_none] at h
      cases hrs : copyChildrenT g .null ts with
      | error e => simp [hrs] at h
      | ok rs' =>
        simp only [hrs, except_ok_bind, except_pure, Except.ok.injEq] at h
        simp [← h, ih (fun u hu => hts u (List.mem_cons_of_mem _ hu)) rs' hrs]

/-- A copy into `NULL` appends nothing: it faults, or ends having done
nothing. -/
theorem copyT_null : ∀ t : ConfigTree,
    (∀ r, copySimpleT .null t = .ok r → r = none) ∧ (∀ r, copyElemT .null t = .ok r → r = none) := by
  intro t
  induction t using ConfigTree.ind with
  | scalar n v =>
    refine ⟨fun r h => ?_, fun r h => ?_⟩
    · by_cases hv : v = .none
      · subst hv; simpa [copySimpleT, DestView.add] using h.symm
      · simp [copySimpleT, DestView.add, hv] at h
    · cases v <;> simp [copyElemT] at h ⊢
      exact h.symm
  | aggregate n k ts ih =>
    have hagg : ∀ r, copyAggregateT .null n k (fun d => copyChildrenT (k = .group) d ts) = .ok r →
        r = none := by
      intro r h
      simp only [copyAggregateT, DestView.add] at h
      cases hc : copyChildrenT (k = .group) .null ts with
      | error e => simp [hc] at h
      | ok rs => simpa [hc] using h.symm
    exact ⟨fun r h => hagg r (by simpa [copySimpleT] using h),
      fun r h => hagg r (by simpa [copyElemT] using h)⟩

theorem copyChildrenT_null {g : Bool} {ts rs : List ConfigTree}
    (h : copyChildrenT g .null ts = .ok rs) : rs = [] :=
  copyChildrenT_null_of (fun t _ => copyT_null t) rs h

/-- The copy of a tree into `NULL`: a fault when the tree holds a value, since
the first such scalar goes to a setter on `NULL`, and nothing at all otherwise. -/
def NullCopy (t : ConfigTree) : Except Fault (Option ConfigTree) :=
  if t.holdsValue then .error .nullDeref else .ok none

theorem copyChildrenT_null_eq {g : Bool} {ts : List ConfigTree}
    (hts : ∀ t ∈ ts, copySimpleT .null t = NullCopy t ∧ copyElemT .null t = NullCopy t) :
    copyChildrenT g .null ts =
      if ConfigTree.holdsValueAll ts then .error .nullDeref else .ok [] := by
  induction ts with
  | nil => rfl
  | cons t ts ih =>
    have ht : (if g then copySimpleT .null t else copyElemT .null t) = NullCopy t := by
      cases g <;> simp [hts t (List.mem_cons_self _ _)]
    have ih' := ih fun u hu => hts u (List.mem_cons_of_mem _ hu)
    rw [copyChildrenT_cons, ht, NullCopy]
    cases hv : t.holdsValue
    · cases hvs : ConfigTree.holdsValueAll ts <;> simp [ConfigTree.holdsValueAll, hv, hvs, ih']
    · simp [ConfigTree.holdsValueAll, hv]

theorem copyT_null_eq : ∀ t : ConfigTree,
    copySimpleT .null t = NullCopy t ∧ copyElemT .null t = NullCopy t := by
  intro t
  induction t using ConfigTree.ind with
  | scalar n v =>
    constructor
    · by_cases hv : v = .none <;> simp [copySimpleT, DestView.add, NullCopy, ConfigTree.holdsValue, hv]
    · cases v <;> simp [copyElemT, NullCopy, ConfigTree.holdsValue]
  | aggregate n k ts ih =>
    have hagg : copyAggregateT .null n k (fun d => copyChildrenT (k = .group) d ts) =
        NullCopy (.aggregate n k ts) := by
      simp only [copyAggregateT, DestView.add, copyChildrenT_null_eq ih, NullCopy,
        ConfigTree.holdsValue]
      split <;> rfl
    exact ⟨by rw [copySimpleT_aggregate, hagg], by rw [copyElemT_aggregate, hagg]⟩

/-- A source that `config_setting_add` refuses is copied as into `NULL`. -/
theorem copySimpleT_of_add_none {d : DestView} {t : ConfigTree} (h : d.add t.name t.type = none) :
    copySimpleT d t = NullCopy t := by
  rw [← (copyT_null_eq t).1]
  cases t with
  | scalar n v =>
    simp only [ConfigTree.name, ConfigTree.type] at h
    simp only [copySimpleT]
    rw [h]
    rfl
  | aggregate n k ts =>
    simp only [ConfigTree.name, ConfigTree.type] at h
    simp only [copySimpleT_aggregate, copyAggregateT]
    rw [h]
    rfl

/-- A source that `config_setting_add` takes is copied under the name it was
given, with its own type. -/
theorem copySimpleT_of_add_some {d : DestView} {t : ConfigTree} {n : Option SettingName}
    (h : d.add t.name t.type = some n) {r : Option ConfigTree} (hr : copySimpleT d t = .ok r) :
    ∃ u, r = some u ∧ u.name = n ∧ u.type = t.type := by
  cases t with
  | scalar m v =>
    simp only [ConfigTree.name, ConfigTree.type] at h
    simp only [copySimpleT, h, Except.ok.injEq] at hr
    exact ⟨_, hr.symm, rfl, rfl⟩
  | aggregate m k ts =>
    simp only [ConfigTree.name, ConfigTree.type] at h
    simp only [copySimpleT_aggregate, copyAggregateT, h] at hr
    cases hc : copyChildrenT (k = .group) (.setting k.type []) ts with
    | error e => rw [hc] at hr; cases hr
    | ok cs => rw [hc] at hr; cases hr; exact ⟨_, rfl, rfl, rfl⟩

/-- Copying a tree into a group a second time, into the group as the first copy
left it, is refused at the top: the first copy either was refused too or added
a child of the tree's name. -/
theorem copySimpleT_repeat {kids : List (Option SettingName × ConfigType)} {t : ConfigTree}
    {r : Option ConfigTree} (h : copySimpleT (.setting .group kids) t = .ok r) :
    copySimpleT ((DestView.setting .group kids).push r) t = NullCopy t := by
  apply copySimpleT_of_add_none
  cases hadd : (DestView.setting .group kids).add t.name t.type with
  | none =>
    rw [copySimpleT_of_add_none hadd, NullCopy] at h
    split_ifs at h
    cases h
    rwa [DestView.push_none]
  | some n =>
    obtain ⟨u, rfl, hn, hty⟩ := copySimpleT_of_add_some hadd h
    simp only [DestView.add, if_true, Option.ite_none_right_eq_some, Option.some.injEq] at hadd
    simp [DestView.push, DestView.add, admits, hn, hty, ← hadd.2]

/-! ### Faults and growth -/

/-- A copy that ends at most in a `NULL` dereference, having appended at most
`n` settings: whatever the source, it never needs more calls than its height. -/
def Bounded {α : Type} (size : α → ℕ) (n : ℕ) : Except Fault α → Prop
  | .error e => e = .nullDeref
  | .ok r => size r ≤ n

theorem copyAggregateT_bounded {d : DestView} {n : Option SettingName} {k : AggKind} {m : ℕ}
    {copyChildren : DestView → Except Fault (List ConfigTree)}
    (h : ∀ d', Bounded ConfigTree.sizeAll m (copyChildren d')) :
    Bounded (fun r => ConfigTree.sizeAll r.toList) (m + 1) (copyAggregateT d n k copyChildren) := by
  unfold copyAggregateT
  split
  · have := h (.setting k.type [])
    revert this
    cases copyChildren (.setting k.type []) <;> simp [Bounded, ConfigTree.size]
  · have := h .null
    revert this
    cases copyChildren .null <;> simp [Bounded]

theorem copyChildrenT_bounded {g : Bool} {ts : List ConfigTree}
    (hts : ∀ t ∈ ts, ∀ d, Bounded (fun r => ConfigTree.sizeAll r.toList) t.size
      (if g then copySimpleT d t else copyElemT d t)) :
    ∀ d, Bounded ConfigTree.sizeAll (ConfigTree.sizeAll ts) (copyChildrenT g d ts) := by
  induction ts with
  | nil => intro d; simp [copyChildrenT, Bounded]
  | cons t ts ih =>
    intro d
    have ht := hts t (List.mem_cons_self _ _) d
    rw [copyChildrenT_cons]
    cases hr : (if g then copySimpleT d t else copyElemT d t) with
    | error e => rw [hr] at ht; exact ht
    | ok r =>
      rw [hr] at ht
      simp only [except_ok_bind]
      have hrs := ih (fun u hu => hts u (List.mem_cons_of_mem _ hu)) (d.push r)
      revert hrs
      cases copyChildrenT g (d.push r) ts with
      | error e => simp [Bounded]
      | ok rs => simp only [Bounded] at ht ⊢; simp; omega

/-- Every copy on trees ends in a clone of at most the source's size, or in a
`NULL` dereference: it never runs out of calls. -/
theorem copyT_bounded : ∀ (t : ConfigTree) (d : DestView),
    Bounded (fun r => ConfigTree.sizeAll r.toList) t.size (copySimpleT d t) ∧
    Bounded (fun r => ConfigTree.sizeAll r.toList) t.size (copyElemT d t) := by
  intro t
  induction t using ConfigTree.ind with
  | scalar n v =>
    intro d
    constructor
    · simp only [copySimpleT]
      split
      · simp [Bounded, ConfigTree.size]
      · split <;> simp [Bounded]
    · cases d <;> cases v <;> simp only [copyElemT] <;> (try split) <;> (try split) <;>
        simp [Bounded, ConfigTree.size]
  | aggregate n k ts ih =>
    intro d
    have hkids : ∀ d', Bounded ConfigTree.sizeAll (ConfigTree.sizeAll ts)
        (copyChildrenT (k = .group) d' ts) :=
      copyChildrenT_bounded fun t ht d' => by cases decide (k = .group) <;> simp [ih t ht d']
    simp only [copySimpleT_aggregate, copyElemT_aggregate, ConfigTree.size]
    exact ⟨copyAggregateT_bounded hkids, copyAggregateT_bounded hkids⟩

theorem copyChildrenT_ok {g : Bool} {ts : List ConfigTree}
    (hts : ∀ t ∈ ts, ∀ d, (∃ r, copySimpleT d t = .ok r) ∧ ∃ r, copyElemT d t = .ok r) :
    ∀ d, ∃ rs, copyChildrenT g d ts = .ok rs := by
  induction ts with
  | nil => exact fun _ => ⟨[], rfl⟩
  | cons t ts ih =>
    intro d
    obtain ⟨r, hr⟩ : ∃ r, (if g then copySimpleT d t else copyElemT d t) = .ok r := by
      cases g
      · exact (hts t (List.mem_cons_self _ _) d).2
      · exact (hts t (List.mem_cons_self _ _) d).1
    obtain ⟨rs, hrs⟩ := ih (fun u hu => hts u (List.mem_cons_of_mem _ hu)) (d.push r)
    exact ⟨_, by rw [copyChildrenT_cons, hr, except_ok_bind, hrs]; rfl⟩

/-- A copy faults only through a value: a tree with no scalar of a type other
than `CONFIG_TYPE_NONE` is copied anywhere, `NULL` included, without a fault. -/
theorem copyT_ok : ∀ t : ConfigTree, t.holdsValue = false → ∀ d,
    (∃ r, copySimpleT d t = .ok r) ∧ ∃ r, copyElemT d t = .ok r := by
  intro t
  induction t using ConfigTree.ind with
  | scalar n v =>
    intro hv d
    obtain rfl : v = .none := by simpa [ConfigTree.holdsValue] using hv
    refine ⟨?_, none, by cases d <;> rfl⟩
    simp only [copySimpleT]
    split
    · exact ⟨_, rfl⟩
    · exact ⟨none, rfl⟩
  | aggregate n k ts ih =>
    intro hv d
    have hts := ConfigTree.holdsValueAll_eq_false_iff.mp hv
    obtain ⟨cs, hcs⟩ := copyChildrenT_ok (g := decide (k = .group))
      (fun t ht => ih t ht (hts t ht)) (.setting k.type [])
    obtain ⟨ns, hns⟩ := copyChildrenT_ok (g := decide (k = .group))
      (fun t ht => ih t ht (hts t ht)) .null
    have hagg : ∃ r, copyAggregateT d n k (fun d' => copyChildrenT (k = .group) d' ts) = .ok r := by
      unfold copyAggregateT
      split
      · exact ⟨_, by simp only [hcs, except_map_ok']; rfl⟩
      · exact ⟨_, by simp only [hns, except_map_ok']; rfl⟩
    exact ⟨by rwa [copySimpleT_aggregate], by rwa [copyElemT_aggregate]⟩

/-- `config_setting_copy` on trees. -/
def configSettingCopyT : DestView → ConfigTree → Except Fault Bool
  | .null, _ => .error .nullDeref
  | .setting pt kids, t =>
    if pt ≠ .group ∧ pt ≠ .list then .ok false
    else (copySimpleT (.setting pt kids) t).map fun _ => true

/-! ### Well-formed trees -/

/-- The invariants of the data model on the children of one aggregate: group
members carry names unique among their siblings, list and array elements are
unnamed, and array elements are scalars of one type. -/
def AggKind.fits : AggKind → List ConfigTree → Bool
  | .group, ts => ts.all (·.name.isSome) && decide (ts.map (·.name)).Nodup
  | .array, ts => ts.all fun t =>
      t.name.isNone && t.type.isScalar && ts.head?.all (·.type == t.type)
  | .list, ts => ts.all (·.name.isNone)

namespace ConfigTree

mutual

/-- A well-formed tree: no setting of type `none`, and the invariants of the
data model on the children of every aggregate. -/
def wellFormed : ConfigTree → Bool
  | scalar _ v => v.type != .none
  | aggregate _ k ts => AggKind.fits k ts && wellFormedAll ts

def wellFormedAll : List ConfigTree → Bool
  | [] => true
  | t :: ts => t.wellFormed && wellFormedAll ts

end

theorem wellFormedAll_iff {ts : List ConfigTree} : wellFormedAll ts ↔ ∀ t ∈ ts, t.wellFormed := by
  induction ts with
  | nil => simp [wellFormedAll]
  | cons t ts ih => simp [wellFormedAll, ih]

mutual

/-- The clone of `t` the copy must produce, named `n`: group members keep their
names, list and array elements are unnamed. -/
def cloneAs : Option SettingName → ConfigTree → ConfigTree
  | n, scalar _ v => scalar n v
  | n, aggregate _ k ts => aggregate n k (cloneAll (k = .group) ts)

def cloneAll : Bool → List ConfigTree → List ConfigTree
  | _, [] => []
  | g, t :: ts => cloneAs (if g then t.name else none) t :: cloneAll g ts

end

@[simp] theorem name_cloneAs (n : Option SettingName) (t : ConfigTree) : (t.cloneAs n).name = n := by
  cases t <;> rfl

@[simp] theorem type_cloneAs (n : Option SettingName) (t : ConfigTree) :
    (t.cloneAs n).type = t.type := by
  cases t <;> rfl

theorem cloneAll_eq_map (g : Bool) (ts : List ConfigTree) :
    cloneAll g ts = ts.map fun t => t.cloneAs (if g then t.name else none) := by
  induction ts with
  | nil => rfl
  | cons t ts ih => simp [cloneAll, ih]

def withName (n : Option SettingName) : ConfigTree → ConfigTree
  | scalar _ v => scalar n v
  | aggregate _ k ts => aggregate n k ts

@[simp] theorem withName_name (t : ConfigTree) : t.withName t.name = t := by
  cases t <;> rfl

@[simp] theorem wellFormed_withName (n : Option SettingName) (t : ConfigTree) :
    (t.withName n).wellFormed = t.wellFormed := by
  cases t <;> rfl

/-- A well-formed tree is its own clone, up to the name at its root: its list
and array elements have no names to lose. -/
theorem cloneAs_of_wellFormed : ∀ t : ConfigTree, t.wellFormed → ∀ n, t.cloneAs n = t.withName n := by
  intro t
  induction t using ConfigTree.ind with
  | scalar m v => intro _ n; rfl
  | aggregate m k ts ih =>
    intro hwf n
    simp only [wellFormed, Bool.and_eq_true, wellFormedAll_iff] at hwf
    have hname : ∀ t ∈ ts, (if decide (k = .group) then t.name else none) = t.name := by
      cases k <;> simp_all [AggKind.fits]
    simp only [cloneAs, withName, cloneAll_eq_map, aggregate.injEq, true_and]
    conv_rhs => rw [← List.map_id ts]
    exact List.map_congr_left fun t ht => by rw [hname t ht, ih t ht (hwf.2 t ht), withName_name]; rfl

end ConfigTree

open ConfigTree

/-- Appending the children `ts` one after the other to a destination of type
`pt` that already has `kids` is admitted at every step. -/
def admitsSeq (pt : ConfigType) (g : Bool) :
    List (Option SettingName × ConfigType) → List ConfigTree → Bool
  | _, [] => true
  | kids, t :: ts =>
    admits pt kids (if g then t.name else none) t.type &&
      admitsSeq pt g (kids ++ [(if g then t.name else none, t.type)]) ts

theorem admitsSeq_group {kids : List (Option SettingName × ConfigType)} {ts : List ConfigTree}
    (hnamed : ∀ t ∈ ts, t.name.isSome) (hnodup : (ts.map (·.name)).Nodup)
    (hfresh : ∀ k ∈ kids, ∀ t ∈ ts, k.1 ≠ t.name) : admitsSeq .group true kids ts := by
  induction ts generalizing kids with
  | nil => rfl
  | cons t ts ih =>
    simp only [List.map_cons, List.nodup_cons, List.mem_map] at hnodup
    simp only [admitsSeq, admits, if_true, Bool.and_eq_true, List.all_eq_true, bne_iff_ne]
    refine ⟨⟨hnamed t (List.mem_cons_self _ _), fun k hk => hfresh k hk t (List.mem_cons_self _ _)⟩,
      ih (fun u hu => hnamed u (List.mem_cons_of_mem _ hu)) hnodup.2 ?_⟩
    intro k hk u hu
    rcases List.mem_append.mp hk with hk | hk
    · exact hfresh k hk u (List.mem_cons_of_mem _ hu)
    · obtain rfl := List.mem_singleton.mp hk
      exact fun h => hnodup.1 ⟨u, hu, h.symm⟩

theorem admitsSeq_array {kids : List (Option SettingName × ConfigType)} {ts : List ConfigTree}
    {ty : ConfigType} (hscalar : ty.isScalar) (hty : ∀ t ∈ ts, t.type = ty)
    (hkids : kids.head?.all (·.2 == ty)) : admitsSeq .array false kids ts := by
  induction ts generalizing kids with
  | nil => rfl
  | cons t ts ih =>
    have ht := hty t (List.mem_cons_self _ _)
    simp only [admitsSeq, admits, Bool.and_eq_true]
    refine ⟨⟨by simpa [ht] using hscalar, by simpa [ht] using hkids⟩,
      ih (fun u hu => hty u (List.mem_cons_of_mem _ hu)) ?_⟩
    cases kids <;> simp_all

theorem admitsSeq_list (kids : List (Option SettingName × ConfigType)) (ts : List ConfigTree) :
    admitsSeq .list false kids ts := by
  induction ts generalizing kids with
  | nil => rfl
  | cons t ts ih => simp [admitsSeq, admits, ih]

/-- The children of a well-formed aggregate go into a new aggregate of its
kind one after the other. -/
theorem admitsSeq_of_fits {k : AggKind} {ts : List ConfigTree} (h : AggKind.fits k ts) :
    admitsSeq k.type (k = .group) [] ts := by
  cases k with
  | group =>
    simp only [AggKind.fits, Bool.and_eq_true, List.all_eq_true, decide_eq_true_eq] at h
    exact admitsSeq_group h.1 h.2 (by simp)
  | array =>
    simp only [AggKind.fits, List.all_eq_true, Bool.and_eq_true] at h
    cases ts with
    | nil => rfl
    | cons t ts =>
      refine admitsSeq_array (h t (List.mem_cons_self _ _)).1.2 (fun u hu => ?_) rfl
      have htu : t.type = u.type := by simpa using (h u hu).2
      exact htu.symm
  | list => exact admitsSeq_list [] ts

/-- Copying `t` into a destination that admits it appends the clone of `t`,
by name or by position. -/
def CopiesClone (t : ConfigTree) : Prop :=
  (∀ d n', d.add t.name t.type = some n' → copySimpleT d t = .ok (some (t.cloneAs n'))) ∧
  ∀ pt kids, pt ≠ .group → admits pt kids none t.type →
    copyElemT (.setting pt kids) t = .ok (some (t.cloneAs none))

theorem admits_name_irrelevant {pt : ConfigType} (hpt : pt ≠ .group)
    (kids : List (Option SettingName × ConfigType)) (n n' : Option SettingName) (t : ConfigType) :
    admits pt kids n t = admits pt kids n' t := by
  cases pt <;> simp_all [admits]

theorem copyChildrenT_clone {g : Bool} {pt : ConfigType} {ts : List ConfigTree}
    (hpt : (pt = .group) = g) (hts : ∀ t ∈ ts, CopiesClone t) :
    ∀ {kids}, admitsSeq pt g kids ts → copyChildrenT g (.setting pt kids) ts = .ok (cloneAll g ts) := by
  induction ts with
  | nil => intro kids _; rfl
  | cons t ts ih =>
    intro kids h
    have ht := hts t (List.mem_cons_self _ _)
    cases g with
    | true =>
      simp only [admitsSeq, Bool.and_eq_true, if_true] at h
      have hadd : (DestView.setting pt kids).add t.name t.type = some t.name := by
        simp [DestView.add, h.1, hpt]
      simp [copyChildrenT, ht.1 _ _ hadd, DestView.push, cloneAll,
        ih (fun u hu => hts u (List.mem_cons_of_mem _ hu)) h.2]
    | false =>
      simp only [admitsSeq, Bool.and_eq_true, Bool.false_eq_true, if_false] at h
      have hng : pt ≠ .group := by simpa using hpt
      simp [copyChildrenT, ht.2 pt kids hng h.1, DestView.push, cloneAll,
        ih (fun u hu => hts u (List.mem_cons_of_mem _ hu)) h.2]

/-- A well-formed tree, copied into a destination that admits it, is cloned. -/
theorem copiesClone_of_wellFormed : ∀ t : ConfigTree, t.wellFormed → CopiesClone t := by
  intro t
  induction t using ConfigTree.ind with
  | scalar n v =>
    intro hwf
    refine ⟨fun d n' h => ?_, fun pt kids _ h => ?_⟩
    · simp only [ConfigTree.name, ConfigTree.type] at h
      simp [copySimpleT, h, cloneAs]
    · cases v <;> simp_all [copyElemT, cloneAs, wellFormed, ScalarValue.type, ConfigTree.type,
        ScalarValue.value, ConfigValue.type]
  | aggregate n k ts ih =>
    intro hwf
    simp only [wellFormed, Bool.and_eq_true, wellFormedAll_iff] at hwf
    have hkids : copyChildrenT (k = .group) (.setting k.type []) ts =
        .ok (cloneAll (k = .group) ts) :=
      copyChildrenT_clone (by cases k <;> simp [AggKind.type])
        (fun u hu => ih u hu (hwf.2 u hu)) (admitsSeq_of_fits hwf.1)
    refine ⟨fun d n' h => ?_, fun pt kids hpt h => ?_⟩
    · simp only [ConfigTree.name, ConfigTree.type] at h
      simp [copySimpleT, copyAggregateT, h, hkids, cloneAs]
    · have hadd : (DestView.setting pt kids).add n k.type = some none := by
        simp only [ConfigTree.type] at h
        simp [DestView.add, admits_name_irrelevant hpt kids n none, h, hpt]
      simp [copyElemT, copyAggregateT, hadd, hkids, cloneAs]

end LibConfig
