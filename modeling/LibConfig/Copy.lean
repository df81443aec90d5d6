import LibConfig.Setting

/-!
The copy routines of `contrib/copy_setting.c`.

`config_setting_copy_simple`, `config_setting_copy_elem` and
`config_setting_copy_aggregate` call one another; each takes a bound on the
depth of nested calls and stops with `Fault.outOfFuel` when it is used up, so
that a run of the C code which recurses forever is a run that uses up every
bound. The getters `config_setting_get_<type>` are read off the matched value of
`src`, which is where each of them is called.
-/

namespace LibConfig

/-- The setters `config_setting_copy_simple` applies to `set`, the setting it
has just added, to give it the value of `s` and, for an integer, its format. -/
def setValueFrom (set : Option ℕ) (s : Setting) : Exec Unit :=
  match s.value with
  | .int v => do
    discard <| configSettingSetInt set v
    discard <| configSettingSetFormat set s.format
  | .int64 v => do
    discard <| configSettingSetInt64 set v
    discard <| configSettingSetFormat set s.format
  | .float v => discard <| configSettingSetFloat set v
  | .string v => discard <| configSettingSetString set v
  | .bool v => discard <| configSettingSetBool set v
  | _ => pure ()

/-- The element setters with which `config_setting_copy_elem` appends the value
of the scalar `s` to `parent`, and for an integer sets the format of the
element it got back. -/
def appendValueFrom (parent : Option ℕ) (s : Setting) : Exec Unit :=
  match s.value with
  | .int v => do
    let set ← configSettingSetIntElem parent v
    discard <| configSettingSetFormat set s.format
  | .int64 v => do
    let set ← configSettingSetInt64Elem parent v
    discard <| configSettingSetFormat set s.format
  | .float v => discard <| configSettingSetFloatElem parent v
  | .string v => discard <| configSettingSetStringElem parent v
  | .bool v => discard <| configSettingSetBoolElem parent v
  | _ => pure ()

mutual

/-- `config_setting_copy_simple`: copies `src` under `parent` by name. -/
def configSettingCopySimple : ℕ → Option ℕ → Option ℕ → Exec Unit
  | 0, _, _ => throw .outOfFuel
  | fuel + 1, parent, src => do
    let s ← deref src
    if s.value.type.isAggregate then
      configSettingCopyAggregate fuel parent src
    else
      let set ← configSettingAdd parent s.name s.value.type
      setValueFrom set s

/-- `config_setting_copy_elem`: appends a copy of `src` to `parent` by
position. -/
def configSettingCopyElem : ℕ → Option ℕ → Option ℕ → Exec Unit
  | 0, _, _ => throw .outOfFuel
  | fuel + 1, parent, src => do
    let s ← deref src
    if s.value.type.isAggregate then
      configSettingCopyAggregate fuel parent src
    else
      appendValueFrom parent s

/-- `config_setting_copy_aggregate`: adds one aggregate of `src`'s type under
`parent`, then copies the children of `src` into it, by name when `src` is a
group and by position otherwise. The number of children is read after the
new aggregate is added. -/
def configSettingCopyAggregate : ℕ → Option ℕ → Option ℕ → Exec Unit
  | 0, _, _ => throw .outOfFuel
  | fuel + 1, parent, src => do
    let s ← deref src
    let newAgg ← configSettingAdd parent s.name s.value.type
    let n ← configSettingLength src
    (List.range n).forM fun i => do
      let child ← configSettingGetElem src i
      if s.value.type = .group then
        configSettingCopySimple fuel newAgg child
      else
        configSettingCopyElem fuel newAgg child

end

/-- `config_setting_copy`: `CONFIG_FALSE` unless `parent` is a group or a
list. -/
def configSettingCopy (fuel : ℕ) (parent src : ℕ) : Exec Bool := do
  let p ← deref (some parent)
  if p.value.type ≠ .group ∧ p.value.type ≠ .list then
    return false
  let s ← deref (some src)
  if s.value.type.isAggregate then
    configSettingCopyAggregate fuel (some parent) (some src)
  else
    configSettingCopySimple fuel (some parent) (some src)
  return true

end LibConfig
