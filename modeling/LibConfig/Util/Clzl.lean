import LibConfig.Util.FormatBin

/-!
`clzl` of `util.c`: the count of leading zeros that `libconfig_format_bin`
starts from, in each build.

With GCC, `clzl(x)` is `__builtin_clzl(x)`, which takes its argument as an
`unsigned long`: 64 bits on LP64 targets, 32 bits on LLP64 ones such as MinGW.
Otherwise it is a loop that tests `val` against a mask `check` starting at
`1ll << 63`. `check` is an `int64_t`, so `check >>= 1` is the arithmetic shift,
and the mask fills with ones from the top; on 0 it never becomes 0, and the
loop runs until its `int` counter overflows.
-/

namespace LibConfig

/-! ### The loop of the portable build -/

/-- How a run of the portable loop ends without a count: `leading++` on an
`int` already at `INT_MAX`, which is undefined behaviour, or the bound on
rounds running out. -/
inductive ClzlFault
  | intOverflow
  | outOfFuel
  deriving DecidableEq, Repr

/-- The loop `while (!(val & check) && check) { leading++; check >>= 1; }`,
run for at most `fuel` rounds. `leading` is an `int` counting up from 0. -/
def clzlLoop (val : BitVec 64) : ℕ → BitVec 64 → ℕ → Except ClzlFault ℕ
  | 0, _, _ => .error .outOfFuel
  | fuel + 1, check, leading =>
    if val &&& check = 0 ∧ check ≠ 0 then
      if leading = 2 ^ 31 - 1 then .error .intOverflow
      else clzlLoop val fuel (check.sshiftRight 1) (leading + 1)
    else .ok leading

/-- The portable `clzl(val)`: the loop from `check = 1ll << 63` and
`leading = 0`. -/
def clzlPortable (fuel : ℕ) (val : BitVec 64) : Except ClzlFault ℕ :=
  clzlLoop val fuel ((1 : BitVec 64) <<< 63) 0

/-- The mask after `k` rounds. -/
def clzlCheck (k : ℕ) : BitVec 64 :=
  ((1 : BitVec 64) <<< 63).sshiftRight k

theorem getLsbD_clzlCheck (k i : ℕ) :
    (clzlCheck k).getLsbD i = true ↔ i < 64 ∧ 63 ≤ k + i := by
  rw [clzlCheck, show (1 : BitVec 64) <<< 63 = BitVec.twoPow 64 63 from rfl,
    BitVec.getLsbD_sshiftRight, BitVec.getLsbD_twoPow, BitVec.msb_twoPow]
  by_cases hi : i < 64 <;> by_cases hk : k + i < 64 <;> simp [hi, hk] <;> omega

theorem clzlCheck_succ (k : ℕ) : (clzlCheck k).sshiftRight 1 = clzlCheck (k + 1) := by
  rw [clzlCheck, clzlCheck, BitVec.sshiftRight_add]

theorem clzlCheck_ne_zero (k : ℕ) : clzlCheck k ≠ 0 := fun h => by
  simpa [h] using (getLsbD_clzlCheck k 63).mpr (by omega)

/-- A nonzero `val` meets the mask exactly from the round that reaches its
highest set bit. -/
theorem and_clzlCheck_eq_zero {val : BitVec 64} (hv : val ≠ 0) (k : ℕ) :
    val &&& clzlCheck k = 0 ↔ k < clz64 val := by
  obtain ⟨hc, htop, habove⟩ := clz64_spec hv
  constructor
  · intro h
    by_contra hk
    have hbit := congrArg (BitVec.getLsbD · (63 - clz64 val)) h
    simp [htop, (getLsbD_clzlCheck k (63 - clz64 val)).mpr (by omega)] at hbit
  · intro hk
    refine BitVec.eq_of_getLsbD_eq fun i => ?_
    cases hci : (clzlCheck k).getLsbD i
    · simp [hci]
    · have := (getLsbD_clzlCheck k i).mp hci
      simp [hci, habove i (by omega)]

/-- From round `k`, at most the count, the loop runs `clz64 val - k` more rounds
and returns `clz64 val`; the counter stays below 64. -/
theorem clzlLoop_eq {val : BitVec 64} (hv : val ≠ 0) :
    ∀ fuel k, k ≤ clz64 val →
      clzlLoop val fuel (clzlCheck k) k =
        if clz64 val - k < fuel then .ok (clz64 val) else .error .outOfFuel
  | 0, k, _ => by simp [clzlLoop]
  | fuel + 1, k, hk => by
    have hc := (clz64_lt hv).2
    rw [clzlLoop]
    by_cases hlt : k < clz64 val
    · rw [if_pos ⟨(and_clzlCheck_eq_zero hv k).mpr hlt, clzlCheck_ne_zero k⟩, if_neg (by omega),
        clzlCheck_succ, clzlLoop_eq hv fuel (k + 1) hlt]
      simp only [show clz64 val - (k + 1) < fuel ↔ clz64 val - k < fuel + 1 by omega]
    · obtain rfl : k = clz64 val := by omega
      rw [if_neg fun h => hlt ((and_clzlCheck_eq_zero hv _).mp h.1), if_pos (by omega)]

/-- On 0 the mask never meets a set bit and never becomes 0: every round
increments the counter, until it would pass `INT_MAX`. -/
theorem clzlLoop_zero : ∀ fuel k leading, leading ≤ 2 ^ 31 - 1 →
    clzlLoop 0 fuel (clzlCheck k) leading =
      if 2 ^ 31 - 1 - leading < fuel then .error .intOverflow else .error .outOfFuel
  | 0, _, _, _ => rfl
  | fuel + 1, k, leading, hl => by
    rw [clzlLoop, if_pos ⟨by simp, clzlCheck_ne_zero k⟩]
    by_cases hmax : leading = 2 ^ 31 - 1
    · rw [if_pos hmax, if_pos (by omega)]
    · rw [if_neg hmax, clzlCheck_succ, clzlLoop_zero fuel (k + 1) (leading + 1) (by omega)]
      simp only [show 2 ^ 31 - 1 - (leading + 1) < fuel ↔ 2 ^ 31 - 1 - leading < fuel + 1 by omega]

theorem clzlPortable_eq (val : BitVec 64) (fuel : ℕ) :
    clzlPortable fuel val =
      if val = 0 then (if 2 ^ 31 - 1 < fuel then .error .intOverflow else .error .outOfFuel)
      else if clz64 val < fuel then .ok (clz64 val) else .error .outOfFuel := by
  have h0 : (1 : BitVec 64) <<< 63 = clzlCheck 0 := BitVec.sshiftRight_zero.symm
  rw [clzlPortable, h0]
  by_cases hv : val = 0
  · rw [if_pos hv, hv, clzlLoop_zero fuel 0 0 (by omega), Nat.sub_zero]
  · rw [if_neg hv, clzlLoop_eq hv fuel 0 (Nat.zero_le _), Nat.sub_zero]

/-- On 0 the mask reaches all ones after 63 rounds and the arithmetic shift
keeps it there, so `&& check` never ends the loop: it runs until `leading++`
overflows `INT_MAX` in round `2 ^ 31`, and never returns a count. -/
theorem clzlPortable_zero_overflows :
    clzlCheck 63 = BitVec.allOnes 64 ∧ (BitVec.allOnes 64).sshiftRight 1 = BitVec.allOnes 64 ∧
      ∀ fuel, clzlPortable fuel 0 =
        if 2 ^ 31 ≤ fuel then .error .intOverflow else .error .outOfFuel :=
  ⟨by decide, by decide, fun fuel => by
    rw [clzlPortable_eq, if_pos rfl]
    simp only [show 2 ^ 31 - 1 < fuel ↔ 2 ^ 31 ≤ fuel by omega]⟩

/-! ### The GCC build -/

/-- `__builtin_clzl(x)` for an `unsigned long` of `w` bits: the number of zeros
above the highest set bit of `x`; undefined, `none`, when `x` is 0. Modelled
from GCC's documentation of the builtin. -/
def builtinClzl {w : ℕ} (x : BitVec w) : Option ℕ :=
  if x = 0 then none else some (w - 1 - x.toNat.log2)

/-- `clzl(val)` with GCC, on a target whose `unsigned long` has `w` bits: the
conversion of the `int64_t` keeps its low `w` bits. -/
def clzlGnu (w : ℕ) (val : BitVec 64) : Option ℕ :=
  builtinClzl (val.setWidth w)

/-- On LP64, `__builtin_clzl` sees all 64 bits. -/
theorem clzlGnu_lp64 {val : BitVec 64} (hv : val ≠ 0) : clzlGnu 64 val = some (clz64 val) := by
  simp only [clzlGnu, builtinClzl, BitVec.setWidth_eq, if_neg hv, clz64]

/-- On LLP64, `__builtin_clzl` sees the low 32 bits only. -/
theorem clzlGnu_llp64 (val : BitVec 64) :
    clzlGnu 32 val =
      if val.toNat % 2 ^ 32 = 0 then none else some (31 - (val.toNat % 2 ^ 32).log2) := by
  simp [clzlGnu, builtinClzl, BitVec.toNat_eq]

/-- For every nonzero `v`, `__builtin_clzl` on a 64-bit `unsigned long` and the
portable loop both give `clz64 v`. On a 32-bit `unsigned long` the builtin is
undefined when the low 32 bits of `v` are 0, and otherwise `libconfig_format_bin`
writes what it writes from `clz64 v` exactly when the highest set bit of `v` lies 32
places above that of its low half. -/
theorem libconfigFormatBin_clzl_builds (v : BitVec 64) (hv : v ≠ 0) (buflen : BitVec 64)
    (hlen : 65 ≤ buflen.toNat) (buf : ℕ → Char) :
    clzlGnu 64 v = some (clz64 v) ∧
    (∀ fuel, clz64 v < fuel → clzlPortable fuel v = .ok (clz64 v)) ∧
    (clzlGnu 32 v = none ↔ v.toNat % 2 ^ 32 = 0) ∧
    ∀ c, clzlGnu 32 v = some c →
      (libconfigFormatBin (fun _ => c) v buflen buf = libconfigFormatBin clz64 v buflen buf ↔
        v.toNat.log2 = (v.toNat % 2 ^ 32).log2 + 32) := by
  obtain ⟨hlog, hc⟩ := clz64_lt hv
  refine ⟨clzlGnu_lp64 hv, fun fuel hf => by rw [clzlPortable_eq, if_neg hv, if_pos hf], ?_,
    fun c hc32 => ?_⟩
  · rw [clzlGnu_llp64]
    split_ifs with h
    · exact iff_of_true rfl h
    · exact iff_of_false id h
  · rw [clzlGnu_llp64] at hc32
    split_ifs at hc32 with h
    obtain rfl := Option.some.inj hc32
    have hlow : (v.toNat % 2 ^ 32).log2 < 32 := (Nat.log2_lt h).mpr (Nat.mod_lt _ (by decide))
    rw [libconfigFormatBin_eq_iff _ _ v buflen (by omega) (by omega) hlen buf]
    unfold clz64
    omega

theorem libconfigFormatBin_clzl_builds_five :
    clzlGnu 64 5 = some (clz64 5) ∧
    (∀ fuel, clz64 5 < fuel → clzlPortable fuel 5 = .ok (clz64 5)) ∧
    (clzlGnu 32 5 = none ↔ (5 : BitVec 64).toNat % 2 ^ 32 = 0) ∧
    ∀ c, clzlGnu 32 5 = some c →
      (libconfigFormatBin (fun _ => c) 5 65 (fun _ => 'x') =
          libconfigFormatBin clz64 5 65 (fun _ => 'x') ↔
        (5 : BitVec 64).toNat.log2 = ((5 : BitVec 64).toNat % 2 ^ 32).log2 + 32) :=
  libconfigFormatBin_clzl_builds 5 (by decide) 65 (by decide) fun _ => 'x'

theorem clzlGnu_llp64_five : clzlGnu 32 5 = some 29 := by
  rw [clzlGnu_llp64, show (5 : BitVec 64).toNat % 2 ^ 32 = 5 from rfl, log2_five]
  rfl

/-- On LLP64, `clzl(5)` is 29 where the 64-bit count is 61, and
`libconfig_format_bin(5, buf, 65)` writes `101` behind 32 zeros instead of `101`. -/
theorem libconfigFormatBin_llp64_five :
    clzlGnu 32 5 = some 29 ∧ clzlGnu 64 5 = some 61 ∧
      (List.range 36).map (libconfigFormatBin (fun _ => 29) 5 65 fun _ => 'x') =
        List.replicate 32 '0' ++ ['1', '0', '1', '\x00'] ∧
      (List.range 4).map (libconfigFormatBin clz64 5 65 fun _ => 'x') = ['1', '0', '1', '\x00'] := by
  refine ⟨clzlGnu_llp64_five, by rw [clzlGnu_lp64 (by decide), clz64_five], ?_, ?_⟩
  · rw [funext (libconfigFormatBin_of_le (fun _ => 29) 5 65 (by decide) (by decide) fun _ => 'x')]
    decide
  · rw [funext (libconfigFormatBin_of_le clz64 5 65 (by rw [clz64_five]; omega) (by decide) fun _ => 'x'),
      clz64_five]
    decide

end LibConfig
