import LibConfig.Util.ParseNum

/-!
`libconfig_format_bin`: the bits of a 64-bit integer, from its highest set bit
down to bit 0, as `0` and `1` in a buffer of `buflen` characters.

The buffer is the memory from `buf` on, a function from offsets to characters,
so a write past its end is a write like any other. The leading-zero count
`clzl` is a parameter: `__builtin_clzl` with GCC, the loop of `util.c`
otherwise. The results here take it to count the leading zeros of all 64 bits.
-/

namespace LibConfig

/-- The number of leading zeros of the 64 bits of a nonzero `v`. -/
def clz64 (v : BitVec 64) : ℕ :=
  63 - v.toNat.log2

theorem log2_five : Nat.log2 5 = 2 :=
  Nat.le_antisymm (Nat.lt_succ_iff.mp ((Nat.log2_lt (by decide)).mpr (by decide)))
    ((Nat.le_log2 (by decide)).mpr (by decide))

theorem clz64_five : clz64 5 = 61 := by
  rw [clz64, show (5 : BitVec 64).toNat = 5 from rfl, log2_five]

/-- The bits `m - 1` down to 0 of `v` as `0` and `1`; for `m = 64 - clz64 v`,
the binary numeral of `v` with no leading zero. -/
def binaryDigits (v : BitVec 64) (m : ℕ) : List Char :=
  (List.range m).map fun k => if v.getLsbD (m - 1 - k) then '1' else '0'

/-- The character written for bit `63 - c`: `(val & (1ll << (63 - c))) ? '1' : '0'`.
-/
def bitChar (val : BitVec 64) (c : ℕ) : Char :=
  if val &&& ((1 : BitVec 64) <<< (63 - c)) ≠ 0 then '1' else '0'

/-- The loop `while ((c < 64) && (i < buflen - 1))` of `libconfig_format_bin`,
with `bound = buflen - 1`: the buffer and `i` when it stops. -/
def formatBinLoop (val : BitVec 64) (bound : ℕ) (buf : ℕ → Char) (c i : ℕ) : (ℕ → Char) × ℕ :=
  if c < 64 ∧ i < bound then
    formatBinLoop val bound (Function.update buf i (bitChar val c)) (c + 1) (i + 1)
  else (buf, i)
termination_by 64 - c

/-- `libconfig_format_bin(val, buf, buflen)`: the loop from `c = clzl(val)` and
`i = 0`, then `buf[i] = 0`. `buflen - 1` is a `size_t`. -/
def libconfigFormatBin (clzl : BitVec 64 → ℕ) (val buflen : BitVec 64) (buf : ℕ → Char) :
    ℕ → Char :=
  let r := formatBinLoop val (buflen - 1).toNat buf (clzl val) 0
  Function.update r.1 r.2 '\x00'

/-! ### The loop -/

theorem bitChar_eq (val : BitVec 64) (c : ℕ) :
    bitChar val c = if val.getLsbD (63 - c) then '1' else '0' := by
  unfold bitChar
  rw [show (1 : BitVec 64) <<< (63 - c) = BitVec.twoPow 64 (63 - c) from rfl, BitVec.and_twoPow]
  by_cases h : val.getLsbD (63 - c)
  · have hne : BitVec.twoPow 64 (63 - c) ≠ 0#64 := by
      rw [Ne, BitVec.toNat_eq, BitVec.toNat_twoPow,
        Nat.mod_eq_of_lt (Nat.pow_lt_pow_right (by norm_num) (by omega))]
      simp
    simp [h, hne]
  · simp [h]

/-- The loop writes the bits from `63 - c` down into `i` on, as many as both
bounds allow, and nothing else. -/
theorem formatBinLoop_eq (val : BitVec 64) (bound : ℕ) (buf : ℕ → Char) (c i : ℕ) :
    formatBinLoop val bound buf c i =
      (fun j => if i ≤ j ∧ j < i + min (bound - i) (64 - c) then bitChar val (c + (j - i))
        else buf j, i + min (bound - i) (64 - c)) := by
  induction buf, c, i using formatBinLoop.induct val bound with
  | case1 buf c i h ih =>
    rw [formatBinLoop, if_pos h, ih]
    have hmin : min (bound - (i + 1)) (64 - (c + 1)) + 1 = min (bound - i) (64 - c) := by omega
    refine Prod.ext (funext fun j => ?_) (by simp only; omega)
    simp only
    by_cases hj : j = i
    · subst hj
      rw [Function.update_same, if_neg (by omega), if_pos (by omega), Nat.sub_self, Nat.add_zero]
    · rw [Function.update_noteq hj]
      by_cases hr : i ≤ j ∧ j < i + min (bound - i) (64 - c)
      · rw [if_pos (by omega), if_pos hr]
        congr 1
        omega
      · rw [if_neg (by omega), if_neg hr]
  | case2 buf c i h =>
    rw [formatBinLoop, if_neg h]
    refine Prod.ext (funext fun j => ?_) (by simp only; omega)
    simp only
    rw [if_neg (by omega)]

theorem libconfigFormatBin_eq (clzl : BitVec 64 → ℕ) (val buflen : BitVec 64) (buf : ℕ → Char)
    (j : ℕ) :
    libconfigFormatBin clzl val buflen buf j =
      if j = min (buflen - 1).toNat (64 - clzl val) then '\x00'
      else if j < min (buflen - 1).toNat (64 - clzl val) then bitChar val (clzl val + j)
      else buf j := by
  simp only [libconfigFormatBin, formatBinLoop_eq, Nat.sub_zero, Nat.zero_add, zero_le, true_and,
    Function.update_apply]

/-- With `buflen = 0`, the `size_t` `buflen - 1` wraps round, and all the bits
are written past the end of the buffer. -/
example : (List.range 5).map (libconfigFormatBin clz64 5 0 fun _ => 'x') =
    ['1', '0', '1', '\x00', 'x'] := by
  rw [funext (libconfigFormatBin_eq clz64 5 0 fun _ => 'x'), clz64_five]
  decide

/-! ### Binary numerals -/

theorem getElem_binaryDigits (v : BitVec 64) {m k : ℕ} (hk : k < (binaryDigits v m).length) :
    (binaryDigits v m)[k] = if v.getLsbD (m - 1 - k) then '1' else '0' := by
  simp [binaryDigits]

theorem binaryDigits_succ (v : BitVec 64) (m : ℕ) :
    binaryDigits v (m + 1) = (if v.getLsbD m then '1' else '0') :: binaryDigits v m := by
  simp only [binaryDigits, List.range_succ_eq_map, List.map_cons, List.map_map,
    Nat.add_sub_cancel, Nat.sub_zero, List.cons.injEq, true_and]
  exact List.map_congr_left fun k _ => by simp only [Function.comp]; congr 3; omega

theorem digitsValue_binaryDigits (v : BitVec 64) (m : ℕ) :
    digitsValue 2 (binaryDigits v m) = v.toNat % 2 ^ m := by
  induction m with
  | zero => simp [binaryDigits, Nat.mod_one]
  | succ m ih =>
    have hbit : digitValue (if v.getLsbD m then '1' else '0') = v.toNat / 2 ^ m % 2 := by
      have := Nat.mod_two_eq_zero_or_one (v.toNat / 2 ^ m)
      by_cases h : v.getLsbD m <;>
        simp_all [BitVec.getLsbD, Nat.testBit_to_div_mod, digitValue]
    rw [binaryDigits_succ, digitsValue_cons, ih, hbit, Nat.mod_pow_succ,
      show (binaryDigits v m).length = m by simp [binaryDigits]]
    ring

theorem testBit_log2 {n : ℕ} (hn : n ≠ 0) : n.testBit n.log2 := by
  have hle := Nat.log2_self_le hn
  have hlt : n < 2 ^ (n.log2 + 1) := Nat.lt_log2_self
  have h1 : 1 ≤ n / 2 ^ n.log2 := (Nat.le_div_iff_mul_le (by positivity)).mpr (by simpa using hle)
  have h2 : n / 2 ^ n.log2 < 2 := (Nat.div_lt_iff_lt_mul (by positivity)).mpr (by
    rw [Nat.pow_succ] at hlt; omega)
  simp [Nat.testBit_to_div_mod, show n / 2 ^ n.log2 = 1 by omega]

theorem clz64_lt {v : BitVec 64} (hv : v ≠ 0) : v.toNat.log2 < 64 ∧ clz64 v < 64 := by
  have hlog : v.toNat.log2 < 64 := (Nat.log2_lt (by simpa [BitVec.toNat_eq] using hv)).mpr v.isLt
  exact ⟨hlog, by unfold clz64; omega⟩

/-- `clz64 v` is the number of leading zeros of a nonzero `v`: bit
`63 - clz64 v` is set and no bit above it is. -/
theorem clz64_spec {v : BitVec 64} (hv : v ≠ 0) :
    clz64 v < 64 ∧ v.getLsbD (63 - clz64 v) = true ∧
      ∀ i, 63 - clz64 v < i → v.getLsbD i = false := by
  have hv0 : v.toNat ≠ 0 := by simpa [BitVec.toNat_eq] using hv
  obtain ⟨hlog, hc⟩ := clz64_lt hv
  have hidx : 63 - clz64 v = v.toNat.log2 := by unfold clz64; omega
  refine ⟨hc, by rw [hidx]; exact testBit_log2 hv0, fun i hi => ?_⟩
  rw [hidx] at hi
  exact Nat.testBit_lt_two_pow
    (lt_of_lt_of_le Nat.lt_log2_self (Nat.pow_le_pow_right (by omega) hi))

theorem toNat_sub_one {buflen : BitVec 64} (h : 1 ≤ buflen.toNat) :
    (buflen - 1).toNat = buflen.toNat - 1 := by
  rw [BitVec.toNat_sub]
  simp
  omega

/-! ### What is written -/

theorem bitChar_ne_nul (val : BitVec 64) (c : ℕ) : bitChar val c ≠ '\x00' := by
  unfold bitChar
  split <;> decide

/-- With room for 64 characters, the NUL stands right after the bits from
`63 - clzl v` down. -/
theorem libconfigFormatBin_of_le (clzl : BitVec 64 → ℕ) (v buflen : BitVec 64)
    (hc : clzl v ≤ 64) (hlen : 65 ≤ buflen.toNat) (buf : ℕ → Char) (j : ℕ) :
    libconfigFormatBin clzl v buflen buf j =
      if j = 64 - clzl v then '\x00' else if j < 64 - clzl v then bitChar v (clzl v + j)
      else buf j := by
  rw [libconfigFormatBin_eq, toNat_sub_one (by omega), Nat.min_eq_right (by omega)]

/-- With room for 64 characters, `libconfig_format_bin` writes the same buffer from
two leading-zero counts of at most 64 exactly when they are equal. -/
theorem libconfigFormatBin_eq_iff (clzl clzl' : BitVec 64 → ℕ) (v buflen : BitVec 64)
    (hc : clzl v ≤ 64) (hc' : clzl' v ≤ 64) (hlen : 65 ≤ buflen.toNat) (buf : ℕ → Char) :
    libconfigFormatBin clzl v buflen buf = libconfigFormatBin clzl' v buflen buf ↔
      clzl v = clzl' v := by
  have hsplit : ∀ f g : BitVec 64 → ℕ, f v < g v → g v ≤ 64 →
      libconfigFormatBin f v buflen buf ≠ libconfigFormatBin g v buflen buf := by
    intro f g hfg hg h
    have hj := congrFun h (64 - g v)
    rw [libconfigFormatBin_of_le f v buflen (by omega) hlen, if_neg (by omega), if_pos (by omega),
      libconfigFormatBin_of_le g v buflen hg hlen, if_pos rfl] at hj
    exact bitChar_ne_nul _ _ hj
  refine ⟨fun h => ?_, fun h => funext fun j => by simp only [libconfigFormatBin_eq, h]⟩
  rcases Nat.lt_trichotomy (clzl v) (clzl' v) with hlt | heq | hgt
  · exact absurd h (hsplit clzl clzl' hlt hc')
  · exact heq
  · exact absurd h.symm (hsplit clzl' clzl hgt hc)

/-- For a nonzero `v` and a buffer of at least 65 characters, the buffer holds,
NUL-terminated, a numeral `b` of `0` and `1` starting with `1`, and the digit loop
of `libconfig_parse_bin64` reads `0b` followed by `b` back as the 64 bits of `v`. -/
theorem libconfigFormatBin_parse (clzl : BitVec 64 → ℕ) (hclz : ∀ v, v ≠ 0 → clzl v = clz64 v)
    (v : BitVec 64) (hv : v ≠ 0) (buflen : BitVec 64) (hlen : 65 ≤ buflen.toNat)
    (buf : ℕ → Char) :
    let b := binaryDigits v (64 - clz64 v)
    (∀ k (hk : k < b.length), libconfigFormatBin clzl v buflen buf k = b[k]) ∧
      libconfigFormatBin clzl v buflen buf b.length = '\x00' ∧
      (∀ c ∈ b, c = '0' ∨ c = '1') ∧ b.head? = some '1' ∧
      libconfigParseBin64Mingw ('0' :: 'b' :: b) = v := by
  intro b
  have hc := clz64_lt hv
  have hv0 : v.toNat ≠ 0 := by simpa [BitVec.toNat_eq] using hv
  have hm : 64 - clz64 v = v.toNat.log2 + 1 := by unfold clz64; omega
  have hb : b.length = 64 - clz64 v := by simp [b, binaryDigits]
  have hbits : ∀ c ∈ b, c = '0' ∨ c = '1' := by
    simp only [b, binaryDigits, List.mem_map]
    rintro c ⟨k, -, rfl⟩
    split <;> simp
  refine ⟨fun k hk => ?_, ?_, hbits, ?_, ?_⟩
  · rw [libconfigFormatBin_eq, hclz v hv, toNat_sub_one (by omega), if_neg (by omega),
      if_pos (by omega), bitChar_eq, getElem_binaryDigits]
    congr 3
    omega
  · rw [libconfigFormatBin_eq, hclz v hv, toNat_sub_one (by omega), hb, if_pos (by omega)]
  · simp only [b, hm, binaryDigits, List.range_succ_eq_map, List.map_cons, List.head?_cons,
      Nat.add_sub_cancel, Nat.sub_zero]
    simp [BitVec.getLsbD, testBit_log2 hv0]
  · have htw : b.takeWhile isBinDigit = b :=
      List.takeWhile_eq_self_iff.mpr fun c hc => by
        rcases hbits c hc with rfl | rfl <;> rfl
    rw [libconfigParseBin64Mingw_eq, if_pos (.inl rfl), List.drop_succ_cons, List.drop_succ_cons,
      List.drop_zero, htw, digitsValue_binaryDigits, hm,
      Nat.mod_eq_of_lt Nat.lt_log2_self]
    simp

theorem libconfigFormatBin_parse_five :
    let b := binaryDigits 5 (64 - clz64 5)
    (∀ k (hk : k < b.length), libconfigFormatBin clz64 5 65 (fun _ => 'x') k = b[k]) ∧
      libconfigFormatBin clz64 5 65 (fun _ => 'x') b.length = '\x00' ∧
      (∀ c ∈ b, c = '0' ∨ c = '1') ∧ b.head? = some '1' ∧
      libconfigParseBin64Mingw ('0' :: 'b' :: b) = 5 :=
  libconfigFormatBin_parse clz64 (fun _ _ => rfl) 5 (by decide) 65 (by decide) fun _ => 'x'

/-! ### Reading the buffer back with `strtoull` -/

/-- The C string at the start of a buffer, read within its first `n`
characters: everything before the first NUL. -/
def readCString (buf : ℕ → Char) (n : ℕ) : List Char :=
  ((List.range n).map buf).takeWhile (· ≠ '\x00')

/-- A buffer whose first `m` characters are no NUL and whose next is holds
those `m` characters as its string. -/
theorem readCString_eq {buf : ℕ → Char} {m n : ℕ} (hmn : m < n)
    (hne : ∀ k < m, buf k ≠ '\x00') (hnul : buf m = '\x00') :
    readCString buf n = (List.range m).map buf := by
  obtain ⟨r, rfl⟩ : ∃ r, n = m + (r + 1) := ⟨n - m - 1, by omega⟩
  rw [readCString, List.range_add, List.map_append]
  apply takeWhile_append_of_stop
  · intro c hc
    obtain ⟨k, hk, rfl⟩ := List.mem_map.mp hc
    simpa using hne k (List.mem_range.mp hk)
  · rw [List.range_succ_eq_map]
    simp [hnul]

/-- With room for 64 characters, the string left in the buffer is the binary
numeral of `v`. -/
theorem readCString_libconfigFormatBin (clzl : BitVec 64 → ℕ)
    (hclz : ∀ v, v ≠ 0 → clzl v = clz64 v) {v : BitVec 64} (hv : v ≠ 0) {buflen : BitVec 64}
    (hlen : 65 ≤ buflen.toNat) (buf : ℕ → Char) :
    readCString (libconfigFormatBin clzl v buflen buf) 65 = binaryDigits v (64 - clz64 v) := by
  have hc := clz64_lt hv
  have hout : ∀ j, libconfigFormatBin clzl v buflen buf j =
      if j = 64 - clz64 v then '\x00' else if j < 64 - clz64 v then bitChar v (clz64 v + j)
      else buf j := fun j => by
    rw [libconfigFormatBin_of_le clzl v buflen (by rw [hclz v hv]; omega) hlen, hclz v hv]
  rw [readCString_eq (m := 64 - clz64 v) (by omega)
    (fun k hk => by rw [hout, if_neg (by omega), if_pos hk]; exact bitChar_ne_nul _ _)
    (by rw [hout, if_pos rfl])]
  refine List.map_congr_left fun k hk => ?_
  have hk := List.mem_range.mp hk
  rw [hout, if_neg (by omega), if_pos hk, bitChar_eq]
  congr 3
  omega

/-- With a `clzl` that counts the zeros of all 64 bits, for a nonzero `v` and a
buffer of at least 65 characters, the string `libconfig_format_bin` leaves in the
buffer, after `0b`, is read back by `libconfig_parse_bin64` as built but on MinGW,
`strtoull(s + 2, NULL, 2)`, as the 64 bits of `v`. -/
theorem libconfigFormatBin_strtoull (clzl : BitVec 64 → ℕ)
    (hclz : ∀ v, v ≠ 0 → clzl v = clz64 v) (v : BitVec 64) (hv : v ≠ 0) (buflen : BitVec 64)
    (hlen : 65 ≤ buflen.toNat) (buf : ℕ → Char) :
    libconfigParseBin64 ('0' :: 'b' :: readCString (libconfigFormatBin clzl v buflen buf) 65) = v := by
  have hc := clz64_lt hv
  have hm : 64 - clz64 v = v.toNat.log2 + 1 := by unfold clz64; omega
  rw [readCString_libconfigFormatBin clzl hclz hv hlen]
  have hlit : IsBinLiteral ('0' :: 'b' :: binaryDigits v (64 - clz64 v))
      (binaryDigits v (64 - clz64 v)) := by
    refine ⟨'b', [], by simp, .inl rfl, ?_, ?_, by simp⟩
    · rw [hm, binaryDigits_succ]; exact List.cons_ne_nil _ _
    · intro c hc
      simp only [binaryDigits, List.mem_map] at hc
      obtain ⟨k, -, rfl⟩ := hc
      split <;> rfl
  rw [strtoull_bin_literal hlit, digitsValue_binaryDigits, hm, Nat.mod_eq_of_lt Nat.lt_log2_self,
    if_neg (by have := v.isLt; omega)]
  simp

theorem libconfigFormatBin_strtoull_five :
    libconfigParseBin64 ('0' :: 'b' :: readCString (libconfigFormatBin clz64 5 65 fun _ => 'x') 65) =
      5 :=
  libconfigFormatBin_strtoull clz64 (fun _ _ => rfl) 5 (by decide) 65 (by decide) fun _ => 'x'

end LibConfig
