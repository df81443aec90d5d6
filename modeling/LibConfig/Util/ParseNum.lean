import Mathlib.Data.Nat.Digits

/-!
The integer literal readers of `util.c`: `libconfig_parse_hex64` and
`libconfig_parse_bin64`.

Each has two branches: `strtoull` of the C library, and, on MinGW, a digit loop
written out by hand. A C string is the list of its characters before the
terminating NUL, and a pointer into it the rest of that list; reading past the
end reads `'\0'`, which is no digit and no prefix letter.
-/

namespace LibConfig

/-! ### Characters -/

/-- `isxdigit` in the C locale. -/
def isXDigit (c : Char) : Bool :=
  ('0' ≤ c && c ≤ '9') || ('a' ≤ c && c ≤ 'f') || ('A' ≤ c && c ≤ 'F')

/-- The test of the binary loop, `*p == '0' || *p == '1'`. -/
def isBinDigit (c : Char) : Bool :=
  c = '0' || c = '1'

/-- `isspace` in the C locale. -/
def isSpace (c : Char) : Bool :=
  c = ' ' || ('\t' ≤ c && c ≤ '\r')

/-- The value of a digit in the bases `strtoull` reads: `'0'` to `'9'`, then
the letters of either case from 10. Any other character gets 36, a digit in no
base. -/
def digitValue (c : Char) : ℕ :=
  if '0' ≤ c ∧ c ≤ '9' then c.toNat - '0'.toNat
  else if 'a' ≤ c ∧ c ≤ 'z' then c.toNat - 'a'.toNat + 10
  else if 'A' ≤ c ∧ c ≤ 'Z' then c.toNat - 'A'.toNat + 10
  else 36

/-- The nibble of the hexadecimal loop: `(*p < 'A') ? (*p & 0xF) : (9 + (*p &
0x7))`. -/
def hexNibble (c : Char) : ℕ :=
  if c.toNat < 'A'.toNat then c.toNat &&& 0xF else 9 + (c.toNat &&& 0x7)

/-- The value of the digits `cs` in base `b`, the first the most significant:
`∑ dᵢ * b ^ (k - 1 - i)`. -/
def digitsValue (b : ℕ) (cs : List Char) : ℕ :=
  Nat.ofDigits b (cs.map digitValue).reverse

theorem char_le_iff (a b : Char) : a ≤ b ↔ a.toNat ≤ b.toNat := Iff.rfl

theorem isXDigit_iff (c : Char) : isXDigit c ↔ digitValue c < 16 := by
  simp only [isXDigit, digitValue, char_le_iff, Bool.or_eq_true, Bool.and_eq_true,
    decide_eq_true_eq]
  simp only [show '0'.toNat = 48 from rfl, show '9'.toNat = 57 from rfl,
    show 'a'.toNat = 97 from rfl, show 'f'.toNat = 102 from rfl, show 'z'.toNat = 122 from rfl,
    show 'A'.toNat = 65 from rfl, show 'F'.toNat = 70 from rfl, show 'Z'.toNat = 90 from rfl]
  split_ifs <;> omega

theorem isBinDigit_iff (c : Char) : isBinDigit c ↔ digitValue c < 2 := by
  constructor
  · simp only [isBinDigit, Bool.or_eq_true, decide_eq_true_eq]
    rintro (rfl | rfl) <;> decide
  · intro h
    have hc : c.toNat = 48 ∨ c.toNat = 49 := by
      revert h
      simp only [digitValue, char_le_iff, show '0'.toNat = 48 from rfl,
        show '9'.toNat = 57 from rfl, show 'a'.toNat = 97 from rfl, show 'z'.toNat = 122 from rfl,
        show 'A'.toNat = 65 from rfl, show 'Z'.toNat = 90 from rfl]
      split_ifs <;> omega
    rcases hc with hc | hc <;> rw [← Char.ofNat_toNat c, hc] <;> decide

/-- The nibble expression gives the value of every hexadecimal digit. -/
theorem hexNibble_eq {c : Char} (h : isXDigit c) : hexNibble c = digitValue c := by
  have hx := (isXDigit_iff c).mp h
  simp only [hexNibble, digitValue, char_le_iff] at hx ⊢
  simp only [show '0'.toNat = 48 from rfl, show '9'.toNat = 57 from rfl,
    show 'a'.toNat = 97 from rfl, show 'z'.toNat = 122 from rfl, show 'A'.toNat = 65 from rfl,
    show 'Z'.toNat = 90 from rfl] at hx ⊢
  have hcodes : ∀ n < 128, ((48 ≤ n ∧ n ≤ 57) ∨ (97 ≤ n ∧ n ≤ 102) ∨ (65 ≤ n ∧ n ≤ 70)) →
      (if n < 65 then n &&& 15 else 9 + (n &&& 7)) =
        if 48 ≤ n ∧ n ≤ 57 then n - 48 else if 97 ≤ n ∧ n ≤ 122 then n - 97 + 10
        else if 65 ≤ n ∧ n ≤ 90 then n - 65 + 10 else 36 := by
    decide
  exact hcodes _ (by split_ifs at hx <;> omega) (by split_ifs at hx <;> omega)

/-! ### Digit runs -/

@[simp] theorem digitsValue_nil (b : ℕ) : digitsValue b [] = 0 := rfl

theorem digitsValue_cons (b : ℕ) (c : Char) (cs : List Char) :
    digitsValue b (c :: cs) = digitValue c * b ^ cs.length + digitsValue b cs := by
  simp [digitsValue, Nat.ofDigits_append, Nat.add_comm, Nat.mul_comm]

theorem digitsValue_lt {b : ℕ} {cs : List Char} (hb : 1 < b) (h : ∀ c ∈ cs, digitValue c < b) :
    digitsValue b cs < b ^ cs.length := by
  have h' : ∀ d ∈ (cs.map digitValue).reverse, d < b := by simpa using h
  simpa [digitsValue] using Nat.ofDigits_lt_base_pow_length hb h'

theorem digitsValue_append (b : ℕ) (cs ds : List Char) :
    digitsValue b (cs ++ ds) = digitsValue b cs * b ^ ds.length + digitsValue b ds := by
  simp [digitsValue, Nat.ofDigits_append, Nat.add_comm, Nat.mul_comm]

theorem ofNat_shiftLeft_or {a d n : ℕ} (hd : d < 2 ^ n) :
    (BitVec.ofNat 64 a <<< n) ||| BitVec.ofNat 64 d = BitVec.ofNat 64 (a * 2 ^ n + d) := by
  rw [← BitVec.add_eq_or_of_and_eq_zero]
  · apply BitVec.eq_of_toNat_eq
    simp only [BitVec.toNat_add, BitVec.toNat_shiftLeft, BitVec.toNat_ofNat, Nat.shiftLeft_eq]
    simp [Nat.add_mod, Nat.mul_mod, Nat.mod_mod]
  · ext i
    simp [BitVec.getLsbD_shiftLeft, BitVec.getLsbD_ofNat]
    intro h _ _
    exact Nat.testBit_lt_two_pow (lt_of_lt_of_le hd (Nat.pow_le_pow_right (by omega) h))

theorem takeWhile_append_of_stop {p : Char → Bool} {cs ds : List Char} (hcs : ∀ c ∈ cs, p c)
    (hds : ∀ c ∈ ds.head?, p c = false) : (cs ++ ds).takeWhile p = cs := by
  rw [List.takeWhile_append_of_pos hcs]
  cases ds with
  | nil => simp
  | cons d ds => simp [List.takeWhile_cons, hds d rfl]

/-! ### The digit loops of MinGW -/

/-- The loop `for (++p; isxdigit(*p); ++p)` of `libconfig_parse_hex64`. -/
def hexLoop : List Char → BitVec 64 → BitVec 64
  | c :: p, val =>
    if isXDigit c then hexLoop p ((val <<< 4) ||| BitVec.ofNat 64 (hexNibble c)) else val
  | [], val => val

/-- The loop `for (++p; *p == '0' || *p == '1'; ++p)` of `libconfig_parse_bin64`. -/
def binLoop : List Char → BitVec 64 → BitVec 64
  | c :: p, val =>
    if isBinDigit c then binLoop p ((val <<< 1) ||| if c = '1' then 1 else 0) else val
  | [], val => val

/-- `libconfig_parse_hex64` as built on MinGW. -/
def libconfigParseHex64Mingw : List Char → BitVec 64
  | '0' :: x :: p => if x = 'x' ∨ x = 'X' then hexLoop p 0 else 0
  | _ => 0

/-- `libconfig_parse_bin64` as built on MinGW. -/
def libconfigParseBin64Mingw : List Char → BitVec 64
  | '0' :: x :: p => if x = 'b' ∨ x = 'B' then binLoop p 0 else 0
  | _ => 0

theorem hexLoop_eq (p : List Char) (a : ℕ) :
    hexLoop p (BitVec.ofNat 64 a) = BitVec.ofNat 64
      (a * 16 ^ (p.takeWhile isXDigit).length + digitsValue 16 (p.takeWhile isXDigit)) := by
  induction p generalizing a with
  | nil => simp [hexLoop]
  | cons c p ih =>
    by_cases hc : isXDigit c
    · have hd : hexNibble c < 2 ^ 4 := by
        rw [hexNibble_eq hc]; exact (isXDigit_iff c).mp hc
      rw [hexLoop, if_pos hc, ofNat_shiftLeft_or hd, ih, List.takeWhile_cons_of_pos hc,
        List.length_cons, digitsValue_cons, hexNibble_eq hc]
      congr 1
      ring
    · simp [hexLoop, hc, List.takeWhile_cons_of_neg]

theorem binLoop_eq (p : List Char) (a : ℕ) :
    binLoop p (BitVec.ofNat 64 a) = BitVec.ofNat 64
      (a * 2 ^ (p.takeWhile isBinDigit).length + digitsValue 2 (p.takeWhile isBinDigit)) := by
  induction p generalizing a with
  | nil => simp [binLoop]
  | cons c p ih =>
    by_cases hc : isBinDigit c
    · have hbit : (if c = '1' then 1 else 0 : BitVec 64) = BitVec.ofNat 64 (digitValue c) := by
        simp only [isBinDigit, Bool.or_eq_true, decide_eq_true_eq] at hc
        rcases hc with rfl | rfl <;> rfl
      have hd : digitValue c < 2 ^ 1 := (isBinDigit_iff c).mp hc
      rw [binLoop, if_pos hc, hbit, ofNat_shiftLeft_or hd, ih, List.takeWhile_cons_of_pos hc,
        List.length_cons, digitsValue_cons]
      congr 1
      ring
    · simp [binLoop, hc, List.takeWhile_cons_of_neg]

theorem libconfigParseHex64Mingw_eq (s : List Char) :
    libconfigParseHex64Mingw s =
      if s.take 2 = ['0', 'x'] ∨ s.take 2 = ['0', 'X'] then
        BitVec.ofNat 64 (digitsValue 16 ((s.drop 2).takeWhile isXDigit))
      else 0 := by
  rcases s with _ | ⟨c, _ | ⟨x, p⟩⟩
  · rfl
  · split <;> simp_all [libconfigParseHex64Mingw]
  · have h := hexLoop_eq p 0
    simp only [Nat.zero_mul, Nat.zero_add, BitVec.ofNat_eq_ofNat] at h
    by_cases hc : c = '0'
    · by_cases hx : x = 'x' ∨ x = 'X' <;> simp_all [libconfigParseHex64Mingw]
    · simp [libconfigParseHex64Mingw, hc]

/-- On MinGW, `libconfig_parse_hex64` gives 0 unless `s` starts with `0x` or `0X`,
and otherwise the value, modulo `2 ^ 64`, of the hexadecimal digits that follow: the
nibble expression is the value of each digit, and shifting left by 4 then or-ing it
in is multiplying by 16 and adding it, modulo `2 ^ 64`. -/
theorem libconfigParseHex64Mingw_spec :
    (∀ s : List Char, libconfigParseHex64Mingw s =
      if s.take 2 = ['0', 'x'] ∨ s.take 2 = ['0', 'X'] then
        BitVec.ofNat 64 (digitsValue 16 ((s.drop 2).takeWhile isXDigit))
      else 0) ∧
    (∀ c, isXDigit c → hexNibble c = digitValue c) ∧
    ∀ (x : BitVec 64) (d : ℕ), d < 16 →
      (x <<< 4) ||| BitVec.ofNat 64 d = x * 16 + BitVec.ofNat 64 d := by
  refine ⟨libconfigParseHex64Mingw_eq, fun c => hexNibble_eq, fun x d hd => ?_⟩
  have hx : BitVec.ofNat 64 x.toNat = x := by simp
  rw [← hx, ofNat_shiftLeft_or (show d < 2 ^ 4 by omega)]
  apply BitVec.eq_of_toNat_eq
  simp [BitVec.toNat_mul, BitVec.toNat_add, Nat.add_mod, Nat.mul_mod]

example : libconfigParseHex64Mingw "0x1fL".toList = 31 := by decide

/-- `binLoop` keeps the last 64 bits of the run. -/
theorem digitsValue_two_mod {cs : List Char} (h : ∀ c ∈ cs, isBinDigit c) :
    digitsValue 2 cs % 2 ^ 64 = digitsValue 2 (cs.drop (cs.length - 64)) := by
  have hlt : digitsValue 2 (cs.drop (cs.length - 64)) < 2 ^ 64 :=
    lt_of_lt_of_le (digitsValue_lt (by norm_num)
      fun c hc => (isBinDigit_iff c).mp (h c (List.mem_of_mem_drop hc)))
      (Nat.pow_le_pow_right (by norm_num) (by simp; omega))
  conv_lhs => rw [← List.take_append_drop (cs.length - 64) cs, digitsValue_append]
  by_cases hk : 64 ≤ cs.length
  · have hlen : (cs.drop (cs.length - 64)).length = 64 := by simp; omega
    rw [hlen, Nat.add_comm, Nat.add_mul_mod_self_right, Nat.mod_eq_of_lt hlt]
  · rw [show cs.length - 64 = 0 by omega, List.take_zero, digitsValue_nil, Nat.zero_mul,
      Nat.zero_add, Nat.mod_eq_of_lt (by rwa [show cs.length - 64 = 0 by omega] at hlt)]

theorem libconfigParseBin64Mingw_eq (s : List Char) :
    libconfigParseBin64Mingw s =
      if s.take 2 = ['0', 'b'] ∨ s.take 2 = ['0', 'B'] then
        BitVec.ofNat 64 (digitsValue 2 ((s.drop 2).takeWhile isBinDigit))
      else 0 := by
  rcases s with _ | ⟨c, _ | ⟨x, p⟩⟩
  · rfl
  · split <;> simp_all [libconfigParseBin64Mingw]
  · have h := binLoop_eq p 0
    simp only [Nat.zero_mul, Nat.zero_add, BitVec.ofNat_eq_ofNat] at h
    by_cases hc : c = '0'
    · by_cases hx : x = 'b' ∨ x = 'B' <;> simp_all [libconfigParseBin64Mingw]
    · simp [libconfigParseBin64Mingw, hc]

/-- On MinGW, `libconfig_parse_bin64` gives 0 unless `s` starts with `0b` or `0B`,
and otherwise the value, modulo `2 ^ 64`, of the run of `0` and `1` that follows:
the value of its last 64 bits, or of all of them when there are fewer. -/
theorem libconfigParseBin64Mingw_spec (s : List Char) :
    libconfigParseBin64Mingw s =
      (if s.take 2 = ['0', 'b'] ∨ s.take 2 = ['0', 'B'] then
        BitVec.ofNat 64 (digitsValue 2 ((s.drop 2).takeWhile isBinDigit))
      else 0) ∧
    (libconfigParseBin64Mingw s).toNat =
      if s.take 2 = ['0', 'b'] ∨ s.take 2 = ['0', 'B'] then
        digitsValue 2 (((s.drop 2).takeWhile isBinDigit).drop
          (((s.drop 2).takeWhile isBinDigit).length - 64))
      else 0 := by
  refine ⟨libconfigParseBin64Mingw_eq s, ?_⟩
  rw [libconfigParseBin64Mingw_eq]
  split
  · rw [BitVec.toNat_ofNat, digitsValue_two_mod fun c hc => List.mem_takeWhile_imp hc]
  · rfl

/-! ### The `strtoull` branches -/

/-- The optional `0x` or `0X` of `strtoull` in base 16, taken only when a
hexadecimal digit follows it. -/
def skipHexPrefix : List Char → List Char
  | '0' :: x :: d :: r => if (x = 'x' ∨ x = 'X') ∧ isXDigit d then d :: r else '0' :: x :: d :: r
  | s => s

/-- `strtoull(s, NULL, base)` of the C library, for a base from 2 to 36, as the
C standard describes it: white space, an optional sign, for base 16 an optional
`0x` or `0X` before the first digit, then the longest run of digits of the
base. A value above `ULLONG_MAX` gives `ULLONG_MAX`, and a minus sign negates
the value in the unsigned type. -/
def strtoull (s : List Char) (base : ℕ) : BitVec 64 :=
  let s := s.dropWhile isSpace
  let neg := s.head? = some '-'
  let s := if s.head? = some '-' ∨ s.head? = some '+' then s.tail else s
  let s := if base = 16 then skipHexPrefix s else s
  let v := digitsValue base (s.takeWhile (digitValue · < base))
  if 2 ^ 64 ≤ v then BitVec.allOnes 64 else if neg then -BitVec.ofNat 64 v else BitVec.ofNat 64 v

/-- `libconfig_parse_hex64` as built but on MinGW: `strtoull(s, NULL, 16)`. -/
def libconfigParseHex64 (s : List Char) : BitVec 64 :=
  strtoull s 16

/-- `libconfig_parse_bin64` as built but on MinGW: `strtoull(s+2, NULL, 2)`. -/
def libconfigParseBin64 (s : List Char) : BitVec 64 :=
  strtoull (s.drop 2) 2

/-- A hexadecimal literal as the scanner hands it over, with digits `run`:
`0x` or `0X`, one hexadecimal digit or more, then a tail that does not start
with one. -/
def IsHexLiteral (s run : List Char) : Prop :=
  ∃ x tail, s = '0' :: x :: (run ++ tail) ∧ (x = 'x' ∨ x = 'X') ∧ run ≠ [] ∧
    (∀ c ∈ run, isXDigit c) ∧ ∀ c ∈ tail.head?, isXDigit c = false

/-- A binary literal as the scanner hands it over, with digits `run`: `0b` or
`0B`, one `0` or `1` or more, then a tail that does not start with one. -/
def IsBinLiteral (s run : List Char) : Prop :=
  ∃ x tail, s = '0' :: x :: (run ++ tail) ∧ (x = 'b' ∨ x = 'B') ∧ run ≠ [] ∧
    (∀ c ∈ run, isBinDigit c) ∧ ∀ c ∈ tail.head?, isBinDigit c = false

theorem strtoull_hex_literal {s run : List Char} (h : IsHexLiteral s run) :
    libconfigParseHex64 s = if 2 ^ 64 ≤ digitsValue 16 run then BitVec.allOnes 64
      else BitVec.ofNat 64 (digitsValue 16 run) := by
  obtain ⟨x, tail, rfl, hx, hne, hrun, htail⟩ := h
  obtain ⟨d, r, rfl⟩ := List.exists_cons_of_ne_nil hne
  have htw : (d :: (r ++ tail)).takeWhile (fun c => decide (digitValue c < 16)) = d :: r := by
    rw [show (fun c => decide (digitValue c < 16)) = isXDigit from
      funext fun c => by rw [Bool.eq_iff_iff, decide_eq_true_iff, isXDigit_iff]]
    exact takeWhile_append_of_stop hrun htail
  have hd : isXDigit d := hrun d (List.mem_cons_self _ _)
  simp only [libconfigParseHex64, strtoull,
    List.dropWhile_cons_of_neg (show ¬ isSpace '0' = true by decide), List.head?_cons,
    Option.some.injEq, show ('0' = '-') = False by decide, show ('0' = '+') = False by decide,
    or_self, if_false, if_true, List.cons_append, skipHexPrefix, hx, hd, and_self, htw]

theorem strtoull_bin_literal {s run : List Char} (h : IsBinLiteral s run) :
    libconfigParseBin64 s = if 2 ^ 64 ≤ digitsValue 2 run then BitVec.allOnes 64
      else BitVec.ofNat 64 (digitsValue 2 run) := by
  obtain ⟨x, tail, rfl, -, hne, hrun, htail⟩ := h
  obtain ⟨d, r, rfl⟩ := List.exists_cons_of_ne_nil hne
  have htw : (d :: (r ++ tail)).takeWhile (fun c => decide (digitValue c < 2)) = d :: r := by
    rw [show (fun c => decide (digitValue c < 2)) = isBinDigit from
      funext fun c => by rw [Bool.eq_iff_iff, decide_eq_true_iff, isBinDigit_iff]]
    exact takeWhile_append_of_stop hrun htail
  have hd : d = '0' ∨ d = '1' := by
    simpa [isBinDigit] using hrun d (List.mem_cons_self _ _)
  have hsp : ¬ isSpace d = true := by rcases hd with rfl | rfl <;> decide
  have hsign : (d = '-') = False ∧ (d = '+') = False := by
    rcases hd with rfl | rfl <;> exact ⟨eq_false (by decide), eq_false (by decide)⟩
  simp only [libconfigParseBin64, strtoull, List.drop_succ_cons, List.drop_zero, List.cons_append,
    List.dropWhile_cons_of_neg hsp, List.head?_cons, Option.some.injEq, hsign.1, hsign.2, or_self,
    if_false, show (2 = 16) = False by decide, htw]

/-- `strtoull` saturates where the loop wraps round: the two agree on a value
`v` exactly when `v` fits in 64 bits or is `ULLONG_MAX` modulo `2 ^ 64`. -/
theorem saturate_eq_iff (v : ℕ) :
    (if 2 ^ 64 ≤ v then BitVec.allOnes 64 else BitVec.ofNat 64 v) = BitVec.ofNat 64 v ↔
      v < 2 ^ 64 ∨ v % 2 ^ 64 = 2 ^ 64 - 1 := by
  by_cases hv : 2 ^ 64 ≤ v
  · rw [if_pos hv, BitVec.toNat_eq, BitVec.toNat_allOnes, BitVec.toNat_ofNat]
    omega
  · simp only [if_neg hv, true_iff]
    exact .inl (by omega)

/-- The two branches differ on `0x1` followed by sixteen zeros, `2 ^ 64`:
`strtoull` gives `ULLONG_MAX`, the loop 0. -/
theorem libconfigParseHex64_branches_differ :
    IsHexLiteral ('0' :: 'x' :: '1' :: List.replicate 16 '0') ('1' :: List.replicate 16 '0') ∧
      libconfigParseHex64 ('0' :: 'x' :: '1' :: List.replicate 16 '0') = BitVec.allOnes 64 ∧
      libconfigParseHex64Mingw ('0' :: 'x' :: '1' :: List.replicate 16 '0') = 0 :=
  ⟨⟨'x', [], by simp, .inl rfl, by simp, by decide, by simp⟩, by decide, by decide⟩

/-- On a hexadecimal or binary literal whose digits have the value `v`, the loop of
MinGW gives `v` modulo `2 ^ 64` and `strtoull` gives `v`, or `ULLONG_MAX` when `v`
does not fit in 64 bits; so they agree exactly when `v < 2 ^ 64` or `v` is
`ULLONG_MAX` modulo `2 ^ 64`. -/
theorem libconfigParse64_branches :
    (∀ s run, IsHexLiteral s run →
      libconfigParseHex64Mingw s = BitVec.ofNat 64 (digitsValue 16 run) ∧
      libconfigParseHex64 s = (if 2 ^ 64 ≤ digitsValue 16 run then BitVec.allOnes 64
        else BitVec.ofNat 64 (digitsValue 16 run)) ∧
      (libconfigParseHex64 s = libconfigParseHex64Mingw s ↔
        digitsValue 16 run < 2 ^ 64 ∨ digitsValue 16 run % 2 ^ 64 = 2 ^ 64 - 1)) ∧
    ∀ s run, IsBinLiteral s run →
      libconfigParseBin64Mingw s = BitVec.ofNat 64 (digitsValue 2 run) ∧
      libconfigParseBin64 s = (if 2 ^ 64 ≤ digitsValue 2 run then BitVec.allOnes 64
        else BitVec.ofNat 64 (digitsValue 2 run)) ∧
      (libconfigParseBin64 s = libconfigParseBin64Mingw s ↔
        digitsValue 2 run < 2 ^ 64 ∨ digitsValue 2 run % 2 ^ 64 = 2 ^ 64 - 1) := by
  refine ⟨fun s run h => ?_, fun s run h => ?_⟩
  · have hloop : libconfigParseHex64Mingw s = BitVec.ofNat 64 (digitsValue 16 run) := by
      obtain ⟨x, tail, rfl, hx, -, hrun, htail⟩ := h
      rw [libconfigParseHex64Mingw_eq]
      simp [hx, takeWhile_append_of_stop hrun htail]
    rw [hloop, strtoull_hex_literal h, saturate_eq_iff]
    exact ⟨rfl, rfl, Iff.rfl⟩
  · have hloop : libconfigParseBin64Mingw s = BitVec.ofNat 64 (digitsValue 2 run) := by
      obtain ⟨x, tail, rfl, hx, -, hrun, htail⟩ := h
      rw [libconfigParseBin64Mingw_eq]
      simp [hx, takeWhile_append_of_stop hrun htail]
    rw [hloop, strtoull_bin_literal h, saturate_eq_iff]
    exact ⟨rfl, rfl, Iff.rfl⟩

theorem libconfigParse64_branches_on_literals :
    (libconfigParseHex64Mingw ['0', 'x', '1', 'F', 'L'] = BitVec.ofNat 64 (digitsValue 16 ['1', 'F']) ∧
      libconfigParseHex64 ['0', 'x', '1', 'F', 'L'] =
        (if 2 ^ 64 ≤ digitsValue 16 ['1', 'F'] then BitVec.allOnes 64
          else BitVec.ofNat 64 (digitsValue 16 ['1', 'F'])) ∧
      (libconfigParseHex64 ['0', 'x', '1', 'F', 'L'] = libconfigParseHex64Mingw ['0', 'x', '1', 'F', 'L'] ↔
        digitsValue 16 ['1', 'F'] < 2 ^ 64 ∨ digitsValue 16 ['1', 'F'] % 2 ^ 64 = 2 ^ 64 - 1)) ∧
    (libconfigParseBin64Mingw ['0', 'b', '1', '0', '1'] = BitVec.ofNat 64 (digitsValue 2 ['1', '0', '1']) ∧
      libconfigParseBin64 ['0', 'b', '1', '0', '1'] =
        (if 2 ^ 64 ≤ digitsValue 2 ['1', '0', '1'] then BitVec.allOnes 64
          else BitVec.ofNat 64 (digitsValue 2 ['1', '0', '1'])) ∧
      (libconfigParseBin64 ['0', 'b', '1', '0', '1'] = libconfigParseBin64Mingw ['0', 'b', '1', '0', '1'] ↔
        digitsValue 2 ['1', '0', '1'] < 2 ^ 64 ∨ digitsValue 2 ['1', '0', '1'] % 2 ^ 64 = 2 ^ 64 - 1)) :=
  ⟨libconfigParse64_branches.1 _ _ ⟨'x', ['L'], rfl, .inl rfl, by simp, by decide, by decide⟩,
    libconfigParse64_branches.2 _ _ ⟨'b', [], rfl, .inl rfl, by simp, by decide, by simp⟩⟩

end LibConfig
