import LibConfig.Util.ParseNum

/-!
`libconfig_parse_integer` of `util.c`, the reader of the integer literals of a
configuration: `strtoll(s, &endptr, 0)`, then a parse error unless the whole
string was read and `errno` stayed 0.

`strtoll` is the C library's, modelled from the C standard as `strtoull` is.
`errno` is passed in and out; the value `strtoll` stores on overflow is
`ERANGE` of Linux. A string is read back exactly when it is white space, an
optional sign and one integer constant of C whose value is a `long long`
(`ReadsAs`), and the empty string reads as 0.
-/

namespace LibConfig

/-! ### `strtoll` in base 0 -/

/-- `ERANGE`. -/
def erange : ℤ := 34

/-- The longest run of digits of base `b` at the front of `s`: its value and
the rest of `s`. -/
def digitRun (b : ℕ) (s : List Char) : ℕ × List Char :=
  (digitsValue b (s.takeWhile (digitValue · < b)), s.dropWhile (digitValue · < b))

/-- After a leading `0`: an `x` or `X` followed by a hexadecimal digit, the
prefix of base 16. -/
def hexPrefix : List Char → Bool
  | x :: d :: _ => (x = 'x' || x = 'X') && isXDigit d
  | _ => false

/-- The optional sign of the subject sequence: whether it is `-`, and what
follows it. -/
def takeSign : List Char → Bool × List Char
  | '-' :: u => (true, u)
  | '+' :: u => (false, u)
  | u => (false, u)

/-- The integer constant at the front of `s` in base 0, with its value and the
rest of `s`: hexadecimal after `0x` or `0X`, octal after another leading `0`,
decimal otherwise; `none` when `s` does not start with a digit. -/
def subjectBase0 : List Char → Option (ℕ × List Char)
  | [] => none
  | c :: r =>
    if c = '0' then some (if hexPrefix r then digitRun 16 r.tail else digitRun 8 r)
    else if digitValue c < 10 then some (digitRun 10 (c :: r))
    else none

/-- `strtoll(s, &endptr, 0)` as the C standard describes it: white space, an
optional sign, then an integer constant in base 0. Without one there is no
conversion: 0, and `endptr` is `s`. A value outside `long long` gives
`LLONG_MIN` or `LLONG_MAX` by its sign and stores `ERANGE` in `errno`. The
result is the value, `endptr` as the rest of `s`, and `errno`. -/
def strtoll (s : List Char) (errno : ℤ) : BitVec 64 × List Char × ℤ :=
  let (neg, u) := takeSign (s.dropWhile isSpace)
  match subjectBase0 u with
  | none => (0, s, errno)
  | some (n, rest) =>
    let x : ℤ := if neg then -n else n
    if x < -2 ^ 63 then (BitVec.ofInt 64 (-2 ^ 63), rest, erange)
    else if 2 ^ 63 ≤ x then (BitVec.ofInt 64 (2 ^ 63 - 1), rest, erange)
    else (BitVec.ofInt 64 x, rest, errno)

/-- `libconfig_parse_integer(s, &ok)`: the value returned, `*ok`, and `errno`
after the call. -/
def libconfigParseInteger (s : List Char) (errno : ℤ) : BitVec 64 × Bool × ℤ :=
  let errsave := errno
  let (llval, endptr, errno) := strtoll s 0
  if endptr ≠ [] ∨ errno ≠ 0 then (0, false, 0)
  else (llval, true, errsave)

/-! ### The constants it reads -/

/-- The integer constants of C in base 0 with their values: a decimal constant
starts with a digit other than `0`, an octal one with `0`, and a hexadecimal
one is `0x` or `0X` and one hexadecimal digit or more. -/
inductive IntegerConstant : List Char → ℕ → Prop
  | decimal {d : Char} {ds : List Char} : '1' ≤ d ∧ d ≤ '9' → (∀ c ∈ ds, '0' ≤ c ∧ c ≤ '9') →
      IntegerConstant (d :: ds) (digitsValue 10 (d :: ds))
  | octal {ds : List Char} : (∀ c ∈ ds, '0' ≤ c ∧ c ≤ '7') →
      IntegerConstant ('0' :: ds) (digitsValue 8 ds)
  | hexadecimal {x : Char} {ds : List Char} : (x = 'x' ∨ x = 'X') → ds ≠ [] →
      (∀ c ∈ ds, isXDigit c) → IntegerConstant ('0' :: x :: ds) (digitsValue 16 ds)

/-- `s` is, in full, white space, an optional sign and an integer constant,
whose signed value `v` is a `long long`. -/
def ReadsAs (s : List Char) (v : ℤ) : Prop :=
  ∃ ws sign body, ∃ n : ℕ, s = ws ++ sign ++ body ∧ (∀ c ∈ ws, isSpace c) ∧
    (sign = [] ∧ v = n ∨ sign = ['+'] ∧ v = n ∨ sign = ['-'] ∧ v = -n) ∧
    IntegerConstant body n ∧ -2 ^ 63 ≤ v ∧ v < 2 ^ 63

/-! ### Digits and runs -/

theorem digitValue_lt_iff {b : ℕ} (hb : b ≤ 10) (c : Char) :
    digitValue c < b ↔ 48 ≤ c.toNat ∧ c.toNat < 48 + b := by
  simp only [digitValue, char_le_iff, show '0'.toNat = 48 from rfl, show '9'.toNat = 57 from rfl,
    show 'a'.toNat = 97 from rfl, show 'z'.toNat = 122 from rfl, show 'A'.toNat = 65 from rfl,
    show 'Z'.toNat = 90 from rfl]
  split_ifs <;> omega

theorem digitValue_lt_ten_iff (c : Char) : digitValue c < 10 ↔ '0' ≤ c ∧ c ≤ '9' := by
  rw [digitValue_lt_iff le_rfl, char_le_iff, char_le_iff, show '0'.toNat = 48 from rfl,
    show '9'.toNat = 57 from rfl]
  omega

theorem digitValue_lt_eight_iff (c : Char) : digitValue c < 8 ↔ '0' ≤ c ∧ c ≤ '7' := by
  rw [digitValue_lt_iff (by norm_num), char_le_iff, char_le_iff, show '0'.toNat = 48 from rfl,
    show '7'.toNat = 55 from rfl]
  omega

theorem dropWhile_append_of_stop {p : Char → Bool} {cs ds : List Char} (hcs : ∀ c ∈ cs, p c)
    (hds : ∀ c ∈ ds.head?, p c = false) : (cs ++ ds).dropWhile p = ds := by
  rw [List.dropWhile_append_of_pos hcs]
  cases ds with
  | nil => rfl
  | cons d ds => simp [List.dropWhile_cons, hds d rfl]

theorem digitRun_of_forall {b : ℕ} {s : List Char} (h : ∀ c ∈ s, digitValue c < b) :
    digitRun b s = (digitsValue b s, []) := by
  have h' : ∀ c ∈ s, decide (digitValue c < b) = true := by simpa using h
  rw [digitRun, List.takeWhile_eq_self_iff.mpr h', List.dropWhile_eq_nil_iff.mpr h']

theorem digitRun_eq_nil {b n : ℕ} {s : List Char} (h : digitRun b s = (n, [])) :
    (∀ c ∈ s, digitValue c < b) ∧ n = digitsValue b s := by
  have hall : ∀ c ∈ s, digitValue c < b := by
    simpa using List.dropWhile_eq_nil_iff.mp (congrArg Prod.snd h)
  have hn := congrArg Prod.fst h
  rw [digitRun_of_forall hall] at hn
  exact ⟨hall, hn.symm⟩

theorem char_zero_le {d : Char} (h : '1' ≤ d) : '0' ≤ d :=
  Nat.le_trans (Nat.le_succ 48) h

theorem char_eq_iff (a b : Char) : a = b ↔ a.toNat = b.toNat :=
  ⟨congrArg _, fun h => by rw [← Char.ofNat_toNat a, h, Char.ofNat_toNat]⟩

theorem not_space_sign_of_digit {c : Char} (hc : digitValue c < 10) :
    isSpace c = false ∧ c ≠ '-' ∧ c ≠ '+' := by
  rw [digitValue_lt_iff le_rfl] at hc
  refine ⟨?_, ?_, ?_⟩
  · cases h : isSpace c
    · rfl
    · simp only [isSpace, Bool.or_eq_true, Bool.and_eq_true, decide_eq_true_eq, char_eq_iff,
        char_le_iff] at h
      change _ = 32 ∨ 9 ≤ _ ∧ _ ≤ 13 at h
      omega
  · rw [Ne, char_eq_iff]; change ¬ _ = 45; omega
  · rw [Ne, char_eq_iff]; change ¬ _ = 43; omega

/-! ### The subject sequence -/

theorem hexPrefix_iff {r : List Char} :
    hexPrefix r ↔ ∃ x d r', r = x :: d :: r' ∧ (x = 'x' ∨ x = 'X') ∧ isXDigit d := by
  rcases r with _ | ⟨x, _ | ⟨d, r'⟩⟩
  · simp [hexPrefix]
  · simp [hexPrefix]
  · simp only [hexPrefix, Bool.and_eq_true, Bool.or_eq_true, decide_eq_true_eq, List.cons.injEq]
    exact ⟨fun h => ⟨x, d, r', ⟨rfl, rfl, rfl⟩, h⟩, fun ⟨_, _, _, ⟨hx, hd, _⟩, h⟩ => hx ▸ hd ▸ h⟩

theorem takeSign_sound (t : List Char) :
    ∃ sign, t = sign ++ (takeSign t).2 ∧ (sign = [] ∧ (takeSign t).1 = false ∨
      sign = ['+'] ∧ (takeSign t).1 = false ∨ sign = ['-'] ∧ (takeSign t).1 = true) := by
  unfold takeSign
  split
  · exact ⟨['-'], rfl, by simp⟩
  · exact ⟨['+'], rfl, by simp⟩
  · exact ⟨[], rfl, by simp⟩

theorem takeSign_of_digit {sign cs : List Char} {c : Char} (hc : digitValue c < 10)
    (hsign : sign = [] ∨ sign = ['+'] ∨ sign = ['-']) :
    takeSign (sign ++ c :: cs) = (decide (sign = ['-']), c :: cs) := by
  obtain ⟨-, hminus, hplus⟩ := not_space_sign_of_digit hc
  rcases hsign with rfl | rfl | rfl
  · unfold takeSign
    split <;> simp_all
  · rfl
  · rfl

namespace IntegerConstant

theorem exists_cons {body : List Char} {n : ℕ} (h : IntegerConstant body n) :
    ∃ c cs, body = c :: cs ∧ digitValue c < 10 := by
  cases h with
  | decimal hd _ =>
    refine ⟨_, _, rfl, (digitValue_lt_ten_iff _).mpr ⟨char_zero_le hd.1, hd.2⟩⟩
  | octal => exact ⟨_, _, rfl, by decide⟩
  | hexadecimal => exact ⟨_, _, rfl, by decide⟩

/-- `strtoll` reads an integer constant up to its end. -/
theorem subjectBase0_eq {body : List Char} {n : ℕ} (h : IntegerConstant body n) :
    subjectBase0 body = some (n, []) := by
  cases h with
  | @decimal d ds hd hds =>
    have hd0 : d ≠ '0' := by
      rw [Ne, char_eq_iff]; rw [char_le_iff] at hd; exact Nat.ne_of_gt hd.1
    have hall : ∀ c ∈ d :: ds, digitValue c < 10 := by
      simp only [List.mem_cons, forall_eq_or_imp, digitValue_lt_ten_iff]
      exact ⟨⟨char_zero_le hd.1, hd.2⟩, hds⟩
    simp only [subjectBase0, hd0, if_false, hall d (List.mem_cons_self _ _), if_true,
      digitRun_of_forall hall]
  | @octal ds hds =>
    have hall : ∀ c ∈ ds, digitValue c < 8 := fun c hc => (digitValue_lt_eight_iff c).mpr (hds c hc)
    have hx : hexPrefix ds = false := by
      rcases ds with _ | ⟨x, _ | ⟨d, r⟩⟩
      · rfl
      · rfl
      · have h8 := hall x (List.mem_cons_self _ _)
        have hx : x ≠ 'x' ∧ x ≠ 'X' := by
          rw [digitValue_lt_iff (by norm_num)] at h8
          rw [Ne, Ne, char_eq_iff, char_eq_iff]
          change ¬ _ = 120 ∧ ¬ _ = 88
          omega
        simp [hexPrefix, hx]
    simp only [subjectBase0, if_true, hx, Bool.false_eq_true, if_false, digitRun_of_forall hall]
  | @hexadecimal x ds hx hne hds =>
    obtain ⟨d, r, rfl⟩ := List.exists_cons_of_ne_nil hne
    have hall : ∀ c ∈ d :: r, digitValue c < 16 := fun c hc => (isXDigit_iff c).mp (hds c hc)
    have hpre : hexPrefix (x :: d :: r) = true :=
      hexPrefix_iff.mpr ⟨x, d, r, rfl, hx, hds d (List.mem_cons_self _ _)⟩
    simp only [subjectBase0, if_true, hpre, List.tail_cons, digitRun_of_forall hall]

end IntegerConstant

/-- What `strtoll` reads up to the end of the string is an integer constant. -/
theorem integerConstant_of_subjectBase0 {u : List Char} {n : ℕ} (h : subjectBase0 u = some (n, [])) :
    IntegerConstant u n := by
  cases u with
  | nil => cases h
  | cons c r =>
    simp only [subjectBase0] at h
    split_ifs at h with h0 hpre hd
    · subst h0
      obtain ⟨x, d, r', rfl, hx, -⟩ := hexPrefix_iff.mp hpre
      obtain ⟨hall, rfl⟩ := digitRun_eq_nil (Option.some.inj h)
      exact .hexadecimal hx (List.cons_ne_nil _ _) fun c hc => (isXDigit_iff c).mpr (hall c hc)
    · subst h0
      obtain ⟨hall, rfl⟩ := digitRun_eq_nil (Option.some.inj h)
      exact .octal fun c hc => (digitValue_lt_eight_iff c).mp (hall c hc)
    · obtain ⟨hall, rfl⟩ := digitRun_eq_nil (Option.some.inj h)
      have hc := (digitValue_lt_ten_iff c).mp hd
      refine .decimal ⟨?_, hc.2⟩ fun c' hc' =>
        (digitValue_lt_ten_iff c').mp (hall c' (List.mem_cons_of_mem _ hc'))
      have h48 : 48 ≤ c.toNat := hc.1
      rw [char_eq_iff] at h0
      change 49 ≤ c.toNat; change ¬ c.toNat = 48 at h0
      omega

/-! ### `libconfig_parse_integer` reads exactly the constants of `long long` -/

theorem strtoll_of_readsAs {s : List Char} {v : ℤ} (h : ReadsAs s v) (errno : ℤ) :
    strtoll s errno = (BitVec.ofInt 64 v, [], errno) := by
  obtain ⟨ws, sign, body, n, rfl, hws, hsign, hbody, hlo, hhi⟩ := h
  obtain ⟨c, cs, rfl, hc⟩ := hbody.exists_cons
  have hsign' : sign = [] ∨ sign = ['+'] ∨ sign = ['-'] := by
    rcases hsign with ⟨h, -⟩ | ⟨h, -⟩ | ⟨h, -⟩ <;> simp [h]
  have hdrop : (ws ++ sign ++ c :: cs).dropWhile isSpace = sign ++ c :: cs := by
    rw [List.append_assoc]
    refine dropWhile_append_of_stop hws ?_
    rcases hsign' with rfl | rfl | rfl <;> simp [(not_space_sign_of_digit hc).1] <;> decide
  have hx : (if decide (sign = ['-']) = true then -(n : ℤ) else n) = v := by
    rcases hsign with ⟨rfl, rfl⟩ | ⟨rfl, rfl⟩ | ⟨rfl, rfl⟩ <;> rfl
  simp only [strtoll, hdrop, takeSign_of_digit hc hsign', hbody.subjectBase0_eq, hx]
  rw [if_neg (not_lt.mpr hlo), if_neg (not_le.mpr hhi)]

/-- What `strtoll` reads in full with no range error is white space, a sign and
an integer constant of `long long`, or nothing at all. -/
theorem readsAs_of_strtoll {s : List Char} {x : BitVec 64} (h : strtoll s 0 = (x, [], 0)) :
    s = [] ∨ ∃ v, ReadsAs s v ∧ x = BitVec.ofInt 64 v := by
  obtain ⟨sign, hsplit, hsign⟩ := takeSign_sound (s.dropWhile isSpace)
  unfold strtoll at h
  generalize takeSign (s.dropWhile isSpace) = p at h hsplit hsign
  obtain ⟨neg, u⟩ := p
  cases hsub : subjectBase0 u with
  | none =>
    simp only [hsub] at h
    exact .inl (congrArg (fun r => r.2.1) h)
  | some p =>
    obtain ⟨n, rest⟩ := p
    simp only [hsub] at h
    simp only at hsplit hsign
    generalize hv : (if neg = true then -(n : ℤ) else n) = v at h
    have herange : erange ≠ 0 := by decide
    split_ifs at h with hlo hhi
    · exact absurd (congrArg (fun r => r.2.2) h) herange
    · exact absurd (congrArg (fun r => r.2.2) h) herange
    · cases h
      refine .inr ⟨v, ⟨s.takeWhile isSpace, sign, u, n, ?_, fun c hc => List.mem_takeWhile_imp hc,
        ?_, integerConstant_of_subjectBase0 hsub, not_lt.mp hlo, not_le.mp hhi⟩, rfl⟩
      · rw [List.append_assoc, ← hsplit, List.takeWhile_append_dropWhile]
      · subst hv
        rcases hsign with ⟨h1, h2⟩ | ⟨h1, h2⟩ | ⟨h1, h2⟩ <;> simp [h1, h2]

/-- Exactly the strings that are white space, an optional sign and one integer
constant of C whose value is a `long long` are read, to that value, with `*ok` set
and `errno` as it was; the empty string reads as 0. Anything else, an out-of-range
constant or trailing text among them, is a parse error: 0, `*ok` clear, and `errno`
zeroed. -/
theorem libconfigParseInteger_spec (s : List Char) (errno : ℤ) :
    (∃ v, ReadsAs s v ∧ libconfigParseInteger s errno = (BitVec.ofInt 64 v, true, errno)) ∨
    (s = [] ∧ libconfigParseInteger s errno = (0, true, errno)) ∨
    ((∀ v, ¬ ReadsAs s v) ∧ s ≠ [] ∧ libconfigParseInteger s errno = (0, false, 0)) := by
  by_cases hr : ∃ v, ReadsAs s v
  · obtain ⟨v, hv⟩ := hr
    refine .inl ⟨v, hv, ?_⟩
    simp [libconfigParseInteger, strtoll_of_readsAs hv]
  rcases eq_or_ne s [] with rfl | hs
  · exact .inr (.inl ⟨rfl, rfl⟩)
  refine .inr (.inr ⟨not_exists.mp hr, hs, ?_⟩)
  unfold libconfigParseInteger
  rcases h : strtoll s 0 with ⟨x, endptr, e⟩
  simp only
  split_ifs with hc
  · rfl
  · push_neg at hc
    obtain ⟨rfl, rfl⟩ := hc
    rcases readsAs_of_strtoll h with h | ⟨v, hv, -⟩
    · exact absurd h hs
    · exact absurd ⟨v, hv⟩ hr

example : libconfigParseInteger "-9223372036854775808".toList 7 =
    (BitVec.ofInt 64 (-2 ^ 63), true, 7) := by decide

example : libconfigParseInteger "9223372036854775808".toList 7 = (0, false, 0) := by decide

/-! ### Decimal text reads back -/

/-- The decimal digits of `n` as `printf` writes them: no leading zero, and
`0` for zero. -/
def decimalDigits (n : ℕ) : List Char :=
  if n = 0 then ['0'] else ((Nat.digits 10 n).map fun d => Char.ofNat (48 + d)).reverse

/-- `printf("%lld", x)`: a minus sign for a negative value, then the digits of
its magnitude. -/
def formatLld (x : BitVec 64) : List Char :=
  if x.toInt < 0 then '-' :: decimalDigits x.toInt.natAbs else decimalDigits x.toInt.natAbs

theorem digitChar_spec {d : ℕ} (hd : d < 10) :
    digitValue (Char.ofNat (48 + d)) = d ∧ ('0' ≤ Char.ofNat (48 + d) ∧ Char.ofNat (48 + d) ≤ '9') ∧
      (d ≠ 0 → '1' ≤ Char.ofNat (48 + d)) := by
  interval_cases d <;> decide

theorem integerConstant_decimalDigits (n : ℕ) : IntegerConstant (decimalDigits n) n := by
  unfold decimalDigits
  split_ifs with hn
  · subst hn
    exact .octal (by simp)
  have hlt : ∀ d ∈ Nat.digits 10 n, d < 10 := fun d hd => Nat.digits_lt_base (by norm_num) hd
  have hval : digitsValue 10 ((Nat.digits 10 n).map fun d => Char.ofNat (48 + d)).reverse = n := by
    have hmap : (Nat.digits 10 n).map (fun d => digitValue (Char.ofNat (48 + d))) =
        Nat.digits 10 n := by
      rw [List.map_congr_left fun d hd => (digitChar_spec (hlt d hd)).1, List.map_id']
    simp only [digitsValue, List.map_reverse, List.reverse_reverse, List.map_map, Function.comp_def,
      hmap, Nat.ofDigits_digits]
  rcases List.eq_nil_or_concat (Nat.digits 10 n) with h | ⟨L, b, hL⟩
  · exact absurd h (Nat.digits_ne_nil_iff_ne_zero.mpr hn)
  have hb : b ≠ 0 := by
    have := Nat.getLast_digit_ne_zero 10 hn
    simpa [hL] using this
  have hblt : b < 10 := hlt b (by simp [hL])
  have key : IntegerConstant ((Nat.digits 10 n).map fun d => Char.ofNat (48 + d)).reverse
      (digitsValue 10 ((Nat.digits 10 n).map fun d => Char.ofNat (48 + d)).reverse) := by
    rw [hL, List.concat_eq_append] at hlt ⊢
    simp only [List.map_append, List.map_cons, List.map_nil, List.reverse_append,
      List.reverse_cons, List.reverse_nil, List.nil_append, List.singleton_append]
    refine .decimal ⟨(digitChar_spec hblt).2.2 hb, (digitChar_spec hblt).2.1.2⟩ fun c hc => ?_
    obtain ⟨d, hd, rfl⟩ := List.mem_map.mp (List.mem_reverse.mp hc)
    exact (digitChar_spec (hlt d (List.mem_append_left _ hd))).2.1
  rwa [hval] at key

theorem readsAs_formatLld (x : BitVec 64) : ReadsAs (formatLld x) x.toInt := by
  have hb : -2 ^ 63 ≤ x.toInt ∧ x.toInt < 2 ^ 63 := by
    have hx := BitVec.toInt_eq_toNat_cond x
    have hlt := x.isLt
    split_ifs at hx <;> omega
  unfold formatLld
  split_ifs with hneg
  · exact ⟨[], ['-'], _, _, rfl, nofun, .inr (.inr ⟨rfl, by omega⟩),
      integerConstant_decimalDigits _, hb.1, hb.2⟩
  · exact ⟨[], [], _, _, rfl, nofun, .inl ⟨rfl, by omega⟩, integerConstant_decimalDigits _, hb.1,
      hb.2⟩

theorem ofInt_toInt (x : BitVec 64) : BitVec.ofInt 64 x.toInt = x := by
  apply BitVec.eq_of_toInt_eq
  have hx := BitVec.toInt_eq_toNat_cond x
  have hlt := x.isLt
  rw [BitVec.toInt_ofInt, Int.bmod_def]
  split_ifs at hx ⊢ <;> omega

/-- Every `long long` printed by `%lld` is read back by `libconfig_parse_integer` as
itself, with `*ok` set and `errno` kept, from `LLONG_MIN` to `LLONG_MAX`. -/
theorem libconfigParseInteger_formatLld (x : BitVec 64) (errno : ℤ) :
    libconfigParseInteger (formatLld x) errno = (x, true, errno) := by
  simp [libconfigParseInteger, strtoll_of_readsAs (readsAs_formatLld x), ofInt_toInt]

end LibConfig
