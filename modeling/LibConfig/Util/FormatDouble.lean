import LibConfig.Util.ParseNum
import Mathlib.Data.Rat.Defs

/-!
`libconfig_format_double`: a double printed by `snprintf` into a buffer of
`buflen - 3` bytes, then made to read as a floating-point literal.

What `printf` makes of a double is not modelled: `render fmt` is the text it
would print in full for the format `fmt`, at the given precision. Strings are
C strings, the characters before the NUL.
-/

namespace LibConfig

/-- `snprintf(buf, n, fmt, ...)` of a rendering `r`: the first `n - 1`
characters of `r` and a NUL; with `n = 0` nothing is written. -/
def snprintf (n : ℕ) (r buf : List Char) : List Char :=
  if n = 0 then buf else r.take (n - 1)

/-- The loop `for (q = buf + strlen(buf) - 1; q > p + 1; --q)` that removes
the trailing zeros of `s` after the point at `p`. -/
def stripZeros (p : ℕ) : ℕ → List Char → List Char
  | 0, s => s
  | q + 1, s =>
    if p + 1 < q + 1 then
      if s[q + 1]? = some '0' then stripZeros p q (s.take (q + 1)) else s
    else s

/-- What `libconfig_format_double` does to the string `snprintf` left: kept as
it is with an exponent, given `.0` without a point, and otherwise stripped of
trailing zeros after the point. -/
def formatDoubleFix (t : List Char) : List Char :=
  if 'e' ∈ t then t
  else match t.indexOf? '.' with
    | none => t ++ ['.', '0']
    | some p => stripZeros p (t.length - 1) t

/-- `libconfig_format_double(val, precision, sci_ok, buf, buflen)`, where
`render fmt` is what `printf` prints for `fmt`, `precision` and `val`.
`buflen - 3` is a `size_t`. -/
def libconfigFormatDouble (render : String → List Char) (sciOk : Bool) (buflen : BitVec 64)
    (buf : List Char) : List Char :=
  let fmt := if sciOk then "%.*g" else "%.*f"
  formatDoubleFix (snprintf (buflen - 3).toNat (render fmt) buf)

/-! ### The loop -/

def trailingZeros (s : List Char) : ℕ :=
  (s.reverse.takeWhile (· = '0')).length

theorem trailingZeros_concat_zero (s : List Char) : trailingZeros (s ++ ['0']) = trailingZeros s + 1 := by
  simp [trailingZeros]

theorem trailingZeros_concat_ne {s : List Char} {c : Char} (hc : c ≠ '0') :
    trailingZeros (s ++ [c]) = 0 := by
  simp [trailingZeros, hc]

theorem exists_concat {s : List Char} {q : ℕ} (hs : s.length = q + 1) :
    ∃ u c, s = u ++ [c] ∧ u.length = q :=
  ⟨s.dropLast, s.getLast (by simp [← List.length_pos, hs]), (List.dropLast_append_getLast _).symm,
    by simp [hs]⟩

/-- The loop keeps everything up to just after the point, and of the rest all
but its trailing zeros. -/
theorem stripZeros_eq (p : ℕ) :
    ∀ (q : ℕ) (s : List Char), s.length = q + 1 → p < q + 1 → s[p]? = some '.' →
      stripZeros p q s = s.take (max (p + 2) (s.length - trailingZeros s)) := by
  intro q
  induction q with
  | zero => intro s hs _ _; rw [stripZeros, List.take_of_length_le (by omega)]
  | succ q ih =>
    intro s hs hp hdot
    obtain ⟨u, c, rfl, hu⟩ := exists_concat hs
    have hq : (u ++ [c])[q + 1]? = some c := by
      rw [List.getElem?_append_right (by omega), show q + 1 - u.length = 0 by omega]
      rfl
    by_cases hpq : p + 1 < q + 1
    · by_cases hc : c = '0'
      · subst hc
        have hu : (u ++ ['0']).take (q + 1) = u := List.take_left' hu
        have hdot' : u[p]? = some '.' := by
          rwa [List.getElem?_append_left (by omega)] at hdot
        rw [stripZeros, if_pos hpq, if_pos hq, hu, ih u (by omega) (by omega) hdot',
          trailingZeros_concat_zero, List.length_append, List.length_singleton,
          List.take_append_of_le_length (by omega)]
        congr 1
        omega
      · rw [stripZeros, if_pos hpq, hq, if_neg (by simpa using hc), trailingZeros_concat_ne hc,
          List.take_of_length_le (by omega)]
    · rw [stripZeros, if_neg hpq, List.take_of_length_le (by omega)]

/-! ### Decimal numerals -/

/-- The number `u` stands for when it is `D+(.D*)?`. -/
def unsignedValue (u : List Char) : Option ℚ :=
  let ip := u.takeWhile Char.isDigit
  let rest := u.dropWhile Char.isDigit
  if ip ≠ [] ∧ (rest = [] ∨ (rest.head? = some '.' ∧ rest.tail.all Char.isDigit)) then
    some (digitsValue 10 ip + (digitsValue 10 rest.tail : ℚ) / 10 ^ rest.tail.length)
  else none

/-- The number a decimal numeral `[-]D+(.D*)?` stands for; `none` for any other
string. -/
def decimalValue (t : List Char) : Option ℚ :=
  if t.head? = some '-' then (unsignedValue t.tail).map (- ·) else unsignedValue t

theorem append_of_dropWhile_ne_nil {p : Char → Bool} {u : List Char} (h : u.dropWhile p ≠ [])
    (v : List Char) :
    (u ++ v).takeWhile p = u.takeWhile p ∧ (u ++ v).dropWhile p = u.dropWhile p ++ v := by
  have hlen : (u.takeWhile p).length ≠ u.length := by
    intro hl
    have := congrArg List.length (List.takeWhile_append_dropWhile p u)
    simp only [List.length_append, hl] at this
    exact h (List.eq_nil_of_length_eq_zero (by omega))
  rw [List.takeWhile_append, if_neg hlen, List.dropWhile_append,
    if_neg (by simpa [List.isEmpty_iff] using h)]
  exact ⟨rfl, rfl⟩

theorem dropWhile_isDigit_ne_nil {u : List Char} (h : '.' ∈ u) : u.dropWhile Char.isDigit ≠ [] := by
  intro hnil
  have := List.mem_takeWhile_imp (p := Char.isDigit) (by
    rw [← List.append_nil (u.takeWhile _), ← hnil, List.takeWhile_append_dropWhile]; exact h)
  exact absurd this (by decide)

/-- Appending a `0` to a string with a point does not change what it stands
for: the zero lands in the fraction. -/
theorem unsignedValue_concat_zero {u : List Char} (h : '.' ∈ u) :
    unsignedValue (u ++ ['0']) = unsignedValue u := by
  obtain ⟨htw, hdw⟩ := append_of_dropWhile_ne_nil (dropWhile_isDigit_ne_nil h) ['0']
  obtain ⟨r, rs, hr⟩ := List.exists_cons_of_ne_nil (dropWhile_isDigit_ne_nil h)
  simp only [unsignedValue, htw, hdw, hr, List.cons_append, List.tail_cons, List.head?_cons,
    List.all_append, List.all_cons, List.all_nil, show Char.isDigit '0' = true by decide,
    Bool.and_true, List.length_append, List.length_singleton, digitsValue_append, reduceCtorEq,
    false_or]
  split_ifs
  · simp only [Option.some.injEq, add_right_inj]
    rw [show digitsValue 10 ['0'] = 0 by rfl, Nat.add_zero, pow_one, Nat.cast_mul, Nat.cast_ofNat,
      pow_succ, mul_div_mul_right _ _ (by decide : (10 : ℚ) ≠ 0)]
  · rfl

theorem decimalValue_concat_zero {t : List Char} (h : '.' ∈ t) :
    decimalValue (t ++ ['0']) = decimalValue t := by
  obtain ⟨c, t', rfl⟩ := List.exists_cons_of_ne_nil (List.ne_nil_of_mem h)
  by_cases hc : c = '-'
  · subst hc
    have h' : '.' ∈ t' := by simpa using h
    simp [decimalValue, unsignedValue_concat_zero h']
  · have h' := unsignedValue_concat_zero h
    simp only [List.cons_append] at h'
    simp [decimalValue, hc, h']

theorem unsignedValue_append_point_zero {u : List Char} (h : '.' ∉ u) :
    unsignedValue (u ++ ['.', '0']) = unsignedValue u := by
  by_cases hd : u.dropWhile Char.isDigit = []
  · have hall : ∀ c ∈ u, Char.isDigit c := by
      intro c hc
      apply List.mem_takeWhile_imp (l := u)
      rw [← List.append_nil (u.takeWhile _), ← hd, List.takeWhile_append_dropWhile]
      exact hc
    have htw : u.takeWhile Char.isDigit = u := List.takeWhile_eq_self_iff.mpr hall
    simp [unsignedValue, List.takeWhile_append_of_pos hall, List.dropWhile_append_of_pos hall, htw,
      hd, show Char.isDigit '.' = false by decide, show Char.isDigit '0' = true by decide,
      digitsValue, digitValue]
  · obtain ⟨htw, hdw⟩ := append_of_dropWhile_ne_nil hd ['.', '0']
    obtain ⟨r, rs, hr⟩ := List.exists_cons_of_ne_nil hd
    have hrdot : r ≠ '.' := fun hrd => h (by
      rw [← List.takeWhile_append_dropWhile Char.isDigit u, hr, hrd]; simp)
    simp [unsignedValue, htw, hdw, hr, hrdot]

theorem decimalValue_append_point_zero {t : List Char} (h : '.' ∉ t) :
    decimalValue (t ++ ['.', '0']) = decimalValue t := by
  rcases t with _ | ⟨c, t'⟩
  · rfl
  · by_cases hc : c = '-'
    · subst hc
      have h' : '.' ∉ t' := by simpa using h
      simp [decimalValue, unsignedValue_append_point_zero h']
    · have h' := unsignedValue_append_point_zero h
      simp only [List.cons_append] at h'
      simp [decimalValue, hc, h']

/-- Each round of the loop cuts a `0` after the point, so the number stays. -/
theorem decimalValue_stripZeros (p : ℕ) :
    ∀ (q : ℕ) (s : List Char), s.length = q + 1 → s[p]? = some '.' →
      decimalValue (stripZeros p q s) = decimalValue s := by
  intro q
  induction q with
  | zero => intro s _ _; rfl
  | succ q ih =>
    intro s hs hdot
    obtain ⟨u, c, rfl, hu⟩ := exists_concat hs
    have hq : (u ++ [c])[q + 1]? = some c := by
      rw [List.getElem?_append_right (by omega), show q + 1 - u.length = 0 by omega]
      rfl
    by_cases hpq : p + 1 < q + 1
    · by_cases hc : c = '0'
      · subst hc
        have hdot' : u[p]? = some '.' := by
          rwa [List.getElem?_append_left (by omega)] at hdot
        rw [stripZeros, if_pos hpq, if_pos hq, List.take_left' hu, ih u hu hdot',
          decimalValue_concat_zero (List.getElem?_mem hdot')]
      · rw [stripZeros, if_pos hpq, hq, if_neg (by simpa using hc)]
    · rw [stripZeros, if_neg hpq]

/-! ### The three cases -/

theorem indexOf?_eq_none_iff {t : List Char} : t.indexOf? '.' = none ↔ '.' ∉ t := by
  simp only [List.indexOf?, List.findIdx?_eq_none_iff, beq_iff_eq, Bool.not_eq_true', beq_eq_false_iff_ne, ne_eq]
  exact ⟨fun h hd => h _ hd rfl, fun h x hx hxd => h (hxd ▸ hx)⟩

theorem getElem?_of_indexOf? {t : List Char} {p : ℕ} (h : t.indexOf? '.' = some p) :
    t[p]? = some '.' := by
  obtain ⟨hp, hdot, -⟩ := List.findIdx?_eq_some_iff_getElem.mp h
  simpa [List.getElem?_eq_getElem hp] using hdot

/-- What the fix-up does: nothing with an exponent, `.0` without a point, and
otherwise the loop, which keeps the number. -/
theorem formatDoubleFix_cases (t : List Char) :
    ('e' ∈ t ∧ formatDoubleFix t = t) ∨
    ('e' ∉ t ∧ '.' ∉ t ∧ formatDoubleFix t = t ++ ['.', '0']) ∨
    ∃ p, 'e' ∉ t ∧ t.indexOf? '.' = some p ∧ t[p]? = some '.' ∧
      formatDoubleFix t = t.take (max (p + 2) (t.length - trailingZeros t)) ∧
      decimalValue (formatDoubleFix t) = decimalValue t := by
  by_cases he : 'e' ∈ t
  · exact .inl ⟨he, by simp [formatDoubleFix, he]⟩
  · cases hidx : t.indexOf? '.' with
    | none =>
      exact .inr (.inl ⟨he, indexOf?_eq_none_iff.mp hidx, by simp [formatDoubleFix, he, hidx]⟩)
    | some p =>
      have hdot := getElem?_of_indexOf? hidx
      have hp : p < t.length := (List.getElem?_eq_some_iff.mp hdot).1
      have hlen : t.length = t.length - 1 + 1 := by omega
      have hfix : formatDoubleFix t = stripZeros p (t.length - 1) t := by
        simp [formatDoubleFix, he, hidx]
      refine .inr (.inr ⟨p, he, rfl, hdot, ?_, ?_⟩)
      · rw [hfix, stripZeros_eq p _ t hlen (by omega) hdot]
      · rw [hfix, decimalValue_stripZeros p _ t hlen hdot]

/-- For every string `t` that `snprintf` leaves in a buffer of `buflen ≥ 4` bytes,
the result fits in the buffer with its NUL and has a point or an exponent: `t`
itself when it has an exponent, `t` and `.0` when it has no point, and otherwise `t`
without its trailing zeros, the digit just after the first point kept. Without an
exponent, it stands for the same number as `t`. -/
theorem formatDoubleFix_spec (buflen : BitVec 64) (hlen : 4 ≤ buflen.toNat) (t : List Char)
    (ht : t.length ≤ buflen.toNat - 4) :
    (formatDoubleFix t).length ≤ buflen.toNat - 2 ∧
    ('.' ∈ formatDoubleFix t ∨ 'e' ∈ formatDoubleFix t) ∧
    ('e' ∈ t → formatDoubleFix t = t) ∧
    ('e' ∉ t → '.' ∉ t → formatDoubleFix t = t ++ ['.', '0']) ∧
    (∀ p, 'e' ∉ t → t.indexOf? '.' = some p →
      formatDoubleFix t = t.take (max (p + 2) (t.length - trailingZeros t))) ∧
    ('e' ∉ t → decimalValue (formatDoubleFix t) = decimalValue t) := by
  rcases formatDoubleFix_cases t with ⟨he, hfix⟩ | ⟨he, hd, hfix⟩ | ⟨p, he, hidx, hdot, hfix, hval⟩
  · refine ⟨by rw [hfix]; omega, .inr (by rw [hfix]; exact he), fun _ => hfix, fun h => absurd he h,
      fun _ h => absurd he h, fun h => absurd he h⟩
  · refine ⟨by rw [hfix]; simp; omega, .inl (by simp [hfix]), fun h => absurd h he,
      fun _ _ => hfix, fun _ _ h => absurd (indexOf?_eq_none_iff.mpr hd) (by simp [h]),
      fun _ => by rw [hfix, decimalValue_append_point_zero hd]⟩
  · have hp : p < t.length := (List.getElem?_eq_some_iff.mp hdot).1
    refine ⟨by rw [hfix, List.length_take]; omega, .inl ?_, fun h => absurd h he,
      fun _ h => absurd (List.getElem?_mem hdot) h, fun q _ h => ?_, fun _ => hval⟩
    · have hkeep : p < max (p + 2) (t.length - trailingZeros t) := by omega
      rw [hfix]
      exact List.getElem?_mem (by rw [List.getElem?_take_of_lt hkeep]; exact hdot)
    · rw [hidx, Option.some.injEq] at h
      rw [← h, hfix]

theorem formatDoubleFix_spec_demo :
    (formatDoubleFix ['1', '.', '5', '0']).length ≤ (8 : BitVec 64).toNat - 2 ∧
    ('.' ∈ formatDoubleFix ['1', '.', '5', '0'] ∨ 'e' ∈ formatDoubleFix ['1', '.', '5', '0']) ∧
    ('e' ∈ ['1', '.', '5', '0'] → formatDoubleFix ['1', '.', '5', '0'] = ['1', '.', '5', '0']) ∧
    ('e' ∉ ['1', '.', '5', '0'] → '.' ∉ ['1', '.', '5', '0'] →
      formatDoubleFix ['1', '.', '5', '0'] = ['1', '.', '5', '0'] ++ ['.', '0']) ∧
    (∀ p, 'e' ∉ ['1', '.', '5', '0'] → ['1', '.', '5', '0'].indexOf? '.' = some p →
      formatDoubleFix ['1', '.', '5', '0'] =
        ['1', '.', '5', '0'].take (max (p + 2) (4 - trailingZeros ['1', '.', '5', '0']))) ∧
    ('e' ∉ ['1', '.', '5', '0'] →
      decimalValue (formatDoubleFix ['1', '.', '5', '0']) = decimalValue ['1', '.', '5', '0']) :=
  formatDoubleFix_spec 8 (by decide) ['1', '.', '5', '0'] (by decide)

example : formatDoubleFix ['1', '.', '5', '0', '0'] = ['1', '.', '5'] := by decide

/-! ### A normal form -/

theorem trailingZeros_take_strip (s : List Char) :
    trailingZeros (s.take (s.length - trailingZeros s)) = 0 := by
  induction s using List.reverseRecOn with
  | nil => rfl
  | append_singleton u c ih =>
    by_cases hc : c = '0'
    · subst hc
      rw [trailingZeros_concat_zero, List.length_append, List.length_singleton,
        show u.length + 1 - (trailingZeros u + 1) = u.length - trailingZeros u by omega,
        List.take_append_of_le_length (by omega), ih]
    · rw [trailingZeros_concat_ne hc, Nat.sub_zero, List.take_length, trailingZeros_concat_ne hc]

theorem le_of_indexOf? {t : List Char} {p i : ℕ} (h : t.indexOf? '.' = some p)
    (hi : t[i]? = some '.') : p ≤ i := by
  obtain ⟨hp, -, hmin⟩ := List.findIdx?_eq_some_iff_getElem.mp h
  by_contra hlt
  obtain ⟨hi', hti⟩ := List.getElem?_eq_some_iff.mp hi
  exact hmin i (by omega) (by simp [hti])

theorem takeWhile_take_of_le {p : Char → Bool} :
    ∀ {l : List Char} {k : ℕ}, (l.takeWhile p).length ≤ k → (l.take k).takeWhile p = l.takeWhile p
  | [], _, _ => by simp
  | c :: l, 0, h => by
    cases hc : p c <;> simp_all [List.takeWhile_cons]
  | c :: l, k + 1, h => by
    cases hc : p c
    · simp [List.takeWhile_cons, hc]
    · simp only [List.takeWhile_cons, hc, if_true, List.length_cons, List.take_succ_cons] at h ⊢
      rw [takeWhile_take_of_le (by omega)]

theorem takeWhile_length_le {p : Char → Bool} :
    ∀ {l : List Char} {i : ℕ} {a : Char}, l[i]? = some a → p a = false → (l.takeWhile p).length ≤ i
  | [], _, _, h, _ => by simp at h
  | c :: l, 0, a, h, ha => by
    obtain rfl : c = a := by simpa using h
    simp [List.takeWhile_cons, ha]
  | c :: l, i + 1, a, h, ha => by
    cases hc : p c
    · simp [List.takeWhile_cons, hc]
    · simp only [List.takeWhile_cons, hc, if_true, List.length_cons, List.getElem?_cons_succ] at h ⊢
      have := takeWhile_length_le h ha
      omega

/-- The fix-up never touches what stands before the point. -/
theorem takeWhile_formatDoubleFix {t : List Char} (he : 'e' ∉ t) :
    (formatDoubleFix t).takeWhile (· ≠ '.') = t.takeWhile (· ≠ '.') := by
  rcases formatDoubleFix_cases t with ⟨he', -⟩ | ⟨-, hd, hfix⟩ | ⟨p, -, -, hdot, hfix, -⟩
  · exact absurd he' he
  · have hall : ∀ c ∈ t, decide (c ≠ '.') = true := fun c hc => by
      simp only [decide_eq_true_eq]
      rintro rfl
      exact hd hc
    rw [hfix, List.takeWhile_append_of_pos hall, List.takeWhile_eq_self_iff.mpr hall]
    simp
  · rw [hfix, takeWhile_take_of_le]
    have := takeWhile_length_le (p := fun c => decide (c ≠ '.')) hdot (by simp)
    omega

/-- `snprintf` into `buflen - 3` bytes, with `buflen ≥ 4`, keeps the first
`buflen - 4` characters. -/
theorem snprintf_buflen {buflen : BitVec 64} (hlen : 4 ≤ buflen.toNat) (r buf : List Char) :
    snprintf (buflen - 3).toNat r buf = r.take (buflen.toNat - 4) := by
  have h3 : (buflen - 3).toNat = buflen.toNat - 3 := by
    rw [BitVec.toNat_sub]
    simp
    omega
  rw [snprintf, h3, if_neg (by omega)]
  congr 1

/-- A rendering of 100 into a buffer of 5: `snprintf` keeps `1`, and the
fix-up makes it `1.0`. -/
theorem libconfigFormatDouble_truncates :
    libconfigFormatDouble (fun _ => ['1', '0', '0']) false 5 [] = ['1', '.', '0'] ∧
      decimalValue ['1', '0', '0'] = some 100 ∧ decimalValue ['1', '.', '0'] = some 1 :=
  ⟨by decide, by simp [decimalValue, unsignedValue, digitsValue, digitValue, Nat.ofDigits]⟩

/-- A rendering with no exponent whose sign and integer digits fit in `buflen - 4`
characters is written with the same text before the point: the same sign and integer
part. A rendering with an exponent that fits whole is written as it is. -/
theorem libconfigFormatDouble_intPart (render : String → List Char) (sciOk : Bool)
    (buflen : BitVec 64) (hlen : 4 ≤ buflen.toNat) (buf : List Char) :
    ('e' ∉ render (if sciOk then "%.*g" else "%.*f") →
      ((render (if sciOk then "%.*g" else "%.*f")).takeWhile (· ≠ '.')).length ≤
        buflen.toNat - 4 →
      (libconfigFormatDouble render sciOk buflen buf).takeWhile (· ≠ '.') =
        (render (if sciOk then "%.*g" else "%.*f")).takeWhile (· ≠ '.')) ∧
    ('e' ∈ render (if sciOk then "%.*g" else "%.*f") →
      (render (if sciOk then "%.*g" else "%.*f")).length ≤ buflen.toNat - 4 →
      libconfigFormatDouble render sciOk buflen buf = render (if sciOk then "%.*g" else "%.*f")) := by
  simp only [libconfigFormatDouble, snprintf_buflen hlen]
  refine ⟨fun he hfit => ?_, fun he hfit => ?_⟩
  · rw [takeWhile_formatDoubleFix fun h => he (List.mem_of_mem_take h), takeWhile_take_of_le hfit]
  · rw [List.take_of_length_le hfit]
    rcases formatDoubleFix_cases (render (if sciOk then "%.*g" else "%.*f")) with
      ⟨-, hfix⟩ | ⟨he', -⟩ | ⟨p, he', -⟩
    · exact hfix
    · exact absurd he he'
    · exact absurd he he'

theorem libconfigFormatDouble_intPart_demo :
    ('e' ∉ ['1', '2', '.', '5'] → (['1', '2', '.', '5'].takeWhile (· ≠ '.')).length ≤
        (7 : BitVec 64).toNat - 4 →
      (libconfigFormatDouble (fun _ => ['1', '2', '.', '5']) false 7 []).takeWhile (· ≠ '.') =
        ['1', '2', '.', '5'].takeWhile (· ≠ '.')) ∧
    ('e' ∈ ['1', '2', '.', '5'] → ['1', '2', '.', '5'].length ≤ (7 : BitVec 64).toNat - 4 →
      libconfigFormatDouble (fun _ => ['1', '2', '.', '5']) false 7 [] = ['1', '2', '.', '5']) :=
  libconfigFormatDouble_intPart (fun _ => ['1', '2', '.', '5']) false 7 (by decide) []

/-! ### Buffers under four bytes

With `buflen ≤ 3` the `size_t` `buflen - 3` is 0 or wraps round past
`2 ^ 64 - 4`. At 3, `snprintf` writes nothing and the fix-up works on what the
buffer held before; below it, `snprintf` writes the whole rendering, past the
end of the buffer. -/

example : libconfigFormatDouble (fun _ => ['1', '0', '0']) false 3 ['z'] = ['z', '.', '0'] := by
  decide

example : libconfigFormatDouble (fun _ => ['1', '0', '0']) false 2 ['z'] =
    ['1', '0', '0', '.', '0'] := by
  decide

end LibConfig
