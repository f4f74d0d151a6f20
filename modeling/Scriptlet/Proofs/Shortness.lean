import Mathlib
import Scriptlet.Proofs.Literals
/-!
# Numbers written in full or as short as can be

An integral number is written in full. What is written for any other one has as few digits as a
numeral can have that rounds to the number, and of those it is the nearest.

What is written is a point of the coarsest grid that has one among the values that round to the
number, so no power of ten on a coarser grid is among them. A numeral with fewer digits lies below
such a power, and the point above it; and what lies between two values that round to a number rounds
to it too. A numeral with as many digits on a finer grid is shut out in the same way, unless it has
only one: then the power is on the grid of the point, and nearer.
-/

namespace Scriptlet

namespace Number

/-! ## Points and values -/

/-- Of the points that round to a magnitude the one that is taken is nearest to its value. -/
theorem Magnitude.onGrid?_nearest_value {m : Magnitude} {e : ℤ} {d n : Nat}
    (h : m.onGrid? e = some d) (within : m.Within e n) :
    |m.value - d * 10 ^ e| ≤ |m.value - n * 10 ^ e| := by
  have pos : (0 : ℚ) < m.quarter e := by exact_mod_cast m.quarter_pos
  have diff (n : Nat) : m.value - n * 10 ^ e =
      ((m.scaled e - n * m.pitch e : ℤ) : ℚ) * (2 ^ m.exponent / (4 * m.quarter e)) := by
    have pitch := cast_mul_pitch (m := m) (e := e) n
    rw [← mul_div_assoc, eq_div_iff (by positivity), Magnitude.value, Magnitude.scaled]
    push_cast at pitch ⊢
    linear_combination pitch
  rw [diff, diff, abs_mul, abs_mul]
  refine mul_le_mul_of_nonneg_right ?_ (abs_nonneg _)
  exact_mod_cast onGrid?_nearest h within

/-- What rounds to a number is at most half a last place away from it. -/
theorem bounds_of_nearest {q : ℚ} {k s : Nat} (canonical : Canonical k s) (nonneg : 0 ≤ q)
    (near : Nearest q (k * 2 ^ 52 + s)) :
    (s - 1 / 2) * 2 ^ (k + minExponent) ≤ q ∧ q ≤ (s + 1 / 2) * 2 ^ (k + minExponent) := by
  have pos : (0 : ℚ) < 2 ^ (k + minExponent) := by positivity
  obtain ⟨x, hx⟩ : ∃ x : ℚ, x = q / 2 ^ (k + minExponent) := ⟨_, rfl⟩
  obtain rfl : q = x * 2 ^ (k + minExponent) := by rw [hx, div_mul_cancel₀ _ pos.ne']
  obtain ⟨lower, upper, -⟩ := around_of_nearest canonical (by rw [hx]; positivity) near
  have slack : ((Magnitude.slack ⟨s, k + minExponent⟩ : Nat) : ℚ) ≤ 2 := by
    exact_mod_cast Magnitude.slack_le
  exact ⟨mul_le_mul_of_nonneg_right (by linarith) pos.le,
    mul_le_mul_of_nonneg_right upper pos.le⟩

theorem within_ofBits_iff {bits n : Nat} {e : ℤ} :
    (Magnitude.ofBits bits).Within e n ↔ Nearest (n * 10 ^ e) bits := by
  obtain ⟨k, s, canonical, rfl⟩ := exists_canonical bits
  rw [ofBits_canonical canonical]
  exact within_iff_nearest canonical

/-! ## The second number of all -/

/-- The least number, doubled, is a little less than `10 ^ -323`. -/
theorem two_least_lt : 2 * (2 : ℚ) ^ minExponent < 10 ^ (-323 : ℤ) ∧
    19 * (10 : ℚ) ^ (-323 : ℤ) ≤ 40 * 2 ^ minExponent := by
  have lower : 2 * 10 ^ 323 < 2 ^ 1074 := by decide +kernel
  have upper : 19 * 2 ^ 1074 ≤ 40 * 10 ^ 323 := by decide +kernel
  have least : (2 : ℚ) ^ minExponent = ((2 ^ 1074 : Nat) : ℚ)⁻¹ := by
    rw [minExponent, zpow_neg, Nat.cast_pow]
    rfl
  have power : (10 : ℚ) ^ (-323 : ℤ) = ((10 ^ 323 : Nat) : ℚ)⁻¹ := by
    rw [zpow_neg, Nat.cast_pow]
    rfl
  have pos : (0 : ℚ) < (2 ^ 1074 : Nat) := by positivity
  have pos' : (0 : ℚ) < (10 ^ 323 : Nat) := by positivity
  rw [least, power, ← div_eq_mul_inv, ← div_eq_mul_inv, ← div_eq_mul_inv, inv_eq_one_div]
  constructor
  · rw [div_lt_div_iff₀ pos pos', one_mul]
    exact_mod_cast lower
  · rw [div_le_div_iff₀ pos' pos]
    exact_mod_cast upper

/-- The power of ten between the least number and ten times that. -/
theorem exponent_of_least {e : ℤ} (lower : (2 : ℚ) ^ minExponent < 10 ^ e)
    (upper : (10 : ℚ) ^ e ≤ 10 * 2 ^ minExponent) : e = -323 := by
  obtain ⟨above, below⟩ := two_least_lt
  have ten : (1 : ℚ) < 10 := by norm_num
  have next : (10 : ℚ) ^ (-323 + 1 : ℤ) = 10 ^ (-323 : ℤ) * 10 := zpow_add_one₀ (by norm_num) _
  have last : (10 : ℚ) ^ (-323 : ℤ) = 10 ^ (-324 : ℤ) * 10 := zpow_add_one₀ (by norm_num) (-324)
  have lt : e < -323 + 1 := (zpow_lt_zpow_iff_right₀ ten).mp (by linarith)
  have gt : -324 < e := (zpow_lt_zpow_iff_right₀ ten).mp (by linarith)
  omega

/-- Only for the second number of all a power of ten lies above the number, by half a last place at
most, and comes to ten last places at most. -/
theorem second_of_power {k s : Nat} {e : ℤ} (canonical : Canonical k s) (some : k * 2 ^ 52 + s ≠ 0)
    (above : s * (2 : ℚ) ^ (k + minExponent) < 10 ^ e)
    (near : (10 : ℚ) ^ e ≤ (s + 1 / 2) * 2 ^ (k + minExponent))
    (few : (10 : ℚ) ^ e ≤ 10 * 2 ^ (k + minExponent)) : k = 0 ∧ s = 2 ∧ e = -323 := by
  have normal := canonical.normal
  have digit : s < 10 := by
    have lt : (s : ℚ) < 10 := lt_of_mul_lt_mul_right (above.trans_le few) (by positivity)
    exact_mod_cast lt
  obtain rfl : k = 0 := by omega
  have first : (1 : ℚ) ≤ s := by
    have : 1 ≤ s := by omega
    exact_mod_cast this
  rw [Nat.cast_zero, zero_add] at above near few
  have pos : (0 : ℚ) < 2 ^ minExponent := by positivity
  obtain rfl := exponent_of_least (by nlinarith) few
  obtain ⟨twice, nearly⟩ := two_least_lt
  generalize (10 : ℚ) ^ (-323 : ℤ) = power at *
  have lt : (s : ℚ) < 3 := lt_of_mul_lt_mul_right (by linarith) pos.le
  have gt : (1 : ℚ) < s := lt_of_mul_lt_mul_right (by linarith) pos.le
  have lt : s < 3 := by exact_mod_cast lt
  have gt : 1 < s := by exact_mod_cast gt
  exact ⟨rfl, by omega, rfl⟩

/-- If a value rounds to the same number as a power of ten and is below nine tenths of it, then the
power is nearer to the number. -/
theorem power_nearer {bits : Nat} {q : ℚ} {e : ℤ} (some : bits ≠ 0) (nonneg : 0 ≤ q)
    (near : Nearest q bits) (power : Nearest (10 ^ e) bits) (le : q ≤ 9 / 10 * 10 ^ e) :
    |valueOf bits - 10 ^ e| ≤ |valueOf bits - q| := by
  refine le_trans ?_ (le_abs_self _)
  rcases le_or_gt (10 ^ e) (valueOf bits) with below | above
  · have pos : (0 : ℚ) < 10 ^ e := by positivity
    rw [abs_of_nonneg (by linarith)]
    linarith
  rw [abs_of_neg (by linarith)]
  obtain ⟨k, s, canonical, rfl⟩ := exists_canonical bits
  obtain ⟨lower, -⟩ := bounds_of_nearest canonical nonneg near
  obtain ⟨-, upper⟩ := bounds_of_nearest canonical (by positivity) power
  rw [valueOf_step canonical.below.le canonical.normal] at above ⊢
  -- A tenth of the power is less than the last place, which is between the two.
  obtain ⟨rfl, rfl, rfl⟩ := second_of_power canonical some above upper (by linarith)
  obtain ⟨-, nearly⟩ := two_least_lt
  generalize (10 : ℚ) ^ (-323 : ℤ) = power at *
  rw [Nat.cast_zero, zero_add]
  push_cast
  linarith

/-! ## The coarsest grid -/

theorem point_le_power {n k : Nat} {e e' : ℤ} (few : n < 10 ^ k) (le : e' ≤ e) :
    n * (10 : ℚ) ^ e' ≤ 10 ^ (k + e) := by
  rw [zpow_add₀ (by norm_num), zpow_natCast]
  have digits : (n : ℚ) ≤ 10 ^ k := by exact_mod_cast few.le
  have place : (10 : ℚ) ^ e' ≤ 10 ^ e := zpow_le_zpow_right₀ (by norm_num) le
  exact mul_le_mul digits place (by positivity) (by positivity)

section

variable {bits d : Nat} {e : ℤ} (shortest : (Magnitude.ofBits bits).shortest = (d, e))
include shortest

theorem shortest_nearest : Nearest (d * 10 ^ e) bits := by
  have within := (Magnitude.ofBits bits).shortest_within
  rw [shortest] at within
  exact within_ofBits_iff.mp within

/-- On its grid the point is the nearest one. -/
theorem shortest_nearer {n : Nat} (near : Nearest (n * 10 ^ e) bits) :
    |valueOf bits - d * 10 ^ e| ≤ |valueOf bits - n * 10 ^ e| := by
  have found := (Magnitude.ofBits bits).shortest_found.1
  rw [shortest] at found
  exact Magnitude.onGrid?_nearest_value found (within_ofBits_iff.mpr near)

variable (fraction : (Magnitude.ofBits bits).whole? = none)
include fraction

/-- No coarser grid has a point that rounds to the number. -/
theorem le_shortest {n : Nat} {e' : ℤ} (near : Nearest (n * 10 ^ e') bits) : e' ≤ e := by
  have within := within_ofBits_iff.mpr near
  have neg := exponent_neg_of_not_whole fraction within
  have before := (Magnitude.ofBits bits).shortest_found.2 e'
  rw [shortest] at before
  by_contra coarser
  exact Magnitude.not_within_of_none (before (lt_of_not_ge coarser) (by rw [topGrid]; omega)) within

/-- A power of ten with no more digits than the point is on no coarser grid. -/
theorem eq_zero_of_le_power {q : ℚ} {i : Nat} (first : 10 ^ i ≤ d) (near : Nearest q bits)
    (le : q ≤ 10 ^ (i + e)) : i = 0 ∧ Nearest (10 ^ e) bits := by
  have power : Nearest (10 ^ (i + e)) bits := by
    refine near.between (shortest_nearest shortest) le ?_
    rw [zpow_add₀ (by norm_num), zpow_natCast]
    exact mul_le_mul_of_nonneg_right (by exact_mod_cast first) (by positivity)
  have none : i = 0 := by
    have coarser := le_shortest shortest fraction (n := 1) (by simpa using power)
    omega
  rw [none, Nat.cast_zero, zero_add] at power
  exact ⟨none, power⟩

omit shortest in
theorem not_nearest_zero : ¬Nearest 0 bits := by
  intro near
  have within : (Magnitude.ofBits bits).Within 0 0 := within_ofBits_iff.mpr (by simpa using near)
  exact absurd (exponent_neg_of_not_whole fraction within) (lt_irrefl 0)

omit shortest in
theorem ne_zero_of_not_whole : bits ≠ 0 := by
  rintro rfl
  exact not_nearest_zero fraction (valueOf_zero ▸ .self 0)

variable {n k : Nat} {e' : ℤ} (near : Nearest (n * 10 ^ e') bits)
include near

theorem not_lt_of_fewer (fewer : 10 ^ k ≤ d) : ¬n < 10 ^ k := by
  intro few
  have le := point_le_power few (le_shortest shortest fraction near)
  obtain ⟨rfl, -⟩ := eq_zero_of_le_power shortest fraction fewer near le
  obtain rfl : n = 0 := Nat.lt_one_iff.mp few
  exact not_nearest_zero fraction (by simpa using near)

theorem nearer_of_same (same : 10 ^ k ≤ d) (few : n < 10 ^ (k + 1)) :
    |valueOf bits - d * 10 ^ e| ≤ |valueOf bits - n * 10 ^ e'| := by
  rcases (le_shortest shortest fraction near).eq_or_lt with rfl | finer
  · exact shortest_nearer shortest near
  have le := point_le_power few (Int.le_sub_one_of_lt finer)
  have exponent : ((k + 1 : Nat) : ℤ) + (e - 1) = k + e := by push_cast; ring
  rw [exponent] at le
  obtain ⟨rfl, power⟩ := eq_zero_of_le_power shortest fraction same near le
  have below : n * (10 : ℚ) ^ e' ≤ 9 / 10 * 10 ^ e := by
    have digit : (n : ℚ) ≤ 9 := by exact_mod_cast Nat.le_of_lt_succ few
    have place : (10 : ℚ) ^ e' ≤ 10 ^ (e - 1) :=
      zpow_le_zpow_right₀ (by norm_num) (Int.le_sub_one_of_lt finer)
    calc n * (10 : ℚ) ^ e'
      _ ≤ 9 * 10 ^ (e - 1) := mul_le_mul digit place (by positivity) (by norm_num)
      _ = 9 / 10 * 10 ^ e := by
        rw [zpow_sub_one₀ (by norm_num)]
        ring
  have nearer := shortest_nearer shortest (n := 1) (by simpa using power)
  rw [Nat.cast_one, one_mul] at nearer
  exact nearer.trans (power_nearer (ne_zero_of_not_whole fraction) (by positivity) near power below)

end

/-! ## Digits -/

open Text Source

/-- The digits of a whole number, from the first that is not zero on, or the digit zero. -/
structure IsDecimal (n : Nat) (digits : List Char) : Prop where
  nonempty : digits ≠ []
  ascii : ∀ c ∈ digits, c.isDigit
  leading : digits.head? = some '0' → digits = ['0']
  value : spelled digits = n

/-- The digits of a numeral in front of its exponent, from the first that is not zero on. -/
def significantDigits (cs : List Char) : List Char :=
  ((cs.takeWhile fun c => isDigit c || c == '.').filter (· != '.')).dropWhile (· == '0')

theorem head?_toDigits {n : Nat} (nonzero : n ≠ 0) : (Nat.toDigits 10 n).head? ≠ some '0' := by
  induction n using Nat.strongRecOn with
  | ind n ih =>
    rcases Nat.lt_or_ge n 10 with small | large
    · rw [Nat.toDigits_of_lt_base small]
      have digits : ∀ n < 10, n ≠ 0 → [n.digitChar].head? ≠ some '0' := by decide
      exact digits n small nonzero
    · rw [Nat.toDigits_of_base_le (by decide) large,
        List.head?_append_of_ne_nil _ Nat.toDigits_ne_nil]
      exact ih (n / 10) (by omega) (by omega)

theorem isDecimal_toDigits (n : Nat) : IsDecimal n (Nat.toDigits 10 n) where
  nonempty := Nat.toDigits_ne_nil
  ascii _ := isDigit_of_mem_decimal
  leading head := by
    rcases eq_or_ne n 0 with rfl | nonzero
    · rfl
    · exact absurd head (head?_toDigits nonzero)
  value := by
    rw [← digitsValue_eq_spelled, digitsValue_eq fun _ => isDigit_of_mem_decimal,
      Nat.ofDigitChars_ten_toDigits]

theorem pow_le_of_lt_length {d j : Nat} (nonzero : d ≠ 0) (lt : j < (Nat.toDigits 10 d).length) :
    10 ^ j ≤ d := by
  rcases Nat.eq_zero_or_pos j with rfl | pos
  · exact Nat.one_le_iff_ne_zero.mpr nonzero
  · by_contra small
    exact lt.not_ge ((Nat.length_toDigits_le_iff (by decide) pos).mpr (Nat.lt_of_not_le small))

theorem lt_pow_length (d : Nat) : d < 10 ^ (Nat.toDigits 10 d).length :=
  (Nat.length_toDigits_le_iff (by decide) Nat.length_toDigits_pos).mp le_rfl

section

variable {d : Nat} (nonzero : d ≠ 0)
include nonzero

/-- Neither the point nor zeros in front of the digits count. -/
theorem significantDigits_padded {m e : List Char} {k : Nat}
    (digits : m.filter (· != '.') = List.replicate k '0' ++ Nat.toDigits 10 d)
    (stop : ∀ c, e.head? = some c → isDigit c = false ∧ c ≠ '.') :
    significantDigits (m ++ e) = Nat.toDigits 10 d := by
  have inside : ∀ c ∈ m, (isDigit c || c == '.') = true := by
    intro c mem
    rcases eq_or_ne c '.' with rfl | other
    · rfl
    · have kept : c ∈ m.filter (· != '.') := List.mem_filter.mpr ⟨mem, bne_iff_ne.mpr other⟩
      rw [digits] at kept
      rw [isDigit_of_ascii (isDigit_of_mem_padded c kept), Bool.true_or]
  have beyond : ∀ c, e.head? = some c → (isDigit c || c == '.') = false := fun c head => by
    obtain ⟨digit, point⟩ := stop c head
    rw [digit, Bool.false_or, beq_eq_false_iff_ne]
    exact point
  have first : ∀ c, (Nat.toDigits 10 d).head? = some c → (c == '0') = false := by
    rintro c head
    exact beq_eq_false_iff_ne.mpr fun zero => head?_toDigits nonzero (zero ▸ head)
  rw [significantDigits, takeWhile_append_stop inside beyond, digits,
    dropWhile_append_stop (fun c mem => beq_iff_eq.mpr (List.eq_of_mem_replicate mem)) first]

omit nonzero in
theorem filter_point {cs : List Char} (digits : ∀ c ∈ cs, c.isDigit) :
    cs.filter (· != '.') = cs := by
  refine List.filter_eq_self.mpr fun c mem => bne_iff_ne.mpr ?_
  rintro rfl
  exact absurd (digits '.' mem) (by decide)

omit nonzero in
theorem filter_point_parts (i : Nat) :
    ((Nat.toDigits 10 d).take i ++ '.' :: (Nat.toDigits 10 d).drop i).filter (· != '.') =
      List.replicate 0 '0' ++ Nat.toDigits 10 d := by
  rw [List.filter_append, List.filter_cons_of_neg (by simp), ← List.filter_append,
    List.take_append_drop, filter_point fun _ => isDigit_of_mem_decimal]
  rfl

theorem significantDigits_positional (point : ℤ) :
    significantDigits (positional (Nat.toDigits 10 d) point) = Nat.toDigits 10 d := by
  rw [← List.append_nil (positional _ _), positional]
  split
  · exact significantDigits_padded nonzero (filter_point_parts _) (by simp)
  · have zeros : ('0' :: '.' :: List.replicate (-point).toNat '0' ++ Nat.toDigits 10 d).filter
        (· != '.') = List.replicate ((-point).toNat + 1) '0' ++ Nat.toDigits 10 d := by
      have digits := filter_point (isDigit_of_mem_padded (k := (-point).toNat) (n := d))
      exact congrArg ('0' :: ·) digits
    exact significantDigits_padded nonzero zeros (by simp)

theorem significantDigits_scientific (exponent : ℤ) :
    significantDigits (scientific (Nat.toDigits 10 d) exponent) = Nat.toDigits 10 d := by
  rw [scientific, List.append_assoc, List.append_assoc]
  refine significantDigits_padded nonzero (k := 0) ?_ ?_
  · split
    · rename_i last
      have parts := filter_point_parts (d := d) 1
      rw [last] at parts
      simpa using parts
    · exact filter_point_parts 1
  · rintro c ⟨⟩
    decide

theorem significantDigits_fractional (exponent : ℤ) :
    significantDigits (fractional d exponent) = Nat.toDigits 10 d := by
  rw [fractional]
  split
  · exact significantDigits_positional nonzero _
  · exact significantDigits_scientific nonzero _

end

/-! ## Numbers with a sign -/

/-- `x` is what `q` rounds to, and on the same side of zero. -/
structure IsSignedRounding (q : ℚ) (x : Float) : Prop where
  size : IsRounding |q| x.abs
  negative : q < 0 → isNegative x = true
  positive : 0 < q → isNegative x = false

/-- `q` has a decimal numeral with at most `k` digits, but for zeros in front of them and behind. -/
def HasDigits (k : Nat) (q : ℚ) : Prop := ∃ z e : ℤ, z.natAbs < 10 ^ k ∧ q = z * 10 ^ e

/-- A value with the sign of `x`. -/
def withSign (x : Float) (q : ℚ) : ℚ := if isNegative x then -q else q

theorem abs_withSign {q : ℚ} (x : Float) (nonneg : 0 ≤ q) : |withSign x q| = q := by
  rw [withSign]
  split
  · rw [abs_neg, abs_of_nonneg nonneg]
  · exact abs_of_nonneg nonneg

theorem HasDigits.abs {k : Nat} {q : ℚ} (h : HasDigits k q) :
    ∃ (n : Nat) (e : ℤ), n < 10 ^ k ∧ |q| = n * 10 ^ e := by
  obtain ⟨z, e, few, rfl⟩ := h
  have pos : (0 : ℚ) < 10 ^ e := by positivity
  exact ⟨z.natAbs, e, few, by rw [abs_mul, abs_of_pos pos, Nat.cast_natAbs, Int.cast_abs]⟩

theorem hasDigits_withSign {k n : Nat} (x : Float) (e : ℤ) (few : n < 10 ^ k) :
    HasDigits k (withSign x (n * 10 ^ e)) := by
  rw [withSign]
  split
  · exact ⟨-n, e, by simpa using few, by push_cast; ring⟩
  · exact ⟨n, e, by simpa using few, by push_cast; ring⟩

theorem whole?_of_value {m : Magnitude} {n : Nat} (h : m.value = n) : m.whole? = some n := by
  have exact : m.significand % pow2 (-m.exponent).toNat = 0 := by
    refine Nat.mod_eq_zero_of_dvd ?_
    rcases le_or_gt 0 m.exponent with up | down
    · rw [show (-m.exponent).toNat = 0 by omega]
      exact one_dvd _
    · refine ⟨n, ?_⟩
      have place : (2 : ℚ) ^ m.exponent = ((pow2 (-m.exponent).toNat : Nat) : ℚ)⁻¹ := by
        rw [cast_pow2, ← zpow_natCast, ← zpow_neg]
        congr 1
        omega
      have pos : (0 : ℚ) < pow2 (-m.exponent).toNat := by exact_mod_cast Nat.two_pow_pos _
      rw [Magnitude.value, place, mul_inv_eq_iff_eq_mul₀ pos.ne', mul_comm] at h
      exact_mod_cast h
  have whole : m.whole? ≠ none := by
    rw [Magnitude.whole?, if_pos exact]
    exact Option.some_ne_none _
  obtain ⟨n', found⟩ := Option.ne_none_iff_exists'.mp whole
  have same : (n' : ℚ) = n := (value_of_whole found).symm.trans h
  rw [found, Nat.cast_injective same]

section

variable {x : Float} (finite : x.isFinite)
include finite

theorem isSignedRounding_iff {q : ℚ} : IsSignedRounding q x ↔
    Nearest |q| (magnitudeBits x) ∧ (q < 0 → isNegative x = true) ∧
      (0 < q → isNegative x = false) := by
  obtain ⟨s, e, f, fields⟩ := exists_fields finite
  have size := isRounding_iff (abs_nonneg q) fields.abs.isFinite fields.abs.isNegative
  rw [fields.abs.magnitudeBits, ← fields.magnitudeBits] at size
  exact ⟨fun h => ⟨size.mp h.size, h.negative, h.positive⟩,
    fun ⟨near, negative, positive⟩ => ⟨size.mpr near, negative, positive⟩⟩

theorem value_eq_withSign : value x = withSign x (valueOf (magnitudeBits x)) :=
  value_eq_of_finite finite

theorem isSignedRounding_withSign {q : ℚ} (nonneg : 0 ≤ q) (near : Nearest q (magnitudeBits x)) :
    IsSignedRounding (withSign x q) x := by
  rw [isSignedRounding_iff finite, abs_withSign x nonneg]
  refine ⟨near, fun neg => ?_, fun pos => ?_⟩ <;> rw [withSign] at *
  · by_contra sign
    rw [if_neg sign] at neg
    exact absurd nonneg neg.not_ge
  · by_contra sign
    rw [if_pos (by simpa using sign)] at pos
    linarith

/-- What rounds to a number is as far from it as the magnitudes are apart. -/
theorem IsSignedRounding.abs_sub {q : ℚ} (h : IsSignedRounding q x) :
    |value x - q| = |valueOf (magnitudeBits x) - (|q|)| := by
  rw [value_eq_withSign finite, withSign]
  split
  · rename_i sign
    have nonpos : q ≤ 0 := le_of_not_gt fun pos => by simp [h.positive pos] at sign
    have diff : -valueOf (magnitudeBits x) - q = -(valueOf (magnitudeBits x) - -q) := by ring
    rw [abs_of_nonpos nonpos, diff, abs_neg]
  · rename_i sign
    have nonneg : 0 ≤ q := le_of_not_gt fun neg => sign (h.negative neg)
    rw [abs_of_nonneg nonneg]

theorem display_of_finite : display x =
    (if isNegative x && magnitudeBits x != 0 then ['-'] else []) ++ (magnitude x).display := by
  obtain ⟨s, e, f, fields⟩ := exists_fields finite
  rw [display_of_fields fields, fields.isNegative]
  rfl

theorem value_neg_iff : value x < 0 ↔ isNegative x = true ∧ magnitudeBits x ≠ 0 := by
  have pos : 0 < valueOf (magnitudeBits x) ↔ magnitudeBits x ≠ 0 := by
    rw [← valueOf_zero, valueOf_strictMono.lt_iff_lt, Nat.pos_iff_ne_zero]
  rw [value_eq_withSign finite, withSign]
  split
  · rename_i sign
    rw [neg_lt_zero, pos]
    exact ⟨fun some => ⟨sign, some⟩, And.right⟩
  · rename_i sign
    exact ⟨fun neg => absurd (valueOf_nonneg _) neg.not_ge, fun h => absurd h.1 sign⟩

theorem magnitude_value {z : ℤ} (integral : value x = z) : (magnitude x).value = z.natAbs := by
  rw [Nat.cast_natAbs, Int.cast_abs, ← integral, abs_value_of_finite finite]
  rfl

/-- An integral number is written in full. -/
theorem toText_of_integral {z : ℤ} (integral : value x = z) :
    toText x = (if z < 0 then "-" else "") ++ .ofList (Nat.toDigits 10 z.natAbs) := by
  have sign : (isNegative x && magnitudeBits x != 0) = true ↔ z < 0 := by
    have neg := value_neg_iff finite
    rw [integral, Int.cast_lt_zero] at neg
    rw [neg, Bool.and_eq_true, bne_iff_ne]
  rw [toText, display_of_finite finite, Magnitude.display,
    whole?_of_value (magnitude_value finite integral), String.ofList_append]
  simp only [sign]
  split <;> rfl

theorem whole?_eq_none_iff : (magnitude x).whole? = none ↔ ∀ z : ℤ, value x ≠ z := by
  constructor
  · intro fraction z integral
    rw [whole?_of_value (magnitude_value finite integral)] at fraction
    cases fraction
  · intro fraction
    by_contra whole
    obtain ⟨n, found⟩ := Option.ne_none_iff_exists'.mp whole
    have size : valueOf (magnitudeBits x) = n := value_of_whole found
    rw [value_eq_withSign finite, withSign, size] at fraction
    split at fraction
    · exact fraction (-n) (by push_cast; rfl)
    · exact fraction n (by push_cast; rfl)

/-- Any other number is written with the digits of the point on the coarsest grid. -/
theorem toText_of_not_whole (fraction : (magnitude x).whole? = none) {d : Nat} {e : ℤ}
    (shortest : (magnitude x).shortest = (d, e)) :
    toText x = (if isNegative x then "-" else "") ++ .ofList (fractional d e) := by
  have some : magnitudeBits x ≠ 0 := ne_zero_of_not_whole fraction
  rw [toText, display_of_finite finite, Magnitude.display, fraction, shortest, bne_iff_ne.mpr some,
    Bool.and_true, String.ofList_append]
  dsimp only
  split <;> rfl

end

/-- An integral number is written in full, without a zero in front, and with a minus sign only below
zero. Any other is written as a numeral that rounds to it: none with fewer digits does, and of those
with as many none is nearer. -/
theorem written_in_full_or_shortest {x : Float} (finite : x.isFinite) :
    (∀ z : ℤ, value x = z → ∃ digits,
      toText x = (if z < 0 then "-" else "") ++ .ofList digits ∧ IsDecimal z.natAbs digits) ∧
    ((∀ z : ℤ, value x ≠ z) → ∃ body,
      toText x = (if isNegative x then "-" else "") ++ body ∧ IsNumber body ∧
      let shown := withSign x (exactValue body.toList)
      let size := (significantDigits body.toList).length
      IsSignedRounding shown x ∧ HasDigits size shown ∧
      (∀ q k, k < size → HasDigits k q → ¬IsSignedRounding q x) ∧
      ∀ q, HasDigits size q → IsSignedRounding q x → |value x - shown| ≤ |value x - q|) := by
  refine ⟨fun z integral => ⟨_, toText_of_integral finite integral, isDecimal_toDigits _⟩,
    fun fraction => ?_⟩
  obtain ⟨d, e, shortest⟩ : ∃ d e, (magnitude x).shortest = (d, e) := ⟨_, _, rfl⟩
  have fraction := (whole?_eq_none_iff finite).mpr fraction
  have near := shortest_nearest shortest
  have nonneg : (0 : ℚ) ≤ d * 10 ^ e := by positivity
  have nonzero : d ≠ 0 := by
    rintro rfl
    exact not_nearest_zero fraction (by simpa using near)
  have spells : Spells (fractional d e) ⟨d, e⟩ :=
    spells_fractional (exponent_neg_of_not_whole fraction (within_ofBits_iff.mpr near))
  have exact : exactValue (String.ofList (fractional d e)).toList = d * 10 ^ e := by
    rw [exactValue_eq spells.number, String.toList_ofList, spells.read]
    rfl
  refine ⟨_, toText_of_not_whole finite fraction shortest, spells.number, ?_⟩
  rw [exact, String.toList_ofList, significantDigits_fractional nonzero]
  have rounding := isSignedRounding_withSign finite nonneg near
  refine ⟨rounding, hasDigits_withSign x e (lt_pow_length d), fun q k fewer digits other => ?_,
    fun q digits other => ?_⟩
  · obtain ⟨n, e', few, size⟩ := digits.abs
    have near' := ((isSignedRounding_iff finite).mp other).1
    rw [size] at near'
    exact not_lt_of_fewer shortest fraction near' (pow_le_of_lt_length nonzero fewer) few
  · obtain ⟨n, e', few, size⟩ := digits.abs
    have near' := ((isSignedRounding_iff finite).mp other).1
    rw [size] at near'
    obtain ⟨k, hk⟩ := Nat.exists_eq_add_one.mpr (Nat.length_toDigits_pos (b := 10) (n := d))
    rw [rounding.abs_sub finite, other.abs_sub finite, abs_withSign x nonneg, size]
    exact nearer_of_same shortest fraction near' (pow_le_of_lt_length nonzero (by omega)) (hk ▸ few)

/-- A power of two in full, and below zero the sum of a tenth and two tenths. -/
theorem written_in_full_or_shortest_tenths :
    (∃ digits, toText (.ofBits 0xc3b0000000000000) = "-" ++ .ofList digits ∧
      IsDecimal (2 ^ 60) digits) ∧
    toText (.ofBits 0xbfd3333333333334) = "-0.30000000000000004" ∧
    (∀ q k, k < 17 → HasDigits k q → ¬IsSignedRounding q (.ofBits 0xbfd3333333333334)) ∧
    ∀ q, HasDigits 17 q → IsSignedRounding q (.ofBits 0xbfd3333333333334) →
      |value (.ofBits 0xbfd3333333333334) - -30000000000000004 / 10 ^ 17| ≤
        |value (.ofBits 0xbfd3333333333334) - q| := by
  constructor
  · have integral : value (.ofBits 0xc3b0000000000000) = (-2 ^ 60 : ℤ) := by decide +kernel
    exact (written_in_full_or_shortest (by decide +kernel)).1 _ integral
  · have text : toText (.ofBits 0xbfd3333333333334) = "-" ++ "0.30000000000000004" := by
      decide +kernel
    have finite : (Float.ofBits 0xbfd3333333333334).isFinite := by decide +kernel
    have fraction := (whole?_eq_none_iff finite).mp (by decide +kernel)
    have sign : isNegative (.ofBits 0xbfd3333333333334) = true := by decide +kernel
    obtain ⟨body, same, -, -, -, shorter, nearer⟩ := (written_in_full_or_shortest finite).2 fraction
    rw [if_pos sign, text] at same
    have chars := congrArg String.toList same
    rw [String.toList_append, String.toList_append] at chars
    obtain rfl := String.toList_injective (List.append_cancel_left chars)
    have size : (significantDigits "0.30000000000000004".toList).length = 17 := by decide +kernel
    have shown : withSign (.ofBits 0xbfd3333333333334) (exactValue "0.30000000000000004".toList) =
        -30000000000000004 / 10 ^ 17 := by decide +kernel
    rw [size] at shorter nearer
    rw [shown] at nearer
    exact ⟨text, shorter, nearer⟩

end Number

end Scriptlet
