import Mathlib
import Scriptlet.Proofs.ReadBack
/-!
# Number literals

The exact value of a numeral is that of its digits, by their places, times a power of ten. A literal
evaluates to the number nearest to this value: of two that are equally near to the one with the even
significand, and to infinity from the midpoint between the greatest number and the next power of two
on.
-/

namespace Scriptlet

namespace Number

/-! ## Values of numbers -/

/-- The value of a finite number, its significand times a power of two. -/
def value (x : Float) : ℚ :=
  match x.toModel.unpack with
  | .finite .positive m e _ => m * 2 ^ e
  | .finite .negative m e _ => -(m * 2 ^ e)
  | _ => 0

def significand (x : Float) : Nat :=
  match x.toModel.unpack with
  | .finite _ m _ _ => m
  | _ => 0

/-- Halfway from the greatest number to the power of two behind it. -/
def overflowMidpoint : ℚ := 2 ^ 1024 - 2 ^ 970

def IsSubnormal (x : Float) : Prop := 0 < significand x ∧ significand x < 2 ^ 52

/-- `x` is what a value of at least zero rounds to. -/
structure IsRounding (q : ℚ) (x : Float) : Prop where
  sign : isNegative x = false
  infinite : overflowMidpoint ≤ q → x.toModel.unpack = .infinity .positive
  finite : q < overflowMidpoint → x.isFinite
  nearest : x.isFinite → ∀ y : Float, y.isFinite → |q - value x| ≤ |q - value y|
  even : x.isFinite → ∀ y : Float, y.isFinite → value y ≠ value x →
    |q - value x| = |q - value y| → significand x % 2 = 0
  zero : x.toModel.unpack = .zero .positive ↔ q ≤ 2 ^ (-1075 : ℤ)
  subnormal : IsSubnormal x ↔ 2 ^ (-1075 : ℤ) < q ∧ q < 2 ^ (-1022 : ℤ) - 2 ^ (-1075 : ℤ)

/-! ## Thresholds -/

namespace Nearest

variable {q : ℚ} {p bits : Nat}

/-- A midpoint below an even pattern rounds up. -/
theorem succ_le_iff_of_even (h : Nearest q bits) (even : (p + 1) % 2 = 0) :
    p + 1 ≤ bits ↔ valueOf p + valueOf (p + 1) ≤ 2 * q := by
  constructor
  · intro le
    have := h.above (Nat.lt_of_succ_le le)
    have := valueOf_strictMono.monotone le
    linarith
  · intro le
    by_contra lt
    have half := h.below (Nat.lt_of_not_le lt)
    have mono := valueOf_strictMono.monotone (Nat.le_of_lt_succ (Nat.lt_of_not_le lt))
    -- The value is the midpoint itself, and the pattern below it is odd.
    obtain rfl : bits = p := valueOf_strictMono.injective (by linarith)
    linarith [h.below_of_odd (by omega) (Nat.lt_succ_self bits)]

/-- A midpoint above an even pattern rounds down. -/
theorem succ_le_iff_of_odd (h : Nearest q bits) (odd : (p + 1) % 2 = 1) :
    p + 1 ≤ bits ↔ valueOf p + valueOf (p + 1) < 2 * q := by
  constructor
  · intro le
    have half := h.above (Nat.lt_of_succ_le le)
    have mono := valueOf_strictMono.monotone le
    by_contra ge
    obtain rfl : p + 1 = bits := valueOf_strictMono.injective (by linarith)
    linarith [h.above_of_odd odd (Nat.lt_succ_self p)]
  · intro lt
    by_contra below
    have := h.below (Nat.lt_of_not_le below)
    have := valueOf_strictMono.monotone (Nat.le_of_lt_succ (Nat.lt_of_not_le below))
    linarith

end Nearest

theorem valueOf_greatest : valueOf (infinityBits - 1) = 2 ^ 1024 - 2 ^ 971 := by
  have step := valueOf_step (k := 2045) (s := 2 ^ 53 - 1) (by decide) (.inr (by decide))
  have exponent : ((2045 : Nat) : ℤ) + minExponent = (971 : Nat) := by decide
  have width : ((2 ^ 53 - 1 : Nat) : ℚ) = 2 ^ 53 - 1 := by norm_num
  rw [exponent, zpow_natCast, width, sub_mul, one_mul, ← pow_add] at step
  exact step

section

variable {q : ℚ} {bits : Nat} (h : Nearest q bits)
include h

theorem infinityBits_le_iff : infinityBits ≤ bits ↔ overflowMidpoint ≤ q := by
  have threshold := h.succ_le_iff_of_even (p := infinityBits - 1) (by decide)
  have succ : infinityBits - 1 + 1 = infinityBits := by decide
  rw [succ, valueOf_greatest, Numeral.valueOf_infinityBits] at threshold
  have midpoint : (2 ^ 1024 - 2 ^ 971 + 2 ^ 1024 : ℚ) = 2 * overflowMidpoint := by
    rw [overflowMidpoint, mul_sub, ← pow_succ' 2 970, two_mul, sub_add_eq_add_sub]
  rw [threshold, midpoint, mul_le_mul_iff_right₀ two_pos]

theorem eq_zero_iff : bits = 0 ↔ q ≤ 2 ^ (-1075 : ℤ) := by
  have threshold := h.succ_le_iff_of_odd (p := 0) (by decide)
  have place : minExponent = 1 + -1075 := rfl
  rw [valueOf_zero, Numeral.valueOf_one, zero_add, zero_add, place, zpow_one_add₀ two_ne_zero,
    mul_lt_mul_iff_right₀ two_pos] at threshold
  rw [← not_lt, ← threshold]
  omega

theorem normal_iff : 2 ^ 52 ≤ bits ↔ 2 ^ (-1022 : ℤ) - 2 ^ (-1075 : ℤ) ≤ q := by
  have threshold := h.succ_le_iff_of_even (p := 2 ^ 52 - 1) (by decide)
  have last := valueOf_step (k := 0) (s := 2 ^ 52 - 1) (by decide) (.inl rfl)
  have first := valueOf_step (k := 0) (s := 2 ^ 52) (by decide) (.inl rfl)
  rw [Nat.zero_mul, Nat.zero_add] at last first
  rw [last, show 2 ^ 52 - 1 + 1 = 2 ^ 52 from rfl, first] at threshold
  have place : ((0 : Nat) : ℤ) + minExponent = -1075 + 1 := by decide
  have top : (-1022 : ℤ) = -1075 + (53 : Nat) := by decide
  obtain ⟨half, hhalf⟩ : ∃ half : ℚ, half = 2 ^ (-1075 : ℤ) := ⟨_, rfl⟩
  rw [threshold, place, top, zpow_add_one₀ two_ne_zero, zpow_add₀ two_ne_zero, zpow_natCast,
    ← hhalf]
  push_cast
  constructor <;> intro le <;> linarith

end

/-! ## Patterns of numbers -/

section

open Float.Model Float.Model.UnpackedFloat

variable {x : Float} {s : Sign} {e : BitVec 11} {f : BitVec 52}

theorem toNat_ne_zero {n : Nat} {b : BitVec n} (h : b ≠ 0#n) : b.toNat ≠ 0 :=
  fun zero => h (BitVec.eq_of_toNat_eq (by simpa using zero))

theorem toNat_implicit : (1#1 ++ f).toNat = 2 ^ 52 + f.toNat := by
  rw [BitVec.toNat_append, ← Nat.shiftLeft_add_eq_or_of_lt f.isLt, Nat.shiftLeft_eq]
  rfl

/-- The exponent field counts from the bias, that of a subnormal number as if it were one. -/
theorem magnitude_of_fields (e : BitVec 11) (f : BitVec 52) :
    Magnitude.ofBits (e.toNat * 2 ^ 52 + f.toNat) =
      if e = 0#11 then ⟨f.toNat, minExponent⟩
      else ⟨(1#1 ++ f).toNat, e.toNat - 1 + minExponent⟩ := by
  have below := f.isLt
  have width : pow2 52 = 2 ^ 52 := rfl
  rw [Magnitude.ofBits, width]
  split_ifs with small zero zero
  · rw [zero, BitVec.toNat_ofNat, Nat.zero_mod, Nat.zero_mul, Nat.zero_add]
  · have := toNat_ne_zero zero
    omega
  · rw [zero, BitVec.toNat_ofNat] at small
    omega
  · have low : (e.toNat * 2 ^ 52 + f.toNat) % 2 ^ 52 = f.toNat := by omega
    have high : (e.toNat * 2 ^ 52 + f.toNat) / 2 ^ 52 = e.toNat := by omega
    rw [low, high, toNat_implicit]

namespace HasFields

theorem isFinite (h : HasFields x s e f) : x.isFinite := by
  have finite : x.toModel.unpack.isFinite := by
    rcases unpack_packComponents e f h.finite with ⟨-, -, zero⟩ | ⟨-, _, _, _, finite⟩
    · rw [h.unpack, zero]
      rfl
    · rw [h.unpack, finite]
      rfl
  exact finite

theorem unpack_zero (h : HasFields x s e f) (none : Number.magnitudeBits x = 0) :
    x.toModel.unpack = .zero s := by
  rw [h.magnitudeBits] at none
  rcases unpack_packComponents e f h.finite with ⟨-, -, zero⟩ | ⟨some, -⟩
  · rw [h.unpack, zero]
  · rcases some with some | some <;>
      · have := toNat_ne_zero some
        omega

/-- A number that is not zero has the significand and the exponent of its pattern. -/
theorem unpack_finite (h : HasFields x s e f) (some : Number.magnitudeBits x ≠ 0) :
    ∃ pos, x.toModel.unpack = .finite s (magnitude x).significand (magnitude x).exponent pos := by
  rw [h.magnitudeBits] at some
  rw [magnitude, h.magnitudeBits, h.unpack, UnpackedFloat.unpack]
  simp only [unpackExponent_packComponents, unpackMantissa_packComponents,
    unpackSign_packComponents, Sign.ofBitVec_toBitVec, if_neg h.finite]
  have pattern := magnitude_of_fields e f
  by_cases he : e = 0#11
  · have hf : f ≠ 0#52 := fun none => some (by rw [he, none]; rfl)
    rw [if_pos he] at pattern
    rw [pattern, if_pos he, dif_neg hf, he]
    exact ⟨Nat.pos_of_ne_zero (toNat_ne_zero hf), rfl⟩
  · have exponent : (e.toNat : ℤ) - (Format.binary64.exponentBias + (52 : Nat)) =
        e.toNat - 1 + minExponent := by
      have bias : Format.binary64.exponentBias = 1023 := rfl
      rw [bias, minExponent]
      omega
    rw [if_neg he] at pattern
    rw [pattern, if_neg he, exponent]
    exact ⟨toNat_implicit ▸ Nat.add_pos_left (Nat.two_pow_pos 52) _, rfl⟩

theorem unpack_eq_zero_iff (h : HasFields x s e f) :
    x.toModel.unpack = .zero s ↔ Number.magnitudeBits x = 0 := by
  refine ⟨fun unpack => ?_, h.unpack_zero⟩
  by_contra some
  obtain ⟨pos, unpack'⟩ := h.unpack_finite some
  rw [unpack] at unpack'
  cases unpack'

theorem significand_eq (h : HasFields x s e f) : significand x = (magnitude x).significand := by
  by_cases none : Number.magnitudeBits x = 0
  · rw [significand, h.unpack_zero none, magnitude, none]
    rfl
  · obtain ⟨pos, unpack⟩ := h.unpack_finite none
    rw [significand, unpack]

theorem value_eq (h : HasFields x s e f) : value x =
    if s == .negative then -valueOf (Number.magnitudeBits x)
    else valueOf (Number.magnitudeBits x) := by
  by_cases none : Number.magnitudeBits x = 0
  · rw [value, h.unpack_zero none, none, valueOf_zero, neg_zero, ite_self]
  · obtain ⟨pos, unpack⟩ := h.unpack_finite none
    rw [value, unpack]
    cases s <;> rfl

end HasFields

/-- There is a number for each pattern below that of infinity. -/
theorem hasFields_ofMagnitudeBits {bits : Nat} (finite : bits < infinityBits) :
    HasFields (ofMagnitudeBits bits) .positive (BitVec.ofNat 11 (bits / 2 ^ 52))
      (BitVec.ofNat 52 (bits % 2 ^ 52)) := by
  have bound : bits < 0x7ff * 2 ^ 52 := finite
  have exponent : (BitVec.ofNat 11 (bits / 2 ^ 52)).toNat = bits / 2 ^ 52 := by
    rw [BitVec.toNat_ofNat, Nat.mod_eq_of_lt (by omega)]
  have other : BitVec.ofNat 11 (bits / 2 ^ 52) ≠ -1#11 := by
    intro same
    have : bits / 2 ^ 52 = 2047 := exponent.symm.trans (congrArg BitVec.toNat same)
    omega
  have pattern : (UInt64.ofNat bits).toBitVec = packComponents .binary64 .positive
      (BitVec.ofNat 11 (bits / 2 ^ 52)) (BitVec.ofNat 52 (bits % 2 ^ 52)) := by
    refine BitVec.eq_of_toNat_eq ?_
    have plus : Sign.positive.toBitVec.toNat = 0 := rfl
    rw [toNat_packComponents, exponent, plus, BitVec.toNat_ofNat]
    have word : (UInt64.ofNat bits).toBitVec.toNat = bits % 2 ^ 64 := rfl
    omega
  have valid : Format.Valid .binary64 (packComponents .binary64 .positive
      (BitVec.ofNat 11 (bits / 2 ^ 52)) (BitVec.ofNat 52 (bits % 2 ^ 52))) :=
    ⟨fun infinite => absurd (unpackExponent_packComponents.symm.trans infinite) other⟩
  refine ⟨?_, other⟩
  have packed : (ofMagnitudeBits bits).toBits.toBitVec = UnpackedFloat.pack .binary64
      (UnpackedFloat.unpack .binary64 (UInt64.ofNat bits).toBitVec) := rfl
  rw [packed, pattern, pack_unpack_of_valid valid]

end

section

variable {x : Float} (finite : x.isFinite)
include finite

theorem significand_of_finite : significand x = (magnitude x).significand := by
  obtain ⟨s, e, f, fields⟩ := exists_fields finite
  exact fields.significand_eq

theorem value_eq_of_finite : value x =
    if isNegative x then -valueOf (magnitudeBits x) else valueOf (magnitudeBits x) := by
  obtain ⟨s, e, f, fields⟩ := exists_fields finite
  rw [fields.value_eq, fields.isNegative]

theorem value_of_finite (sign : isNegative x = false) : value x = valueOf (magnitudeBits x) := by
  rw [value_eq_of_finite finite, sign, if_neg Bool.false_ne_true]

theorem abs_value_of_finite : |value x| = valueOf (magnitudeBits x) := by
  rw [value_eq_of_finite finite]
  split
  · rw [abs_neg, abs_of_nonneg (valueOf_nonneg _)]
  · exact abs_of_nonneg (valueOf_nonneg _)

end

section

variable {bits : Nat} (finite : bits < infinityBits)
include finite

theorem magnitudeBits_ofMagnitudeBits : magnitudeBits (ofMagnitudeBits bits) = bits := by
  have bound : bits < 0x7ff * 2 ^ 52 := finite
  rw [(hasFields_ofMagnitudeBits finite).magnitudeBits, BitVec.toNat_ofNat, BitVec.toNat_ofNat]
  omega

theorem isNegative_ofMagnitudeBits : isNegative (ofMagnitudeBits bits) = false := by
  rw [(hasFields_ofMagnitudeBits finite).isNegative]
  rfl

theorem value_ofMagnitudeBits : value (ofMagnitudeBits bits) = valueOf bits := by
  have fields := hasFields_ofMagnitudeBits finite
  rw [value_of_finite fields.isFinite (isNegative_ofMagnitudeBits finite),
    magnitudeBits_ofMagnitudeBits finite]

end

/-! ## Rounding -/

theorem exists_nearest {q : ℚ} (nonneg : 0 ≤ q) : ∃ bits, Nearest q bits := by
  obtain ⟨bits, nearest, -⟩ := exists_nearestBits q.num.natAbs q.den_pos
  have num : ((q.num.natAbs : Nat) : ℚ) = q.num := by
    rw [Nat.cast_natAbs, abs_of_nonneg (Rat.num_nonneg.mpr nonneg)]
  rw [num, Rat.num_div_den] at nearest
  exact ⟨bits, nearest⟩

theorem significand_ofBits_mod (bits : Nat) :
    (Magnitude.ofBits bits).significand % 2 = bits % 2 := by
  obtain ⟨k, s, canonical, rfl⟩ := exists_canonical bits
  rw [ofBits_canonical canonical]
  dsimp only
  omega

theorem significand_ofBits_small (bits : Nat) :
    0 < (Magnitude.ofBits bits).significand ∧ (Magnitude.ofBits bits).significand < 2 ^ 52 ↔
      bits ≠ 0 ∧ ¬2 ^ 52 ≤ bits := by
  have width : pow2 52 = 2 ^ 52 := rfl
  rw [Magnitude.ofBits, width]
  split_ifs <;> dsimp only <;> omega

section

variable {q : ℚ} {bits : Nat} (h : Nearest q bits)
include h

theorem isRounding_infinite (large : infinityBits ≤ bits) :
    IsRounding q (ofMagnitudeBits infinityBits) := by
  have unpack : (ofMagnitudeBits infinityBits).toModel.unpack = .infinity .positive := rfl
  have infinite : ¬(ofMagnitudeBits infinityBits).isFinite := by decide
  have normal : 2 ^ 52 ≤ infinityBits := by decide
  have some : ¬q ≤ 2 ^ (-1075 : ℤ) := mt (eq_zero_iff h).mpr (by omega)
  refine ⟨by decide, fun _ => unpack, fun below => ?_, fun finite => absurd finite infinite,
    fun finite => absurd finite infinite, ?_, ?_⟩
  · exact absurd ((infinityBits_le_iff h).mp large) below.not_ge
  · rw [unpack]
    exact ⟨nofun, fun le => absurd le some⟩
  · have beyond := (normal_iff h).mp (normal.trans large)
    rw [IsSubnormal, significand, unpack]
    exact ⟨fun small => absurd small.1 (lt_irrefl 0), fun between => absurd beyond between.2.not_ge⟩

variable (nonneg : 0 ≤ q) (finite : bits < infinityBits)
include nonneg finite

theorem isRounding_finite : IsRounding q (ofMagnitudeBits bits) := by
  have fields := hasFields_ofMagnitudeBits finite
  have pattern := magnitudeBits_ofMagnitudeBits finite
  have value_eq := value_ofMagnitudeBits finite
  have significand_eq := significand_of_finite fields.isFinite
  rw [magnitude, pattern] at significand_eq
  have below := mt (infinityBits_le_iff h).mpr finite.not_ge
  -- A number is no nearer than its magnitude.
  have farther {y : Float} (hy : y.isFinite) : |q - valueOf (magnitudeBits y)| ≤ |q - value y| := by
    rw [← abs_value_of_finite hy]
    simpa only [abs_of_nonneg nonneg] using abs_abs_sub_abs_le q (value y)
  refine ⟨isNegative_ofMagnitudeBits finite, fun le => absurd le below, fun _ => fields.isFinite,
    fun _ y hy => ?_, fun _ y hy ne tie => ?_, ?_, ?_⟩
  · rw [value_eq]
    exact (h.nearest _).trans (farther hy)
  · rw [significand_eq, significand_ofBits_mod]
    rw [value_eq] at ne tie
    have size := abs_value_of_finite hy
    have far := farther hy
    rw [← tie] at far
    refine h.even _ (fun same => ne ?_) (le_antisymm (h.nearest _) far)
    rw [same] at size
    rcases eq_or_eq_neg_of_abs_eq size with equal | opposite
    · exact equal
    · -- The two are equally far from a value above zero only if both are zero.
      have zero := h.nearest 0
      have sum : |q - value y| = q + valueOf bits := by
        rw [opposite, sub_neg_eq_add, abs_of_nonneg (add_nonneg nonneg (size ▸ abs_nonneg _))]
      rw [valueOf_zero, sub_zero, abs_of_nonneg nonneg, tie, sum] at zero
      linarith [size ▸ abs_nonneg (value y)]
  · rw [← eq_zero_iff h, fields.unpack_eq_zero_iff, pattern]
  · rw [IsSubnormal, significand_eq, significand_ofBits_small, normal_iff h, ne_eq, eq_zero_iff h,
      not_le, not_le]

end

/-- The number of the pattern that is nearest to a value, or infinity, is what it rounds to. -/
theorem isRounding_of_nearest {q : ℚ} {bits : Nat} (h : Nearest q bits) (nonneg : 0 ≤ q) :
    IsRounding q (ofMagnitudeBits (min bits infinityBits)) := by
  rcases Nat.lt_or_ge bits infinityBits with finite | large
  · rw [Nat.min_eq_left finite.le]
    exact isRounding_finite h nonneg finite
  · rw [Nat.min_eq_right large]
    exact isRounding_infinite h large

namespace IsRounding

variable {q : ℚ} {x y : Float}

/-- Of two different numbers that are equally near, one has an odd significand, or there is a number
between them. -/
theorem not_lt (hx : IsRounding q x) (hy : IsRounding q y) (finite : x.isFinite)
    (finite' : y.isFinite) : ¬magnitudeBits x < magnitudeBits y := by
  intro lt
  have less := valueOf_strictMono lt
  rw [← value_of_finite finite hx.sign, ← value_of_finite finite' hy.sign] at less
  have tie := le_antisymm (hx.nearest finite y finite') (hy.nearest finite' x finite)
  have even := hx.even finite y finite' less.ne' tie
  have even' := hy.even finite' x finite less.ne tie.symm
  rw [significand_of_finite finite, magnitude, significand_ofBits_mod] at even
  rw [significand_of_finite finite', magnitude, significand_ofBits_mod] at even'
  have half : 2 * q = value x + value y := by
    rcases abs_eq_abs.mp tie with same | opposite <;> linarith
  have between : magnitudeBits x + 1 < magnitudeBits y := by omega
  obtain ⟨s, e, f, fields⟩ := exists_fields finite'
  have next := between.trans fields.magnitudeBits_lt
  have lower := valueOf_strictMono (Nat.lt_succ_self (magnitudeBits x))
  have upper := valueOf_strictMono between
  rw [← value_ofMagnitudeBits next] at lower upper
  rw [← value_of_finite finite hx.sign] at lower
  rw [← value_of_finite finite' hy.sign] at upper
  exact (hx.nearest finite _ (hasFields_ofMagnitudeBits next).isFinite).not_gt
    (nearer_of_lt lower (by linarith))

/-- A value rounds to one number only. -/
theorem unique (hx : IsRounding q x) (hy : IsRounding q y) : x = y := by
  rcases lt_or_ge q overflowMidpoint with below | beyond
  · have finite := hx.finite below
    have finite' := hy.finite below
    have same : magnitudeBits x = magnitudeBits y :=
      Nat.le_antisymm (Nat.le_of_not_lt (hy.not_lt hx finite' finite))
        (Nat.le_of_not_lt (hx.not_lt hy finite finite'))
    rw [← ofMagnitudeBits_magnitudeBits hx.sign, same, ofMagnitudeBits_magnitudeBits hy.sign]
  · have pattern := (hx.infinite beyond).trans (hy.infinite beyond).symm
    have same : x.toBits.toBitVec = y.toBits.toBitVec :=
      (Float.Model.UnpackedFloat.unpack_inj_of_valid x.toModel.valid y.toModel.valid).mp pattern
    rw [← x.ofBits_toBits, UInt64.toBitVec_inj.mp same, y.ofBits_toBits]

end IsRounding

/-- A number is what a value rounds to if its pattern is the nearest one. -/
theorem isRounding_iff {q : ℚ} {x : Float} (nonneg : 0 ≤ q) (finite : x.isFinite)
    (sign : isNegative x = false) : IsRounding q x ↔ Nearest q (magnitudeBits x) := by
  constructor
  · intro rounding
    obtain ⟨bits, nearest⟩ := exists_nearest nonneg
    obtain rfl := rounding.unique (isRounding_of_nearest nearest nonneg)
    rcases Nat.lt_or_ge bits infinityBits with below | large
    · rwa [Nat.min_eq_left below.le, magnitudeBits_ofMagnitudeBits below]
    · rw [Nat.min_eq_right large] at finite
      exact absurd finite (by decide)
  · intro nearest
    obtain ⟨s, e, f, fields⟩ := exists_fields finite
    have rounding := isRounding_of_nearest nearest nonneg
    rwa [Nat.min_eq_left fields.magnitudeBits_lt.le, ofMagnitudeBits_magnitudeBits sign] at rounding

/-! ## Values of numerals -/

open Text Source

/-- The whole number that digits spell; the last one counts once. -/
def spelled (cs : List Char) : Nat := Nat.ofDigits 10 (cs.reverse.map fun c => (digit? c).getD 0)

/-- The power of ten that an exponent spells. -/
def exactExponent : List Char → ℤ
  | [] => 0
  | _ :: '-' :: cs => -(spelled cs : ℤ)
  | _ :: '+' :: cs => spelled cs
  | _ :: cs => spelled cs

/-- The exact value of a numeral: its digits in front of the point, those behind it, and the
exponent. -/
def exactValue (cs : List Char) : ℚ :=
  let whole := cs.takeWhile isDigit
  let (fraction, exponent) := match cs.dropWhile isDigit with
    | '.' :: rest => (rest.takeWhile isDigit, rest.dropWhile isDigit)
    | rest => ([], rest)
  (spelled whole + spelled fraction / 10 ^ fraction.length) * 10 ^ exactExponent exponent

theorem digitsValue_eq_spelled (cs : List Char) : digitsValue cs = spelled cs := by
  induction cs using List.reverseRecOn with
  | nil => rfl
  | append_singleton cs c ih =>
    rw [spelled, List.reverse_append, List.reverse_singleton, List.singleton_append, List.map_cons,
      Nat.ofDigits_cons, ← spelled, ← ih, digitsValue, List.foldl_append, digitsValue]
    exact Nat.add_comm _ _

theorem spelled_append (ws fs : List Char) :
    spelled (ws ++ fs) = spelled ws * 10 ^ fs.length + spelled fs := by
  rw [spelled, List.reverse_append, List.map_append, Nat.ofDigits_append, List.length_map,
    List.length_reverse, ← spelled, ← spelled]
  ring

theorem readExponent_eq (cs : List Char) : Numeral.readExponent cs = exactExponent cs := by
  unfold exactExponent
  split <;> simp [Numeral.readExponent, digitsValue_eq_spelled, *]

section

variable {ws fs e : List Char} (whole : ∀ c ∈ ws, isDigit c) (he : IsExponent e)
include whole he

theorem exactValue_whole : exactValue (ws ++ e) = spelled ws * 10 ^ exactExponent e := by
  have stop : ∀ c, e.head? = some c → isDigit c = false := fun c hc => (exponent_stops he c hc).1
  rw [exactValue, takeWhile_append_stop whole stop, dropWhile_append_stop whole stop]
  split
  rename_i fraction exponent cut
  split at cut
  · exact absurd rfl (exponent_stops he '.' rfl).2
  · cases cut
    simp [spelled]

theorem exactValue_point (fraction : ∀ c ∈ fs, isDigit c) :
    exactValue (ws ++ '.' :: fs ++ e) =
      (spelled ws + spelled fs / 10 ^ fs.length) * 10 ^ exactExponent e := by
  have stop : ∀ c, e.head? = some c → isDigit c = false := fun c hc => (exponent_stops he c hc).1
  have point : ∀ c, ('.' :: (fs ++ e)).head? = some c → isDigit c = false := by
    rintro c ⟨⟩
    decide
  rw [exactValue, List.append_assoc, List.cons_append, takeWhile_append_stop whole point,
    dropWhile_append_stop whole point]
  simp only [takeWhile_append_stop fraction stop, dropWhile_append_stop fraction stop]

/-- Behind a point, each digit counts a tenth of the one before. -/
theorem value_point (fraction : ∀ c ∈ fs, isDigit c) (hm : IsMantissa (ws ++ '.' :: fs)) :
    exactValue (ws ++ '.' :: fs ++ e) = (Numeral.read (ws ++ '.' :: fs ++ e)).value := by
  have point : ∀ c, ('.' :: fs).head? = some c → isDigit c = false := by
    rintro c ⟨⟩
    decide
  rw [exactValue_point whole he fraction, readNumeral_append hm he,
    takeWhile_append_stop whole point, dropWhile_append_stop whole point, List.drop_one,
    List.tail_cons, digitsValue_eq_spelled, spelled_append, readExponent_eq, Numeral.value,
    zpow_sub₀ (by norm_num), zpow_natCast]
  push_cast
  field_simp

end

/-- A numeral is read as its exact value. -/
theorem exactValue_eq {s : String} (h : IsNumber s) :
    exactValue s.toList = (Numeral.read s.toList).value := by
  obtain ⟨m, e, hs, hm, he⟩ := h
  rw [hs]
  cases hm with
  | point some whole fraction => exact value_point whole he fraction (.point some whole fraction)
  | @fraction fs some fraction =>
    exact @value_point [] fs e (by simp) he fraction (.fraction some fraction)
  | whole some whole =>
    rw [exactValue_whole whole he, readNumeral_whole some whole he, digitsValue_eq_spelled,
      readExponent_eq, Numeral.value]

theorem isRounding_ofText {s : String} (h : IsNumber s) :
    IsRounding (exactValue s.toList) (ofText s.toList) := by
  have nonneg : 0 ≤ (Numeral.read s.toList).value := by
    rw [Numeral.value]
    positivity
  obtain ⟨bits, nearest⟩ := exists_nearest nonneg
  rw [ofText_number h, Numeral.toBits_eq nearest, exactValue_eq h]
  exact isRounding_of_nearest nearest nonneg

end Number

/-- A number literal is read as a number token, which evaluates to the one number that its exact
value rounds to. -/
theorem literals_round_correctly {s : String} (h : Source.IsNumber s) :
    let literal := Tree.token .number s (some .first)
    Source.parse (s ++ ";") = .ok (.node .bareExpr (some .first) [literal]) ∧
    ∃ x, (∀ y, Number.IsRounding (Number.exactValue s.toList) y ↔ y = x) ∧
      ∀ (rounds depth : Nat) (place place' : Option Place) (m : Machine),
        let literal := Tree.token .number s place
        m.eval ⟨depth + 1, rounds⟩ literal = (.ok ⟨.number x, none⟩, m) ∧
        m.exec ⟨depth + 2, rounds⟩ (.node .bareExpr place' [literal]) =
          (.ok ⟨⟨.number x, none⟩, none⟩, m) := by
  have rounding := Number.isRounding_ofText h
  refine ⟨Source.parse_number h, _, fun y => ⟨fun h => h.unique rounding, ?_⟩, fun _ _ _ _ _ => ?_⟩
  · rintro rfl
    exact rounding
  · exact ⟨rfl, exec_number s _ _ _⟩

private def halfway : String := "\u0669007199254740993"

/-- Halfway between two numbers, with a digit of another script: the even significand is taken. -/
theorem literals_round_correctly_halfway :
    Source.IsNumber halfway ∧ Number.exactValue halfway.toList = 2 ^ 53 + 1 ∧
    Number.IsRounding (2 ^ 53 + 1) (.ofBits 0x4340000000000000) ∧
    ∀ m : Machine, m.eval ⟨1, 0⟩ (.token .number halfway none) =
      (.ok ⟨.number (.ofBits 0x4340000000000000), none⟩, m) := by
  have digits : ∀ c ∈ halfway.toList, Text.isDigit c :=
    List.all_eq_true.mp (by decide +kernel)
  have number : Source.IsNumber halfway :=
    ⟨halfway.toList, [], by simp, .whole (by decide) digits, .none⟩
  have value : Number.exactValue halfway.toList = 2 ^ 53 + 1 := by
    have whole : Number.spelled halfway.toList = 2 ^ 53 + 1 := by decide +kernel
    have exact := Number.exactValue_whole digits .none
    rw [List.append_nil, whole, Number.exactExponent] at exact
    rw [exact]
    norm_num
  have read : Number.ofText halfway.toList = .ofBits 0x4340000000000000 := by decide +kernel
  obtain ⟨-, x, rounding, run⟩ := literals_round_correctly number
  obtain rfl : x = Number.ofText halfway.toList := by
    cases (run 0 0 none none .fresh).1
    rfl
  rw [read, value] at rounding
  rw [read] at run
  exact ⟨number, value, (rounding _).mpr rfl, fun m => (run 0 0 none none m).1⟩

end Scriptlet
