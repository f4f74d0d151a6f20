import Mathlib.Algebra.Order.Field.Power
import Mathlib.Data.Rat.Cast.Order
import Mathlib.Tactic.Linarith
import Mathlib.Tactic.NormNum
import Mathlib.Tactic.Positivity
import Mathlib.Tactic.Ring
import Scriptlet.Number.Binary
/-!
# Rounding to the nearest magnitude

The patterns of the magnitudes are in the order of their values. A quotient is rounded to the
pattern whose value is nearest, and of two that are equally near to the even one.
-/

namespace Scriptlet.Number

/-! ## Patterns -/

def Magnitude.value (m : Magnitude) : ℚ := m.significand * 2 ^ m.exponent

/-- The value of a pattern. Those from infinity on have the values that would follow. -/
def valueOf (bits : Nat) : ℚ := (Magnitude.ofBits bits).value

/-- The significands of the patterns `step * 2 ^ 52 + significand`. -/
structure Canonical (step significand : Nat) : Prop where
  below : significand < 2 ^ 53
  normal : step = 0 ∨ 2 ^ 52 ≤ significand

theorem ofBits_canonical {k s : Nat} (h : Canonical k s) :
    Magnitude.ofBits (k * 2 ^ 52 + s) = ⟨s, k + minExponent⟩ := by
  have below := h.below
  have width : pow2 52 = 2 ^ 52 := rfl
  rw [Magnitude.ofBits, width]
  rcases h.normal with rfl | normal
  · by_cases small : s < 2 ^ 52
    · rw [if_pos (by omega), Nat.zero_mul, Nat.zero_add]
      simp
    · have top : (0 * 2 ^ 52 + s) / 2 ^ 52 = 1 ∧ 2 ^ 52 + (0 * 2 ^ 52 + s) % 2 ^ 52 = s := by omega
      rw [if_neg (by omega), top.1, top.2]
      simp
  · have top : (k * 2 ^ 52 + s) / 2 ^ 52 = k + 1 ∧ 2 ^ 52 + (k * 2 ^ 52 + s) % 2 ^ 52 = s := by
      omega
    rw [if_neg (by omega), top.1, top.2]
    simp

theorem exists_canonical (bits : Nat) : ∃ k s, Canonical k s ∧ bits = k * 2 ^ 52 + s := by
  by_cases small : bits < 2 ^ 52
  · exact ⟨0, bits, ⟨by omega, .inl rfl⟩, by omega⟩
  · exact ⟨bits / 2 ^ 52 - 1, 2 ^ 52 + bits % 2 ^ 52, ⟨by omega, .inr (by omega)⟩, by omega⟩

/-- The value of a pattern, also where a significand has just carried. -/
theorem valueOf_step {k s : Nat} (le : s ≤ 2 ^ 53) (normal : k = 0 ∨ 2 ^ 52 ≤ s) :
    valueOf (k * 2 ^ 52 + s) = s * 2 ^ (k + minExponent) := by
  by_cases below : s < 2 ^ 53
  · rw [valueOf, ofBits_canonical ⟨below, normal⟩]
    rfl
  · obtain rfl : s = 2 ^ 53 := by omega
    have carried : k * 2 ^ 52 + 2 ^ 53 = (k + 1) * 2 ^ 52 + 2 ^ 52 := by omega
    rw [carried, valueOf, ofBits_canonical ⟨by decide, .inr le_rfl⟩, Magnitude.value]
    have shift : ((k + 1 : Nat) : ℤ) + minExponent = 1 + (k + minExponent) := by push_cast; ring
    rw [shift, zpow_one_add₀ two_ne_zero]
    push_cast
    ring

theorem valueOf_succ {k s : Nat} (h : Canonical k s) :
    valueOf (k * 2 ^ 52 + s + 1) = (s + 1) * 2 ^ (k + minExponent) := by
  have next := valueOf_step (k := k) (s := s + 1) h.below (h.normal.imp id fun le => by omega)
  rw [Nat.add_assoc, next]
  push_cast
  rfl

theorem valueOf_strictMono : StrictMono valueOf := by
  refine strictMono_nat_of_lt_succ fun bits => ?_
  obtain ⟨k, s, h, rfl⟩ := exists_canonical bits
  rw [valueOf_succ h, valueOf_step h.below.le h.normal]
  have place : (0 : ℚ) < 2 ^ (k + minExponent) := by positivity
  linarith

theorem valueOf_zero : valueOf 0 = 0 := by
  simp [valueOf, Magnitude.ofBits, Magnitude.value]

theorem valueOf_nonneg (bits : Nat) : 0 ≤ valueOf bits := by
  rw [valueOf, Magnitude.value]
  positivity

/-- The pattern below is in the same step, or it is the last one of the step before. -/
theorem valueOf_pred {k s p : Nat} (hp : p + 1 = k * 2 ^ 52 + s) (le : s ≤ 2 ^ 53)
    (normal : k = 0 ∨ 2 ^ 52 ≤ s) :
    ¬(k ≠ 0 ∧ s = 2 ^ 52) ∧ valueOf p = (s - 1) * 2 ^ (k + minExponent) ∨
      (k ≠ 0 ∧ s = 2 ^ 52) ∧ valueOf p = (s - 1 / 2) * 2 ^ (k + minExponent) := by
  by_cases first : k ≠ 0 ∧ s = 2 ^ 52
  · obtain ⟨later, rfl⟩ := first
    obtain ⟨j, rfl⟩ := Nat.exists_eq_succ_of_ne_zero later
    obtain rfl : p = j * 2 ^ 52 + (2 ^ 53 - 1) := by omega
    refine .inr ⟨⟨later, rfl⟩, ?_⟩
    have shift : ((j.succ : Nat) : ℤ) + minExponent = 1 + (j + minExponent) := by push_cast; ring
    rw [valueOf_step (by omega) (.inr (by omega)), shift, zpow_one_add₀ two_ne_zero]
    push_cast
    ring
  · obtain ⟨t, rfl⟩ : ∃ t, s = t + 1 := ⟨s - 1, by omega⟩
    obtain rfl : p = k * 2 ^ 52 + t := by omega
    refine .inl ⟨first, ?_⟩
    rw [valueOf_step (by omega) (by omega)]
    push_cast
    ring

theorem le_valueOf_succ {k s : Nat} (le : s ≤ 2 ^ 53) (normal : k = 0 ∨ 2 ^ 52 ≤ s) :
    (s + 1) * 2 ^ (k + minExponent) ≤ valueOf (k * 2 ^ 52 + s + 1) := by
  by_cases below : s < 2 ^ 53
  · exact (valueOf_succ ⟨below, normal⟩).ge
  · obtain rfl : s = 2 ^ 53 := by omega
    have carried : k * 2 ^ 52 + 2 ^ 53 + 1 = (k + 1) * 2 ^ 52 + 2 ^ 52 + 1 := by omega
    have shift : ((k + 1 : Nat) : ℤ) + minExponent = 1 + (k + minExponent) := by push_cast; ring
    rw [carried, valueOf_succ ⟨by decide, .inr le_rfl⟩, shift, zpow_one_add₀ two_ne_zero,
      ← mul_assoc]
    refine mul_le_mul_of_nonneg_right ?_ (by positivity)
    norm_num

/-! ## The nearest pattern -/

/-- No value is nearer to `q` than that of `bits`, and if another is as near then `bits` is even. -/
structure Nearest (q : ℚ) (bits : Nat) : Prop where
  nearest : ∀ other, |q - valueOf bits| ≤ |q - valueOf other|
  even : ∀ other ≠ bits, |q - valueOf bits| = |q - valueOf other| → bits % 2 = 0

theorem nearer_of_lt {q x y : ℚ} (lt : x < y) (half : x + y < 2 * q) : |q - y| < |q - x| :=
  (abs_lt.mpr ⟨by linarith, by linarith⟩).trans_le (le_abs_self (q - x))

theorem nearer_of_gt {q x y : ℚ} (lt : y < x) (half : 2 * q < y + x) : |q - y| < |q - x| :=
  (abs_lt.mpr ⟨by linarith, by linarith⟩).trans_le (neg_le_abs (q - x))

namespace Nearest

variable {q : ℚ} {bits other : Nat}

theorem above (h : Nearest q bits) (lt : other < bits) : valueOf other + valueOf bits ≤ 2 * q := by
  by_contra beyond
  exact absurd (h.nearest other)
    (nearer_of_gt (valueOf_strictMono lt) (by linarith)).not_ge

theorem below (h : Nearest q bits) (lt : bits < other) : 2 * q ≤ valueOf bits + valueOf other := by
  by_contra beyond
  exact absurd (h.nearest other)
    (nearer_of_lt (valueOf_strictMono lt) (by linarith)).not_ge

theorem not_lt (h : Nearest q bits) (h' : Nearest q other) : ¬bits < other := by
  intro lt
  have half : 2 * q = valueOf bits + valueOf other := le_antisymm (h.below lt) (h'.above lt)
  have tie : |q - valueOf bits| = |q - valueOf other| :=
    le_antisymm (h.nearest other) (h'.nearest bits)
  -- Both are even, so that there is a pattern between them, and it is nearer.
  have even := h.even other (Nat.ne_of_gt lt) tie
  have even' := h'.even bits (Nat.ne_of_lt lt) tie.symm
  have between : bits + 1 < other := by omega
  have := h.below (Nat.lt_succ_self bits)
  have := valueOf_strictMono between
  linarith

/-- At most one pattern is the nearest. -/
theorem unique (h : Nearest q bits) (h' : Nearest q other) : bits = other :=
  Nat.le_antisymm (Nat.le_of_not_lt (h'.not_lt h)) (Nat.le_of_not_lt (h.not_lt h'))

/-- It is enough to compare with the patterns next to it. -/
theorem of_neighbours (lower : ∀ p, p + 1 = bits → valueOf p + valueOf bits ≤ 2 * q)
    (upper : 2 * q ≤ valueOf bits + valueOf (bits + 1))
    (strict : bits % 2 = 1 → (∀ p, p + 1 = bits → valueOf p + valueOf bits < 2 * q) ∧
      2 * q < valueOf bits + valueOf (bits + 1)) : Nearest q bits := by
  have pred {c : Nat} (lt : c < bits) : ∃ p, p + 1 = bits ∧ valueOf c ≤ valueOf p :=
    ⟨bits - 1, by omega, valueOf_strictMono.monotone (by omega)⟩
  have succ {c : Nat} (lt : bits < c) : valueOf (bits + 1) ≤ valueOf c :=
    valueOf_strictMono.monotone lt
  constructor
  · intro c
    rcases Nat.lt_trichotomy c bits with lt | rfl | lt
    · obtain ⟨p, hp, le⟩ := pred lt
      have := lower p hp
      have := valueOf_strictMono lt
      exact (abs_le.mpr ⟨by linarith, by linarith⟩).trans (le_abs_self (q - valueOf c))
    · exact le_rfl
    · have := succ lt
      have := valueOf_strictMono lt
      exact (abs_le.mpr ⟨by linarith, by linarith⟩).trans (neg_le_abs (q - valueOf c))
  · intro c ne tie
    by_contra odd
    obtain ⟨lower, upper⟩ := strict (by omega)
    rcases Nat.lt_or_gt_of_ne ne with lt | lt
    · obtain ⟨p, hp, le⟩ := pred lt
      have := lower p hp
      exact absurd tie (nearer_of_lt (valueOf_strictMono lt) (by linarith)).ne
    · have := succ lt
      exact absurd tie (nearer_of_gt (valueOf_strictMono lt) (by linarith)).ne

theorem self (bits : Nat) : Nearest (valueOf bits) bits := by
  refine of_neighbours ?_ ?_ fun _ => ⟨?_, ?_⟩
  · rintro p rfl
    linarith [valueOf_strictMono (Nat.lt_succ_self p)]
  · linarith [valueOf_strictMono (Nat.lt_succ_self bits)]
  · rintro p rfl
    linarith [valueOf_strictMono (Nat.lt_succ_self p)]
  · linarith [valueOf_strictMono (Nat.lt_succ_self bits)]

/-- A midpoint does not round to an odd pattern. -/
theorem above_of_odd (h : Nearest q bits) (odd : bits % 2 = 1) (lt : other < bits) :
    valueOf other + valueOf bits < 2 * q := by
  refine (h.above lt).lt_of_ne fun half => ?_
  have middle : q - valueOf bits = -(q - valueOf other) := by linarith
  have := h.even other (Nat.ne_of_lt lt) (by rw [middle, abs_neg])
  omega

theorem below_of_odd (h : Nearest q bits) (odd : bits % 2 = 1) (lt : bits < other) :
    2 * q < valueOf bits + valueOf other := by
  refine (h.below lt).lt_of_ne fun half => ?_
  have middle : q - valueOf bits = -(q - valueOf other) := by linarith
  have := h.even other (Nat.ne_of_gt lt) (by rw [middle, abs_neg])
  omega

/-- What lies between two values that round to one pattern rounds to it too. -/
theorem between {q' r : ℚ} (h : Nearest q bits) (h' : Nearest q' bits) (le : q ≤ r) (le' : r ≤ q') :
    Nearest r bits := by
  refine of_neighbours ?_ ?_ fun odd => ⟨?_, ?_⟩
  · rintro p rfl
    linarith [h.above (Nat.lt_succ_self p)]
  · linarith [h'.below (Nat.lt_succ_self bits)]
  · rintro p rfl
    linarith [h.above_of_odd odd (Nat.lt_succ_self p)]
  · linarith [h'.below_of_odd odd (Nat.lt_succ_self bits)]

end Nearest

/-- What is nearest, counted in units of the last place. The pattern below is half as far away where
the exponent has just grown. -/
theorem nearest_of_scaled {x : ℚ} {k s : Nat} (le : s ≤ 2 ^ 53) (normal : k = 0 ∨ 2 ^ 52 ≤ s)
    (lower : s - 1 / 2 ≤ x) (narrow : k ≠ 0 ∧ s = 2 ^ 52 → s - 1 / 4 ≤ x) (upper : x ≤ s + 1 / 2)
    (strict : s % 2 = 1 → s - 1 / 2 < x ∧ x < s + 1 / 2) :
    Nearest (x * 2 ^ (k + minExponent)) (k * 2 ^ 52 + s) := by
  have here := valueOf_step le normal
  have before {p : Nat} (hp : p + 1 = k * 2 ^ 52 + s) := valueOf_pred hp le normal
  have after := le_valueOf_succ le normal
  obtain ⟨place, hplace⟩ : ∃ place : ℚ, place = 2 ^ (k + minExponent) := ⟨_, rfl⟩
  have pos : 0 < place := hplace ▸ by positivity
  rw [← hplace] at here before after ⊢
  refine .of_neighbours (fun p hp => ?_) ?_ fun odd => ?_
  · rcases before hp with ⟨-, same⟩ | ⟨first, half⟩
    · nlinarith
    · nlinarith [narrow first]
  · nlinarith
  · obtain ⟨lower, upper⟩ := strict (by omega)
    refine ⟨fun p hp => ?_, by nlinarith⟩
    rcases before hp with ⟨-, same⟩ | ⟨⟨_, rfl⟩, _⟩
    · nlinarith
    · omega

/-! ## Whole numbers -/

/-- `n` is nearest to `q` of all whole numbers, and even if another is as near. -/
structure RoundsTo (q : ℚ) (n : Nat) : Prop where
  near : |q - n| ≤ 1 / 2
  even : |q - n| = 1 / 2 → n % 2 = 0

theorem divideEven_roundsTo (num : Nat) {den : Nat} (pos : 0 < den) :
    RoundsTo (num / den) (divideEven num den) := by
  obtain ⟨r, hr⟩ : ∃ r : ℚ, r = (num % den : Nat) / den := ⟨_, rfl⟩
  have den_pos : (0 : ℚ) < den := by exact_mod_cast pos
  have split : (num : ℚ) / den = (num / den : Nat) + r := by
    rw [hr, div_eq_iff den_pos.ne', add_mul, div_mul_cancel₀ _ den_pos.ne']
    exact_mod_cast (Nat.div_add_mod' num den).symm
  have nonneg : 0 ≤ r := hr ▸ by positivity
  have below : r < 1 := by
    rw [hr, div_lt_one den_pos]
    exact_mod_cast Nat.mod_lt num pos
  have twice_lt : 2 * (num % den) < den ↔ r < 1 / 2 := by
    rw [hr, div_lt_div_iff₀ den_pos two_pos, one_mul, mul_comm]
    exact_mod_cast Iff.rfl
  have twice_eq : 2 * (num % den) = den ↔ r = 1 / 2 := by
    rw [hr, div_eq_div_iff den_pos.ne' two_ne_zero, one_mul, mul_comm]
    exact_mod_cast Iff.rfl
  rw [divideEven]
  split_ifs with down <;> rw [twice_lt, twice_eq] at down
  · have le : r ≤ 1 / 2 := down.elim le_of_lt fun h => h.1.le
    rw [split]
    constructor <;> rw [add_sub_cancel_left, abs_of_nonneg nonneg]
    · exact le
    · rintro tie
      rcases down with lt | ⟨-, even⟩
      · exact absurd tie lt.ne
      · exact even
  · have le : 1 / 2 ≤ r := le_of_not_gt fun lt => down (.inl lt)
    rw [split]
    constructor <;> push_cast <;>
      rw [add_sub_add_left_eq_sub, abs_of_nonpos (by linarith), neg_sub]
    · linarith
    · intro tie
      have half : r = 1 / 2 := by linarith
      have : ¬num / den % 2 = 0 := fun even => down (.inr ⟨half, even⟩)
      omega

/-! ## Binary places -/

theorem zpow_eq_div {b : ℚ} (ne : b ≠ 0) (e : ℤ) : b ^ e = b ^ e.toNat / b ^ (-e).toNat := by
  rw [← zpow_natCast, ← zpow_natCast, ← zpow_sub₀ ne]
  congr 1
  omega

theorem cast_pow2 (n : Nat) : ((pow2 n : Nat) : ℚ) = 2 ^ n := Nat.cast_pow 2 n

theorem cast_pow10 (n : Nat) : ((pow10 n : Nat) : ℚ) = 10 ^ n := Nat.cast_pow 10 n

theorem div_zpow_two (num den : Nat) (e : ℤ) : (num : ℚ) / den / 2 ^ e =
    ((num * pow2 (-e).toNat : Nat) : ℚ) / (den * pow2 e.toNat : Nat) := by
  rw [zpow_eq_div two_ne_zero, div_div_div_eq, Nat.cast_mul, Nat.cast_mul, cast_pow2, cast_pow2]

section

variable {num den : Nat} (num_pos : 0 < num) (den_pos : 0 < den)
include num_pos den_pos

theorem binaryExponent_spec : (2 : ℚ) ^ binaryExponent num den ≤ num / den ∧
    (num : ℚ) / den < 2 ^ (binaryExponent num den + 1) := by
  have den_pos' : (0 : ℚ) < den := by exact_mod_cast den_pos
  have num_lower : (2 : ℚ) ^ (num.log2 : ℤ) ≤ num := by
    exact_mod_cast Nat.log2_self_le num_pos.ne'
  have num_upper : (num : ℚ) < 2 ^ ((num.log2 : ℤ) + 1) := by
    exact_mod_cast Nat.lt_log2_self (n := num)
  have den_lower : (2 : ℚ) ^ (den.log2 : ℤ) ≤ den := by
    exact_mod_cast Nat.log2_self_le den_pos.ne'
  have den_upper : (den : ℚ) < 2 ^ ((den.log2 : ℤ) + 1) := by
    exact_mod_cast Nat.lt_log2_self (n := den)
  obtain ⟨top, htop⟩ : ∃ top : ℤ, top = num.log2 - den.log2 := ⟨_, rfl⟩
  have upper : (num : ℚ) / den < 2 ^ (top + 1) := by
    have shift : top + 1 = (num.log2 : ℤ) + 1 - den.log2 := by omega
    rw [shift, zpow_sub₀ two_ne_zero]
    exact div_lt_div₀ num_upper den_lower (by positivity) (by positivity)
  have lower : (2 : ℚ) ^ (top - 1) ≤ num / den := by
    have shift : top - 1 = (num.log2 : ℤ) - (den.log2 + 1) := by omega
    rw [shift, zpow_sub₀ two_ne_zero]
    exact div_le_div₀ (by positivity) num_lower den_pos' den_upper.le
  have test : den * pow2 top.toNat ≤ num * pow2 (-top).toNat ↔ (2 : ℚ) ^ top ≤ num / den := by
    have place : (0 : ℚ) < 2 ^ top := by positivity
    have pos : (0 : ℚ) < (den * pow2 top.toNat : Nat) := by
      exact_mod_cast Nat.mul_pos den_pos (Nat.two_pow_pos _)
    rw [← one_le_div₀ place, div_zpow_two, one_le_div₀ pos, Nat.cast_le]
  rw [binaryExponent]
  rw [← htop]
  split_ifs with reached <;> rw [test] at reached
  · exact ⟨reached, upper⟩
  · exact ⟨lower, by simpa using lt_of_not_ge reached⟩

end

/-! ## Quotients -/

section

variable {num den : Nat} (num_pos : 0 < num) (den_pos : 0 < den)
include num_pos den_pos

/-- Counted in units of its last place, a quotient has 53 digits before the point, or fewer if it is
subnormal. -/
theorem lastPlace_spec : ∃ k : Nat, lastPlace num den = k + minExponent ∧
    (num : ℚ) / den / 2 ^ (k + minExponent) < 2 ^ 53 ∧
    (k = 0 ∨ 2 ^ 52 ≤ (num : ℚ) / den / 2 ^ (k + minExponent)) := by
  obtain ⟨lower, upper⟩ := binaryExponent_spec num_pos den_pos
  obtain ⟨k, hk⟩ : ∃ k : Nat, lastPlace num den = k + minExponent :=
    ⟨(lastPlace num den - minExponent).toNat, by rw [lastPlace]; omega⟩
  have place : (0 : ℚ) < 2 ^ (k + minExponent) := by positivity
  refine ⟨k, hk, ?_, ?_⟩
  · rw [div_lt_iff₀ place, ← zpow_natCast, ← zpow_add₀ two_ne_zero]
    refine upper.trans_le (zpow_le_zpow_right₀ one_le_two ?_)
    rw [lastPlace] at hk
    omega
  · refine or_iff_not_imp_left.mpr fun later => ?_
    rw [le_div_iff₀ place, ← zpow_natCast, ← zpow_add₀ two_ne_zero]
    refine (zpow_le_zpow_right₀ one_le_two ?_).trans lower
    rw [lastPlace] at hk
    omega

theorem nearestBits_of_pos : ∃ bits, Nearest (num / den) bits ∧
    nearestBits num den = min bits infinityBits := by
  obtain ⟨k, hk, digits, normal⟩ := lastPlace_spec num_pos den_pos
  obtain ⟨s, hs⟩ : ∃ s, s = divideEven (num * pow2 (-(k + minExponent)).toNat)
    (den * pow2 (k + minExponent).toNat) := ⟨_, rfl⟩
  have rounded : RoundsTo (num / den / 2 ^ (k + minExponent)) s := by
    rw [div_zpow_two, hs]
    exact divideEven_roundsTo _ (Nat.mul_pos den_pos (Nat.two_pow_pos _))
  have pattern : nearestBits num den = min (k * 2 ^ 52 + s) infinityBits := by
    have step : (k + minExponent - minExponent).toNat = k := by omega
    rw [nearestBits, if_neg num_pos.ne', hk]
    dsimp only
    rw [← hs, step]
    rfl
  obtain ⟨lower, upper⟩ := abs_le.mp rounded.near
  have carry : s ≤ 2 ^ 53 := by
    have below : (s : ℚ) < (2 ^ 53 + 1 : Nat) := by push_cast; linarith
    exact Nat.lt_succ_iff.mp (by exact_mod_cast below)
  have significant : k = 0 ∨ 2 ^ 52 ≤ s := normal.imp id fun le => by
    have above : ((2 ^ 52 : Nat) : ℚ) < (s + 1 : Nat) := by push_cast; linarith
    exact Nat.lt_succ_iff.mp (by exact_mod_cast above)
  have nearest := nearest_of_scaled (x := num / den / 2 ^ (k + minExponent)) carry significant
    (by linarith) ?narrow (by linarith) fun odd => ?strict
  case narrow =>
    rintro ⟨later, rfl⟩
    have := normal.resolve_left later
    push_cast
    linarith
  case strict =>
    have inside := abs_lt.mp (lt_of_le_of_ne rounded.near fun tie => by
      have := rounded.even tie
      omega)
    exact ⟨by linarith, by linarith⟩
  rw [div_mul_cancel₀ _ (by positivity)] at nearest
  exact ⟨_, nearest, pattern⟩

end

theorem exists_nearestBits (num : Nat) {den : Nat} (den_pos : 0 < den) :
    ∃ bits, Nearest (num / den) bits ∧ nearestBits num den = min bits infinityBits := by
  rcases Nat.eq_zero_or_pos num with rfl | pos
  · have zero := valueOf_zero ▸ Nearest.self 0
    exact ⟨0, by simpa using zero, by simp [nearestBits]⟩
  · exact nearestBits_of_pos pos den_pos

/-- A quotient is rounded to the nearest pattern; infinity stands for all that are too large. -/
theorem nearestBits_eq {num den bits : Nat} (den_pos : 0 < den) (h : Nearest (num / den) bits) :
    nearestBits num den = min bits infinityBits := by
  obtain ⟨other, nearest, same⟩ := exists_nearestBits num den_pos
  rw [same, nearest.unique h]

end Scriptlet.Number
