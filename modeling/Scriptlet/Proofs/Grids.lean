import Scriptlet.Number.Shortest
import Scriptlet.Proofs.Rounding
/-!
# Decimal grids

The digits that are chosen for a magnitude are a point of a decimal grid, among the values that
round to it. There is such a point, since the grid of the magnitude's own last place has the
magnitude on it.
-/

namespace Scriptlet.Number

namespace Magnitude

/-- A quarter of the last place of `m`, on the scale of the grid `10 ^ e`. -/
def quarter (m : Magnitude) (e : ℤ) : Nat := pow2 m.exponent.toNat * pow10 (-e).toNat

/-- From one point of the grid to the next, on the same scale. -/
def pitch (m : Magnitude) (e : ℤ) : Nat := 4 * pow2 (-m.exponent).toNat * pow10 e.toNat

def scaled (m : Magnitude) (e : ℤ) : Nat := 4 * m.significand * m.quarter e

/-- How many quarters below `m` the values begin that round to `m`. -/
def slack (m : Magnitude) : Nat := if m.narrowBelow then 1 else 2

/-- The point `n` of the grid lies among the values that round to `m`. -/
structure Within (m : Magnitude) (e : ℤ) (n : Nat) : Prop where
  lower : m.scaled e ≤ n * m.pitch e + m.slack * m.quarter e
  upper : n * m.pitch e ≤ m.scaled e + 2 * m.quarter e
  strict : m.significand % 2 = 1 → m.scaled e < n * m.pitch e + m.slack * m.quarter e ∧
    n * m.pitch e < m.scaled e + 2 * m.quarter e

variable {m : Magnitude} {e : ℤ} {n : Nat}

theorem quarter_pos : 0 < m.quarter e := Nat.mul_pos (Nat.two_pow_pos _) (Nat.pow_pos (by decide))

theorem slack_pos : 0 < m.slack := by
  rw [slack]
  split <;> decide

theorem slack_le : m.slack ≤ 2 := by
  rw [slack]
  split <;> decide

/-- Nothing is cut off below. -/
theorem slack_lt_scaled (some : m.significand ≠ 0) : m.slack * m.quarter e < m.scaled e := by
  have le := slack_le (m := m)
  exact Nat.mul_lt_mul_of_pos_right (by omega) quarter_pos

theorem within_iff : m.Within e n ↔ (if m.significand % 2 = 0 then
      m.scaled e - m.slack * m.quarter e ≤ n * m.pitch e &&
        n * m.pitch e ≤ m.scaled e + 2 * m.quarter e
    else m.scaled e - m.slack * m.quarter e < n * m.pitch e &&
        n * m.pitch e < m.scaled e + 2 * m.quarter e) = true := by
  split <;> simp only [Bool.and_eq_true, decide_eq_true_eq]
  · refine ⟨fun h => ⟨by have := h.lower; omega, h.upper⟩,
      fun h => ⟨by omega, h.2, fun odd => by omega⟩⟩
  · rename_i odd
    have slack := slack_lt_scaled (m := m) (e := e) fun none => odd (by rw [none])
    refine ⟨fun h => ?_, fun h => ⟨by omega, h.2.le, fun _ => ⟨by omega, h.2⟩⟩⟩
    obtain ⟨lower, upper⟩ := h.strict (by omega)
    exact ⟨by omega, upper⟩

instance : Decidable (m.Within e n) := decidable_of_iff _ within_iff.symm

theorem decide_within : decide (m.Within e n) = (if m.significand % 2 = 0 then
      m.scaled e - m.slack * m.quarter e ≤ n * m.pitch e &&
        n * m.pitch e ≤ m.scaled e + 2 * m.quarter e
    else m.scaled e - m.slack * m.quarter e < n * m.pitch e &&
        n * m.pitch e < m.scaled e + 2 * m.quarter e) := by
  rw [Bool.eq_iff_iff, decide_eq_true_iff]
  exact within_iff

/-- Only the points next to `m` are looked at. -/
theorem onGrid?_eq (m : Magnitude) (e : ℤ) : m.onGrid? e =
    let below := m.scaled e / m.pitch e
    let twice := 2 * (m.scaled e % m.pitch e)
    match decide (m.Within e below), decide (m.Within e (below + 1)) with
    | true, true =>
      some (if twice < m.pitch e ∨ (twice = m.pitch e ∧ below % 2 = 0) then below else below + 1)
    | true, false => some below
    | false, true => some (below + 1)
    | false, false => none := by
  simp only [decide_within]
  rfl

/-- The point that is taken is next to `m` and rounds to it, and so the nearer one if both do. -/
theorem onGrid?_cases (h : m.onGrid? e = some n) :
    n = m.scaled e / m.pitch e ∧ m.Within e n ∧
        (m.Within e (n + 1) → 2 * (m.scaled e % m.pitch e) ≤ m.pitch e) ∨
      n = m.scaled e / m.pitch e + 1 ∧ m.Within e n ∧
        (m.Within e (m.scaled e / m.pitch e) → m.pitch e ≤ 2 * (m.scaled e % m.pitch e)) := by
  rw [onGrid?_eq] at h
  dsimp only at h
  split at h
  · rename_i below above
    obtain rfl := Option.some.inj h
    split
    · exact .inl ⟨rfl, of_decide_eq_true below, fun _ => by omega⟩
    · exact .inr ⟨rfl, of_decide_eq_true above, fun _ => by omega⟩
  · rename_i below above
    obtain rfl := Option.some.inj h
    have outside := of_decide_eq_false above
    exact .inl ⟨rfl, of_decide_eq_true below, fun inside => absurd inside outside⟩
  · rename_i below above
    obtain rfl := Option.some.inj h
    have outside := of_decide_eq_false below
    exact .inr ⟨rfl, of_decide_eq_true above, fun inside => absurd inside outside⟩
  · cases h

theorem onGrid?_within (h : m.onGrid? e = some n) : m.Within e n :=
  (onGrid?_cases h).elim (·.2.1) (·.2.1)

theorem pitch_pos : 0 < m.pitch e :=
  Nat.mul_pos (Nat.mul_pos (by decide) (Nat.two_pow_pos _)) (Nat.pow_pos (by decide))

/-- Of the points up to `m` the last one rounds to it if any does. -/
theorem Within.below (h : m.Within e n) (le : n ≤ m.scaled e / m.pitch e) :
    m.Within e (m.scaled e / m.pitch e) := by
  have lower := h.lower
  have mono := Nat.mul_le_mul_right (m.pitch e) le
  have here := Nat.div_mul_le_self (m.scaled e) (m.pitch e)
  have quarter := quarter_pos (m := m) (e := e)
  refine ⟨by omega, by omega, fun odd => ?_⟩
  have strict := (h.strict odd).1
  omega

/-- And of those above `m` the first one. -/
theorem Within.above (h : m.Within e n) (lt : m.scaled e / m.pitch e < n) :
    m.Within e (m.scaled e / m.pitch e + 1) := by
  have upper := h.upper
  have mono : (m.scaled e / m.pitch e + 1) * m.pitch e ≤ n * m.pitch e :=
    Nat.mul_le_mul_right _ lt
  have here := Nat.lt_mul_div_succ (m.scaled e) (pitch_pos (m := m) (e := e))
  rw [Nat.mul_comm] at here
  refine ⟨by omega, by omega, fun odd => ?_⟩
  have strict := (h.strict odd).2
  omega

/-- A grid is given up only if it has no point that rounds to `m`. -/
theorem not_within_of_none (none : m.onGrid? e = none) : ¬m.Within e n := by
  intro h
  rw [onGrid?_eq] at none
  rcases Nat.lt_or_ge (m.scaled e / m.pitch e) n with lt | le
  · have above := decide_eq_true (h.above lt)
    simp only [above] at none
    split at none <;> simp_all
  · have below := decide_eq_true (h.below le)
    simp only [below] at none
    split at none <;> simp_all

/-- Of the points that round to `m` none is nearer than the one that is taken. -/
theorem onGrid?_nearest {d : Nat} (h : m.onGrid? e = some d) (within : m.Within e n) :
    |(m.scaled e : ℤ) - d * m.pitch e| ≤ |(m.scaled e : ℤ) - n * m.pitch e| := by
  have taken := onGrid?_cases h
  have lower := within.below
  have upper := within.above
  obtain ⟨c, hc⟩ : ∃ c, c = m.scaled e / m.pitch e := ⟨_, rfl⟩
  obtain ⟨r, hr⟩ : ∃ r, r = m.scaled e % m.pitch e := ⟨_, rfl⟩
  have cut : m.scaled e = c * m.pitch e + r := by rw [hc, hr, Nat.div_add_mod']
  have small : r < m.pitch e := hr ▸ Nat.mod_lt _ pitch_pos
  rw [← hc] at lower upper taken
  rw [← hr] at taken
  have far : n ≤ c ∧ (r : ℤ) ≤ |(m.scaled e : ℤ) - n * m.pitch e| ∨
      c < n ∧ (m.pitch e - r : ℤ) ≤ |(m.scaled e : ℤ) - n * m.pitch e| := by
    rcases Nat.lt_or_ge c n with lt | le
    · have mono : (c + 1) * m.pitch e ≤ n * m.pitch e := Nat.mul_le_mul_right _ lt
      zify at mono cut
      exact .inr ⟨lt, le_abs.mpr (.inr (by linarith))⟩
    · have mono := Nat.mul_le_mul_right (m.pitch e) le
      zify at mono cut
      exact .inl ⟨le, le_abs.mpr (.inl (by linarith))⟩
  rcases taken with ⟨rfl, -, nearer⟩ | ⟨rfl, -, nearer⟩
  · have here : |(m.scaled e : ℤ) - d * m.pitch e| = r := by
      rw [cut]
      push_cast
      rw [add_sub_cancel_left, Nat.abs_cast]
    rcases far with ⟨-, far⟩ | ⟨lt, far⟩
    · exact here.trans_le far
    · have half := nearer (upper lt)
      zify at half
      linarith
  · have next : |(m.scaled e : ℤ) - (c + 1 : Nat) * m.pitch e| = m.pitch e - r := by
      have diff : (m.scaled e : ℤ) - (c + 1 : Nat) * m.pitch e = -(m.pitch e - r) := by
        rw [cut]
        push_cast
        ring
      zify at small
      rw [diff, abs_neg, abs_of_nonneg (by linarith)]
    rcases far with ⟨le, far⟩ | ⟨-, far⟩
    · have half := nearer (lower le)
      zify at half
      linarith
    · exact next.trans_le far

/-! ## The grid of the last place -/

/-- The grid that has `m` itself on it. -/
def ownGrid (m : Magnitude) : ℤ := min m.exponent 0

theorem pitch_dvd_scaled : m.pitch m.ownGrid ∣ m.scaled m.ownGrid := by
  have down : (-m.ownGrid).toNat = (-m.exponent).toNat := by rw [ownGrid]; omega
  have up : m.ownGrid.toNat = 0 := by rw [ownGrid]; omega
  have ten : pow10 (-m.exponent).toNat = pow2 (-m.exponent).toNat * 5 ^ (-m.exponent).toNat :=
    Nat.mul_pow 2 5 _
  have one : pow10 0 = 1 := rfl
  rw [pitch, scaled, quarter, down, up, ten, one]
  exact ⟨m.significand * pow2 m.exponent.toNat * 5 ^ (-m.exponent).toNat, by ring⟩

theorem onGrid?_own : m.onGrid? m.ownGrid ≠ none := by
  have exact : m.scaled m.ownGrid / m.pitch m.ownGrid * m.pitch m.ownGrid = m.scaled m.ownGrid :=
    Nat.div_mul_cancel pitch_dvd_scaled
  have pos := quarter_pos (m := m) (e := m.ownGrid)
  have slack : 0 < m.slack * m.quarter m.ownGrid := Nat.mul_pos slack_pos pos
  have self : m.Within m.ownGrid (m.scaled m.ownGrid / m.pitch m.ownGrid) := by
    refine ⟨?_, ?_, fun _ => ⟨?_, ?_⟩⟩ <;> rw [exact] <;> omega
  exact fun none => not_within_of_none none self

/-- The first grid with a point is found if there is one, and those before it have none. -/
theorem coarsest_found {fuel : Nat} {e : ℤ} (h : ∃ k < fuel, m.onGrid? (e - k) ≠ none) :
    m.onGrid? (m.coarsest fuel e).2 = some (m.coarsest fuel e).1 ∧
      ∀ e', (m.coarsest fuel e).2 < e' → e' ≤ e → m.onGrid? e' = none := by
  induction fuel generalizing e with
  | zero => obtain ⟨k, lt, -⟩ := h; cases lt
  | succ fuel ih =>
    rw [coarsest]
    cases point : m.onGrid? e with
    | some n => exact ⟨point, fun e' lt le => absurd le lt.not_ge⟩
    | none =>
      obtain ⟨k, lt, found⟩ := h
      have later : ∃ k < fuel, m.onGrid? (e - 1 - k) ≠ none := by
        cases k with
        | zero => exact absurd point (by simpa using found)
        | succ k =>
          have next : e - 1 - (k : ℤ) = e - (k + 1 : Nat) := by push_cast; ring
          exact ⟨k, Nat.lt_of_succ_lt_succ lt, next ▸ found⟩
      obtain ⟨here, before⟩ := ih later
      refine ⟨here, fun e' lt le => ?_⟩
      rcases le.eq_or_lt with rfl | lt'
      · exact point
      · exact before e' lt (Int.le_sub_one_of_lt lt')

theorem shortest_found : m.onGrid? m.shortest.2 = some m.shortest.1 ∧
    ∀ e, m.shortest.2 < e → e ≤ topGrid → m.onGrid? e = none := by
  refine coarsest_found ⟨(topGrid - m.ownGrid).toNat, Nat.lt_succ_self _, ?_⟩
  have own : topGrid - ((topGrid - m.ownGrid).toNat : ℤ) = m.ownGrid := by
    rw [ownGrid, topGrid]
    omega
  rw [own]
  exact onGrid?_own

theorem shortest_within : m.Within m.shortest.2 m.shortest.1 := onGrid?_within shortest_found.1

/-! ## Points that round to the magnitude -/

theorem pitch_div_quarter : (m.pitch e : ℚ) / (4 * m.quarter e) = 10 ^ e / 2 ^ m.exponent := by
  rw [zpow_eq_div (by norm_num : (10 : ℚ) ≠ 0), zpow_eq_div two_ne_zero, div_div_div_eq, quarter,
    pitch, Nat.cast_mul, Nat.cast_mul, Nat.cast_mul, cast_pow2, cast_pow10, cast_pow2, cast_pow10,
    Nat.cast_ofNat, mul_assoc, mul_div_mul_left _ _ four_ne_zero, mul_comm (10 ^ e.toNat),
    mul_comm (10 ^ (-e).toNat)]

/-- Points are counted in quarters of the last place. -/
theorem cast_mul_pitch (n : Nat) :
    ((n * m.pitch e : Nat) : ℚ) * 2 ^ m.exponent = 4 * (n * 10 ^ e) * m.quarter e := by
  have pos : (0 : ℚ) < m.quarter e := by exact_mod_cast m.quarter_pos
  have place : (0 : ℚ) < 2 ^ m.exponent := by positivity
  have pitch := pitch_div_quarter (m := m) (e := e)
  rw [div_eq_div_iff (by positivity) (by positivity)] at pitch
  rw [Nat.cast_mul, mul_assoc, pitch]
  ring

/-- Counted in units of the last place of `m`, `x` lies among the values that round to `m`. -/
structure Around (m : Magnitude) (x : ℚ) : Prop where
  lower : m.significand - m.slack / 4 ≤ x
  upper : x ≤ m.significand + 1 / 2
  strict : m.significand % 2 = 1 →
    m.significand - m.slack / 4 < x ∧ x < m.significand + (1 : ℚ) / 2

theorem within_iff_around {x : ℚ} (point : (n : ℚ) * 10 ^ e = x * 2 ^ m.exponent) :
    m.Within e n ↔ m.Around x := by
  obtain ⟨unit, hunit⟩ : ∃ unit : ℚ, unit = m.quarter e := ⟨_, rfl⟩
  have pos : 0 < unit := by rw [hunit]; exact_mod_cast m.quarter_pos
  have count : ((n * m.pitch e : Nat) : ℚ) = 4 * x * unit := by
    have place : (2 : ℚ) ^ m.exponent ≠ 0 := by positivity
    refine mul_right_cancel₀ place ?_
    rw [cast_mul_pitch, point, ← hunit]
    ring
  have scaled : (m.scaled e : ℚ) = 4 * m.significand * unit := by
    rw [Magnitude.scaled, hunit]
    push_cast
    ring
  have below : ((n * m.pitch e + m.slack * m.quarter e : Nat) : ℚ) = (4 * x + m.slack) * unit := by
    rw [Nat.cast_add, count, Nat.cast_mul, hunit]
    ring
  have above : ((m.scaled e + 2 * m.quarter e : Nat) : ℚ) = (4 * m.significand + 2) * unit := by
    rw [Nat.cast_add, scaled, Nat.cast_mul, hunit]
    push_cast
    ring
  have lower : m.scaled e ≤ n * m.pitch e + m.slack * m.quarter e ↔
      m.significand - m.slack / 4 ≤ x := by
    rw [← @Nat.cast_le ℚ, scaled, below, mul_le_mul_iff_left₀ pos]
    constructor <;> intro <;> linarith
  have upper : n * m.pitch e ≤ m.scaled e + 2 * m.quarter e ↔ x ≤ m.significand + 1 / 2 := by
    rw [← @Nat.cast_le ℚ, above, count, mul_le_mul_iff_left₀ pos]
    constructor <;> intro <;> linarith
  have lower' : m.scaled e < n * m.pitch e + m.slack * m.quarter e ↔
      m.significand - m.slack / 4 < x := by
    rw [← @Nat.cast_lt ℚ, scaled, below, mul_lt_mul_iff_left₀ pos]
    constructor <;> intro <;> linarith
  have upper' : n * m.pitch e < m.scaled e + 2 * m.quarter e ↔ x < m.significand + 1 / 2 := by
    rw [← @Nat.cast_lt ℚ, above, count, mul_lt_mul_iff_left₀ pos]
    constructor <;> intro <;> linarith
  exact ⟨fun h => ⟨lower.mp h.lower, upper.mp h.upper,
      fun odd => (h.strict odd).imp lower'.mp upper'.mp⟩,
    fun h => ⟨lower.mpr h.lower, upper.mpr h.upper,
      fun odd => (h.strict odd).imp lower'.mpr upper'.mpr⟩⟩

end Magnitude

section

variable {k s : Nat}

theorem slack_of_narrow (later : k ≠ 0) : Magnitude.slack ⟨2 ^ 52, k + minExponent⟩ = 1 := by
  have above : minExponent < k + minExponent := by omega
  simp [Magnitude.slack, Magnitude.narrowBelow, above]

theorem slack_of_wide (wide : ¬(k ≠ 0 ∧ s = 2 ^ 52)) :
    Magnitude.slack ⟨s, k + minExponent⟩ = 2 := by
  have other : Magnitude.narrowBelow ⟨s, k + minExponent⟩ = false := by
    rw [Magnitude.narrowBelow, Bool.and_eq_false_iff, beq_eq_false_iff_ne, decide_eq_false_iff_not]
    dsimp only
    have width : pow2 52 = 2 ^ 52 := rfl
    omega
  rw [Magnitude.slack, other, if_neg Bool.false_ne_true]

/-- The slack is half of the way down to the next value. -/
theorem valueOf_pred_slack {p : Nat} (h : Canonical k s) (hp : p + 1 = k * 2 ^ 52 + s) :
    valueOf p = (s - (Magnitude.slack ⟨s, k + minExponent⟩ : ℚ) / 2) * 2 ^ (k + minExponent) := by
  rcases valueOf_pred hp h.below.le h.normal with ⟨wide, value⟩ | ⟨⟨later, rfl⟩, value⟩
  · rw [value, slack_of_wide wide]
    norm_num
  · rw [value, slack_of_narrow later]
    norm_num

variable {x : ℚ} (h : Canonical k s)
include h

theorem nearest_of_around (around : Magnitude.Around ⟨s, k + minExponent⟩ x) :
    Nearest (x * 2 ^ (k + minExponent)) (k * 2 ^ 52 + s) := by
  obtain ⟨lower, upper, strict⟩ := around
  have le : ((Magnitude.slack ⟨s, k + minExponent⟩ : Nat) : ℚ) ≤ 2 := by
    exact_mod_cast Magnitude.slack_le
  refine nearest_of_scaled h.below.le h.normal (by linarith) ?_ upper fun hs => ?_
  · rintro ⟨later, rfl⟩
    rw [slack_of_narrow later] at lower
    push_cast at lower ⊢
    linarith
  · obtain ⟨lower, upper⟩ := strict hs
    exact ⟨by linarith, upper⟩

theorem around_of_nearest (nonneg : 0 ≤ x)
    (near : Nearest (x * 2 ^ (k + minExponent)) (k * 2 ^ 52 + s)) :
    Magnitude.Around ⟨s, k + minExponent⟩ x := by
  have here := valueOf_step h.below.le h.normal
  have after := valueOf_succ h
  obtain ⟨slack, hslack⟩ : ∃ slack : ℚ,
    slack = (Magnitude.slack ⟨s, k + minExponent⟩ : Nat) := ⟨_, rfl⟩
  have before {p : Nat} (hp : p + 1 = k * 2 ^ 52 + s) := valueOf_pred_slack h hp
  obtain ⟨place, hplace⟩ : ∃ place : ℚ, place = 2 ^ (k + minExponent) := ⟨_, rfl⟩
  have pos : 0 < place := hplace ▸ by positivity
  rw [← hplace] at here after before near
  rw [← hslack] at before
  have upper := near.below (Nat.lt_add_one _)
  rw [here, after] at upper
  have upper_of_odd (odd : s % 2 = 1) := near.below_of_odd (by omega) (Nat.lt_add_one _)
  rw [here, after] at upper_of_odd
  have upper : x ≤ s + 1 / 2 := le_of_mul_le_mul_right (by linarith) pos
  rcases Nat.eq_zero_or_pos s with rfl | some
  · have nonneg' : 0 ≤ slack := hslack ▸ Nat.cast_nonneg _
    refine ⟨?_, upper, fun odd => absurd (show 0 % 2 = 1 from odd) (by decide)⟩
    rw [← hslack, Nat.cast_zero]
    linarith
  · obtain ⟨p, hp⟩ : ∃ p, p + 1 = k * 2 ^ 52 + s := ⟨k * 2 ^ 52 + s - 1, by omega⟩
    have lower := near.above (hp ▸ Nat.lt_add_one p)
    rw [here, before hp] at lower
    refine ⟨?_, upper, fun odd => ⟨?_, ?_⟩⟩
    · rw [← hslack]
      exact le_of_mul_le_mul_right (by linarith) pos
    · have odd : s % 2 = 1 := odd
      have lower := near.above_of_odd (by omega) (hp ▸ Nat.lt_add_one p)
      rw [here, before hp] at lower
      rw [← hslack]
      exact lt_of_mul_lt_mul_right (by linarith) pos.le
    · exact lt_of_mul_lt_mul_right (by linarith [upper_of_odd odd]) pos.le

end

/-- A point of a grid is among the values that round to a magnitude if it rounds to it. -/
theorem within_iff_nearest {k s n : Nat} {e : ℤ} (h : Canonical k s) :
    Magnitude.Within ⟨s, k + minExponent⟩ e n ↔ Nearest (n * 10 ^ e) (k * 2 ^ 52 + s) := by
  obtain ⟨x, hx⟩ : ∃ x : ℚ, x = n * 10 ^ e / 2 ^ (k + minExponent) := ⟨_, rfl⟩
  have point : (n : ℚ) * 10 ^ e = x * 2 ^ (k + minExponent) := by
    rw [hx, div_mul_cancel₀ _ (by positivity)]
  rw [Magnitude.within_iff_around point, point]
  exact ⟨nearest_of_around h, around_of_nearest h (hx ▸ by positivity)⟩

end Scriptlet.Number
