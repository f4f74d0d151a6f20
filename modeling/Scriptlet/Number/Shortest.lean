import Scriptlet.Number.Binary
/-!
The fewest decimal digits that read back. `shortest` goes through the decimal grids from coarse to
fine and stops at the first that has a point among the values that round to the number. On a grid
only the two neighbours of the number can be such points; of two the nearer is taken, and of two
equally near the even one.
-/

namespace Scriptlet.Number

/-- The distance from a magnitude to its lower neighbour is half of that to the upper one. -/
def Magnitude.narrowBelow (m : Magnitude) : Bool :=
  m.significand == pow2 52 && minExponent < m.exponent

/-- The multiple of `10 ^ e`, given by its factor, that is nearest to `m` among those that round
to `m`. All is counted in units of `unit`, a quarter of the last place of `m`, which makes both
ends of the rounding interval whole. -/
def Magnitude.onGrid? (m : Magnitude) (e : Int) : Option Nat :=
  let unit := pow2 m.exponent.toNat * pow10 (-e).toNat
  let pitch := 4 * pow2 (-m.exponent).toNat * pow10 e.toNat
  let value := 4 * m.significand * unit
  let low := value - (if m.narrowBelow then 1 else 2) * unit
  let high := value + 2 * unit
  let inside (n : Nat) : Bool :=
    if m.significand % 2 = 0 then low ≤ n && n ≤ high else low < n && n < high
  let below := value / pitch
  let twice := 2 * (value % pitch)
  match inside (below * pitch), inside ((below + 1) * pitch) with
  | true, true =>
    some (if twice < pitch ∨ (twice = pitch ∧ below % 2 = 0) then below else below + 1)
  | true, false => some below
  | false, true => some (below + 1)
  | false, false => none

/-- The first of the grids `10 ^ e`, `10 ^ (e - 1)`, … with a point that rounds to `m`: the factor
and the exponent of that point. -/
def Magnitude.coarsest (m : Magnitude) : Nat → Int → Nat × Int
  | 0, e => (0, e)
  | fuel + 1, e =>
    match m.onGrid? e with
    | some digits => (digits, e)
    | none => m.coarsest fuel (e - 1)

/-- Every finite magnitude is below `10 ^ 309`. -/
def topGrid : Int := 309

/-- The digits of the shortest numeral that rounds to `m`, and the exponent of the last one. The
grid `10 ^ e` with `e` the exponent of `m`, or zero if that is positive, has `m` itself on it. -/
def Magnitude.shortest (m : Magnitude) : Nat × Int :=
  m.coarsest ((topGrid - min m.exponent 0).toNat + 1) topGrid

end Scriptlet.Number
