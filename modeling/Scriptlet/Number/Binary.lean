/-!
Binary64 numbers as exact quotients. A finite magnitude is `significand * 2 ^ exponent`. Rounding
goes to the nearest of these values, a half to the even significand; `nearestBits` is the bit
pattern of the result, where the patterns of the magnitudes are in the order of their values.
-/

namespace Scriptlet.Number

abbrev pow2 (n : Nat) : Nat := Nat.pow 2 n

abbrev pow10 (n : Nat) : Nat := Nat.pow 10 n

/-- The value `significand * 2 ^ exponent`. -/
structure Magnitude where
  significand : Nat
  exponent : Int
deriving DecidableEq, Repr

/-- The least exponent, that of the subnormal magnitudes. -/
def minExponent : Int := -1074

/-- The pattern of infinity, above those of all finite magnitudes. -/
def infinityBits : Nat := 0x7ff * pow2 52

/-- The finite magnitude with a pattern below `infinityBits`. -/
def Magnitude.ofBits (bits : Nat) : Magnitude :=
  if bits < pow2 52 then ⟨bits, minExponent⟩
  else ⟨pow2 52 + bits % pow2 52, (bits / pow2 52 : Nat) - 1 + minExponent⟩

/-- The pattern without its sign. -/
def magnitudeBits (x : Float) : Nat := x.toBits.toNat % pow2 63

def isNegative (x : Float) : Bool := pow2 63 ≤ x.toBits.toNat

def magnitude (x : Float) : Magnitude := .ofBits (magnitudeBits x)

/-- The quotient rounded to a whole number, a half to the even one. -/
def divideEven (num den : Nat) : Nat :=
  let whole := num / den
  let twice := 2 * (num % den)
  if twice < den ∨ (twice = den ∧ whole % 2 = 0) then whole else whole + 1

/-- The exponent `e` with `2 ^ e ≤ num / den < 2 ^ (e + 1)`. -/
def binaryExponent (num den : Nat) : Int :=
  let top : Int := (num.log2 : Int) - den.log2
  if den * pow2 top.toNat ≤ num * pow2 (-top).toNat then top else top - 1

/-- The exponent of the last place to which `num / den` is rounded. -/
def lastPlace (num den : Nat) : Int := max (binaryExponent num den - 52) minExponent

/-- The pattern of the magnitude nearest to `num / den`. A significand that rounds up to `2 ^ 53`
carries into the exponent, and what rounds beyond the finite magnitudes is infinity. -/
def nearestBits (num den : Nat) : Nat :=
  if num = 0 then 0
  else
    let e := lastPlace num den
    let significand := divideEven (num * pow2 (-e).toNat) (den * pow2 e.toNat)
    min ((e - minExponent).toNat * pow2 52 + significand) infinityBits

/-- The nonnegative number with a given pattern. -/
def ofMagnitudeBits (bits : Nat) : Float := .ofBits (.ofNat bits)

example : nearestBits 1 1 = 0x3ff0000000000000 := by decide

example : nearestBits 1 10 = 0x3fb999999999999a := by decide

example : nearestBits 1 (pow2 1075) = 0 ∧ nearestBits 3 (pow2 1075) = 2 := by decide +kernel

end Scriptlet.Number
