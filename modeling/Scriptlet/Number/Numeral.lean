import Scriptlet.Text.Digit
import Scriptlet.Number.Binary
/-!
Decimal numerals: digits with at most one point among or around them, then at most one exponent.
The digits may be of any script. A numeral is read as the exact value `digits * 10 ^ exponent` and
rounded once.
-/

namespace Scriptlet.Number

open Text

/-- The exponent that `cs` begins with: `e` or `E`, at most one sign, and digits. -/
def exponentLength : List Char → Nat
  | mark :: cs =>
    if mark = 'e' ∨ mark = 'E' then
      let sign := match cs with
        | '+' :: _ => 1
        | '-' :: _ => 1
        | _ => 0
      match ((cs.drop sign).takeWhile isDigit).length with
      | 0 => 0
      | n + 1 => 1 + sign + (n + 1)
    else 0
  | [] => 0

/-- The digits and the point that `cs` begins with; a point alone is none. -/
def mantissaLength (cs : List Char) : Nat :=
  let whole := (cs.takeWhile isDigit).length
  match cs.drop whole with
  | '.' :: rest =>
    let fraction := (rest.takeWhile isDigit).length
    if whole = 0 ∧ fraction = 0 then 0 else whole + 1 + fraction
  | _ => whole

/-- The length of the longest numeral that `cs` begins with, zero if there is none. -/
def numeralLength (cs : List Char) : Nat :=
  match mantissaLength cs with
  | 0 => 0
  | n + 1 => n + 1 + exponentLength (cs.drop (n + 1))

/-- The exact value `digits * 10 ^ exponent`. -/
structure Numeral where
  digits : Nat
  exponent : Int
deriving DecidableEq, Repr

namespace Numeral

def readExponent : List Char → Int
  | _ :: '-' :: cs => -(digitsValue cs : Int)
  | _ :: '+' :: cs => digitsValue cs
  | _ :: cs => digitsValue cs
  | [] => 0

/-- What a numeral spells. -/
def read (cs : List Char) : Numeral :=
  let n := mantissaLength cs
  let mantissa := cs.take n
  let fraction := (mantissa.dropWhile isDigit).drop 1
  ⟨digitsValue (mantissa.takeWhile isDigit ++ fraction), readExponent (cs.drop n) - fraction.length⟩

/-- The pattern of the magnitude nearest to a numeral. A numeral that is plainly beyond the finite
magnitudes, or plainly below half of the least one, is not multiplied out. -/
def toBits (n : Numeral) : Nat :=
  if n.digits = 0 then 0
  else if 400 < n.exponent then infinityBits
  else if n.digits.log2 + 1080 < 3 * (-n.exponent).toNat then 0
  else nearestBits (n.digits * pow10 n.exponent.toNat) (pow10 (-n.exponent).toNat)

end Numeral

example : Numeral.read ['1', '.', '5', '0', 'e', '-', '3'] = ⟨150, -5⟩ := by decide

end Scriptlet.Number
