import Scriptlet.Number.Shortest
/-!
How a number is written. An integral number is written in full; any other has the fewest digits
that read back, in positional notation from 0.0001 up and with an exponent of at least two digits
below.
-/

namespace Scriptlet.Number

/-- The whole number that a magnitude is, if it is one. -/
def Magnitude.whole? (m : Magnitude) : Option Nat :=
  let den := pow2 (-m.exponent).toNat
  if m.significand % den = 0 then some (m.significand / den * pow2 m.exponent.toNat) else none

/-- The least decimal exponent that is written positionally. -/
def leastPositional : Int := -4

/-- Digits with the point after the first `point` of them; zeros fill up on the left. -/
def positional (digits : List Char) (point : Int) : List Char :=
  if 0 < point then digits.take point.toNat ++ '.' :: digits.drop point.toNat
  else '0' :: '.' :: List.replicate (-point).toNat '0' ++ digits

/-- One digit before the point and an exponent, which is negative. -/
def scientific (digits : List Char) (exponent : Int) : List Char :=
  let size := Nat.toDigits 10 exponent.natAbs
  let fraction := match digits.drop 1 with
    | [] => []
    | rest => '.' :: rest
  digits.take 1 ++ fraction ++ ['e', '-'] ++ List.replicate (2 - size.length) '0' ++ size

/-- The numeral `digits * 10 ^ exponent` of a number that is not integral. -/
def fractional (digits : Nat) (exponent : Int) : List Char :=
  let ds := Nat.toDigits 10 digits
  let leading := exponent + ds.length - 1
  if leastPositional ≤ leading then positional ds (leading + 1) else scientific ds leading

def Magnitude.display (m : Magnitude) : List Char :=
  match m.whole? with
  | some n => Nat.toDigits 10 n
  | none => fractional m.shortest.1 m.shortest.2

def display (x : Float) : List Char :=
  if x.isNaN then "NaN".toList
  else
    let size := magnitudeBits x
    let sign := if isNegative x && size != 0 then ['-'] else []
    sign ++ (if size = infinityBits then "Infinity".toList else (magnitude x).display)

def toText (x : Float) : String := .ofList (display x)

end Scriptlet.Number
