import Scriptlet.Number.Numeral
import Scriptlet.Text.Blank
/-!
The spellings of numbers. A number token of a tree may spell more than the numerals of a source
text: blanks may stand around it and one sign in front of it, single underscores may stand between
two digits, and infinity has names. Every other text stands for no number.
-/

namespace Scriptlet.Number

open Text

/-- The blanks that may stand around a number: all but the information separators. -/
def isPadding (c : Char) : Bool := isBlank c && !(0x1c ≤ c.toNat && c.toNat ≤ 0x1f)

/-- Drops the underscores if all of them stand between two digits; `digit` says that a digit came
last. -/
def dropUnderscores? (digit : Bool) : List Char → Option (List Char)
  | [] => some []
  | c :: cs =>
    if c = '_' then
      if digit && cs.head?.any isDigit then dropUnderscores? false cs else none
    else (dropUnderscores? (isDigit c) cs).map (c :: ·)

def infinityNames : List String := ["inf", "infinity"]

/-- The pattern of the magnitude that a text without a sign spells. -/
def spelledBits? (cs : List Char) : Option Nat :=
  if infinityNames.contains (.ofList (cs.map Char.toLower)) then some infinityBits
  else match dropUnderscores? false cs with
    | some cs =>
      if cs ≠ [] ∧ numeralLength cs = cs.length then some (Numeral.read cs).toBits else none
    | none => none

/-- The sign in front of a text, negative or not, and the text behind it. -/
def cutSign : List Char → Bool × List Char
  | '-' :: cs => (true, cs)
  | '+' :: cs => (false, cs)
  | cs => (false, cs)

/-- The number that a text spells. -/
def ofText (cs : List Char) : Float :=
  let (negative, size) := cutSign (dropAround isPadding cs)
  match spelledBits? size with
  | some bits => if negative then -ofMagnitudeBits bits else ofMagnitudeBits bits
  | none => 0 / 0

example : dropUnderscores? false ['1', '_', '0', 'e', '1'] = some ['1', '0', 'e', '1'] := by decide

example : dropUnderscores? false ['1', '_', '_', '0'] = none := by decide

end Scriptlet.Number
