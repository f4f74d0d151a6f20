import Scriptlet.Text.Printable
/-!
Quoted text, as it stands in messages: between apostrophes, or between double quotes if the text
has an apostrophe and no double quote. What is not printable is written by its code point.
-/

namespace Scriptlet.Text

/-- The code point in hexadecimal, padded with zeros to `width` digits. -/
def hexadecimal (width n : Nat) : List Char :=
  let digits := Nat.toDigits 16 n
  List.replicate (width - digits.length) '0' ++ digits

def escapeCode (n : Nat) : List Char :=
  if n < 0x100 then '\\' :: 'x' :: hexadecimal 2 n
  else if n < 0x10000 then '\\' :: 'u' :: hexadecimal 4 n
  else '\\' :: 'U' :: hexadecimal 8 n

def escapeChar (mark c : Char) : List Char :=
  if c = mark || c = '\\' then ['\\', c]
  else if c = '\n' then ['\\', 'n']
  else if c = '\r' then ['\\', 'r']
  else if c = '\t' then ['\\', 't']
  else if isPrintable c then [c]
  else escapeCode c.toNat

/-- The mark to quote a text with. -/
def quoteMark (cs : List Char) : Char :=
  if '\'' ∈ cs ∧ '"' ∉ cs then '"' else '\''

def quoteChars (cs : List Char) : List Char :=
  quoteMark cs :: cs.flatMap (escapeChar (quoteMark cs)) ++ [quoteMark cs]

def quote (s : String) : String := .ofList (quoteChars s.toList)

end Scriptlet.Text
