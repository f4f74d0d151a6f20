/-!
Blank characters and trimming. The blanks are the white space of Unicode together with the four
information separators U+001C to U+001F; U+200B and U+FEFF are not blank.
-/

namespace Scriptlet.Text

/-- First and last code point of each run of blanks. -/
def blankRanges : List (Nat × Nat) :=
  [(0x09, 0x0d), (0x1c, 0x20), (0x85, 0x85), (0xa0, 0xa0), (0x1680, 0x1680), (0x2000, 0x200a),
   (0x2028, 0x2029), (0x202f, 0x202f), (0x205f, 0x205f), (0x3000, 0x3000)]

def isBlank (c : Char) : Bool :=
  blankRanges.any fun (first, last) => first ≤ c.toNat && c.toNat ≤ last

def trimStart (cs : List Char) : List Char := cs.dropWhile isBlank

/-- Drops what `p` holds of at both ends. -/
def dropAround (p : Char → Bool) (cs : List Char) : List Char :=
  ((cs.dropWhile p).reverse.dropWhile p).reverse

/-- Drops the blanks at both ends. -/
def trim (cs : List Char) : List Char := dropAround isBlank cs

def strip (s : String) : String := .ofList (trim s.toList)

/-- The first word of a text and what follows the blanks after it. -/
def cutWord (s : String) : String × String :=
  let cs := trimStart s.toList
  (.ofList (cs.takeWhile (!isBlank ·)), .ofList (trimStart (cs.dropWhile (!isBlank ·))))

example : blankRanges.foldl (fun n (first, last) => n + (last + 1 - first)) 0 = 29 := by decide

end Scriptlet.Text
