/-!
Cutting a text into lines: first the three spellings of a line feed become one, then the text is
cut at every line boundary. A boundary ends a line, so a final one adds no empty line.
-/

namespace Scriptlet.Text

/-- A carriage return, with the line feed after it if there is one, becomes a line feed. -/
def unifyFeeds : List Char → List Char
  | '\r' :: '\n' :: rest => '\n' :: unifyFeeds rest
  | c :: rest => (if c = '\r' then '\n' else c) :: unifyFeeds rest
  | [] => []

def isBoundary (c : Char) : Bool :=
  (0x0a ≤ c.toNat && c.toNat ≤ 0x0d) || (0x1c ≤ c.toNat && c.toNat ≤ 0x1e) || c.toNat == 0x85 ||
    c.toNat == 0x2028 || c.toNat == 0x2029

/-- Puts one more character before a text that is already cut into lines. -/
def consLine (c : Char) (lines : List (List Char)) : List (List Char) :=
  if isBoundary c then [] :: lines
  else match lines with
    | [] => [[c]]
    | line :: rest => (c :: line) :: rest

def cutLines (cs : List Char) : List (List Char) := cs.foldr consLine []

/-- The lines of a file's text. -/
def lines (s : String) : List String := (cutLines (unifyFeeds s.toList)).map .ofList

example : cutLines ['a', '\n', '\n', 'b', '\n'] = [['a'], [], ['b']] := by decide

end Scriptlet.Text
