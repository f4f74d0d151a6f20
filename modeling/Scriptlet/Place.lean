/-!
Places in a text. Lines and columns count from one, a column counts code points, and only a line
feed starts a new line.
-/

namespace Scriptlet

structure Place where
  line : Nat
  column : Nat
deriving DecidableEq, Repr

namespace Place

def first : Place := ⟨1, 1⟩

/-- The place after a character that stands at `p`. -/
def after (p : Place) (c : Char) : Place :=
  if c = '\n' then ⟨p.line + 1, 1⟩ else ⟨p.line, p.column + 1⟩

def afterAll (p : Place) (cs : List Char) : Place := cs.foldl after p

/-- The place `n` columns further on the same line. -/
def right (p : Place) (n : Nat) : Place := ⟨p.line, p.column + n⟩

end Place

end Scriptlet
