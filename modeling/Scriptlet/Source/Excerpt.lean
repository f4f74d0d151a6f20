/-!
An excerpt of a text around an offset: the part of the line within 40 code points on both sides, and
below it a caret under the offset.
-/

namespace Scriptlet.Source

/-- Code points shown on each side. -/
def excerptSpan : Nat := 40

/-- Columns from one tab stop to the next. -/
def tabStop : Nat := 8

/-- The width of a text with its tabs filled up; `column` is that of the first character. -/
def width (column : Nat) : List Char → Nat
  | [] => 0
  | '\t' :: cs =>
    let fill := tabStop - column % tabStop
    fill + width (column + fill) cs
  | c :: cs => 1 + width (if c = '\r' then 0 else column + 1) cs

def excerpt (cs : List Char) (offset : Nat) : String :=
  let left := (cs.take offset).drop (offset - excerptSpan)
  let before := (left.reverse.takeWhile (· ≠ '\n')).reverse
  let after := ((cs.drop offset).take excerptSpan).takeWhile (· ≠ '\n')
  .ofList (before ++ after ++ '\n' :: List.replicate (width 0 before) ' ' ++ ['^', '\n'])

end Scriptlet.Source
