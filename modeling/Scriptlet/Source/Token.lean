import Scriptlet.Place
import Scriptlet.Source.Lexeme
/-!
The tokens of a text: its lexemes, each with the place where it stands. Between them lie gaps of
spaces, tabs, feeds and comments, which run from two slashes to the end of the line. Scanning ends
with the text or at a character that begins no lexeme.
-/

namespace Scriptlet.Source

structure Token where
  lexeme : Lexeme
  place : Place
  /-- Code points before the token. -/
  offset : Nat
deriving DecidableEq, Repr

/-- A position in a text and what is left from there. -/
structure Cursor where
  place : Place
  offset : Nat
  rest : List Char

namespace Cursor

def start (cs : List Char) : Cursor := ⟨.first, 0, cs⟩

def advance (here : Cursor) (n : Nat) : Cursor :=
  ⟨here.place.afterAll (here.rest.take n), here.offset + n, here.rest.drop n⟩

end Cursor

/-- White space within a program. Other blanks are not. -/
def isGapChar (c : Char) : Bool :=
  c == ' ' || c == '\t' || c == '\x0c' || c == '\r' || c == '\n'

/-- Moves to the next character outside gaps; `comment` says that a comment is open. -/
def skipGap (place : Place) (offset : Nat) (comment : Bool) : List Char → Cursor
  | [] => ⟨place, offset, []⟩
  | c :: cs =>
    if comment then skipGap (place.after c) (offset + 1) (c != '\n') cs
    else if isGapChar c then skipGap (place.after c) (offset + 1) false cs
    else if c = '/' ∧ cs.head? = some '/' then skipGap (place.after c) (offset + 1) true cs
    else ⟨place, offset, c :: cs⟩

theorem length_skipGap_le (place : Place) (offset : Nat) (comment : Bool) (cs : List Char) :
    (skipGap place offset comment cs).rest.length ≤ cs.length := by
  induction cs generalizing place offset comment with
  | nil => simp [skipGap]
  | cons c cs ih =>
    simp only [skipGap]
    split
    · exact Nat.le_succ_of_le (ih ..)
    · split
      · exact Nat.le_succ_of_le (ih ..)
      · split
        · exact Nat.le_succ_of_le (ih ..)
        · simp

def Cursor.pastGap (here : Cursor) : Cursor := skipGap here.place here.offset false here.rest

theorem Cursor.length_advance_pastGap_lt {here : Cursor} {l : Lexeme}
    (h : Lexeme.first? here.pastGap.rest = some l) :
    (here.pastGap.advance l.chars.length).rest.length < here.rest.length := by
  have hle : here.pastGap.rest.length ≤ here.rest.length := length_skipGap_le ..
  have hrest : here.pastGap.rest ≠ [] := by intro hr; simp [hr, Lexeme.first?] at h
  have := List.length_pos_iff.2 hrest
  have := List.length_pos_iff.2 (Lexeme.chars_ne_nil h)
  simp only [advance, List.length_drop]
  omega

/-- How scanning ended: with the text, or before a character that begins no lexeme. -/
inductive Ending
  | finished
  | stuck (c : Char) (place : Place) (offset : Nat)
deriving DecidableEq, Repr

/-- The ending at a cursor before which no gap and after which no lexeme stands. -/
def Cursor.ending (here : Cursor) : Ending :=
  match here.rest with
  | [] => .finished
  | c :: _ => .stuck c here.place here.offset

/-- The tokens after `done`, which holds those already found, the last first. -/
def scanFrom (done : List Token) (here : Cursor) : List Token × Ending :=
  match _h : Lexeme.first? here.pastGap.rest with
  | none => (done.reverse, here.pastGap.ending)
  | some l =>
    scanFrom (⟨l, here.pastGap.place, here.pastGap.offset⟩ :: done)
      (here.pastGap.advance l.chars.length)
termination_by here.rest.length
decreasing_by exact Cursor.length_advance_pastGap_lt _h

def scan (cs : List Char) : List Token × Ending := scanFrom [] (.start cs)

end Scriptlet.Source
