import Scriptlet.Number.Numeral
/-!
Lexemes: words, numerals and marks. Words are ASCII; whether one is a keyword is settled by the
reader, since most positions take any word as a name. `Lexeme.first?` cuts the longest lexeme off
the front of a text.
-/

namespace Scriptlet.Source

open Number

/-- Operators and punctuation. -/
inductive Mark
  | equal | notEqual | atMost | atLeast | below | above
  | increment | decrement | plus | minus | star | slash
  | both | either | becomes | semicolon | comma | dot
  | openParen | closeParen | openBrace | closeBrace
deriving DecidableEq, Repr

namespace Mark

def spelling : Mark → List Char
  | equal => ['=', '=']
  | notEqual => ['!', '=']
  | atMost => ['<', '=']
  | atLeast => ['>', '=']
  | below => ['<']
  | above => ['>']
  | increment => ['+', '+']
  | decrement => ['-', '-']
  | plus => ['+']
  | minus => ['-']
  | star => ['*']
  | slash => ['/']
  | both => ['&', '&']
  | either => ['|', '|']
  | becomes => ['=']
  | semicolon => [';']
  | comma => [',']
  | dot => ['.']
  | openParen => ['(']
  | closeParen => [')']
  | openBrace => ['\x7b']
  | closeBrace => ['\x7d']

/-- All marks, each before those that its spelling begins with. -/
def all : List Mark :=
  [equal, notEqual, atMost, atLeast, increment, decrement, both, either, below, above, plus, minus,
   star, slash, becomes, semicolon, comma, dot, openParen, closeParen, openBrace, closeBrace]

def first? (cs : List Char) : Option Mark := all.find? fun m => m.spelling.isPrefixOf cs

theorem spelling_ne_nil (m : Mark) : m.spelling ≠ [] := by cases m <;> simp [spelling]

end Mark

inductive Keyword
  | varWord | ifWord | elseWord | whileWord | returnWord | functionWord | newWord
  | trueWord | falseWord | nullWord | undefinedWord
deriving DecidableEq, Repr

namespace Keyword

def text : Keyword → String
  | varWord => "var"
  | ifWord => "if"
  | elseWord => "else"
  | whileWord => "while"
  | returnWord => "return"
  | functionWord => "function"
  | newWord => "new"
  | trueWord => "true"
  | falseWord => "false"
  | nullWord => "null"
  | undefinedWord => "undefined"

def all : List Keyword :=
  [varWord, ifWord, elseWord, whileWord, returnWord, functionWord, newWord, trueWord, falseWord,
   nullWord, undefinedWord]

/-- The keyword that a whole word spells. -/
def ofText? (s : String) : Option Keyword := all.find? fun k => k.text = s

end Keyword

inductive Lexeme
  | word (text : String)
  | numeral (text : String)
  | mark (m : Mark)
deriving DecidableEq, Repr

def isWordStart (c : Char) : Bool := c.isAlpha || c == '_' || c == '$'

def isWordPart (c : Char) : Bool := c.isAlphanum || c == '_' || c == '$'

namespace Lexeme

def chars : Lexeme → List Char
  | word s => s.toList
  | numeral s => s.toList
  | mark m => m.spelling

def text (l : Lexeme) : String := .ofList l.chars

def word? : Lexeme → Option String
  | word s => some s
  | _ => none

/-- A numeral whose point comes first. -/
def startsWithPoint : Lexeme → Bool
  | numeral s => s.toList.head? == some '.'
  | _ => false

/-- A word that goes on after the letters of `if`. -/
def startsWithIf : Lexeme → Bool
  | word s => Keyword.ifWord.text.toList.isPrefixOf s.toList
  | _ => false

/-- The longest lexeme that `cs` begins with. -/
def first? : List Char → Option Lexeme
  | [] => none
  | c :: cs =>
    if isWordStart c then some (word (.ofList (c :: cs.takeWhile isWordPart)))
    else match numeralLength (c :: cs) with
      | 0 => (Mark.first? (c :: cs)).map mark
      | n + 1 => some (numeral (.ofList ((c :: cs).take (n + 1))))

theorem chars_ne_nil {cs : List Char} {l : Lexeme} (h : first? cs = some l) : l.chars ≠ [] := by
  cases cs with
  | nil => simp [first?] at h
  | cons c cs =>
    simp only [first?] at h
    split at h
    · obtain rfl := Option.some.inj h
      simp [chars]
    · split at h
      · obtain ⟨m, -, rfl⟩ := Option.map_eq_some_iff.1 h
        exact m.spelling_ne_nil
      · obtain rfl := Option.some.inj h
        simp [chars]

end Lexeme

end Scriptlet.Source
