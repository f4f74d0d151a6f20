import Scriptlet.Source.Excerpt
import Scriptlet.Source.Lower
import Scriptlet.Source.Reader
import Scriptlet.Source.Token
import Scriptlet.Text.Quoted
/-!
From a text to its program. What fails is the first token that is refused, the first character that
begins no token, or the end; the end fails at the place of the last token.
-/

namespace Scriptlet.Source

inductive ParseCause
  | token (text : String)
  | character (c : Char)
  | ending
deriving DecidableEq, Repr

structure ParseError where
  cause : ParseCause
  place : Place
  excerpt : String
deriving DecidableEq, Repr

namespace ParseCause

def message : ParseCause → String
  | token text => "Unexpected token " ++ Text.quote text
  | character c => "Unexpected character " ++ Text.quote (.singleton c)
  | ending => "Unexpected end of input"

end ParseCause

def ParseError.message (e : ParseError) : String :=
  e.cause.message ++ " at line " ++ toString e.place.line ++ ", col " ++ toString e.place.column

/-- The state after all tokens, or the first token refused and how much of it is still taken. -/
def State.run (st : State) : List Token → Except (Token × Nat) State
  | [] => .ok st
  | t :: ts =>
    match st.step t.lexeme t.place with
    | some next => next.run ts
    | none => .error (t, st.taken t.lexeme)

/-- The error at a place that is `offset` code points into the text. -/
def errorAt (cs : List Char) (cause : ParseCause) (place : Place) (offset : Nat) : ParseError :=
  ⟨cause, place, excerpt cs offset⟩

/-- The error for a refused token of which the first `taken` characters are no part. -/
def refusal (cs : List Char) (t : Token) (taken : Nat) : ParseError :=
  let wrong := (Lexeme.first? (cs.drop (t.offset + taken))).getD t.lexeme
  errorAt cs (.token wrong.text) (t.place.right taken) (t.offset + taken)

def readProgram (cs : List Char) : Except ParseError Program :=
  let (tokens, ending) := scan cs
  match State.start.run tokens with
  | .error (t, taken) => .error (refusal cs t taken)
  | .ok st =>
    match ending, st.program? with
    | .stuck c place offset, _ => .error (errorAt cs (.character c) place offset)
    | .finished, some p => .ok p
    | .finished, none =>
      .error <| match tokens.getLast? with
        | some t => errorAt cs .ending t.place t.offset
        | none => errorAt cs .ending .first 0

/-- The statement tree of a text. -/
def parse (src : String) : Except ParseError Tree := (readProgram src.toList).map Program.tree

end Scriptlet.Source
