import Scriptlet.Source.Reader
/-!
# What a token does

In most modes the reader waits for one token that has to stand there, or for a name, and the token
only says that the phrase goes on. Otherwise it begins a statement or an expression, goes on behind
one, or ends it. This is all that a step can do (`State.moves_of_step`), and so all that a property
of the reader has to be shown for.
-/

namespace Scriptlet.Source

/-- The tokens that are waited for: the mode behind each, and the phrases that it opens. -/
inductive Mode.Expects (p : Place) : Mode → Lexeme → Mode → List Frame → Prop
  | assigned {name} : Expects p (.leading name) (.mark .becomes) .operand [.assigned name]
  | declared {start name} :
      Expects p (.declareTail start name) (.mark .becomes) .operand [.declared start name]
  | test {of start} : Expects p (.testOpen of start) (.mark .openParen) .operand [.test of start]
  | body {of} : Expects p (.bodyOpen of) (.mark .openBrace) (.items [] false) [.body of p]
  | elseBody {start test body} : Expects p (.elseOpen start test body) (.mark .openBrace)
      (.items [] false) [.body (.elseBody start test body) p]
  | elseIf {start test body} : Expects p (.elseOpen start test body) (.word Keyword.ifWord.text)
      (.testOpen .ifStmt p) [.elseIf start test body]
  /-- A function literal that stands at the front of a statement. -/
  | literal {start} :
      Expects p (.functionName start) (.mark .openParen) (.paramsFirst (.value start)) [.stated]
  | params {head} : Expects p (.paramsOpen head) (.mark .openParen) (.paramsFirst head) []
  | noParams {head} :
      Expects p (.paramsFirst head) (.mark .closeParen) (.bodyOpen (.function head [])) []
  | nextParam {head before} :
      Expects p (.paramsTail head before) (.mark .comma) (.paramsName head before) []
  | lastParam {head before} : Expects p (.paramsTail head before) (.mark .closeParen)
      (.bodyOpen (.function head before.reverse)) []
  | args {start name} : Expects p (.constructOpen start name) (.mark .openParen) .argsFirst
      [.constructed start name []]

/-- The modes that wait for a name, and the mode behind it. -/
inductive Mode.Names (name : Name) : Mode → Mode → Prop
  | declared {start} : Names name (.declareName start) (.declareTail start name)
  | function {start} : Names name (.functionName start) (.paramsOpen (.named start name))
  | param {head} : Names name (.paramsFirst head) (.paramsTail head [name])
  | nextParam {head before} :
      Names name (.paramsName head before) (.paramsTail head (name :: before))
  | member {object} : Names name (.memberName object) (.operator (.member object name) false)
  | constructed {start} : Names name (.constructName start) (.constructOpen start name)

namespace State

/-- What a token does in each mode, if these phrases are open. -/
inductive Moves (p : Place) (frames : List Frame) : Mode → Lexeme → State → Prop
  | expected {mode l mode' opened} : mode.Expects p l mode' opened →
      Moves p frames mode l ⟨mode', opened ++ frames⟩
  | named {mode s mode'} : mode.Names ⟨s, p⟩ mode' → Moves p frames mode (.word s) ⟨mode', frames⟩
  | items {before braced l next} : beginStmt before braced frames l p = some next →
      Moves p frames (.items before braced) l next
  | ifTail {start test body l next} : continueIf start test body frames l p = some next →
      Moves p frames (.ifTail start test body) l next
  | operand {l next} : beginExpr frames l p = some next → Moves p frames .operand l next
  | returned {start l next} : beginExpr (.returned start :: frames) l p = some next →
      Moves p frames (.returnTail start) l next
  | argument {l next} : beginExpr frames l p = some next → Moves p frames .argsFirst l next
  | leading {name l next} :
      continueExpr (.atom .identifier name) (.stated :: frames) l p = some next →
      Moves p frames (.leading name) l next
  | operator {e braced l next} : continueExpr e frames l p = some next →
      Moves p frames (.operator e braced) l next
  | declareBare {start name next} : endStmt (.declareBare start name) false frames = some next →
      Moves p frames (.declareTail start name) (.mark .semicolon) next
  | returnBare {start next} : endStmt (.returnBare start) false frames = some next →
      Moves p frames (.returnTail start) (.mark .semicolon) next
  | noArgs {next} : endNoArgs frames = some next →
      Moves p frames .argsFirst (.mark .closeParen) next

section

variable {p : Place} {frames : List Frame} {mode mode' : Mode} {l token : Lexeme} {next : State}

/-- A token that is taken only if it is the one that is waited for. -/
theorem moves_expected {opened : List Frame} (e : mode.Expects p token mode' opened)
    (h : (if l = token then some (⟨mode', opened ++ frames⟩ : State) else none) = some next) :
    Moves p frames mode l next := by
  obtain ⟨rfl, same⟩ := Option.ite_none_right_eq_some.mp h
  cases same
  exact .expected e

/-- A word that is taken as a name. -/
theorem moves_named (after : Name → Mode) (n : ∀ name : Name, mode.Names name (after name))
    (h : l.word?.map (fun s => (⟨after ⟨s, p⟩, frames⟩ : State)) = some next) :
    Moves p frames mode l next := by
  obtain ⟨s, word, rfl⟩ := Option.map_eq_some_iff.mp h
  cases l with
  | word =>
    cases word
    exact .named (n _)
  | _ => cases word

/-- A token that is waited for, or else something other than a token does. -/
theorem moves_or {opened : List Frame} {rest : Option State}
    (e : mode.Expects p token mode' opened)
    (h : (if l = token then some (⟨mode', opened ++ frames⟩ : State) else rest) = some next)
    (other : rest = some next → Moves p frames mode l next) : Moves p frames mode l next := by
  split at h
  · rename_i same
    cases same
    cases h
    exact .expected e
  · exact other h

end

/-- A step is one of these moves. -/
theorem moves_of_step {st next : State} {l : Lexeme} {p : Place} (h : st.step l p = some next) :
    Moves p st.frames st.mode l next := by
  obtain ⟨mode, frames⟩ := st
  cases mode with
  | items before braced => exact .items h
  | leading name => exact moves_or .assigned h .leading
  | declareName start => exact moves_named _ (fun _ => .declared) h
  | declareTail start name =>
    refine moves_or .declared h fun h => ?_
    obtain ⟨rfl, ended⟩ := Option.ite_none_right_eq_some.mp h
    exact .declareBare ended
  | testOpen of start => exact moves_expected .test h
  | bodyOpen of => exact moves_expected .body h
  | ifTail start test body => exact .ifTail h
  | elseOpen start test body => exact moves_or .elseBody h (moves_expected .elseIf)
  | returnTail start =>
    simp only [step] at h
    split at h
    · rename_i same
      cases same
      exact .returnBare h
    · exact .returned h
  | functionName start =>
    exact moves_or .literal h
      (moves_named (fun name => .paramsOpen (.named start name)) fun _ => .function)
  | paramsOpen head => exact moves_expected .params h
  | paramsFirst head => exact moves_or .noParams h (moves_named _ fun _ => .param)
  | paramsName head before => exact moves_named _ (fun _ => .nextParam) h
  | paramsTail head before => exact moves_or .nextParam h (moves_expected .lastParam)
  | operand => exact .operand h
  | operator e braced => exact .operator h
  | memberName object => exact moves_named _ (fun _ => .member) h
  | constructName start => exact moves_named _ (fun _ => .constructed) h
  | constructOpen start name => exact moves_expected .args h
  | argsFirst =>
    simp only [step] at h
    split at h
    · rename_i same
      cases same
      exact .noArgs h
    · exact .argument h

end State

end Scriptlet.Source
