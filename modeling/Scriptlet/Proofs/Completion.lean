import Scriptlet.Proofs.Moves
import Scriptlet.Proofs.Sentences
/-!
# Whatever was read can be finished

The open phrases of the reader are nested as those of a program: each has a hole for the phrase
inside it, and fills the hole of the next one (`Hole.In`). Every step keeps this. So each state has
lexemes that lead from it to the end of a program, those that fill the hole and then those that
close one open phrase after another.
-/

namespace Scriptlet.Source

/-- What an open phrase is open for. -/
inductive Hole
  | items | stmt | expr

/-- What a function literal becomes part of. -/
def FunctionHead.fills : FunctionHead → Hole
  | named .. => .stmt
  | value _ => .expr

/-- What the phrase with this body becomes part of. -/
def BodyOf.fills : BodyOf → Hole
  | function head _ => head.fills
  | _ => .stmt

/-- The innermost of the frames has such a hole, and each fills that of the next one. -/
def Hole.In : Hole → List Frame → Prop
  | items, [] => True
  | items, .body of _ :: frames => of.fills.In frames
  | stmt, .items _ :: frames => items.In frames
  | stmt, .elseIf .. :: frames => stmt.In frames
  | expr, .declared .. :: frames => stmt.In frames
  | expr, .assigned _ :: frames => stmt.In frames
  | expr, .returned _ :: frames => stmt.In frames
  | expr, .stated :: frames => stmt.In frames
  | expr, .test .. :: frames => stmt.In frames
  | expr, .paren _ :: frames => expr.In frames
  | expr, .argument .. :: frames => expr.In frames
  | expr, .constructed .. :: frames => expr.In frames
  | expr, .operand .. :: frames => expr.In frames
  | expr, .rightOf .. :: frames => expr.In frames
  | _, _ => False

/-- What the phrase that is being read will fill. -/
def Mode.fills : Mode → Hole
  | items .. => .items
  | bodyOpen of => of.fills
  | paramsOpen head => head.fills
  | paramsFirst head => head.fills
  | paramsName head _ => head.fills
  | paramsTail head _ => head.fills
  | operand => .expr
  | operator .. => .expr
  | memberName _ => .expr
  | constructName _ => .expr
  | constructOpen .. => .expr
  | argsFirst => .expr
  | _ => .stmt

namespace State

/-- The open phrases of a state are nested as those of a program. -/
def Nested (st : State) : Prop := st.mode.fills.In st.frames

variable {frames : List Frame} {l : Lexeme} {p : Place} {st next : State}

theorem nested_start : start.Nested := trivial

theorem nested_beginExpr (h : Hole.expr.In frames) (read : beginExpr frames l p = some next) :
    next.Nested := by
  cases l with
  | numeral s =>
    cases read
    exact h
  | word s =>
    simp only [beginExpr] at read
    split at read <;> cases read <;> exact h
  | mark m =>
    cases m with
    | openParen | minus | plus | increment | decrement =>
      cases read
      exact h
    | _ => cases read

theorem nested_endStmt {s : Stmt} {braced : Bool} (h : Hole.stmt.In frames)
    (read : endStmt s braced frames = some next) : next.Nested := by
  induction frames generalizing s with
  | nil => cases read
  | cons f frames ih =>
    cases f with
    | items before =>
      cases read
      exact h
    | elseIf start test body => exact ih h read
    | _ => cases read

theorem nested_endBody {before : List Stmt} (h : Hole.items.In frames)
    (read : endBody before frames = some next) : next.Nested := by
  rcases frames with _ | ⟨f, frames⟩
  · cases read
  · cases f with
    | body of start =>
      cases of with
      | plain => exact nested_endStmt h read
      | ifBody =>
        cases read
        exact h
      | elseBody => exact nested_endStmt h read
      | whileBody => exact nested_endStmt h read
      | function head params =>
        cases head with
        | named => exact nested_endStmt h read
        | value =>
          cases read
          exact h
    | _ => cases read

theorem nested_beginStmt {before : List Stmt} {braced : Bool} (h : Hole.items.In frames)
    (read : beginStmt before braced frames l p = some next) : next.Nested := by
  have stated : Hole.expr.In (.stated :: .items before :: frames) := h
  simp only [beginStmt] at read
  split at read
  · split at read
    · cases read; exact h
    · cases read; exact h
    · split at read
      · cases read
      · cases read; exact h
    · cases read; exact h
    · cases read; exact h
    · cases read; exact h
    · exact nested_beginExpr stated read
    · cases read; exact h
  · cases read; exact h
  · cases read; exact h
  · exact nested_endBody h read
  · exact nested_beginExpr stated read

theorem in_settle (level : Nat) (e : Expr) (h : Hole.expr.In frames) :
    Hole.expr.In (settle level e frames).2 := by
  induction frames generalizing e with
  | nil => exact h
  | cons f frames ih =>
    cases f with
    | operand start op => exact ih (.unary start op e) h
    | rightOf left op place =>
      by_cases closes : level ≤ op.level
      · rw [settle, if_pos closes]
        exact ih (.binary left op place e) h
      · rw [settle, if_neg closes]
        exact h
    | _ => exact h

theorem nested_endAtSemicolon {e : Expr} (h : Hole.expr.In frames)
    (read : endAtSemicolon e frames = some next) : next.Nested := by
  rcases frames with _ | ⟨f, frames⟩
  · cases read
  · cases f with
    | stated | declared | assigned | returned => exact nested_endStmt h read
    | _ => cases read

theorem nested_endAtParen {e : Expr} (h : Hole.expr.In frames)
    (read : endAtParen e frames = some next) : next.Nested := by
  rcases frames with _ | ⟨f, frames⟩
  · cases read
  · cases f with
    | paren | argument | constructed => cases read; exact h
    | test of => cases of <;> cases read <;> exact h
    | _ => cases read

theorem nested_endAtComma {e : Expr} (h : Hole.expr.In frames)
    (read : endAtComma e frames = some next) : next.Nested := by
  rcases frames with _ | ⟨f, frames⟩
  · cases read
  · cases f with
    | argument | constructed => cases read; exact h
    | _ => cases read

theorem nested_endNoArgs (h : Hole.expr.In frames) (read : endNoArgs frames = some next) :
    next.Nested := by
  rcases frames with _ | ⟨f, frames⟩
  · cases read
  · cases f with
    | argument _ before | constructed _ _ before =>
      cases before with
      | nil => cases read; exact h
      | cons => cases read
    | _ => cases read

/-- A token that is taken only where a condition holds. -/
theorem nested_expect {c : Prop} [Decidable c] (read : (if c then some st else none) = some next)
    (h : st.Nested) : next.Nested := by
  split at read
  · cases read; exact h
  · cases read

theorem nested_continueExpr {e : Expr} (h : Hole.expr.In frames)
    (read : continueExpr e frames l p = some next) : next.Nested := by
  have whole := in_settle 0 e h
  simp only [continueExpr] at read
  split at read
  · cases read; exact h
  · cases read; exact h
  · exact nested_expect read h
  · exact nested_expect read h
  · exact nested_endAtSemicolon whole read
  · exact nested_endAtParen whole read
  · exact nested_endAtComma whole read
  · obtain ⟨op, _, rfl⟩ := Option.map_eq_some_iff.mp read
    exact in_settle op.level e h
  · cases read

theorem nested_continueIf {start : Place} {test : Expr} {body : Block} (h : Hole.stmt.In frames)
    (read : continueIf start test body frames l p = some next) : next.Nested := by
  rw [continueIf] at read
  split at read
  · cases read; exact h
  · split at read
    · rename_i ended
      have outer := nested_endStmt h ended
      exact nested_beginStmt outer read
    · cases read

theorem nested_expected {mode mode' : Mode} {opened : List Frame} (h : mode.fills.In frames)
    (e : mode.Expects p l mode' opened) : Nested ⟨mode', opened ++ frames⟩ := by
  cases e <;> exact h

theorem nested_named {name : Name} {mode mode' : Mode} (h : mode.fills.In frames)
    (n : mode.Names name mode') : Nested ⟨mode', frames⟩ := by
  cases n <;> exact h

theorem nested_step (h : st.Nested) (read : st.step l p = some next) : next.Nested := by
  obtain ⟨mode, frames⟩ := st
  cases moves_of_step read with
  | expected e => exact nested_expected h e
  | named n => exact nested_named h n
  | items read => exact nested_beginStmt h read
  | ifTail read => exact nested_continueIf h read
  | operand read | argument read => exact nested_beginExpr h read
  | @returned start _ _ read =>
    have inside : Hole.expr.In (.returned start :: frames) := h
    exact nested_beginExpr inside read
  | leading read =>
    have stated : Hole.expr.In (.stated :: frames) := h
    exact nested_continueExpr stated read
  | operator read => exact nested_continueExpr h read
  | declareBare read | returnBare read => exact nested_endStmt h read
  | noArgs read => exact nested_endNoArgs h read

theorem nested_run {ts : List Token} (h : st.Nested) (run : st.run ts = .ok next) :
    next.Nested := by
  induction ts generalizing st with
  | nil => cases run; exact h
  | cons t ts ih =>
    rw [State.run] at run
    split at run
    · rename_i read
      exact ih (nested_step h read) run
    · cases run

end State

/-! ## Closing what is open -/

/-- The lexemes that close the frames, once the hole of the innermost one is filled. -/
def Hole.closing : Hole → List Frame → List Lexeme
  | items, .body of _ :: frames => .mark .closeBrace :: of.fills.closing frames
  | stmt, .items _ :: frames => items.closing frames
  | stmt, .elseIf .. :: frames => stmt.closing frames
  | expr, .declared .. :: frames => .mark .semicolon :: stmt.closing frames
  | expr, .assigned _ :: frames => .mark .semicolon :: stmt.closing frames
  | expr, .returned _ :: frames => .mark .semicolon :: stmt.closing frames
  | expr, .stated :: frames => .mark .semicolon :: stmt.closing frames
  | expr, .test .. :: frames =>
    .mark .closeParen :: .mark .openBrace :: .mark .closeBrace :: stmt.closing frames
  | expr, .paren _ :: frames => .mark .closeParen :: expr.closing frames
  | expr, .argument .. :: frames => .mark .closeParen :: expr.closing frames
  | expr, .constructed .. :: frames => .mark .closeParen :: expr.closing frames
  | expr, .operand .. :: frames => expr.closing frames
  | expr, .rightOf .. :: frames => expr.closing frames
  | _, _ => []

/-- A name to fill a hole with. -/
def filler : Lexeme := .word "x"

/-- The lexemes that complete the phrase that is being read. -/
def Mode.completion : Mode → List Lexeme
  | leading _ => [.mark .semicolon]
  | declareName _ => [filler, .mark .semicolon]
  | declareTail .. => [.mark .semicolon]
  | testOpen .. =>
    [.mark .openParen, filler, .mark .closeParen, .mark .openBrace, .mark .closeBrace]
  | bodyOpen _ => [.mark .openBrace, .mark .closeBrace]
  | elseOpen .. => [.mark .openBrace, .mark .closeBrace]
  | returnTail _ => [.mark .semicolon]
  | functionName _ =>
    [filler, .mark .openParen, .mark .closeParen, .mark .openBrace, .mark .closeBrace]
  | paramsOpen _ => [.mark .openParen, .mark .closeParen, .mark .openBrace, .mark .closeBrace]
  | paramsFirst _ => [.mark .closeParen, .mark .openBrace, .mark .closeBrace]
  | paramsName .. => [filler, .mark .closeParen, .mark .openBrace, .mark .closeBrace]
  | paramsTail .. => [.mark .closeParen, .mark .openBrace, .mark .closeBrace]
  | operand => [filler]
  | memberName _ => [filler]
  | constructName _ => [filler, .mark .openParen, .mark .closeParen]
  | constructOpen .. => [.mark .openParen, .mark .closeParen]
  | argsFirst => [filler]
  | _ => []

/-- Lexemes that lead from a state to the end of a program. -/
def State.completion (st : State) : List Lexeme :=
  st.mode.completion ++ st.mode.fills.closing st.frames

theorem Hole.valid_closing (hole : Hole) (frames : List Frame) :
    ∀ l ∈ hole.closing frames, l.Valid := by
  fun_induction Hole.closing hole frames <;> simp_all

theorem valid_filler : filler.Valid := isIdentifier_of_toList rfl rfl rfl

theorem Mode.valid_completion (mode : Mode) : ∀ l ∈ mode.completion, l.Valid := by
  have := valid_filler
  cases mode <;> simp [Mode.completion, this]

theorem State.valid_completion (st : State) : ∀ l ∈ st.completion, l.Valid := by
  intro l hl
  rcases List.mem_append.mp hl with hl | hl
  · exact st.mode.valid_completion l hl
  · exact st.mode.fills.valid_closing st.frames l hl

/-- A program may end here. -/
def State.Ended (st : State) : Prop := st.program?.isSome

/-- Where an `if` statement may go on, all else leads to the end that also ends the statement. -/
theorem State.Settles.ended {st : State} {before : List Stmt} {braced : Bool}
    {frames : List Frame} {ls : List Lexeme} (h : st.Settles ⟨.items before braced, frames⟩)
    (hls : ∀ l, ls.head? = some l → l ≠ .word "else")
    (rest : State.After ⟨.items before braced, frames⟩ ls State.Ended) :
    st.After ls State.Ended := by
  cases ls with
  | nil =>
    cases frames with
    | nil => exact Option.isSome_of_eq_some h.program?
    | cons => cases rest
  | cons l ls => exact h.after (hls l rfl) rest

namespace Hole

/-- The frames close behind whatever fills the hole. -/
def Closes (frames : List Frame) : Hole → Prop
  | items => ∀ before braced,
      State.After ⟨.items before braced, frames⟩ (items.closing frames) State.Ended
  | stmt => ∀ s braced, ∃ before braced' frames',
      State.endStmt s braced frames = some ⟨.items before braced', frames'⟩ ∧
        State.After ⟨.items before braced', frames'⟩ (stmt.closing frames) State.Ended
  | expr => ∀ e braced,
      State.After ⟨.operator e braced, frames⟩ (expr.closing frames) State.Ended

variable {frames : List Frame}

/-- What closes a list of statements is no `else`. -/
theorem closing_stmt_ne (h : stmt.In frames) {l : Lexeme}
    (first : (stmt.closing frames).head? = some l) : l ≠ .word "else" := by
  induction frames with
  | nil => cases h
  | cons f frames ih =>
    cases f with
    | items before =>
      cases frames with
      | nil => cases first
      | cons f frames =>
        cases f with
        | body =>
          obtain rfl := Option.some.inj first
          simp
        | _ => cases h
    | elseIf => exact ih h first
    | _ => cases h

/-- The first lexeme behind an expression ends it. -/
theorem closing_expr_eq (h : expr.In frames) : ∃ m ls, expr.closing frames = .mark m :: ls ∧
    (m = .semicolon ∨ m = .closeParen) := by
  induction frames with
  | nil => cases h
  | cons f frames ih =>
    cases f with
    | declared | assigned | returned | stated => exact ⟨_, _, rfl, Or.inl rfl⟩
    | test | paren | argument | constructed => exact ⟨_, _, rfl, Or.inr rfl⟩
    | operand | rightOf => exact ih h
    | _ => cases h

/-- Behind an `if` statement that may still get another branch. -/
theorem Closes.ifTail (h : stmt.In frames) (closes : stmt.Closes frames) (start : Place)
    (test : Expr) (body : Block) :
    State.After ⟨.ifTail start test body, frames⟩ (stmt.closing frames) State.Ended := by
  obtain ⟨before, braced, frames', ended, rest⟩ := closes (.ifOnly start test body) true
  have settles : State.Settles ⟨.ifTail start test body, frames⟩
      ⟨.items before braced, frames'⟩ := Or.inr ⟨start, test, body, rfl, ended⟩
  exact settles.ended (fun l first => closing_stmt_ne h first) rest

/-- Behind the statements of a body. -/
theorem Closes.body (of : BodyOf) (h : of.fills.In frames) (closes : of.fills.Closes frames)
    (start : Place) : items.Closes (.body of start :: frames) := by
  intro before braced p
  let b := Block.mk start before.reverse
  have behind (closes : stmt.Closes frames) (s : Stmt) : ∃ next,
      State.endStmt s true frames = some next ∧
        next.After (stmt.closing frames) State.Ended := by
    obtain ⟨_, _, _, ended, rest⟩ := closes s true
    exact ⟨_, ended, rest⟩
  cases of with
  | plain => exact behind closes (.block b)
  | ifBody start test => exact ⟨_, rfl, Closes.ifTail h closes start test b⟩
  | elseBody start test body => exact behind closes (.ifElse start test body (.block b))
  | whileBody start test => exact behind closes (.while start test b)
  | function head params =>
    cases head with
    | named start name => exact behind closes (.function start name params b)
    | value start => exact ⟨_, rfl, closes (.function start params b) true⟩

/-- Where a block is opened and closed at once. -/
theorem Closes.emptyBody (of : BodyOf) (h : of.fills.In frames) (closes : of.fills.Closes frames) :
    State.After ⟨.bodyOpen of, frames⟩
      (.mark .openBrace :: .mark .closeBrace :: of.fills.closing frames) State.Ended :=
  fun p => ⟨_, rfl, Closes.body of h closes p [] false⟩

/-- Behind an expression that an operator takes to its left. -/
theorem Closes.operator (f : Frame) {e e' : Expr} (closes : expr.Closes frames)
    (h : expr.In frames) (braced : Bool)
    (settles : State.settle 0 e (f :: frames) = State.settle 0 e' frames) :
    State.After ⟨.operator e braced, f :: frames⟩ (expr.closing frames) State.Ended := by
  obtain ⟨m, ls, closing, ends⟩ := closing_expr_eq h
  have rest := closes e' braced
  rw [closing] at rest ⊢
  refine rest.of_step fun p _ => ?_
  rcases ends with rfl | rfl <;> simp only [State.step, State.continueExpr, settles]

theorem closes (hole : Hole) (h : hole.In frames) : hole.Closes frames := by
  induction frames generalizing hole with
  | nil =>
    cases hole with
    | items => exact fun _ _ => rfl
    | stmt | expr => cases h
  | cons f frames ih =>
    cases hole with
    | items =>
      cases f with
      | body of start => exact Closes.body of h (ih of.fills h) start
      | _ => cases h
    | stmt =>
      cases f with
      | items before => exact fun s braced => ⟨_, _, _, rfl, ih .items h (s :: before) braced⟩
      | elseIf start test body =>
        exact fun s braced => ih .stmt h (.ifElse start test body s) braced
      | _ => cases h
    | expr =>
      intro e braced
      have behind (h : stmt.In frames) (s : Stmt) : ∃ next,
          State.endStmt s false frames = some next ∧
            next.After (stmt.closing frames) State.Ended := by
        obtain ⟨_, _, _, ended, rest⟩ := ih .stmt h s false
        exact ⟨_, ended, rest⟩
      cases f with
      | declared start name => exact fun p => behind h (.declare start name e)
      | assigned name => exact fun p => behind h (.assign name e)
      | returned start => exact fun p => behind h (.return start e)
      | stated => exact fun p => behind h (.expr e)
      | test of start =>
        cases of with
        | ifStmt => exact fun p => ⟨_, rfl, Closes.emptyBody (.ifBody start e) h (ih .stmt h)⟩
        | whileStmt => exact fun p => ⟨_, rfl, Closes.emptyBody (.whileBody start e) h (ih .stmt h)⟩
      | paren start => exact fun p => ⟨_, rfl, ih .expr h (.paren start e) false⟩
      | argument callee before =>
        exact fun p => ⟨_, rfl, ih .expr h (.call callee (e :: before).reverse) false⟩
      | constructed start name before =>
        exact fun p => ⟨_, rfl, ih .expr h (.construct start name (e :: before).reverse) false⟩
      | operand start op => exact (ih .expr h).operator (.operand start op) h braced rfl
      | rightOf left op place => exact (ih .expr h).operator (.rightOf left op place) h braced rfl
      | _ => cases h

end Hole

/-! ## Completing a state -/

namespace State

variable {frames : List Frame}

/-- Behind the parameters of a function literal. -/
theorem after_params (head : FunctionHead) (h : head.fills.In frames) (params : List Name) :
    After ⟨.bodyOpen (.function head params), frames⟩
      (.mark .openBrace :: .mark .closeBrace :: head.fills.closing frames) Ended :=
  Hole.Closes.emptyBody (.function head params) h (Hole.closes head.fills h)

/-- Whatever was read, the completion of the state is read behind it, and then a program may end. -/
theorem Nested.after_completion {st : State} (h : st.Nested) : st.After st.completion Ended := by
  obtain ⟨mode, frames⟩ := st
  have statement (h : Hole.stmt.In frames) (s : Stmt) : ∃ next,
      endStmt s false frames = some next ∧ next.After (Hole.stmt.closing frames) Ended := by
    obtain ⟨_, _, _, ended, rest⟩ := Hole.closes .stmt h s false
    exact ⟨_, ended, rest⟩
  have expression (h : Hole.expr.In frames) (e : Expr) :
      After ⟨.operator e false, frames⟩ (Hole.expr.closing frames) Ended :=
    Hole.closes .expr h e false
  cases mode with
  | items before braced => exact Hole.closes .items h before braced
  | leading name => exact fun p => statement h (.expr (.atom .identifier name))
  | declareName start =>
    exact fun p => ⟨_, rfl, fun _ => statement h (.declareBare start ⟨"x", p⟩)⟩
  | declareTail start name => exact fun _ => statement h (.declareBare start name)
  | testOpen of start =>
    have test : Hole.expr.In (.test of start :: frames) := h
    exact fun _ => ⟨_, rfl, fun p =>
      ⟨_, rfl, Hole.closes .expr test (.atom .identifier ⟨"x", p⟩) false⟩⟩
  | bodyOpen of => exact Hole.Closes.emptyBody of h (Hole.closes of.fills h)
  | ifTail start test body => exact Hole.Closes.ifTail h (Hole.closes .stmt h) start test body
  | elseOpen start test body =>
    have closes := Hole.Closes.body (.elseBody start test body) h (Hole.closes .stmt h)
    exact fun p => ⟨_, rfl, closes p [] false⟩
  | returnTail start => exact fun _ => statement h (.returnBare start)
  | functionName start =>
    exact fun p => ⟨_, rfl, fun _ => ⟨_, rfl, fun _ =>
      ⟨_, rfl, after_params (.named start ⟨"x", p⟩) h []⟩⟩⟩
  | paramsOpen head => exact fun _ => ⟨_, rfl, fun _ => ⟨_, rfl, after_params head h []⟩⟩
  | paramsFirst head => exact fun _ => ⟨_, rfl, after_params head h []⟩
  | paramsName head before =>
    exact fun p => ⟨_, rfl, fun _ => ⟨_, rfl, after_params head h (⟨"x", p⟩ :: before).reverse⟩⟩
  | paramsTail head before => exact fun _ => ⟨_, rfl, after_params head h before.reverse⟩
  | operand => exact fun p => ⟨_, rfl, expression h (.atom .identifier ⟨"x", p⟩)⟩
  | operator e braced => exact Hole.closes .expr h e braced
  | memberName object => exact fun p => ⟨_, rfl, expression h (.member object ⟨"x", p⟩)⟩
  | constructName start =>
    exact fun p => ⟨_, rfl, fun _ => ⟨_, rfl, fun _ =>
      ⟨_, rfl, expression h (.construct start ⟨"x", p⟩ [])⟩⟩⟩
  | constructOpen start name =>
    exact fun _ => ⟨_, rfl, fun _ => ⟨_, rfl, expression h (.construct start name [])⟩⟩
  | argsFirst => exact fun p => ⟨_, rfl, expression h (.atom .identifier ⟨"x", p⟩)⟩

end State

end Scriptlet.Source
