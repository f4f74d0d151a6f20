import Scriptlet.Source.Lexeme
import Scriptlet.Source.Phrase
/-!
Reading a program one token at a time. The state is a mode, which holds what was read last and says
what may follow, and a stack of frames: the phrases that are still open, the innermost first, each
with a hole for the phrase inside it. A token is either taken, which gives the next state, or
refused.

A keyword is one only where it may stand as one; elsewhere it is a name like any other word. The
positions after every closing brace are one for this purpose: whatever the brace closed, an `else`
after it is the keyword.
-/

namespace Scriptlet.Source

/-- A function literal in front of its parameters: a declaration has a name, an expression none. -/
inductive FunctionHead
  | named (start : Place) (name : Name)
  | value (start : Place)

/-- What the block in braces is the body of. -/
inductive BodyOf
  | plain
  | ifBody (start : Place) (test : Expr)
  | elseBody (start : Place) (test : Expr) (body : Block)
  | whileBody (start : Place) (test : Expr)
  | function (head : FunctionHead) (params : List Name)

/-- What a test in parentheses decides about. -/
inductive TestOf
  | ifStmt | whileStmt
deriving DecidableEq, Repr

/-- An open phrase. Lists hold the parts read so far, the last first. -/
inductive Frame
  /-- A statement list, open for the next statement. -/
  | items (before : List Stmt)
  | body (of : BodyOf) (start : Place)
  /-- An `if` statement open for another one as its other branch. -/
  | elseIf (start : Place) (test : Expr) (body : Block)
  | declared (start : Place) (name : Name)
  | assigned (name : Name)
  | returned (start : Place)
  | stated
  | test (of : TestOf) (start : Place)
  | paren (start : Place)
  | argument (callee : Expr) (before : List Expr)
  | constructed (start : Place) (name : Name) (before : List Expr)
  | operand (start : Place) (op : UnaryOp)
  | rightOf (left : Expr) (op : BinaryOp) (place : Place)

/-- What may come next. -/
inductive Mode
  /-- A statement, or the end of the list; `braced` if a closing brace came last. -/
  | items (before : List Stmt) (braced : Bool)
  /-- After a name that a statement starts with. -/
  | leading (name : Name)
  | declareName (start : Place)
  | declareTail (start : Place) (name : Name)
  | testOpen (of : TestOf) (start : Place)
  | bodyOpen (of : BodyOf)
  /-- After the body of an `if`. -/
  | ifTail (start : Place) (test : Expr) (body : Block)
  | elseOpen (start : Place) (test : Expr) (body : Block)
  | returnTail (start : Place)
  | functionName (start : Place)
  | paramsOpen (head : FunctionHead)
  | paramsFirst (head : FunctionHead)
  | paramsName (head : FunctionHead) (before : List Name)
  | paramsTail (head : FunctionHead) (before : List Name)
  /-- An expression. -/
  | operand
  /-- After an expression; `braced` if a closing brace came last. -/
  | operator (e : Expr) (braced : Bool)
  | memberName (object : Expr)
  | constructName (start : Place)
  | constructOpen (start : Place) (name : Name)
  /-- An expression, or the end of a list of arguments that has none. -/
  | argsFirst

structure State where
  mode : Mode
  frames : List Frame

def UnaryOp.ofMark? : Mark → Option UnaryOp
  | .minus => some minus
  | .plus => some plus
  | .increment => some increment
  | .decrement => some decrement
  | _ => none

def BinaryOp.ofMark? : Mark → Option BinaryOp
  | .either => some or
  | .both => some and
  | .equal => some equal
  | .notEqual => some notEqual
  | .below => some below
  | .above => some above
  | .atMost => some atMost
  | .atLeast => some atLeast
  | .plus => some plus
  | .minus => some minus
  | .star => some star
  | .slash => some slash
  | _ => none

namespace State

def start : State := ⟨.items [] false, []⟩

/-- Takes the first token of an expression. -/
def beginExpr (frames : List Frame) (l : Lexeme) (p : Place) : Option State :=
  match l with
  | .numeral s => some ⟨.operator (.atom .number ⟨s, p⟩) false, frames⟩
  | .word s =>
    match Keyword.ofText? s with
    | some .functionWord => some ⟨.paramsOpen (.value p), frames⟩
    | some .newWord => some ⟨.constructName p, frames⟩
    | some .trueWord => some ⟨.operator (.atom .trueWord ⟨s, p⟩) false, frames⟩
    | some .falseWord => some ⟨.operator (.atom .falseWord ⟨s, p⟩) false, frames⟩
    | some .nullWord => some ⟨.operator (.atom .nullWord ⟨s, p⟩) false, frames⟩
    | some .undefinedWord => some ⟨.operator (.atom .undefinedWord ⟨s, p⟩) false, frames⟩
    | _ => some ⟨.operator (.atom .identifier ⟨s, p⟩) false, frames⟩
  | .mark .openParen => some ⟨.operand, .paren p :: frames⟩
  | .mark m => (UnaryOp.ofMark? m).map fun op => ⟨.operand, .operand p op :: frames⟩

/-- Puts a finished statement where it belongs. -/
def endStmt (s : Stmt) (braced : Bool) : List Frame → Option State
  | .items before :: frames => some ⟨.items (s :: before) braced, frames⟩
  | .elseIf start test body :: frames => endStmt (.ifElse start test body s) braced frames
  | _ => none

/-- Takes the closing brace after the statements `before`. -/
def endBody (before : List Stmt) : List Frame → Option State
  | .body of start :: frames =>
    let b := Block.mk start before.reverse
    match of with
    | .plain => endStmt (.block b) true frames
    | .ifBody start test => some ⟨.ifTail start test b, frames⟩
    | .elseBody start test body => endStmt (.ifElse start test body (.block b)) true frames
    | .whileBody start test => endStmt (.while start test b) true frames
    | .function (.named start name) params => endStmt (.function start name params b) true frames
    | .function (.value start) params => some ⟨.operator (.function start params b) true, frames⟩
  | _ => none

/-- Takes the first token of a statement, or what ends the list of statements. -/
def beginStmt (before : List Stmt) (braced : Bool) (frames : List Frame) (l : Lexeme)
    (p : Place) : Option State :=
  let inside := .items before :: frames
  match l with
  | .word s =>
    match Keyword.ofText? s with
    | some .varWord => some ⟨.declareName p, inside⟩
    | some .ifWord => some ⟨.testOpen .ifStmt p, inside⟩
    | some .elseWord => if braced then none else some ⟨.leading ⟨s, p⟩, inside⟩
    | some .whileWord => some ⟨.testOpen .whileStmt p, inside⟩
    | some .returnWord => some ⟨.returnTail p, inside⟩
    | some .functionWord => some ⟨.functionName p, inside⟩
    | some _ => beginExpr (.stated :: inside) l p
    | none => some ⟨.leading ⟨s, p⟩, inside⟩
  | .mark .semicolon => some ⟨.items (.empty p :: before) false, frames⟩
  | .mark .openBrace => some ⟨.items [] false, .body .plain p :: inside⟩
  | .mark .closeBrace => endBody before frames
  | _ => beginExpr (.stated :: inside) l p

/-- Closes the open operators that bind at least as tightly as `level` around an expression. -/
def settle (level : Nat) (e : Expr) : List Frame → Expr × List Frame
  | .operand start op :: frames => settle level (.unary start op e) frames
  | .rightOf left op place :: frames =>
    if level ≤ op.level then settle level (.binary left op place e) frames
    else (e, .rightOf left op place :: frames)
  | frames => (e, frames)

/-- Takes the semicolon after a whole expression. -/
def endAtSemicolon (e : Expr) : List Frame → Option State
  | .stated :: frames => endStmt (.expr e) false frames
  | .declared start name :: frames => endStmt (.declare start name e) false frames
  | .assigned name :: frames => endStmt (.assign name e) false frames
  | .returned start :: frames => endStmt (.return start e) false frames
  | _ => none

/-- Takes the closing parenthesis after a whole expression. -/
def endAtParen (e : Expr) : List Frame → Option State
  | .paren start :: frames => some ⟨.operator (.paren start e) false, frames⟩
  | .argument callee before :: frames =>
    some ⟨.operator (.call callee (e :: before).reverse) false, frames⟩
  | .constructed start name before :: frames =>
    some ⟨.operator (.construct start name (e :: before).reverse) false, frames⟩
  | .test .ifStmt start :: frames => some ⟨.bodyOpen (.ifBody start e), frames⟩
  | .test .whileStmt start :: frames => some ⟨.bodyOpen (.whileBody start e), frames⟩
  | _ => none

/-- Takes the comma after a whole expression. -/
def endAtComma (e : Expr) : List Frame → Option State
  | .argument callee before :: frames => some ⟨.operand, .argument callee (e :: before) :: frames⟩
  | .constructed start name before :: frames =>
    some ⟨.operand, .constructed start name (e :: before) :: frames⟩
  | _ => none

/-- Takes the closing parenthesis of an empty list of arguments. -/
def endNoArgs : List Frame → Option State
  | .argument callee [] :: frames => some ⟨.operator (.call callee []) false, frames⟩
  | .constructed start name [] :: frames =>
    some ⟨.operator (.construct start name []) false, frames⟩
  | _ => none

/-- Takes the token after an expression. -/
def continueExpr (e : Expr) (frames : List Frame) (l : Lexeme) (p : Place) : Option State :=
  let whole := settle 0 e frames
  match l with
  | .mark .increment => some ⟨.operator (.postfixed e .increment) false, frames⟩
  | .mark .decrement => some ⟨.operator (.postfixed e .decrement) false, frames⟩
  | .mark .openParen => if e.isMember then some ⟨.argsFirst, .argument e [] :: frames⟩ else none
  | .mark .dot => if e.isMember then some ⟨.memberName e, frames⟩ else none
  | .mark .semicolon => endAtSemicolon whole.1 whole.2
  | .mark .closeParen => endAtParen whole.1 whole.2
  | .mark .comma => endAtComma whole.1 whole.2
  | .mark m =>
    (BinaryOp.ofMark? m).map fun op =>
      let left := settle op.level e frames
      ⟨.operand, .rightOf left.1 op p :: left.2⟩
  | _ => none

/-- An `if` statement without another branch is finished. -/
def endIf (start : Place) (test : Expr) (body : Block) (frames : List Frame) : Option State :=
  endStmt (.ifOnly start test body) true frames

/-- Takes the token after the body of an `if`; what is not an `else` follows the statement. -/
def continueIf (start : Place) (test : Expr) (body : Block) (frames : List Frame) (l : Lexeme)
    (p : Place) : Option State :=
  if l = .word Keyword.elseWord.text then some ⟨.elseOpen start test body, frames⟩
  else match endIf start test body frames with
    | some ⟨.items before braced, frames⟩ => beginStmt before braced frames l p
    | _ => none

/-- The state after one more token, unless the token is refused. -/
def step (st : State) (l : Lexeme) (p : Place) : Option State :=
  let frames := st.frames
  match st.mode with
  | .items before braced => beginStmt before braced frames l p
  | .leading name =>
    if l = .mark .becomes then some ⟨.operand, .assigned name :: frames⟩
    else continueExpr (.atom .identifier name) (.stated :: frames) l p
  | .declareName start => l.word?.map fun s => ⟨.declareTail start ⟨s, p⟩, frames⟩
  | .declareTail start name =>
    if l = .mark .becomes then some ⟨.operand, .declared start name :: frames⟩
    else if l = .mark .semicolon then endStmt (.declareBare start name) false frames
    else none
  | .testOpen of start =>
    if l = .mark .openParen then some ⟨.operand, .test of start :: frames⟩ else none
  | .bodyOpen of =>
    if l = .mark .openBrace then some ⟨.items [] false, .body of p :: frames⟩ else none
  | .ifTail start test body => continueIf start test body frames l p
  | .elseOpen start test body =>
    if l = .mark .openBrace then
      some ⟨.items [] false, .body (.elseBody start test body) p :: frames⟩
    else if l = .word Keyword.ifWord.text then
      some ⟨.testOpen .ifStmt p, .elseIf start test body :: frames⟩
    else none
  | .returnTail start =>
    if l = .mark .semicolon then endStmt (.returnBare start) false frames
    else beginExpr (.returned start :: frames) l p
  | .functionName start =>
    if l = .mark .openParen then some ⟨.paramsFirst (.value start), .stated :: frames⟩
    else l.word?.map fun s => ⟨.paramsOpen (.named start ⟨s, p⟩), frames⟩
  | .paramsOpen head => if l = .mark .openParen then some ⟨.paramsFirst head, frames⟩ else none
  | .paramsFirst head =>
    if l = .mark .closeParen then some ⟨.bodyOpen (.function head []), frames⟩
    else l.word?.map fun s => ⟨.paramsTail head [⟨s, p⟩], frames⟩
  | .paramsName head before => l.word?.map fun s => ⟨.paramsTail head (⟨s, p⟩ :: before), frames⟩
  | .paramsTail head before =>
    if l = .mark .comma then some ⟨.paramsName head before, frames⟩
    else if l = .mark .closeParen then some ⟨.bodyOpen (.function head before.reverse), frames⟩
    else none
  | .operand => beginExpr frames l p
  | .operator e _ => continueExpr e frames l p
  | .memberName object => l.word?.map fun s => ⟨.operator (.member object ⟨s, p⟩) false, frames⟩
  | .constructName start => l.word?.map fun s => ⟨.constructOpen start ⟨s, p⟩, frames⟩
  | .constructOpen start name =>
    if l = .mark .openParen then some ⟨.argsFirst, .constructed start name [] :: frames⟩ else none
  | .argsFirst => if l = .mark .closeParen then endNoArgs frames else beginExpr frames l p

/-- The program that has been read, if it may end here. -/
def program? (st : State) : Option Program :=
  let ended := match st.mode with
    | .ifTail start test body => endIf start test body st.frames
    | _ => some st
  match ended with
  | some ⟨.items before _, []⟩ => some before.reverse
  | _ => none

/-- How many characters of a refused lexeme still make a lexeme that is taken: a point that may
stand here where a numeral may not, an equals sign likewise, an `if` where no other word may. What
is wrong is then what follows them. -/
def taken (st : State) (l : Lexeme) : Nat :=
  match st.mode with
  | .declareTail .. => if l = .mark .equal then 1 else 0
  | .leading _ => if l.startsWithPoint then 1 else 0
  | .operator e false => if e.isMember ∧ l.startsWithPoint then 1 else 0
  | .elseOpen .. => if l.startsWithIf then Keyword.ifWord.text.length else 0
  | _ => 0

end State

end Scriptlet.Source
