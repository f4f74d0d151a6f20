import Scriptlet.Proofs.Reading
/-!
# Moving programs

A program can be moved: every place in it is replaced by another one. Its tree is then moved too,
and the reader, which never looks at places, reads the moved tokens as the moved program. It does so
as well behind the statements of another program, as long as the first token is no `else`.
-/

namespace Scriptlet

section

variable (f : Place → Place)

namespace Tree

mutual

def move : Tree → Tree
  | missing => missing
  | token kind text place => token kind text (place.map f)
  | node label place children => node label (place.map f) (moveAll children)

def moveAll : List Tree → List Tree
  | [] => []
  | t :: ts => t.move :: moveAll ts

end

theorem moveAll_eq_map (ts : List Tree) : moveAll f ts = ts.map (move f) := by
  induction ts with
  | nil => rfl
  | cons t ts ih => simp [moveAll, ih]

@[simp]
theorem move_missing : missing.move f = missing := by rw [move]

@[simp]
theorem move_token (kind : TokenKind) (text : String) (place : Option Place) :
    (token kind text place).move f = token kind text (place.map f) := by rw [move]

@[simp]
theorem move_node (label : Label) (place : Option Place) (children : List Tree) :
    (node label place children).move f = node label (place.map f) (children.map (move f)) := by
  rw [move, moveAll_eq_map]

@[simp]
theorem place?_move (t : Tree) : (t.move f).place? = t.place?.map f := by
  cases t with
  | missing => simp [place?]
  | token => simp [place?]
  | node => simp [place?]

theorem move_sequence (place : Option Place) (ts : List Tree) :
    (sequence place ts).move f = sequence (place.map f) (ts.map (move f)) := by
  induction ts with
  | nil => simp [sequence]
  | cons t ts ih =>
    cases ts with
    | nil => rfl
    | cons => simpa [sequence] using ih

end Tree

namespace Source

/-! ## Phrases -/

def Name.move (name : Name) : Name := ⟨name.text, f name.place⟩

mutual

def Expr.move : Expr → Expr
  | .atom kind name => .atom kind (name.move f)
  | .paren start inner => .paren (f start) inner.move
  | .function start params body => .function (f start) (params.map (Name.move f)) body.move
  | .construct start name args => .construct (f start) (name.move f) (moveArgs args)
  | .call callee args => .call callee.move (moveArgs args)
  | .member object name => .member object.move (name.move f)
  | .postfixed operand op => .postfixed operand.move op
  | .unary start op operand => .unary (f start) op operand.move
  | .binary left op place right => .binary left.move op (f place) right.move

def moveArgs : List Expr → List Expr
  | [] => []
  | e :: es => e.move :: moveArgs es

def Block.move : Block → Block
  | .mk start body => .mk (f start) (moveBody body)

def moveBody : List Stmt → List Stmt
  | [] => []
  | s :: ss => s.move :: moveBody ss

def Stmt.move : Stmt → Stmt
  | .declare start name value => .declare (f start) (name.move f) value.move
  | .declareBare start name => .declareBare (f start) (name.move f)
  | .assign name value => .assign (name.move f) value.move
  | .ifOnly start test body => .ifOnly (f start) test.move body.move
  | .ifElse start test body other => .ifElse (f start) test.move body.move other.move
  | .while start test body => .while (f start) test.move body.move
  | .return start value => .return (f start) value.move
  | .returnBare start => .returnBare (f start)
  | .function start name params body =>
    .function (f start) (name.move f) (params.map (Name.move f)) body.move
  | .block body => .block body.move
  | .expr value => .expr value.move
  | .empty start => .empty (f start)

end

theorem moveArgs_eq_map (es : List Expr) : moveArgs f es = es.map (Expr.move f) := by
  induction es with
  | nil => rfl
  | cons e es ih => simp [moveArgs, ih]

theorem moveBody_eq_map (ss : List Stmt) : moveBody f ss = ss.map (Stmt.move f) := by
  induction ss with
  | nil => rfl
  | cons s ss ih => simp [moveBody, ih]

/-! ## Trees of moved phrases -/

def Lowered.move (l : Lowered) : Lowered := ⟨f l.start, l.tree.move f⟩

theorem Name.tree_move (kind : TokenKind) (name : Name) :
    (name.move f).tree kind = (name.tree kind).move f := by
  simp [Name.tree, Name.move]

theorem undefinedAt_move (start : Place) : undefinedAt (f start) = (undefinedAt start).move f := by
  simp [undefinedAt]

theorem paramsTree_move (params : List Name) :
    paramsTree (params.map (Name.move f)) = (paramsTree params).move f := by
  cases params <;> simp [paramsTree, Name.tree, Name.move]

theorem placeOfAll_move (parts : List Lowered) :
    placeOfAll (parts.map (Lowered.move f)) = (placeOfAll parts).map f := by
  cases parts <;> rfl

theorem trees_move (parts : List Lowered) :
    (parts.map (Lowered.move f)).map (·.tree) = (parts.map (·.tree)).map (Tree.move f) := by
  simp [Lowered.move]

theorem argsTree_move (parts : List Lowered) :
    argsTree (parts.map (Lowered.move f)) = (argsTree parts).move f := by
  rw [argsTree, argsTree, Tree.move_node, placeOfAll_move, trees_move]

theorem Lowered.inParens_move (inner : Lowered) (start : Place) :
    (inner.move f).inParens (f start) = (inner.inParens start).move f := by
  obtain ⟨place, tree⟩ := inner
  cases tree <;> simp [Lowered.inParens, Lowered.move]

theorem BinaryOp.tree_move (op : BinaryOp) (start place : Place) (left right : Tree) :
    op.tree (f start) (f place) (left.move f) (right.move f) =
      (op.tree start place left right).move f := by
  cases op <;> simp [BinaryOp.tree, BinaryOp.token?]

mutual

theorem Expr.lower_move : (e : Expr) → (e.move f).lower = e.lower.move f
  | .atom kind name => by simp [Expr.move, Expr.lower, Lowered.move, Name.tree, Name.move]
  | .paren start inner => by
    rw [Expr.move, Expr.lower, Expr.lower_move inner, Lowered.inParens_move, Expr.lower]
  | .function start params body => by
    simp [Expr.move, Expr.lower, Lowered.move, Block.tree_move body, paramsTree_move]
  | .construct start name args => by
    simp [Expr.move, Expr.lower, Lowered.move, lowerArgs_move args, argsTree_move, Name.tree_move]
  | .call callee args => by
    simp [Expr.move, Expr.lower, Lowered.move, Expr.lower_move callee, lowerArgs_move args,
      argsTree_move]
  | .member object name => by
    simp [Expr.move, Expr.lower, Lowered.move, Expr.lower_move object, Name.tree_move]
  | .postfixed operand op => by
    simp [Expr.move, Expr.lower, Lowered.move, Expr.lower_move operand]
  | .unary start op operand => by
    simp [Expr.move, Expr.lower, Lowered.move, Expr.lower_move operand]
  | .binary left op place right => by
    simp [Expr.move, Expr.lower, Lowered.move, Expr.lower_move left, Expr.lower_move right,
      BinaryOp.tree_move]

theorem lowerArgs_move : (es : List Expr) →
    lowerArgs (moveArgs f es) = (lowerArgs es).map (Lowered.move f)
  | [] => rfl
  | e :: es => by simp [moveArgs, lowerArgs, Expr.lower_move e, lowerArgs_move es]

theorem Block.tree_move : (b : Block) → (b.move f).tree = b.tree.move f
  | .mk start body => by
    rw [Block.move, Block.tree, Block.tree, lowerBody_move body, trees_move, Tree.move_sequence]
    rfl

theorem lowerBody_move : (ss : List Stmt) →
    lowerBody (moveBody f ss) = (lowerBody ss).map (Lowered.move f)
  | [] => rfl
  | s :: ss => by simp [moveBody, lowerBody, Stmt.lower_move s, lowerBody_move ss]

theorem Stmt.lower_move : (s : Stmt) → (s.move f).lower = s.lower.move f
  | .declare start name value => by
    simp [Stmt.move, Stmt.lower, Lowered.move, Expr.lower_move value, Name.tree_move]
  | .declareBare start name => by
    simp [Stmt.move, Stmt.lower, Lowered.move, Name.tree_move, undefinedAt_move]
  | .assign name value => by
    simp [Stmt.move, Stmt.lower, Lowered.move, Expr.lower_move value, Name.tree, Name.move]
  | .ifOnly start test body => by
    simp [Stmt.move, Stmt.lower, Lowered.move, Expr.lower_move test, Block.tree_move body]
  | .ifElse start test body other => by
    simp [Stmt.move, Stmt.lower, Lowered.move, Expr.lower_move test, Block.tree_move body,
      Stmt.lower_move other]
  | .while start test body => by
    simp [Stmt.move, Stmt.lower, Lowered.move, Expr.lower_move test, Block.tree_move body]
  | .return start value => by
    simp [Stmt.move, Stmt.lower, Lowered.move, Expr.lower_move value]
  | .returnBare start => by simp [Stmt.move, Stmt.lower, Lowered.move, undefinedAt_move]
  | .function start name params body => by
    simp [Stmt.move, Stmt.lower, Lowered.move, Block.tree_move body, Name.tree_move,
      paramsTree_move]
  | .block (.mk start body) => by
    simp only [Stmt.move, Block.move, Stmt.lower, Lowered.move, lowerBody_move body, trees_move,
      Tree.move_sequence, Option.map_some]
  | .expr value => by simp [Stmt.move, Stmt.lower, Lowered.move, Expr.lower_move value]
  | .empty start => by simp [Stmt.move, Stmt.lower, Lowered.move]

end

theorem Program.tree_move (p : Program) :
    Program.tree (p.map (Stmt.move f)) = (Program.tree p).move f := by
  rw [← moveBody_eq_map, Program.tree, lowerBody_move, placeOfAll_move, trees_move,
    ← Tree.move_sequence]
  rfl

/-! ## Nesting -/

mutual

theorem Expr.nesting_move : (e : Expr) → (e.move f).nesting = e.nesting
  | .atom kind name => by simp [Expr.move, Expr.nesting]
  | .paren start inner => by simp [Expr.move, Expr.nesting, Expr.nesting_move inner]
  | .function start params body => by simp [Expr.move, Expr.nesting, Block.nesting_move body]
  | .construct start name args => by simp [Expr.move, Expr.nesting, nestingOfArgs_move args]
  | .call callee args => by
    simp [Expr.move, Expr.nesting, Expr.nesting_move callee, nestingOfArgs_move args]
  | .member object name => by simp [Expr.move, Expr.nesting, Expr.nesting_move object]
  | .postfixed operand op => by simp [Expr.move, Expr.nesting, Expr.nesting_move operand]
  | .unary start op operand => by simp [Expr.move, Expr.nesting, Expr.nesting_move operand]
  | .binary left op place right => by
    simp [Expr.move, Expr.nesting, Expr.nesting_move left, Expr.nesting_move right]

theorem nestingOfArgs_move : (es : List Expr) → nestingOfArgs (moveArgs f es) = nestingOfArgs es
  | [] => rfl
  | e :: es => by simp [moveArgs, nestingOfArgs, Expr.nesting_move e, nestingOfArgs_move es]

theorem Block.nesting_move : (b : Block) → (b.move f).nesting = b.nesting
  | .mk start body => by simp [Block.move, Block.nesting, nestingOfBody_move body]

theorem nestingOfBody_move : (ss : List Stmt) → nestingOfBody (moveBody f ss) = nestingOfBody ss
  | [] => rfl
  | s :: ss => by simp [moveBody, nestingOfBody, Stmt.nesting_move s, nestingOfBody_move ss]

theorem Stmt.nesting_move : (s : Stmt) → (s.move f).nesting = s.nesting
  | .declare start name value => by simp [Stmt.move, Stmt.nesting, Expr.nesting_move value]
  | .declareBare start name => by simp [Stmt.move, Stmt.nesting]
  | .assign name value => by simp [Stmt.move, Stmt.nesting, Expr.nesting_move value]
  | .ifOnly start test body => by
    simp [Stmt.move, Stmt.nesting, Expr.nesting_move test, Block.nesting_move body]
  | .ifElse start test body other => by
    simp [Stmt.move, Stmt.nesting, Expr.nesting_move test, Block.nesting_move body,
      Stmt.nesting_move other]
  | .while start test body => by
    simp [Stmt.move, Stmt.nesting, Expr.nesting_move test, Block.nesting_move body]
  | .return start value => by simp [Stmt.move, Stmt.nesting, Expr.nesting_move value]
  | .returnBare start => by simp [Stmt.move, Stmt.nesting]
  | .function start name params body => by
    simp [Stmt.move, Stmt.nesting, Block.nesting_move body]
  | .block body => by simp [Stmt.move, Stmt.nesting, Block.nesting_move body]
  | .expr value => by simp [Stmt.move, Stmt.nesting, Expr.nesting_move value]
  | .empty start => by simp [Stmt.move, Stmt.nesting]

end

theorem Program.nesting_move (p : Program) :
    Program.nesting (p.map (Stmt.move f)) = Program.nesting p := by
  rw [← moveBody_eq_map]
  exact nestingOfBody_move f p

/-! ## The reader -/

def FunctionHead.move : FunctionHead → FunctionHead
  | .named start name => .named (f start) (name.move f)
  | .value start => .value (f start)

def BodyOf.move : BodyOf → BodyOf
  | .plain => .plain
  | .ifBody start test => .ifBody (f start) (test.move f)
  | .elseBody start test body => .elseBody (f start) (test.move f) (body.move f)
  | .whileBody start test => .whileBody (f start) (test.move f)
  | .function head params => .function (head.move f) (params.map (Name.move f))

def Frame.move : Frame → Frame
  | .items before => .items (before.map (Stmt.move f))
  | .body of start => .body (of.move f) (f start)
  | .elseIf start condition block => .elseIf (f start) (condition.move f) (block.move f)
  | .declared start name => .declared (f start) (name.move f)
  | .assigned name => .assigned (name.move f)
  | .returned start => .returned (f start)
  | .stated => .stated
  | .test of start => .test of (f start)
  | .paren start => .paren (f start)
  | .argument callee before => .argument (callee.move f) (before.map (Expr.move f))
  | .constructed start name before =>
    .constructed (f start) (name.move f) (before.map (Expr.move f))
  | .operand start op => .operand (f start) op
  | .rightOf left op place => .rightOf (left.move f) op (f place)

def Mode.move : Mode → Mode
  | .items before braced => .items (before.map (Stmt.move f)) braced
  | .leading name => .leading (name.move f)
  | .declareName start => .declareName (f start)
  | .declareTail start name => .declareTail (f start) (name.move f)
  | .testOpen of start => .testOpen of (f start)
  | .bodyOpen of => .bodyOpen (of.move f)
  | .ifTail start test body => .ifTail (f start) (test.move f) (body.move f)
  | .elseOpen start test body => .elseOpen (f start) (test.move f) (body.move f)
  | .returnTail start => .returnTail (f start)
  | .functionName start => .functionName (f start)
  | .paramsOpen head => .paramsOpen (head.move f)
  | .paramsFirst head => .paramsFirst (head.move f)
  | .paramsName head before => .paramsName (head.move f) (before.map (Name.move f))
  | .paramsTail head before => .paramsTail (head.move f) (before.map (Name.move f))
  | .operand => .operand
  | .operator e braced => .operator (e.move f) braced
  | .memberName object => .memberName (object.move f)
  | .constructName start => .constructName (f start)
  | .constructOpen start name => .constructOpen (f start) (name.move f)
  | .argsFirst => .argsFirst

variable (above : List Stmt)

/-- The open phrases of a program, and the same ones moved behind the statements `above`. -/
inductive Below : List Frame → List Frame → Prop
  | bottom {ss} : Below [.items ss] [.items (ss.map (Stmt.move f) ++ above)]
  | inside {fr frames frames'} : Below frames frames' → Below (fr :: frames) (fr.move f :: frames')

/-- A state of the reader in a program, and the same one moved behind the statements `above`. -/
inductive State.Below : State → State → Prop
  | items {ss ss' braced frames frames'} :
      Source.Below f above (.items ss :: frames) (.items ss' :: frames') →
      State.Below ⟨.items ss braced, frames⟩ ⟨.items ss' braced, frames'⟩
  | other {mode frames frames'} : Source.Below f above frames frames' →
      State.Below ⟨mode, frames⟩ ⟨mode.move f, frames'⟩

variable {f above} {frames frames' : List Frame}

theorem Expr.isMember_move (e : Expr) : (e.move f).isMember = e.isMember := by cases e <;> rfl

theorem Block.move_reverse (start : Place) (ss : List Stmt) :
    (Block.mk start ss.reverse).move f = .mk (f start) (ss.map (Stmt.move f)).reverse := by
  rw [Block.move, moveBody_eq_map, List.map_reverse]

theorem moveArgs_reverse (es : List Expr) :
    moveArgs f es.reverse = (es.map (Expr.move f)).reverse := by
  rw [moveArgs_eq_map, List.map_reverse]

namespace State

variable {l : Lexeme} {p : Place}

theorem below_of {mode mode' : Mode} (h : Source.Below f above frames frames')
    (same : mode.move f = mode') :
    Option.Rel (State.Below f above) (some ⟨mode, frames⟩) (some ⟨mode', frames'⟩) :=
  .some (same ▸ .other h)

theorem below_beginExpr (h : Source.Below f above frames frames') (l : Lexeme) (p : Place) :
    Option.Rel (State.Below f above) (beginExpr frames l p) (beginExpr frames' l (f p)) := by
  cases l with
  | numeral s => exact below_of h rfl
  | word s =>
    simp only [beginExpr]
    cases Keyword.ofText? s with
    | none => exact below_of h rfl
    | some k => cases k <;> exact below_of h rfl
  | mark m =>
    cases m with
    | openParen | minus | plus | increment | decrement => exact below_of (.inside h) rfl
    | _ => exact .none

theorem below_endStmt (h : Source.Below f above frames frames') (s : Stmt) (braced : Bool) :
    Option.Rel (State.Below f above) (endStmt s braced frames)
      (endStmt (s.move f) braced frames') := by
  induction h generalizing s with
  | bottom => exact .some (.items .bottom)
  | @inside fr frames frames' h ih =>
    cases fr with
    | items before => exact .some (.items (.inside h))
    | elseIf start test body => exact ih (.ifElse start test body s)
    | _ => exact .none

theorem below_endBody (h : Source.Below f above frames frames') (ss : List Stmt) :
    Option.Rel (State.Below f above) (endBody ss frames)
      (endBody (ss.map (Stmt.move f)) frames') := by
  cases h with
  | bottom => exact .none
  | @inside fr frames frames' h =>
    cases fr with
    | body of start =>
      simp only [Frame.move, endBody, ← Block.move_reverse]
      cases of with
      | plain => exact below_endStmt h (.block (.mk start ss.reverse)) true
      | ifBody => exact below_of h rfl
      | elseBody start' test body =>
        exact below_endStmt h (.ifElse start' test body (.block (.mk start ss.reverse))) true
      | whileBody start' test =>
        exact below_endStmt h (.while start' test (.mk start ss.reverse)) true
      | function head params =>
        cases head with
        | named start' name =>
          exact below_endStmt h (.function start' name params (.mk start ss.reverse)) true
        | value => exact below_of h rfl
    | _ => exact .none

theorem below_beginStmt {ss ss' : List Stmt}
    (h : Source.Below f above (.items ss :: frames) (.items ss' :: frames')) (braced : Bool)
    (l : Lexeme) (p : Place) :
    Option.Rel (State.Below f above) (beginStmt ss braced frames l p)
      (beginStmt ss' braced frames' l (f p)) := by
  have inside : Source.Below f above (.stated :: .items ss :: frames)
      (.stated :: .items ss' :: frames') := .inside h
  have stated := below_beginExpr inside l p
  cases l with
  | numeral s => exact stated
  | word s =>
    simp only [beginStmt]
    cases Keyword.ofText? s with
    | none => exact below_of h rfl
    | some k =>
      cases k with
      | varWord | ifWord | whileWord | returnWord | functionWord => exact below_of h rfl
      | elseWord =>
        cases braced with
        | true => exact .none
        | false => exact below_of h rfl
      | _ => exact stated
  | mark m =>
    cases m with
    | semicolon =>
      refine .some (.items ?_)
      cases h with
      | bottom => exact .bottom
      | inside h => exact .inside h
    | openBrace => exact .some (.items (.inside (.inside h)))
    | closeBrace =>
      cases h with
      | bottom => exact .none
      | inside h => exact below_endBody h ss
    | _ => exact stated

theorem below_settle (h : Source.Below f above frames frames') (level : Nat) (e : Expr) :
    Source.Below f above (settle level e frames).2 (settle level (e.move f) frames').2 ∧
      (settle level (e.move f) frames').1 = (settle level e frames).1.move f := by
  induction h generalizing e with
  | bottom => exact ⟨.bottom, rfl⟩
  | @inside fr frames frames' h ih =>
    cases fr with
    | operand start op => exact ih (.unary start op e)
    | rightOf left op place =>
      by_cases closes : level ≤ op.level
      · rw [Frame.move, settle, settle, if_pos closes, if_pos closes]
        exact ih (.binary left op place e)
      · rw [Frame.move, settle, settle, if_neg closes, if_neg closes]
        exact ⟨.inside h, rfl⟩
    | _ => exact ⟨.inside h, rfl⟩

theorem below_endAtSemicolon (h : Source.Below f above frames frames') (e : Expr) :
    Option.Rel (State.Below f above) (endAtSemicolon e frames)
      (endAtSemicolon (e.move f) frames') := by
  cases h with
  | bottom => exact .none
  | @inside fr frames frames' h =>
    cases fr with
    | stated => exact below_endStmt h (.expr e) false
    | declared start name => exact below_endStmt h (.declare start name e) false
    | assigned name => exact below_endStmt h (.assign name e) false
    | returned start => exact below_endStmt h (.return start e) false
    | _ => exact .none

theorem below_endAtParen (h : Source.Below f above frames frames') (e : Expr) :
    Option.Rel (State.Below f above) (endAtParen e frames) (endAtParen (e.move f) frames') := by
  cases h with
  | bottom => exact .none
  | @inside fr frames frames' h =>
    cases fr with
    | paren => exact below_of h rfl
    | argument callee before =>
      exact below_of h (congrArg (fun args => Mode.operator (.call (callee.move f) args) false)
        (moveArgs_reverse (e :: before)))
    | constructed start name before =>
      exact below_of h (congrArg
        (fun args => Mode.operator (.construct (f start) (name.move f) args) false)
        (moveArgs_reverse (e :: before)))
    | test of => cases of <;> exact below_of h rfl
    | _ => exact .none

theorem below_endAtComma (h : Source.Below f above frames frames') (e : Expr) :
    Option.Rel (State.Below f above) (endAtComma e frames) (endAtComma (e.move f) frames') := by
  cases h with
  | bottom => exact .none
  | @inside fr frames frames' h =>
    cases fr with
    | argument callee before => exact below_of (.inside h) rfl
    | constructed start name before => exact below_of (.inside h) rfl
    | _ => exact .none

theorem below_endNoArgs (h : Source.Below f above frames frames') :
    Option.Rel (State.Below f above) (endNoArgs frames) (endNoArgs frames') := by
  cases h with
  | bottom => exact .none
  | @inside fr frames frames' h =>
    cases fr with
    | argument callee before =>
      cases before with
      | nil => exact below_of h rfl
      | cons => exact .none
    | constructed start name before =>
      cases before with
      | nil => exact below_of h rfl
      | cons => exact .none
    | _ => exact .none

theorem below_continueExpr (h : Source.Below f above frames frames') (e : Expr) (l : Lexeme)
    (p : Place) :
    Option.Rel (State.Below f above) (continueExpr e frames l p)
      (continueExpr (e.move f) frames' l (f p)) := by
  obtain ⟨whole, same⟩ := below_settle h 0 e
  cases l with
  | numeral s => exact .none
  | word s => exact .none
  | mark m =>
    cases hm : BinaryOp.ofMark? m with
    | some op =>
      obtain ⟨left, sameLeft⟩ := below_settle h op.level e
      rw [continueExpr_op hm, continueExpr_op hm, sameLeft]
      exact below_of (.inside left) rfl
    | none =>
      cases m with
      | increment | decrement => exact below_of h rfl
      | openParen =>
        simp only [continueExpr, Expr.isMember_move]
        split
        · exact below_of (.inside h) rfl
        · exact .none
      | dot =>
        simp only [continueExpr, Expr.isMember_move]
        split
        · exact below_of h rfl
        · exact .none
      | semicolon =>
        simp only [continueExpr, same]
        exact below_endAtSemicolon whole _
      | closeParen =>
        simp only [continueExpr, same]
        exact below_endAtParen whole _
      | comma =>
        simp only [continueExpr, same]
        exact below_endAtComma whole _
      | becomes | openBrace | closeBrace => exact .none
      | _ => cases hm

theorem below_continueIf (h : Source.Below f above frames frames') (start : Place) (test : Expr)
    (body : Block) (l : Lexeme) (p : Place) :
    Option.Rel (State.Below f above) (continueIf start test body frames l p)
      (continueIf (f start) (test.move f) (body.move f) frames' l (f p)) := by
  by_cases other : l = .word Keyword.elseWord.text
  · simp only [continueIf, if_pos other]
    exact below_of h rfl
  · simp only [continueIf, if_neg other, endIf]
    have ended := below_endStmt h (.ifOnly start test body) true
    simp only [Stmt.move] at ended
    generalize endStmt (.ifOnly start test body) true frames = st at ended ⊢
    generalize endStmt (.ifOnly (f start) (test.move f) (body.move f)) true frames' = st' at ended ⊢
    cases ended with
    | none => exact .none
    | some below =>
      cases below with
      | items h => exact below_beginStmt h _ l p
      | @other mode _ _ h =>
        cases mode with
        | items before braced => exact below_beginStmt (.inside h) braced l p
        | _ => exact .none

/-- The next state, with a name that a word gives. -/
theorem below_word (h : Source.Below f above frames frames') (mode mode' : Name → Mode)
    (same : ∀ name, (mode name).move f = mode' (name.move f)) (l : Lexeme) (p : Place) :
    Option.Rel (State.Below f above) (l.word?.map fun s => ⟨mode ⟨s, p⟩, frames⟩)
      (l.word?.map fun s => ⟨mode' ⟨s, f p⟩, frames'⟩) := by
  cases l.word? with
  | none => exact .none
  | some s => exact below_of h (same ⟨s, p⟩)

theorem below_ite {c : Prop} [Decidable c] {x x' y y' : Option State}
    (h : Option.Rel (State.Below f above) x x') (h' : Option.Rel (State.Below f above) y y') :
    Option.Rel (State.Below f above) (if c then x else y) (if c then x' else y') := by
  split
  · exact h
  · exact h'

/-- One token is taken alike by a program and by the same one behind other statements. -/
theorem below_step {st st' : State} (h : st.Below f above st') (l : Lexeme) (p : Place) :
    Option.Rel (State.Below f above) (st.step l p) (st'.step l (f p)) := by
  cases h with
  | items h => exact below_beginStmt h _ l p
  | @other mode frames frames' h =>
    have opened {mode mode' : Mode} (fr : Frame) (same : mode.move f = mode') :
        Option.Rel (State.Below f above) (some ⟨mode, fr :: frames⟩)
          (some ⟨mode', fr.move f :: frames'⟩) := below_of (.inside h) same
    cases mode with
    | items before braced => exact below_beginStmt (.inside h) braced l p
    | leading name =>
      exact below_ite (opened (.assigned name) rfl)
        (below_continueExpr (.inside h) (.atom .identifier name) l p)
    | declareName start =>
      exact below_word h (.declareTail start) (.declareTail (f start)) (fun _ => rfl) l p
    | declareTail start name =>
      exact below_ite (opened (.declared start name) rfl)
        (below_ite (below_endStmt h (.declareBare start name) false) .none)
    | testOpen of start => exact below_ite (opened (.test of start) rfl) .none
    | bodyOpen of => exact below_ite (opened (.body of p) rfl) .none
    | ifTail start test body => exact below_continueIf h start test body l p
    | elseOpen start test body =>
      exact below_ite (opened (.body (.elseBody start test body) p) rfl)
        (below_ite (opened (.elseIf start test body) rfl) .none)
    | returnTail start =>
      exact below_ite (below_endStmt h (.returnBare start) false)
        (below_beginExpr (.inside h) l p)
    | functionName start =>
      exact below_ite (opened .stated rfl)
        (below_word h (fun name => .paramsOpen (.named start name))
          (fun name => .paramsOpen (.named (f start) name)) (fun _ => rfl) l p)
    | paramsOpen head => exact below_ite (below_of h rfl) .none
    | paramsFirst head =>
      exact below_ite (below_of h rfl) (below_word h (fun name => .paramsTail head [name])
        (fun name => .paramsTail (head.move f) [name]) (fun _ => rfl) l p)
    | paramsName head before =>
      exact below_word h (fun name => .paramsTail head (name :: before))
        (fun name => .paramsTail (head.move f) (name :: before.map (Name.move f)))
        (fun _ => rfl) l p
    | paramsTail head before =>
      refine below_ite (below_of h rfl) (below_ite (below_of h ?_) .none)
      rw [Mode.move, BodyOf.move, List.map_reverse]
    | operand => exact below_beginExpr h l p
    | operator e braced => exact below_continueExpr h e l p
    | memberName object =>
      exact below_word h (fun name => .operator (.member object name) false)
        (fun name => .operator (.member (object.move f) name) false) (fun _ => rfl) l p
    | constructName start =>
      exact below_word h (.constructOpen start) (.constructOpen (f start)) (fun _ => rfl) l p
    | constructOpen start name => exact below_ite (opened (.constructed start name []) rfl) .none
    | argsFirst => exact below_ite (below_endNoArgs h) (below_beginExpr h l p)

/-- Moved tokens are read alike. -/
theorem below_run {st st' done : State} (h : st.Below f above st') {g : Token → Token}
    (lexeme : ∀ t, (g t).lexeme = t.lexeme) (place : ∀ t, (g t).place = f t.place) {ts : List Token}
    (read : st.run ts = .ok done) :
    ∃ done', st'.run (ts.map g) = .ok done' ∧ done.Below f above done' := by
  induction ts generalizing st st' with
  | nil =>
    cases read
    exact ⟨st', rfl, h⟩
  | cons t ts ih =>
    have next := below_step h t.lexeme t.place
    rw [State.run] at read
    rw [List.map_cons, State.run, lexeme, place]
    generalize st.step t.lexeme t.place = after at next read
    generalize st'.step t.lexeme (f t.place) = after' at next ⊢
    cases next with
    | none => cases read
    | some below => exact ih below read

/-- Where a statement may end, the moved one may. -/
theorem below_settles {st st' next : State} (h : st.Below f above st') (ended : st.Settles next) :
    ∃ next', st'.Settles next' ∧ next.Below f above next' := by
  rcases ended with rfl | ⟨start, test, body, mode, ended⟩
  · exact ⟨st', .inl rfl, h⟩
  · cases h with
    | items => cases mode
    | other h =>
      cases mode
      have rest := below_endStmt h (.ifOnly start test body) true
      rw [show endStmt _ _ _ = _ from ended] at rest
      generalize ended' : endStmt _ true _ = next' at rest
      cases rest with
      | some below => exact ⟨_, .inr ⟨_, _, _, rfl, ended'⟩, below⟩

end State

end Source

end

end Scriptlet
