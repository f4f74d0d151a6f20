import Scriptlet.Source.Phrase
/-!
From phrases to trees. A node starts where its phrase does. Parentheses leave no node: a
parenthesised node keeps its own place, but the phrase that begins with it starts at the
parenthesis; around a single token they leave no trace at all.
-/

namespace Scriptlet.Source

/-- The tree of a phrase and the place from which an enclosing phrase counts it. -/
structure Lowered where
  start : Place
  tree : Tree

def Name.tree (kind : TokenKind) (name : Name) : Tree := .token kind name.text (some name.place)

def UnaryOp.label : UnaryOp → Label
  | minus => .neg
  | plus => .pos
  | increment => .preIncrement
  | decrement => .preDecrement

def PostfixOp.label : PostfixOp → Label
  | increment => .postIncrement
  | decrement => .postDecrement

namespace BinaryOp

def label : BinaryOp → Label
  | or => .or
  | and => .and
  | equal | notEqual | below | above | atMost | atLeast => .compare
  | plus | minus => .add
  | star | slash => .mul

/-- The token that a tree keeps of an operator; the logical operators keep none. -/
def token? : BinaryOp → Option (TokenKind × String)
  | or | and => none
  | equal => some (.equality, "==")
  | notEqual => some (.equality, "!=")
  | below => some (.ordering, "<")
  | above => some (.ordering, ">")
  | atMost => some (.ordering, "<=")
  | atLeast => some (.ordering, ">=")
  | plus => some (.plus, "+")
  | minus => some (.minus, "-")
  | star => some (.star, "*")
  | slash => some (.slash, "/")

/-- The operator between two operands. -/
def tree (op : BinaryOp) (start place : Place) (left right : Tree) : Tree :=
  match op.token? with
  | none => .node op.label (some start) [left, right]
  | some (kind, text) => .node op.label (some start) [left, .token kind text (some place), right]

end BinaryOp

/-- The place of a list is that of its first member; an empty list has none. -/
def placeOfAll (parts : List Lowered) : Option Place := parts.head?.map (·.start)

def paramsTree (params : List Name) : Tree :=
  .node .params (params.head?.map (·.place)) (params.map (Name.tree .identifier))

def argsTree (args : List Lowered) : Tree :=
  .node .args (placeOfAll args) (args.map (·.tree))

/-- The value of a declaration or return without one. -/
def undefinedAt (start : Place) : Tree := .token .undefinedWord "undefined" (some start)

/-- A parenthesised phrase, from the parenthesis on. -/
def Lowered.inParens (inner : Lowered) (start : Place) : Lowered :=
  match inner.tree with
  | .node .. => ⟨start, inner.tree⟩
  | _ => inner

mutual

def Expr.lower : Expr → Lowered
  | .atom kind name => ⟨name.place, name.tree kind⟩
  | .paren start inner => inner.lower.inParens start
  | .function start params body =>
    ⟨start, .node .function (some start) [.missing, paramsTree params, body.tree]⟩
  | .construct start name args =>
    ⟨start, .node .construct (some start) [name.tree .identifier, argsTree (lowerArgs args)]⟩
  | .call callee args =>
    let f := callee.lower
    ⟨f.start, .node .call (some f.start) [f.tree, argsTree (lowerArgs args)]⟩
  | .member object name =>
    let o := object.lower
    ⟨o.start, .node .member (some o.start) [o.tree, name.tree .identifier]⟩
  | .postfixed operand op =>
    let e := operand.lower
    ⟨e.start, .node op.label (some e.start) [e.tree]⟩
  | .unary start op operand => ⟨start, .node op.label (some start) [operand.lower.tree]⟩
  | .binary left op place right =>
    let l := left.lower
    ⟨l.start, op.tree l.start place l.tree right.lower.tree⟩

def lowerArgs : List Expr → List Lowered
  | [] => []
  | e :: es => e.lower :: lowerArgs es

def Block.tree : Block → Tree
  | .mk start body => .sequence (some start) ((lowerBody body).map (·.tree))

def lowerBody : List Stmt → List Lowered
  | [] => []
  | s :: ss => s.lower :: lowerBody ss

def Stmt.lower : Stmt → Lowered
  | .declare start name value =>
    ⟨start, .node .decl (some start) [name.tree .identifier, value.lower.tree]⟩
  | .declareBare start name =>
    ⟨start, .node .decl (some start) [name.tree .identifier, undefinedAt start]⟩
  | .assign name value =>
    ⟨name.place, .node .assign (some name.place) [name.tree .identifier, value.lower.tree]⟩
  | .ifOnly start test body =>
    ⟨start, .node .conditional (some start) [test.lower.tree, body.tree, .missing]⟩
  | .ifElse start test body other =>
    ⟨start, .node .conditional (some start) [test.lower.tree, body.tree, other.lower.tree]⟩
  | .while start test body => ⟨start, .node .loop (some start) [test.lower.tree, body.tree]⟩
  | .return start value => ⟨start, .node .ret (some start) [value.lower.tree]⟩
  | .returnBare start => ⟨start, .node .ret (some start) [undefinedAt start]⟩
  | .function start name params body =>
    ⟨start, .node .bareExpr (some start)
      [.node .function (some start) [name.tree .identifier, paramsTree params, body.tree]]⟩
  | .block (.mk start body) =>
    ⟨start, .sequence (some start) ((lowerBody body).map (·.tree))⟩
  | .expr value =>
    let e := value.lower
    ⟨e.start, .node .bareExpr (some e.start) [e.tree]⟩
  | .empty start => ⟨start, .node .empty (some start) []⟩

end

theorem lowerArgs_eq_map (es : List Expr) : lowerArgs es = es.map Expr.lower := by
  induction es with
  | nil => rfl
  | cons e es ih => simp [lowerArgs, ih]

theorem lowerBody_eq_map (ss : List Stmt) : lowerBody ss = ss.map Stmt.lower := by
  induction ss with
  | nil => rfl
  | cons s ss ih => simp [lowerBody, ih]

/-- Parentheses leave no node. -/
theorem Expr.tree_paren (start : Place) (e : Expr) : (paren start e).lower.tree = e.lower.tree := by
  rw [lower, Lowered.inParens]
  split <;> rfl

def Program.tree (p : Program) : Tree :=
  let parts := lowerBody p
  .sequence (placeOfAll parts) (parts.map (·.tree))

end Scriptlet.Source
