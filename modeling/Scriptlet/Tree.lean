import Scriptlet.Place
/-!
Statement trees, the form in which a program is run and stored. A tree is a token, a labelled node
or a missing child, and either of the first two may lack a place. Labels and token kinds outside
the language are kept, so that a tree made by hand can hold any.
-/

namespace Scriptlet

inductive TokenKind
  | number | trueWord | falseWord | nullWord | undefinedWord | identifier
  | equality | ordering | plus | minus | star | slash
  | other (name : String)
deriving DecidableEq, Repr

namespace TokenKind

def name : TokenKind → String
  | number => "NUMBER"
  | trueWord => "TRUE"
  | falseWord => "FALSE"
  | nullWord => "NULL"
  | undefinedWord => "UNDEFINED"
  | identifier => "IDENT"
  | equality => "EQ_OP"
  | ordering => "CMP_OP"
  | plus => "PLUS"
  | minus => "MINUS"
  | star => "STAR"
  | slash => "SLASH"
  | other name => name

def all : List TokenKind :=
  [number, trueWord, falseWord, nullWord, undefinedWord, identifier, equality, ordering, plus,
   minus, star, slash]

def ofName (s : String) : TokenKind := (all.find? fun k => k.name = s).getD (other s)

end TokenKind

inductive Label
  | seq | empty | decl | assign | bareExpr | conditional | loop | ret
  | function | call | add | mul | compare | and | or | neg | pos
  | preIncrement | preDecrement | postIncrement | postDecrement
  | member | construct | params | args
  | other (name : String)
deriving DecidableEq, Repr

namespace Label

def name : Label → String
  | seq => "seq"
  | empty => "empty"
  | decl => "decl"
  | assign => "assign"
  | bareExpr => "bareexp"
  | conditional => "ifstmt"
  | loop => "whilestmt"
  | ret => "ret"
  | function => "defun"
  | call => "call"
  | add => "add"
  | mul => "mul"
  | compare => "compare"
  | and => "and"
  | or => "or"
  | neg => "neg"
  | pos => "pos"
  | preIncrement => "preinc"
  | preDecrement => "predec"
  | postIncrement => "postinc"
  | postDecrement => "postdec"
  | member => "instance_var"
  | construct => "new_object"
  | params => "params"
  | args => "args"
  | other name => name

def all : List Label :=
  [seq, empty, decl, assign, bareExpr, conditional, loop, ret, function, call, add, mul, compare,
   and, or, neg, pos, preIncrement, preDecrement, postIncrement, postDecrement, member, construct,
   params, args]

def ofName (s : String) : Label := (all.find? fun l => l.name = s).getD (other s)

end Label

inductive Tree
  | missing
  | token (kind : TokenKind) (text : String) (place : Option Place)
  | node (label : Label) (place : Option Place) (children : List Tree)
deriving Inhabited

namespace Tree

def place? : Tree → Option Place
  | missing => none
  | token _ _ place => place
  | node _ place _ => place

/-- What a tree is called in messages. -/
def kindName : Tree → String
  | missing => "NoneType"
  | token kind _ _ => kind.name
  | node label _ _ => label.name

def children : Tree → List Tree
  | node _ _ children => children
  | _ => []

/-- The name that an identifier token spells. -/
def identifier? : Tree → Option String
  | token .identifier text _ => some text
  | _ => none

/-- A statement list as a tree, nested to the right; every `seq` node gets the place of the list. -/
def sequence (place : Option Place) : List Tree → Tree
  | [] => node .empty place []
  | [t] => t
  | t :: ts => node .seq place [t, sequence place ts]

mutual

/-- The tree without its places. -/
def bare : Tree → Tree
  | missing => missing
  | token kind text _ => token kind text none
  | node label _ children => node label none (bareAll children)

def bareAll : List Tree → List Tree
  | [] => []
  | t :: ts => bare t :: bareAll ts

end

theorem bareAll_eq_map (ts : List Tree) : bareAll ts = ts.map bare := by
  induction ts with
  | nil => rfl
  | cons t ts ih => simp [bareAll, ih]

@[simp]
theorem bare_missing : missing.bare = missing := by rw [bare]

@[simp]
theorem bare_token (kind : TokenKind) (text : String) (place : Option Place) :
    (token kind text place).bare = token kind text none := by rw [bare]

@[simp]
theorem bare_node (label : Label) (place : Option Place) (children : List Tree) :
    (node label place children).bare = node label none (children.map bare) := by
  rw [bare, bareAll_eq_map]

theorem bare_sequence (place : Option Place) (ts : List Tree) :
    (sequence place ts).bare = sequence none (ts.map bare) := by
  fun_induction sequence place ts with
  | case1 => simp [sequence]
  | case2 t => simp [sequence]
  | case3 t ts more ih =>
    cases ts with
    | nil => exact absurd rfl more
    | cons t' ts => simpa [sequence] using ih

end Tree

end Scriptlet
