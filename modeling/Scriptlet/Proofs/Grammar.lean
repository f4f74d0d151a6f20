import Scriptlet.Source.Parse
/-!
# The grammar

`Derives plain sym ts trees`: the symbol `sym` has a derivation of the tokens `ts`, and `trees` are
the children that it gives the node around it once the derivation is lowered to trees without
places. There is a rule for each alternative of the grammar. A list of statements, names or
arguments gives any number of children, every other symbol gives one.

An identifier may spell a keyword. `plain` says what the identifiers may be that stand where a
keyword might.
-/

namespace Scriptlet.Source

/-- The words that a keyword or a value of the language spells. -/
def reserved : List String :=
  ["var", "if", "else", "while", "return", "function", "new", "true", "false", "null", "undefined"]

/-! ## Terminals -/

/-- `[A-Za-z_$][A-Za-z0-9_$]*` -/
def IsIdentifier (s : String) : Prop :=
  ∃ c cs, s.toList = c :: cs ∧ (c.isAlpha ∨ c = '_' ∨ c = '$') ∧
    ∀ d ∈ cs, d.isAlphanum ∨ d = '_' ∨ d = '$'

/-- `\d+\.\d*|\.\d+|\d+` -/
inductive IsMantissa : List Char → Prop
  | point {whole fraction} : whole ≠ [] → (∀ c ∈ whole, Text.isDigit c) →
      (∀ c ∈ fraction, Text.isDigit c) → IsMantissa (whole ++ '.' :: fraction)
  | fraction {fraction} : fraction ≠ [] → (∀ c ∈ fraction, Text.isDigit c) →
      IsMantissa ('.' :: fraction)
  | whole {whole} : whole ≠ [] → (∀ c ∈ whole, Text.isDigit c) → IsMantissa whole

/-- `([eE][+-]?\d+)?` -/
inductive IsExponent : List Char → Prop
  | none : IsExponent []
  | some {mark sign digits} : mark = 'e' ∨ mark = 'E' → sign = [] ∨ sign = ['+'] ∨ sign = ['-'] →
      digits ≠ [] → (∀ c ∈ digits, Text.isDigit c) → IsExponent (mark :: (sign ++ digits))

def IsNumber (s : String) : Prop :=
  ∃ mantissa exponent, s.toList = mantissa ++ exponent ∧ IsMantissa mantissa ∧ IsExponent exponent

/-! ## Symbols -/

inductive Symbol
  | start | stmts | stmt | ifstmt | elseBody | block | params | names | args | exprs
  | expr | orExpr | andExpr | equality | comparison | sum | product
  | unary | postfixExpr | member | primary
deriving DecidableEq

/-- What an expression may be without an operator of its own level. -/
def Symbol.tighter? : Symbol → Option Symbol
  | expr => some orExpr
  | orExpr => some andExpr
  | andExpr => some equality
  | equality => some comparison
  | comparison => some sum
  | sum => some product
  | product => some unary
  | unary => some postfixExpr
  | postfixExpr => some member
  | member => some primary
  | _ => none

/-- The operators between operands: the symbol that each belongs to, its label, and the children
that it gives the node itself. -/
inductive Operator : Symbol → Mark → Label → List Tree → Prop
  | or : Operator .orExpr .either .or []
  | and : Operator .andExpr .both .and []
  | equal : Operator .equality .equal .compare [.token .equality "==" none]
  | notEqual : Operator .equality .notEqual .compare [.token .equality "!=" none]
  | atMost : Operator .comparison .atMost .compare [.token .ordering "<=" none]
  | atLeast : Operator .comparison .atLeast .compare [.token .ordering ">=" none]
  | below : Operator .comparison .below .compare [.token .ordering "<" none]
  | above : Operator .comparison .above .compare [.token .ordering ">" none]
  | plus : Operator .sum .plus .add [.token .plus "+" none]
  | minus : Operator .sum .minus .add [.token .minus "-" none]
  | star : Operator .product .star .mul [.token .star "*" none]
  | slash : Operator .product .slash .mul [.token .slash "/" none]

inductive Before : Mark → Label → Prop
  | minus : Before .minus .neg
  | plus : Before .plus .pos
  | increment : Before .increment .preIncrement
  | decrement : Before .decrement .preDecrement

inductive Behind : Mark → Label → Prop
  | increment : Behind .increment .postIncrement
  | decrement : Behind .decrement .postDecrement

/-- The words for values. -/
inductive Constant : String → TokenKind → Prop
  | true : Constant "true" .trueWord
  | false : Constant "false" .falseWord
  | null : Constant "null" .nullWord
  | undefined : Constant "undefined" .undefinedWord

def nameTree (x : String) : Tree := .token .identifier x none

/-- The value of a declaration or return without one. -/
def undefinedTree : Tree := .token .undefinedWord "undefined" none

/-! ## Derivations -/

inductive Derives (plain : String → Prop) : Symbol → List Lexeme → List Tree → Prop
  | start {ts ss} : Derives plain .stmts ts ss → Derives plain .start ts [.sequence none ss]
  | stmtsNone : Derives plain .stmts [] []
  | stmtsNext {ts us s ss} : Derives plain .stmt ts [s] → Derives plain .stmts us ss →
      Derives plain .stmts (ts ++ us) (s :: ss)
  | declare {x ts e} : IsIdentifier x → Derives plain .expr ts [e] →
      Derives plain .stmt
        (.word "var" :: .word x :: .mark .becomes :: (ts ++ [.mark .semicolon]))
        [.node .decl none [nameTree x, e]]
  | declareBare {x} : IsIdentifier x →
      Derives plain .stmt [.word "var", .word x, .mark .semicolon]
        [.node .decl none [nameTree x, undefinedTree]]
  | assign {x ts e} : IsIdentifier x → plain x → Derives plain .expr ts [e] →
      Derives plain .stmt (.word x :: .mark .becomes :: (ts ++ [.mark .semicolon]))
        [.node .assign none [nameTree x, e]]
  | ifStmt {ts s} : Derives plain .ifstmt ts [s] → Derives plain .stmt ts [s]
  | whileStmt {ts us e b} : Derives plain .expr ts [e] → Derives plain .block us [b] →
      Derives plain .stmt
        (.word "while" :: .mark .openParen :: (ts ++ .mark .closeParen :: us))
        [.node .loop none [e, b]]
  | ret {ts e} : Derives plain .expr ts [e] →
      Derives plain .stmt (.word "return" :: (ts ++ [.mark .semicolon])) [.node .ret none [e]]
  | retBare : Derives plain .stmt [.word "return", .mark .semicolon]
      [.node .ret none [undefinedTree]]
  | function {x ts us ps b} : IsIdentifier x → Derives plain .params ts [ps] →
      Derives plain .block us [b] →
      Derives plain .stmt
        (.word "function" :: .word x :: .mark .openParen :: (ts ++ .mark .closeParen :: us))
        [.node .bareExpr none [.node .function none [nameTree x, ps, b]]]
  | blockStmt {ts b} : Derives plain .block ts [b] → Derives plain .stmt ts [b]
  | exprStmt {ts e} : Derives plain .expr ts [e] →
      Derives plain .stmt (ts ++ [.mark .semicolon]) [.node .bareExpr none [e]]
  | empty : Derives plain .stmt [.mark .semicolon] [.node .empty none []]
  | ifOnly {ts us e b} : Derives plain .expr ts [e] → Derives plain .block us [b] →
      Derives plain .ifstmt (.word "if" :: .mark .openParen :: (ts ++ .mark .closeParen :: us))
        [.node .conditional none [e, b, .missing]]
  | ifElse {ts us vs e b c} : Derives plain .expr ts [e] → Derives plain .block us [b] →
      Derives plain .elseBody vs [c] →
      Derives plain .ifstmt
        (.word "if" :: .mark .openParen :: (ts ++ .mark .closeParen :: (us ++ .word "else" :: vs)))
        [.node .conditional none [e, b, c]]
  | elseBlock {ts b} : Derives plain .block ts [b] → Derives plain .elseBody ts [b]
  | elseIf {ts s} : Derives plain .ifstmt ts [s] → Derives plain .elseBody ts [s]
  | block {ts ss} : Derives plain .stmts ts ss →
      Derives plain .block (.mark .openBrace :: (ts ++ [.mark .closeBrace])) [.sequence none ss]
  | paramsNone : Derives plain .params [] [.node .params none []]
  | paramsSome {ts ps} : Derives plain .names ts ps →
      Derives plain .params ts [.node .params none ps]
  | nameLast {x} : IsIdentifier x → Derives plain .names [.word x] [nameTree x]
  | nameNext {x ts ps} : IsIdentifier x → Derives plain .names ts ps →
      Derives plain .names (.word x :: .mark .comma :: ts) (nameTree x :: ps)
  | argsNone : Derives plain .args [] [.node .args none []]
  | argsSome {ts es} : Derives plain .exprs ts es → Derives plain .args ts [.node .args none es]
  | exprLast {ts e} : Derives plain .expr ts [e] → Derives plain .exprs ts [e]
  | exprNext {ts us e es} : Derives plain .expr ts [e] → Derives plain .exprs us es →
      Derives plain .exprs (ts ++ .mark .comma :: us) (e :: es)
  | lift {sym next ts e} : sym.tighter? = some next → Derives plain next ts [e] →
      Derives plain sym ts [e]
  | binary {sym next m label kept ts us a b} : Operator sym m label kept →
      sym.tighter? = some next → Derives plain sym ts [a] → Derives plain next us [b] →
      Derives plain sym (ts ++ .mark m :: us) [.node label none (a :: (kept ++ [b]))]
  | before {m label ts e} : Before m label → Derives plain .unary ts [e] →
      Derives plain .unary (.mark m :: ts) [.node label none [e]]
  | behind {m label ts e} : Behind m label → Derives plain .postfixExpr ts [e] →
      Derives plain .postfixExpr (ts ++ [.mark m]) [.node label none [e]]
  | call {ts us f as} : Derives plain .member ts [f] → Derives plain .args us [as] →
      Derives plain .member (ts ++ .mark .openParen :: (us ++ [.mark .closeParen]))
        [.node .call none [f, as]]
  | member {ts o x} : Derives plain .member ts [o] → IsIdentifier x →
      Derives plain .member (ts ++ [.mark .dot, .word x]) [.node .member none [o, nameTree x]]
  | number {s} : IsNumber s → Derives plain .primary [.numeral s] [.token .number s none]
  | constant {s kind} : Constant s kind → Derives plain .primary [.word s] [.token kind s none]
  | identifier {x} : IsIdentifier x → plain x → Derives plain .primary [.word x] [nameTree x]
  | paren {ts e} : Derives plain .expr ts [e] →
      Derives plain .primary (.mark .openParen :: (ts ++ [.mark .closeParen])) [e]
  | functionValue {ts us ps b} : Derives plain .params ts [ps] → Derives plain .block us [b] →
      Derives plain .primary
        (.word "function" :: .mark .openParen :: (ts ++ .mark .closeParen :: us))
        [.node .function none [.missing, ps, b]]
  | construct {x ts as} : IsIdentifier x → Derives plain .args ts [as] →
      Derives plain .primary
        (.word "new" :: .word x :: .mark .openParen :: (ts ++ [.mark .closeParen]))
        [.node .construct none [nameTree x, as]]

/-- The tokens in order, with one space between any two. -/
def spaced (ts : List Lexeme) : String := " ".intercalate (ts.map Lexeme.text)

/-! ## Whole lexemes -/

/-- A lexeme that is spelled as its terminal asks. -/
def Lexeme.Valid : Lexeme → Prop
  | word s => IsIdentifier s
  | numeral s => IsNumber s
  | mark _ => True

@[simp]
theorem Lexeme.valid_word {s : String} : (word s).Valid ↔ IsIdentifier s := Iff.rfl

@[simp]
theorem Lexeme.valid_mark {m : Mark} : (mark m).Valid := trivial

theorem isWordStart_iff {c : Char} : isWordStart c ↔ c.isAlpha ∨ c = '_' ∨ c = '$' := by
  simp [isWordStart, or_assoc]

theorem isWordPart_iff {c : Char} : isWordPart c ↔ c.isAlphanum ∨ c = '_' ∨ c = '$' := by
  simp [isWordPart, or_assoc]

theorem isIdentifier_of_toList {s : String} {c : Char} {cs : List Char} (hs : s.toList = c :: cs)
    (start : isWordStart c) (parts : cs.all isWordPart) : IsIdentifier s :=
  ⟨c, cs, hs, isWordStart_iff.mp start,
    fun d hd => isWordPart_iff.mp (List.all_eq_true.mp parts d hd)⟩

theorem isIdentifier_of_mem_reserved {s : String} (h : s ∈ reserved) : IsIdentifier s := by
  simp only [reserved, List.mem_cons, List.not_mem_nil, or_false] at h
  rcases h with rfl | rfl | rfl | rfl | rfl | rfl | rfl | rfl | rfl | rfl | rfl <;>
    exact isIdentifier_of_toList rfl rfl rfl

theorem Constant.mem_reserved {s : String} {kind : TokenKind} (h : Constant s kind) :
    s ∈ reserved := by
  cases h <;> decide

theorem Derives.valid {plain : String → Prop} {sym : Symbol} {ts : List Lexeme} {trees : List Tree}
    (h : Derives plain sym ts trees) : ∀ l ∈ ts, l.Valid := by
  have words : ∀ s ∈ reserved, IsIdentifier s := fun _ => isIdentifier_of_mem_reserved
  simp only [reserved, List.forall_mem_cons] at words
  induction h with
  | number hn => exact List.forall_mem_cons.mpr ⟨hn, by simp⟩
  | constant hc =>
    exact List.forall_mem_cons.mpr ⟨isIdentifier_of_mem_reserved hc.mem_reserved, by simp⟩
  | _ => simp +contextual [or_imp, *]

end Scriptlet.Source
