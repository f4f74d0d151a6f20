import Scriptlet.Proofs.Cutting
import Scriptlet.Proofs.Moves
import Scriptlet.Proofs.Sentences
/-!
# Only sentences are read

Every state of the reader stands for the lexemes that led to it: each open phrase for the part of
a derivation that it has read, and the mode for what came last (`State.Spelled`). One more lexeme
keeps this, so that at the end of an accepted text all of it is derived, with the tree that is
returned.
-/

namespace Scriptlet.Source

/-- Of the words of the language only those that belong to statements are taken for names where a
keyword might stand. -/
def Loose (x : String) : Prop := x ∈ reserved → x ∈ statementWords

/-- A keyword of statements and a word that is none are both names elsewhere. -/
theorem loose_of_keyword {x : String}
    (h : ∀ k, Keyword.ofText? x = some k → k.text ∈ statementWords) : Loose x := by
  intro mem
  simp only [reserved, List.mem_cons, List.not_mem_nil, or_false] at mem
  rcases mem with rfl | rfl | rfl | rfl | rfl | rfl | rfl | rfl | rfl | rfl | rfl <;> exact h _ rfl

variable {ts us vs : List Lexeme}

/-! ## Derivations of phrases -/

/-- What an expression is derived from that has no operator below this level but in parentheses. -/
def Symbol.ofLevel : Nat → Symbol
  | 0 => expr
  | 1 => orExpr
  | 2 => andExpr
  | 3 => equality
  | 4 => comparison
  | 5 => sum
  | 6 => product
  | _ => unary

def Expr.Derived (sym : Symbol) (ts : List Lexeme) (e : Expr) : Prop :=
  Derives Loose sym ts [e.lower.tree.bare]

def Stmt.Derived (sym : Symbol) (ts : List Lexeme) (s : Stmt) : Prop :=
  Derives Loose sym ts [s.lower.tree.bare]

def Block.Derived (ts : List Lexeme) (b : Block) : Prop :=
  Derives Loose .block ts [b.tree.bare]

theorem Expr.Derived.lower {j k : Nat} {e : Expr} (h : e.Derived (.ofLevel j) ts) (le : k ≤ j) :
    e.Derived (.ofLevel k) ts := by
  induction le with
  | refl => exact h
  | @step j _ ih =>
    refine ih ?_
    rcases j with _ | _ | _ | _ | _ | _ | _ | j
    · exact .lift rfl h
    · exact .lift rfl h
    · exact .lift rfl h
    · exact .lift rfl h
    · exact .lift rfl h
    · exact .lift rfl h
    · exact .lift rfl h
    · exact h

theorem Expr.Derived.unary {e : Expr} (h : e.Derived .postfixExpr ts) :
    e.Derived (.ofLevel 7) ts := .lift rfl h

theorem Expr.derived_binary {left right : Expr} {op : BinaryOp} {m : Mark}
    (hm : BinaryOp.ofMark? m = some op) (hl : left.Derived (.ofLevel op.level) ts)
    (hr : right.Derived (.ofLevel (op.level + 1)) us) (place : Place) :
    (binary left op place right).Derived (.ofLevel op.level) (ts ++ .mark m :: us) := by
  have image : (binary left op place right).lower.tree.bare = .node op.label none
      (left.lower.tree.bare ::
        ((op.token?.map fun (kind, text) => Tree.token kind text none).toList ++
        [right.lower.tree.bare])) := by
    cases op <;> simp [Expr.lower, BinaryOp.tree, BinaryOp.token?, BinaryOp.label]
  rw [Expr.Derived, image]
  cases m <;> cases hm
  · exact .binary .equal rfl hl hr
  · exact .binary .notEqual rfl hl hr
  · exact .binary .atMost rfl hl hr
  · exact .binary .atLeast rfl hl hr
  · exact .binary .below rfl hl hr
  · exact .binary .above rfl hl hr
  · exact .binary .plus rfl hl hr
  · exact .binary .minus rfl hl hr
  · exact .binary .star rfl hl hr
  · exact .binary .slash rfl hl hr
  · exact .binary .and rfl hl hr
  · exact .binary .or rfl hl hr

theorem Expr.derived_unary {e : Expr} {op : UnaryOp} {m : Mark} (hm : UnaryOp.ofMark? m = some op)
    (he : e.Derived .unary ts) (start : Place) :
    (Expr.unary start op e).Derived .unary (.mark m :: ts) := by
  have image : (Expr.unary start op e).lower.tree.bare =
      .node op.label none [e.lower.tree.bare] := by
    simp [Expr.lower]
  rw [Expr.Derived, image]
  cases m <;> cases hm
  · exact .before .increment he
  · exact .before .decrement he
  · exact .before .plus he
  · exact .before .minus he

/-- The lexemes of an `if` statement up to the end of its body. -/
def ifLexemes (ts us : List Lexeme) : List Lexeme :=
  .word "if" :: .mark .openParen :: (ts ++ .mark .closeParen :: us)

theorem Stmt.derived_ifElse {test : Expr} {body : Block} {s : Stmt} (start : Place)
    (ht : test.Derived .expr ts) (hb : body.Derived us)
    (hs : Derives Loose .elseBody vs [s.lower.tree.bare]) :
    (Stmt.ifElse start test body s).Derived .ifstmt (ifLexemes ts us ++ .word "else" :: vs) := by
  simpa [Stmt.Derived, Stmt.lower, ifLexemes] using Derives.ifElse ht hb hs

/-- The part of a list that has been read. -/
def Extends (sym : Symbol) (us : List Lexeme) (trees : List Tree) : Prop :=
  ∀ vs rest, Derives Loose sym vs rest → Derives Loose sym (us ++ vs) (trees ++ rest)

theorem Extends.nil (sym : Symbol) : Extends sym [] [] := fun _ _ h => h

/-- Statements, the last first. -/
def DerivedBefore (ts : List Lexeme) (before : List Stmt) : Prop :=
  Extends .stmts ts (before.reverse.map (·.lower.tree.bare))

/-- Arguments, each with the comma behind it, the last first. -/
structure DerivedArgs (ts : List Lexeme) (before : List Expr) : Prop where
  extends_exprs : Extends .exprs ts (before.reverse.map (·.lower.tree.bare))
  none : before = [] → ts = []

/-- Names, each with the comma behind it, the last first. -/
def DerivedNames (ts : List Lexeme) (before : List Name) : Prop :=
  Extends .names ts (before.reverse.map fun name => nameTree name.text)

theorem DerivedBefore.cons {before : List Stmt} {s : Stmt} (h : DerivedBefore ts before)
    (hs : s.Derived .stmt us) : DerivedBefore (ts ++ us) (s :: before) := by
  intro vs rest hrest
  simpa using h _ _ (.stmtsNext hs hrest)

theorem DerivedBefore.block {before : List Stmt} (h : DerivedBefore ts before) (start : Place) :
    (Block.mk start before.reverse).Derived (.mark .openBrace :: (ts ++ [.mark .closeBrace])) := by
  rw [Block.Derived, Block.bare_tree]
  simpa using Derives.block (h [] [] .stmtsNone)

theorem DerivedArgs.cons {before : List Expr} {e : Expr} (h : DerivedArgs ts before)
    (he : e.Derived .expr us) : DerivedArgs (ts ++ (us ++ [.mark .comma])) (e :: before) := by
  refine ⟨fun vs rest hrest => ?_, fun empty => by cases empty⟩
  simpa using h.extends_exprs _ _ (.exprNext he hrest)

theorem DerivedArgs.close {before : List Expr} {e : Expr} (h : DerivedArgs ts before)
    (he : e.Derived .expr us) :
    Derives Loose .args (ts ++ us) [(argsTree (lowerArgs (e :: before).reverse)).bare] := by
  rw [bare_argsTree]
  simpa using Derives.argsSome (h.extends_exprs _ _ (.exprLast he))

theorem derivedArgs_nil : DerivedArgs [] [] := ⟨.nil _, fun _ => rfl⟩

theorem DerivedArgs.close_nil (h : DerivedArgs ts []) :
    Derives Loose .args ts [(argsTree (lowerArgs [])).bare] := by
  obtain rfl := h.none rfl
  rw [bare_argsTree]
  exact .argsNone

theorem DerivedNames.cons {before : List Name} {name : Name} (h : DerivedNames ts before)
    (hn : IsIdentifier name.text) :
    DerivedNames (ts ++ [.word name.text, .mark .comma]) (name :: before) := by
  intro vs rest hrest
  simpa using h _ _ (.nameNext hn hrest)

theorem DerivedNames.close {before : List Name} {name : Name} (h : DerivedNames ts before)
    (hn : IsIdentifier name.text) :
    Derives Loose .params (ts ++ [.word name.text])
      [(paramsTree (name :: before).reverse).bare] := by
  rw [bare_paramsTree]
  simpa using Derives.paramsSome (h _ _ (.nameLast hn))

/-! ## Open phrases -/

inductive FunctionHead.Spelled : FunctionHead → List Lexeme → Prop
  | named {start name} : IsIdentifier name.text →
      Spelled (.named start name) [.word "function", .word name.text]
  | value {start} : Spelled (.value start) [.word "function"]

inductive BodyOf.Spelled : BodyOf → List Lexeme → Prop
  | plain : Spelled .plain []
  | ifBody {start test ts} : test.Derived .expr ts →
      Spelled (.ifBody start test) (ifLexemes ts [])
  | elseBody {start test body ts us} : test.Derived .expr ts → body.Derived us →
      Spelled (.elseBody start test body) (ifLexemes ts us ++ [.word "else"])
  | whileBody {start test ts} : test.Derived .expr ts →
      Spelled (.whileBody start test)
        (.word "while" :: .mark .openParen :: (ts ++ [.mark .closeParen]))
  | function {head params ts us} : head.Spelled ts →
      Derives Loose .params us [(paramsTree params).bare] →
      Spelled (.function head params) (ts ++ .mark .openParen :: (us ++ [.mark .closeParen]))

/-- The lexemes that an open phrase has read. -/
inductive Frame.Spelled : Frame → List Lexeme → Prop
  | items {before ts} : DerivedBefore ts before → Spelled (.items before) ts
  | body {of start ts} : of.Spelled ts → Spelled (.body of start) (ts ++ [.mark .openBrace])
  | elseIf {start test body ts us} : test.Derived .expr ts → body.Derived us →
      Spelled (.elseIf start test body) (ifLexemes ts us ++ [.word "else"])
  | declared {start name} : IsIdentifier name.text →
      Spelled (.declared start name) [.word "var", .word name.text, .mark .becomes]
  | assigned {name} : IsIdentifier name.text → Loose name.text →
      Spelled (.assigned name) [.word name.text, .mark .becomes]
  | returned {start} : Spelled (.returned start) [.word "return"]
  | stated : Spelled .stated []
  | testIf {start} : Spelled (.test .ifStmt start) [.word "if", .mark .openParen]
  | testWhile {start} : Spelled (.test .whileStmt start) [.word "while", .mark .openParen]
  | paren {start} : Spelled (.paren start) [.mark .openParen]
  | argument {callee before ts us} : callee.Derived .member ts → DerivedArgs us before →
      Spelled (.argument callee before) (ts ++ .mark .openParen :: us)
  | constructed {start name before us} : IsIdentifier name.text → DerivedArgs us before →
      Spelled (.constructed start name before)
        (.word "new" :: .word name.text :: .mark .openParen :: us)
  | operand {start op m} : UnaryOp.ofMark? m = some op → Spelled (.operand start op) [.mark m]
  | rightOf {left op place m ts} : BinaryOp.ofMark? m = some op →
      left.Derived (.ofLevel op.level) ts → Spelled (.rightOf left op place) (ts ++ [.mark m])

/-- The lexemes since the innermost open phrase was opened. -/
inductive Mode.Spelled : Mode → List Lexeme → Prop
  | items {before braced ts} : DerivedBefore ts before → Spelled (.items before braced) ts
  | leading {name} : IsIdentifier name.text → Loose name.text →
      Spelled (.leading name) [.word name.text]
  | declareName {start} : Spelled (.declareName start) [.word "var"]
  | declareTail {start name} : IsIdentifier name.text →
      Spelled (.declareTail start name) [.word "var", .word name.text]
  | testIf {start} : Spelled (.testOpen .ifStmt start) [.word "if"]
  | testWhile {start} : Spelled (.testOpen .whileStmt start) [.word "while"]
  | bodyOpen {of ts} : of.Spelled ts → Spelled (.bodyOpen of) ts
  | ifTail {start test body ts us} : test.Derived .expr ts → body.Derived us →
      Spelled (.ifTail start test body) (ifLexemes ts us)
  | elseOpen {start test body ts us} : test.Derived .expr ts → body.Derived us →
      Spelled (.elseOpen start test body) (ifLexemes ts us ++ [.word "else"])
  | returnTail {start} : Spelled (.returnTail start) [.word "return"]
  | functionName {start} : Spelled (.functionName start) [.word "function"]
  | paramsOpen {head ts} : head.Spelled ts → Spelled (.paramsOpen head) ts
  | paramsFirst {head ts} : head.Spelled ts → Spelled (.paramsFirst head) (ts ++ [.mark .openParen])
  | paramsName {head before ts us} : head.Spelled ts → DerivedNames us before →
      Spelled (.paramsName head before) (ts ++ .mark .openParen :: us)
  | paramsTail {head name before ts us} : head.Spelled ts → DerivedNames us before →
      IsIdentifier name.text →
      Spelled (.paramsTail head (name :: before))
        (ts ++ .mark .openParen :: (us ++ [.word name.text]))
  | operand : Spelled .operand []
  | operator {e braced ts} : e.Derived .postfixExpr ts → (e.isMember → e.Derived .member ts) →
      Spelled (.operator e braced) ts
  | memberName {object ts} : object.Derived .member ts →
      Spelled (.memberName object) (ts ++ [.mark .dot])
  | constructName {start} : Spelled (.constructName start) [.word "new"]
  | constructOpen {start name} : IsIdentifier name.text →
      Spelled (.constructOpen start name) [.word "new", .word name.text]
  | argsFirst : Spelled .argsFirst []

/-! ## What may stand in what -/

def OnItems : List Frame → Prop
  | .items _ :: _ => True
  | _ => False

def FunctionHead.FitsOn : FunctionHead → List Frame → Prop
  | named .., frames => OnItems frames
  | value _, _ => True

def BodyOf.FitsOn : BodyOf → List Frame → Prop
  | plain, frames => OnItems frames
  | whileBody .., frames => OnItems frames
  | function head _, frames => head.FitsOn frames
  | _, _ => True

def TestOf.FitsOn : TestOf → List Frame → Prop
  | ifStmt, _ => True
  | whileStmt, frames => OnItems frames

/-- Statements other than `if` stand in a list of statements only, and an operator on the right of
one that binds less tightly. -/
def Frame.FitsOn : Frame → List Frame → Prop
  | body of _, frames => of.FitsOn frames
  | declared .., frames => OnItems frames
  | assigned _, frames => OnItems frames
  | returned _, frames => OnItems frames
  | stated, frames => OnItems frames
  | test of _, frames => of.FitsOn frames
  | rightOf _ op _, frames => Open op.level frames
  | _, _ => True

def Mode.FitsOn : Mode → List Frame → Prop
  | leading _, frames => OnItems frames
  | declareName _, frames => OnItems frames
  | declareTail .., frames => OnItems frames
  | testOpen of _, frames => of.FitsOn frames
  | bodyOpen of, frames => of.FitsOn frames
  | returnTail _, frames => OnItems frames
  | functionName _, frames => OnItems frames
  | paramsOpen head, frames => head.FitsOn frames
  | paramsFirst head, frames => head.FitsOn frames
  | paramsName head _, frames => head.FitsOn frames
  | paramsTail head _, frames => head.FitsOn frames
  | _, _ => True

/-- The lexemes that all open phrases have read. -/
inductive AllSpelled : List Frame → List Lexeme → Prop
  | nil : AllSpelled [] []
  | cons {f frames ts us} : AllSpelled frames ts → f.Spelled us → f.FitsOn frames →
      AllSpelled (f :: frames) (ts ++ us)

/-- The state stands for these lexemes. -/
def State.Spelled (st : State) (ls : List Lexeme) : Prop :=
  ∃ ts us, ls = ts ++ us ∧ AllSpelled st.frames ts ∧ st.mode.Spelled us ∧ st.mode.FitsOn st.frames

namespace State

variable {frames : List Frame} {l : Lexeme} {p : Place} {st next : State}

theorem spelled_mk {mode : Mode} (hf : AllSpelled frames ts) (hm : mode.Spelled us)
    (fits : mode.FitsOn frames) : Spelled ⟨mode, frames⟩ (ts ++ us) :=
  ⟨ts, us, rfl, hf, hm, fits⟩

/-- A frame was pushed, and nothing came after it. -/
theorem spelled_push {mode : Mode} {f : Frame} (hf : AllSpelled frames ts) (h : f.Spelled us)
    (fits : f.FitsOn frames) (hm : mode.Spelled []) (fits' : mode.FitsOn (f :: frames)) :
    Spelled ⟨mode, f :: frames⟩ (ts ++ us) :=
  ⟨ts ++ us, [], by simp, .cons hf h fits, hm, fits'⟩

/-- An expression that may be continued was read. -/
theorem spelled_member {e : Expr} {braced : Bool} (hf : AllSpelled frames ts)
    (he : e.Derived .member us) : Spelled ⟨.operator e braced, frames⟩ (ts ++ us) :=
  spelled_mk hf (.operator (.lift rfl he) fun _ => he) trivial

theorem spelled_atom {kind : TokenKind} {text : String} (hf : AllSpelled frames ts)
    (h : Derives Loose .primary us [.token kind text none]) (p : Place) :
    Spelled ⟨.operator (.atom kind ⟨text, p⟩) false, frames⟩ (ts ++ us) := by
  refine spelled_member hf (.lift rfl ?_)
  simpa [Expr.lower] using h

theorem spelled_beginExpr (hf : AllSpelled frames ts) (hl : l.Valid)
    (h : beginExpr frames l p = some next) : next.Spelled (ts ++ [l]) := by
  cases l with
  | numeral s =>
    cases h
    exact spelled_atom hf (.number hl) p
  | word s =>
    have known {k : Keyword} (hk : Keyword.ofText? s = some k) : s = k.text :=
      (Keyword.text_of_ofText? hk).symm
    have name (loose : Loose s) :
        Spelled ⟨.operator (.atom .identifier ⟨s, p⟩) false, frames⟩ (ts ++ [.word s]) :=
      spelled_atom hf (.identifier hl loose) p
    simp only [beginExpr] at h
    split at h <;> rename_i hk <;> cases h
    · rw [known hk]
      exact spelled_mk hf (.paramsOpen .value) trivial
    · rw [known hk]
      exact spelled_mk hf .constructName trivial
    · rw [known hk]
      exact spelled_atom hf (.constant .true) p
    · rw [known hk]
      exact spelled_atom hf (.constant .false) p
    · rw [known hk]
      exact spelled_atom hf (.constant .null) p
    · rw [known hk]
      exact spelled_atom hf (.constant .undefined) p
    · rename_i other
      refine name (loose_of_keyword fun k hk => ?_)
      cases k <;> first | decide | exact absurd hk (by assumption)
  | mark m =>
    by_cases paren : m = .openParen
    · subst paren
      cases h
      exact spelled_push hf .paren trivial .operand trivial
    · have begun : (UnaryOp.ofMark? m).map
          (fun op => (⟨.operand, .operand p op :: frames⟩ : State)) = some next := by
        rw [← h]
        cases m <;> first | rfl | exact absurd rfl paren
      obtain ⟨op, hop, rfl⟩ := Option.map_eq_some_iff.mp begun
      exact spelled_push hf (.operand hop) trivial .operand trivial

/-! ## Statements that end -/

theorem spelled_endStmt {s : Stmt} {braced : Bool} (hf : AllSpelled frames ts)
    (on : OnItems frames) (hs : s.Derived .stmt us) (h : endStmt s braced frames = some next) :
    next.Spelled (ts ++ us) := by
  cases hf with
  | nil => cases on
  | cons rest hitems fits =>
    cases hitems with
    | items before =>
      cases h
      rw [List.append_assoc]
      exact spelled_mk rest (.items (before.cons hs)) trivial
    | _ => cases on

/-- An `if` statement ends those whose other branch it is. -/
theorem spelled_endIf {s : Stmt} {braced : Bool} (hf : AllSpelled frames ts)
    (hs : s.Derived .ifstmt us) (h : endStmt s braced frames = some next) :
    next.Spelled (ts ++ us) := by
  induction hf generalizing s us with
  | nil => cases h
  | @cons f frames ts vs rest hf fits ih =>
    cases hf with
    | items before => exact spelled_endStmt (rest.cons (.items before) fits) trivial (.ifStmt hs) h
    | @elseIf start test body ts' us' ht hb =>
      have whole : (Stmt.ifElse start test body s).Derived .ifstmt
          (ifLexemes ts' us' ++ .word "else" :: us) := Stmt.derived_ifElse start ht hb (.elseIf hs)
      have ended := ih whole h
      rw [List.append_assoc, List.append_assoc]
      exact ended
    | _ => cases h

/-- The brace after a list of statements. -/
theorem spelled_endBody {before : List Stmt} (hf : AllSpelled frames ts)
    (hb : DerivedBefore us before) (h : endBody before frames = some next) :
    next.Spelled (ts ++ (us ++ [.mark .closeBrace])) := by
  cases hf with
  | nil => cases h
  | @cons f frames ts vs rest hf fits =>
    cases hf with
    | @body of start vs hof =>
      have block := hb.block start
      rw [List.append_assoc, List.append_assoc, List.singleton_append]
      cases hof with
      | plain => exact spelled_endStmt (s := .block (.mk start _)) rest fits (.blockStmt block) h
      | ifBody ht =>
        cases h
        refine spelled_mk rest ?_ trivial
        simpa [ifLexemes] using @Mode.Spelled.ifTail _ _ _ _ _ ht block
      | @elseBody start test body ts us ht hb =>
        have whole := Stmt.derived_ifElse (s := .block (.mk _ _)) start ht hb (.elseBlock block)
        rw [List.append_assoc]
        exact spelled_endIf rest whole h
      | @whileBody start test ts ht =>
        refine spelled_endStmt rest fits ?_ h
        simpa [Stmt.Derived, Stmt.lower] using Derives.whileStmt ht block
      | @function head params ts us hh hp =>
        cases hh with
        | named hn =>
          refine spelled_endStmt rest fits ?_ h
          simpa [Stmt.Derived, Stmt.lower, nameTree] using Derives.function hn hp block
        | value =>
          cases h
          refine spelled_member rest (.lift rfl ?_)
          simpa [Expr.lower] using Derives.functionValue hp block
    | _ => cases h

/-! ## Expressions that end -/

theorem open_seven (frames : List Frame) : Open 7 frames := by
  rcases frames with _ | ⟨f, frames⟩
  · trivial
  · cases f with
    | operand => exact Nat.le_refl 7
    | rightOf left op => exact op.level_lt
    | _ => trivial

/-- The operators that are closed around an expression belong to the derivation of the whole. -/
theorem settle_derived {level k : Nat} {e : Expr} (hf : AllSpelled frames ts)
    (he : e.Derived (.ofLevel k) us) (free : Open k frames) (le : level ≤ k) (lt : level < 7) :
    ∃ ts' us', ts ++ us = ts' ++ us' ∧ AllSpelled (settle level e frames).2 ts' ∧
      (settle level e frames).1.Derived (.ofLevel level) us' ∧
      Open level (settle level e frames).2 := by
  induction hf generalizing e k us with
  | nil => exact ⟨[], us, rfl, .nil, he.lower le, trivial⟩
  | @cons f frames ts vs rest hf fits ih =>
    have here := rest.cons hf fits
    cases hf with
    | @operand start op m hm =>
      have whole := Expr.derived_unary hm (he.lower (show 7 ≤ k from free)) start
      rw [List.append_assoc]
      exact ih (k := 7) whole (open_seven frames) (Nat.le_of_lt lt)
    | @rightOf left op place m vs hm hl =>
      by_cases closes : level ≤ op.level
      · have whole := Expr.derived_binary hm hl (he.lower (show op.level + 1 ≤ k from free)) place
        rw [settle, if_pos closes, List.append_assoc, List.append_assoc, List.singleton_append]
        exact ih whole fits closes
      · rw [settle, if_neg closes]
        exact ⟨_, us, rfl, here, he.lower le, Nat.lt_of_not_le closes⟩
    | _ => exact ⟨_, us, rfl, here, he.lower le, trivial⟩

theorem spelled_endAtSemicolon {e : Expr} (hf : AllSpelled frames ts) (he : e.Derived .expr us)
    (h : endAtSemicolon e frames = some next) :
    next.Spelled (ts ++ (us ++ [.mark .semicolon])) := by
  cases hf with
  | nil => cases h
  | @cons f frames ts vs rest hf fits =>
    rw [List.append_assoc]
    cases hf with
    | stated =>
      refine spelled_endStmt rest fits ?_ h
      simpa [Stmt.Derived, Stmt.lower] using Derives.exprStmt he
    | declared hn =>
      refine spelled_endStmt rest fits ?_ h
      simpa [Stmt.Derived, Stmt.lower, nameTree] using Derives.declare hn he
    | assigned hn loose =>
      refine spelled_endStmt rest fits ?_ h
      simpa [Stmt.Derived, Stmt.lower, nameTree] using Derives.assign hn loose he
    | returned =>
      refine spelled_endStmt rest fits ?_ h
      simpa [Stmt.Derived, Stmt.lower] using Derives.ret he
    | _ => cases h

theorem spelled_endAtParen {e : Expr} (hf : AllSpelled frames ts) (he : e.Derived .expr us)
    (h : endAtParen e frames = some next) :
    next.Spelled (ts ++ (us ++ [.mark .closeParen])) := by
  cases hf with
  | nil => cases h
  | @cons f frames ts vs rest hf fits =>
    rw [List.append_assoc]
    cases hf with
    | paren =>
      cases h
      refine spelled_member rest (.lift rfl ?_)
      simpa [Expr.tree_paren] using Derives.paren he
    | argument hc ha =>
      cases h
      refine spelled_member rest ?_
      simpa [Expr.Derived, Expr.lower] using Derives.call hc (ha.close he)
    | constructed hn ha =>
      cases h
      refine spelled_member rest (.lift rfl ?_)
      simpa [Expr.lower, nameTree] using Derives.construct hn (ha.close he)
    | testIf =>
      cases h
      exact spelled_mk rest (.bodyOpen (.ifBody he)) trivial
    | testWhile =>
      cases h
      exact spelled_mk rest (.bodyOpen (.whileBody he)) fits
    | _ => cases h

theorem spelled_endAtComma {e : Expr} (hf : AllSpelled frames ts) (he : e.Derived .expr us)
    (h : endAtComma e frames = some next) :
    next.Spelled (ts ++ (us ++ [.mark .comma])) := by
  cases hf with
  | nil => cases h
  | @cons f frames ts vs rest hf fits =>
    rw [List.append_assoc]
    cases hf with
    | argument hc ha =>
      cases h
      rw [List.append_assoc, List.cons_append]
      exact spelled_push rest (.argument hc (ha.cons he)) trivial .operand trivial
    | constructed hn ha =>
      cases h
      exact spelled_push rest (.constructed hn (ha.cons he)) trivial .operand trivial
    | _ => cases h

theorem spelled_endNoArgs (hf : AllSpelled frames ts) (h : endNoArgs frames = some next) :
    next.Spelled (ts ++ [.mark .closeParen]) := by
  cases hf with
  | nil => cases h
  | @cons f frames ts vs rest hf fits =>
    rw [List.append_assoc]
    cases hf with
    | @argument callee before ts us hc ha =>
      cases before with
      | cons => cases h
      | nil =>
        cases h
        refine spelled_member rest ?_
        simpa [Expr.Derived, Expr.lower] using Derives.call hc ha.close_nil
    | @constructed start name before us hn ha =>
      cases before with
      | cons => cases h
      | nil =>
        cases h
        refine spelled_member rest (.lift rfl ?_)
        simpa [Expr.lower, nameTree] using Derives.construct hn ha.close_nil
    | _ => cases h

/-- The lexeme after an expression. -/
theorem spelled_continueExpr {e : Expr} (hf : AllSpelled frames ts)
    (he : e.Derived .postfixExpr us) (member : e.isMember → e.Derived .member us)
    (h : continueExpr e frames l p = some next) : next.Spelled (ts ++ (us ++ [l])) := by
  have settled {level : Nat} (lt : level < 7) :=
    settle_derived hf he.unary (open_seven frames) (Nat.le_of_lt lt) lt
  cases l with
  | numeral s => cases h
  | word s => cases h
  | mark m =>
    obtain ⟨ts', us', same, hf', whole, _⟩ := settled (show 0 < 7 by decide)
    rw [← List.append_assoc]
    cases hm : BinaryOp.ofMark? m with
    | some op =>
      rw [continueExpr_op hm] at h
      cases h
      obtain ⟨ts', us', same, hf', left, fits⟩ := settled op.level_lt
      rw [same, List.append_assoc]
      exact spelled_push hf' (.rightOf hm left) fits .operand trivial
    | none =>
      cases m with
      | increment =>
        cases h
        rw [List.append_assoc]
        refine spelled_mk hf (.operator ?_ (fun no => by cases no)) trivial
        simpa [Expr.Derived, Expr.lower, PostfixOp.label] using Derives.behind .increment he
      | decrement =>
        cases h
        rw [List.append_assoc]
        refine spelled_mk hf (.operator ?_ (fun no => by cases no)) trivial
        simpa [Expr.Derived, Expr.lower, PostfixOp.label] using Derives.behind .decrement he
      | openParen =>
        obtain ⟨isMember, rfl⟩ := Option.ite_some_none_eq_some.mp h
        rw [List.append_assoc]
        exact spelled_push hf (.argument (member isMember) derivedArgs_nil) trivial .argsFirst
          trivial
      | dot =>
        obtain ⟨isMember, rfl⟩ := Option.ite_some_none_eq_some.mp h
        rw [List.append_assoc]
        exact spelled_mk hf (.memberName (member isMember)) trivial
      | semicolon =>
        rw [same, List.append_assoc]
        exact spelled_endAtSemicolon hf' whole h
      | closeParen =>
        rw [same, List.append_assoc]
        exact spelled_endAtParen hf' whole h
      | comma =>
        rw [same, List.append_assoc]
        exact spelled_endAtComma hf' whole h
      | becomes | openBrace | closeBrace => cases h
      | _ => cases hm

/-! ## Steps -/

/-- The first lexeme of a statement, or what ends the list of statements. -/
theorem spelled_beginStmt {before : List Stmt} {braced : Bool} (hf : AllSpelled frames ts)
    (hb : DerivedBefore us before) (hl : l.Valid)
    (h : beginStmt before braced frames l p = some next) : next.Spelled (ts ++ (us ++ [l])) := by
  have inside : AllSpelled (.items before :: frames) (ts ++ us) := hf.cons (.items hb) trivial
  have stated : AllSpelled (.stated :: .items before :: frames) (ts ++ us) := by
    simpa using inside.cons .stated trivial
  rw [← List.append_assoc]
  cases l with
  | numeral s => exact spelled_beginExpr stated hl h
  | word s =>
    have known {k : Keyword} (hk : Keyword.ofText? s = some k) : s = k.text :=
      (Keyword.text_of_ofText? hk).symm
    simp only [beginStmt] at h
    split at h <;> rename_i hk
    · cases h
      rw [known hk]
      exact spelled_mk inside .declareName trivial
    · cases h
      rw [known hk]
      exact spelled_mk inside .testIf trivial
    · obtain ⟨_, same⟩ := Option.ite_none_left_eq_some.mp h
      cases same
      have loose : Loose s := fun _ => by rw [known hk]; decide
      exact spelled_mk inside (.leading hl loose) trivial
    · cases h
      rw [known hk]
      exact spelled_mk inside .testWhile trivial
    · cases h
      rw [known hk]
      exact spelled_mk inside .returnTail trivial
    · cases h
      rw [known hk]
      exact spelled_mk inside .functionName trivial
    · exact spelled_beginExpr stated hl h
    · cases h
      have loose : Loose s := loose_of_keyword fun k some => by rw [hk] at some; cases some
      exact spelled_mk inside (.leading hl loose) trivial
  | mark m =>
    cases m with
    | semicolon =>
      cases h
      rw [List.append_assoc]
      refine spelled_mk hf (.items (hb.cons ?_)) trivial
      simpa [Stmt.Derived, Stmt.lower] using Derives.empty
    | openBrace =>
      cases h
      exact spelled_push inside (.body .plain) trivial (.items (.nil _)) trivial
    | closeBrace =>
      rw [List.append_assoc]
      exact spelled_endBody hf hb h
    | _ => exact spelled_beginExpr (p := p) stated hl h

theorem Spelled.items {before : List Stmt} {braced : Bool} {ls : List Lexeme}
    (h : Spelled ⟨.items before braced, frames⟩ ls) :
    ∃ ts us, ls = ts ++ us ∧ AllSpelled frames ts ∧ DerivedBefore us before := by
  obtain ⟨ts, us, rfl, hf, hm, -⟩ := h
  cases hm with
  | items hb => exact ⟨ts, us, rfl, hf, hb⟩

theorem derived_ifOnly {test : Expr} {body : Block} (start : Place) (ht : test.Derived .expr ts)
    (hb : body.Derived us) :
    (Stmt.ifOnly start test body).Derived .ifstmt (ifLexemes ts us) := by
  simpa [Stmt.Derived, Stmt.lower, ifLexemes] using Derives.ifOnly ht hb

/-- The lexeme after the body of an `if`. -/
theorem spelled_continueIf {start : Place} {test : Expr} {body : Block} (hf : AllSpelled frames ts)
    (ht : test.Derived .expr us) (hb : body.Derived vs) (hl : l.Valid)
    (h : continueIf start test body frames l p = some next) :
    next.Spelled (ts ++ (ifLexemes us vs ++ [l])) := by
  rw [continueIf] at h
  split at h
  · rename_i same
    subst same
    cases h
    exact spelled_mk hf (.elseOpen ht hb) trivial
  · split at h
    · rename_i before braced frames' ended
      obtain ⟨ts', us', same, hf', hb'⟩ :=
        (spelled_endIf hf (derived_ifOnly start ht hb) ended).items
      rw [← List.append_assoc, same, List.append_assoc]
      exact spelled_beginStmt hf' hb' hl h
    · cases h

/-- A lexeme that is waited for. -/
theorem spelled_expected {mode mode' : Mode} {opened : List Frame} (hf : AllSpelled frames ts)
    (hm : mode.Spelled us) (fits : mode.FitsOn frames) (e : mode.Expects p l mode' opened) :
    Spelled ⟨mode', opened ++ frames⟩ (ts ++ (us ++ [l])) := by
  cases e with
  | assigned =>
    cases hm with
    | leading hn loose => exact spelled_push hf (.assigned hn loose) fits .operand trivial
  | declared =>
    cases hm with
    | declareTail hn => exact spelled_push hf (.declared hn) fits .operand trivial
  | test =>
    cases hm with
    | testIf => exact spelled_push hf .testIf trivial .operand trivial
    | testWhile => exact spelled_push hf .testWhile fits .operand trivial
  | body =>
    cases hm with
    | bodyOpen hof => exact spelled_push hf (.body hof) fits (.items (.nil _)) trivial
  | elseBody =>
    cases hm with
    | elseOpen ht hb =>
      exact spelled_push hf (.body (.elseBody ht hb)) trivial (.items (.nil _)) trivial
  | elseIf =>
    cases hm with
    | elseOpen ht hb =>
      rw [← List.append_assoc]
      exact spelled_mk (hf.cons (.elseIf ht hb) trivial) .testIf trivial
  | literal =>
    cases hm with
    | functionName =>
      have stated : AllSpelled (.stated :: frames) ts := by simpa using hf.cons .stated fits
      exact spelled_mk stated (.paramsFirst .value) trivial
  | params =>
    cases hm with
    | paramsOpen hh => exact spelled_mk hf (.paramsFirst hh) fits
  | noParams =>
    cases hm with
    | paramsFirst hh =>
      have params : Derives Loose .params [] [(paramsTree []).bare] := by
        rw [bare_paramsTree]
        exact .paramsNone
      rw [List.append_assoc]
      exact spelled_mk hf (.bodyOpen (.function hh params)) fits
  | nextParam =>
    cases hm with
    | paramsTail hh hb hn =>
      rw [List.append_assoc, List.cons_append, List.append_assoc]
      exact spelled_mk hf (.paramsName hh (hb.cons hn)) fits
  | lastParam =>
    cases hm with
    | paramsTail hh hb hn =>
      have closed := Mode.Spelled.bodyOpen (.function hh (hb.close hn))
      rw [List.append_assoc, List.cons_append]
      exact spelled_mk hf closed fits
  | args =>
    cases hm with
    | constructOpen hn =>
      exact spelled_push hf (.constructed hn derivedArgs_nil) trivial .argsFirst trivial

/-- A word where a name is waited for. -/
theorem spelled_named {name : Name} {mode mode' : Mode} (hf : AllSpelled frames ts)
    (hm : mode.Spelled us) (fits : mode.FitsOn frames) (hn : IsIdentifier name.text)
    (n : mode.Names name mode') : Spelled ⟨mode', frames⟩ (ts ++ (us ++ [.word name.text])) := by
  cases n with
  | declared =>
    cases hm
    exact spelled_mk hf (.declareTail hn) fits
  | function =>
    cases hm
    exact spelled_mk hf (.paramsOpen (.named hn)) fits
  | param =>
    cases hm with
    | paramsFirst hh =>
      rw [List.append_assoc]
      exact spelled_mk hf (.paramsTail hh (.nil .names) hn) fits
  | nextParam =>
    cases hm with
    | paramsName hh hb =>
      rw [List.append_assoc, List.cons_append]
      exact spelled_mk hf (.paramsTail hh hb hn) fits
  | member =>
    cases hm with
    | memberName ho =>
      rw [List.append_assoc]
      refine spelled_member hf ?_
      simpa [Expr.Derived, Expr.lower, nameTree] using Derives.member ho hn
  | constructed =>
    cases hm
    exact spelled_mk hf (.constructOpen hn) trivial

/-- One more lexeme. -/
theorem spelled_step {ls : List Lexeme} (hst : st.Spelled ls) (hl : l.Valid)
    (h : st.step l p = some next) : next.Spelled (ls ++ [l]) := by
  obtain ⟨mode, frames⟩ := st
  obtain ⟨ts, us, rfl, hf, hm, fits⟩ := hst
  rw [List.append_assoc]
  cases moves_of_step h with
  | expected e => exact spelled_expected hf hm fits e
  | @named _ s _ n =>
    have hn : IsIdentifier (Name.mk s p).text := hl
    exact spelled_named hf hm fits hn n
  | items h =>
    cases hm with
    | items hb => exact spelled_beginStmt hf hb hl h
  | ifTail h =>
    cases hm with
    | ifTail ht hb => exact spelled_continueIf hf ht hb hl h
  | operand h | argument h =>
    cases hm
    exact spelled_beginExpr hf hl h
  | returned h =>
    cases hm
    rw [← List.append_assoc]
    exact spelled_beginExpr (hf.cons .returned fits) hl h
  | @leading name _ _ h =>
    cases hm with
    | leading hn loose =>
      have stated : AllSpelled (.stated :: frames) ts := by simpa using hf.cons .stated fits
      have he : (Expr.atom .identifier name).Derived .member [.word name.text] := by
        refine .lift rfl ?_
        simpa [Expr.lower, nameTree] using Derives.identifier hn loose
      exact spelled_continueExpr stated (.lift rfl he) (fun _ => he) h
  | operator h =>
    cases hm with
    | operator he member => exact spelled_continueExpr hf he member h
  | declareBare h =>
    cases hm with
    | declareTail hn =>
      refine spelled_endStmt hf fits ?_ h
      simpa [Stmt.Derived, Stmt.lower, nameTree, undefinedAt, undefinedTree] using
        Derives.declareBare hn
  | returnBare h =>
    cases hm
    refine spelled_endStmt hf fits ?_ h
    simpa [Stmt.Derived, Stmt.lower, undefinedAt, undefinedTree] using Derives.retBare
  | noArgs h =>
    cases hm
    exact spelled_endNoArgs hf h

/-! ## Whole texts -/

theorem spelled_run {ls : List Lexeme} {tokens : List Token} (hst : st.Spelled ls)
    (valid : ∀ t ∈ tokens, t.lexeme.Valid) (h : st.run tokens = .ok next) :
    next.Spelled (ls ++ tokens.map (·.lexeme)) := by
  induction tokens generalizing st ls with
  | nil =>
    cases h
    simpa using hst
  | cons t tokens ih =>
    obtain ⟨first, rest⟩ := List.forall_mem_cons.mp valid
    rw [State.run] at h
    split at h
    · rename_i after taken
      simpa using ih (spelled_step hst first taken) rest h
    · cases h

/-- Where a program may end, its statements are all that was read. -/
theorem settles_of_program? {program : Program} (h : st.program? = some program) :
    ∃ braced, st.Settles ⟨.items program.reverse braced, []⟩ := by
  simp only [State.program?] at h
  split at h
  · rename_i before braced ended
    cases h
    refine ⟨braced, ?_⟩
    rw [List.reverse_reverse]
    split at ended
    · rename_i start test body mode
      exact .inr ⟨start, test, body, mode, ended⟩
    · exact .inl (Option.some.inj ended)
  · cases h

theorem Spelled.program? {ls : List Lexeme} {program : Program} (hst : st.Spelled ls)
    (h : st.program? = some program) : Derives Loose .start ls [program.tree.bare] := by
  obtain ⟨braced, settles⟩ := settles_of_program? h
  have whole : Spelled ⟨.items program.reverse braced, []⟩ ls := by
    rcases settles with rfl | ⟨start, test, body, mode, ended⟩
    · exact hst
    · obtain ⟨_, frames⟩ := st
      obtain rfl := mode
      obtain ⟨ts, us, rfl, hf, hm, -⟩ := hst
      cases hm with
      | ifTail ht hb => exact spelled_endIf hf (derived_ifOnly start ht hb) ended
  obtain ⟨ts, us, rfl, hf, hb⟩ := whole.items
  cases hf
  rw [Program.bare_tree]
  simpa using Derives.start (hb [] [] .stmtsNone)

theorem spelled_start : State.start.Spelled [] := ⟨[], [], rfl, .nil, .items (.nil _), trivial⟩

/-! ## Numerals -/

/-- Only an operator may follow a numeral. -/
theorem mode_of_numeral {s : String} (h : st.step (.numeral s) p = some next) :
    ∃ e braced, next.mode = .operator e braced := by
  obtain ⟨mode, frames⟩ := st
  cases mode with
  | ifTail start test body =>
    have h : continueIf start test body frames (.numeral s) p = some next := h
    rw [continueIf, if_neg (by simp)] at h
    split at h
    · cases h
      exact ⟨_, _, rfl⟩
    · cases h
  | items | operand | returnTail | argsFirst =>
    cases h
    exact ⟨_, _, rfl⟩
  | _ => simp [step, continueExpr, Lexeme.word?] at h

/-- No word is taken right after a numeral. -/
theorem apart_of_run {tokens : List Token} {before after : List Lexeme} {s x : String}
    (h : st.run tokens = .ok next) :
    tokens.map (·.lexeme) ≠ before ++ .numeral s :: .word x :: after := by
  induction before generalizing st tokens with
  | nil =>
    intro same
    obtain ⟨t, tokens, rfl, ht, same⟩ := List.map_eq_cons_iff.mp same
    obtain ⟨u, tokens, rfl, hu, _⟩ := List.map_eq_cons_iff.mp same
    rw [State.run, ht] at h
    split at h
    · rename_i read taken
      obtain ⟨e, braced, mode⟩ := mode_of_numeral taken
      rw [State.run, hu, step, mode] at h
      cases h
    · cases h
  | cons l before ih =>
    intro same
    obtain ⟨t, tokens, rfl, _, same⟩ := List.map_eq_cons_iff.mp same
    rw [State.run] at h
    split at h
    · exact ih h same
    · cases h

end State

/-! ## Accepted texts -/

/-- What it takes to read a text: no character is left over, no token is refused, and a program
may end with the last one. -/
theorem readProgram_eq_ok_iff {cs : List Char} {program : Program} :
    readProgram cs = .ok program ↔ ∃ tokens st, scan cs = (tokens, .finished) ∧
      State.start.run tokens = .ok st ∧ st.program? = some program := by
  constructor
  · intro h
    simp only [readProgram] at h
    split at h
    · cases h
    · rename_i st run
      split at h
      · cases h
      · rename_i finished ended
        cases h
        exact ⟨_, st, Prod.ext rfl finished, run, ended⟩
      · cases h
  · rintro ⟨tokens, st, scanned, run, ended⟩
    simp only [readProgram, scanned, run, ended]

theorem parse_eq_ok_iff {src : String} {tree : Tree} :
    parse src = .ok tree ↔
      ∃ program, readProgram src.toList = .ok program ∧ program.tree = tree := by
  rw [parse]
  cases readProgram src.toList with
  | error e =>
    constructor
    · rintro ⟨⟩
    · rintro ⟨_, ⟨⟩, _⟩
  | ok program =>
    constructor
    · intro h
      exact ⟨program, rfl, Except.ok.inj h⟩
    · rintro ⟨_, h, rfl⟩
      cases h
      rfl

/-- The tree of a program has a derivation of the lexemes that were read. -/
theorem derives_of_run {cs : List Char} {tokens : List Token} {st : State} {program : Program}
    (scanned : scan cs = (tokens, .finished)) (run : State.start.run tokens = .ok st)
    (ended : st.program? = some program) :
    Derives Loose .start (tokens.map (·.lexeme)) [program.tree.bare] := by
  obtain ⟨pieces, _, lexemes, cuts, _⟩ := scan_cuts scanned
  have valid : ∀ t ∈ tokens, t.lexeme.Valid := by
    intro t ht
    have mem : t.lexeme ∈ pieces.map (·.lexeme) := lexemes ▸ List.mem_map_of_mem ht
    obtain ⟨p, hp, same⟩ := List.mem_map.mp mem
    exact same ▸ cuts.lexemes p hp
  simpa using (State.spelled_run State.spelled_start valid run).program? ended

/-- An accepted text is a sentence of the grammar: it is made of the lexemes of a derivation with
gaps between them, the tree returned is that of the derivation, and no word is part of a longer
one. -/
theorem parse_accepts_sentences {src : String} {tree : Tree} (h : parse src = .ok tree) :
    ∃ pieces tail, Cuts src.toList pieces tail ∧ WordsEnd pieces tail ∧ WordsBegin pieces ∧
      Derives Loose .start (pieces.map (·.lexeme)) [tree.bare] := by
  obtain ⟨program, read, rfl⟩ : ∃ program, readProgram src.toList = .ok program ∧
      program.tree = tree := by
    rw [parse] at h
    cases read : readProgram src.toList with
    | error e =>
      rw [read] at h
      cases h
    | ok program =>
      rw [read] at h
      exact ⟨program, rfl, Except.ok.inj h⟩
  obtain ⟨tokens, st, scanned, run, ended⟩ := readProgram_eq_ok_iff.mp read
  obtain ⟨pieces, tail, lexemes, cuts, words⟩ := scan_cuts scanned
  refine ⟨pieces, tail, cuts, words, cuts.wordsBegin words fun before s x after => ?_, ?_⟩
  · rw [← lexemes]
    exact State.apart_of_run run
  · rw [← lexemes]
    exact derives_of_run scanned run ended

/-- A name that begins with a keyword, next to an operator and a comment. -/
theorem parse_accepts_sentences_names : ∃ tree, parse "returned=.5+ifs;//" = .ok tree ∧
    ∃ pieces tail, Cuts "returned=.5+ifs;//".toList pieces tail ∧ WordsEnd pieces tail ∧
      WordsBegin pieces ∧ Derives Loose .start (pieces.map (·.lexeme)) [tree.bare] := by
  have accepted : (parse "returned=.5+ifs;//").toOption.isSome := by decide +kernel
  obtain ⟨tree, some⟩ := Option.isSome_iff_exists.mp accepted
  have h : parse "returned=.5+ifs;//" = .ok tree := by
    cases parsed : parse "returned=.5+ifs;//" with
    | error e => simp [parsed, Except.toOption] at some
    | ok t => simpa [parsed, Except.toOption] using some
  exact ⟨tree, h, parse_accepts_sentences h⟩

end Scriptlet.Source
