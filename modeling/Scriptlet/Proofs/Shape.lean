import Scriptlet.Evaluation
import Scriptlet.Proofs.Moves
import Scriptlet.Source.Parse
/-!
# The shape of programs

`Tree.IsExpr` and `Tree.IsStmt` are the trees that a source text can have: the labels belong to the
language, every node has the children that its label asks for, operators are known, and names are
not empty. Each phrase in the state of the reader has such a tree, whatever tokens were read.
-/

namespace Scriptlet

/-- The kinds of tokens that stand for a value of their own. -/
def TokenKind.isLiteral : TokenKind → Bool
  | number | trueWord | falseWord | nullWord | undefinedWord => true
  | _ => false

namespace Tree

def IsName : Tree → Prop
  | token .identifier text _ => text ≠ ""
  | _ => False

theorem IsName.identifier? {t : Tree} (h : t.IsName) :
    ∃ name, t.identifier? = some name ∧ name ≠ "" := by
  cases t with
  | token kind text place =>
    cases kind with
    | identifier => exact ⟨text, rfl, h⟩
    | _ => exact h.elim
  | _ => exact h.elim

mutual

inductive IsExpr : Tree → Prop
  | literal {kind text place} : kind.isLiteral → IsExpr (token kind text place)
  | name {t} : IsName t → IsExpr t
  | arithmetic {label place left kind op opPlace right} : label = .add ∨ label = .mul →
      (arithmetic? op).isSome → IsExpr left → IsExpr right →
      IsExpr (node label place [left, token kind op opPlace, right])
  | comparison {place left kind op opPlace right} :
      (comparison? op).isSome → IsExpr left → IsExpr right →
      IsExpr (node .compare place [left, token kind op opPlace, right])
  | logical {label place left right} : label = .and ∨ label = .or → IsExpr left → IsExpr right →
      IsExpr (node label place [left, right])
  | signed {label place e} : label = .neg ∨ label = .pos → IsExpr e →
      IsExpr (node label place [e])
  | update {label place e} :
      label ∈ [.preIncrement, .preDecrement, .postIncrement, .postDecrement] → IsExpr e →
      IsExpr (node label place [e])
  | function {place name listPlace params body} : name = missing ∨ IsName name →
      (∀ p ∈ params, IsName p) → IsStmt body →
      IsExpr (node .function place [name, node .params listPlace params, body])
  | call {place f listPlace args} : IsExpr f → (∀ a ∈ args, IsExpr a) →
      IsExpr (node .call place [f, node .args listPlace args])
  /-- Members and constructions are read, but never evaluated. -/
  | unsupported {label place children} : label = .member ∨ label = .construct →
      IsExpr (node label place children)

inductive IsStmt : Tree → Prop
  | empty {place} : IsStmt (node .empty place [])
  | seq {place next rest} : IsStmt next → IsStmt rest → IsStmt (node .seq place [next, rest])
  | store {label place target value} : label = .decl ∨ label = .assign → IsName target →
      IsExpr value → IsStmt (node label place [target, value])
  | bareExpr {place e} : IsExpr e → IsStmt (node .bareExpr place [e])
  | ifOnly {place test body} : IsExpr test → IsStmt body →
      IsStmt (node .conditional place [test, body, missing])
  | ifElse {place test body other} : IsExpr test → IsStmt body → IsStmt other →
      IsStmt (node .conditional place [test, body, other])
  | loop {place test body} : IsExpr test → IsStmt body → IsStmt (node .loop place [test, body])
  | ret {place e} : IsExpr e → IsStmt (node .ret place [e])

end

theorem IsExpr.identifier? {t : Tree} (h : t.IsExpr) {name : String}
    (found : t.identifier? = some name) : name ≠ "" := by
  cases h with
  | literal hk =>
    rename_i kind text place
    cases kind with
    | identifier => cases hk
    | _ => cases found
  | name hn =>
    obtain ⟨name', found', hn'⟩ := hn.identifier?
    rw [found] at found'
    cases found'
    exact hn'
  | _ => cases found

theorem isStmt_sequence {place : Option Place} {ts : List Tree} (h : ∀ t ∈ ts, t.IsStmt) :
    (sequence place ts).IsStmt := by
  fun_induction sequence place ts with
  | case1 => exact .empty
  | case2 t => exact h t List.mem_cons_self
  | case3 t ts _ ih =>
    exact .seq (h t List.mem_cons_self) (ih fun t ht => h t (List.mem_cons_of_mem _ ht))

end Tree

namespace Source

/-! ## Phrases -/

def Name.Proper (name : Name) : Prop := name.text ≠ ""

def Expr.Proper (e : Expr) : Prop := e.lower.tree.IsExpr

def Stmt.Proper (s : Stmt) : Prop := s.lower.tree.IsStmt

def Block.Proper (b : Block) : Prop := b.tree.IsStmt

theorem Expr.proper_paren {e : Expr} (h : e.Proper) (start : Place) : (paren start e).Proper := by
  rw [Proper, tree_paren]
  exact h

theorem proper_sequence {ss : List Stmt} (h : ∀ s ∈ ss, s.Proper) (place : Option Place) :
    (Tree.sequence place ((lowerBody ss).map (·.tree))).IsStmt := by
  refine Tree.isStmt_sequence fun t ht => ?_
  rw [lowerBody_eq_map] at ht
  simp only [List.map_map, List.mem_map, Function.comp] at ht
  obtain ⟨s, hs, rfl⟩ := ht
  exact h s hs

theorem Block.proper_mk {ss : List Stmt} (h : ∀ s ∈ ss, s.Proper) (start : Place) :
    (Block.mk start ss).Proper := by
  rw [Proper, Block.tree]
  exact proper_sequence h _

theorem Program.isStmt_tree {p : Program} (h : ∀ s ∈ p, s.Proper) : (Program.tree p).IsStmt :=
  proper_sequence h _

theorem mem_argsTree {args : List Expr} (h : ∀ e ∈ args, e.Proper) :
    ∀ t ∈ (lowerArgs args).map (·.tree), t.IsExpr := by
  intro t ht
  rw [lowerArgs_eq_map] at ht
  simp only [List.map_map, List.mem_map, Function.comp] at ht
  obtain ⟨e, he, rfl⟩ := ht
  exact h e he

theorem mem_paramsTree {params : List Name} (h : ∀ p ∈ params, p.Proper) :
    ∀ t ∈ params.map (Name.tree .identifier), t.IsName := by
  intro t ht
  obtain ⟨p, hp, rfl⟩ := List.mem_map.mp ht
  exact h p hp

theorem Expr.proper_function {params : List Name} {body : Block} (hp : ∀ p ∈ params, p.Proper)
    (hb : body.Proper) (start : Place) : (function start params body).Proper := by
  rw [Proper, lower]
  exact .function (Or.inl rfl) (mem_paramsTree hp) hb

theorem Expr.proper_call {f : Expr} {args : List Expr} (hf : f.Proper) (ha : ∀ e ∈ args, e.Proper) :
    (call f args).Proper := by
  rw [Proper, lower]
  exact .call hf (mem_argsTree ha)

theorem Expr.proper_member (object : Expr) (name : Name) : (member object name).Proper := by
  rw [Proper, lower]
  exact .unsupported (Or.inl rfl)

theorem Expr.proper_construct (start : Place) (name : Name) (args : List Expr) :
    (construct start name args).Proper := by
  rw [Proper, lower]
  exact .unsupported (Or.inr rfl)

theorem Expr.proper_unary {e : Expr} (h : e.Proper) (start : Place) (op : UnaryOp) :
    (unary start op e).Proper := by
  rw [Proper, lower]
  cases op with
  | minus => exact .signed (Or.inl rfl) h
  | plus => exact .signed (Or.inr rfl) h
  | increment => exact .update (by decide) h
  | decrement => exact .update (by decide) h

theorem Expr.proper_postfixed {e : Expr} (h : e.Proper) (op : PostfixOp) :
    (postfixed e op).Proper := by
  rw [Proper, lower]
  cases op with
  | increment => exact .update (by decide) h
  | decrement => exact .update (by decide) h

theorem Expr.proper_binary {left right : Expr} (hl : left.Proper) (hr : right.Proper)
    (op : BinaryOp) (place : Place) : (binary left op place right).Proper := by
  rw [Proper, lower]
  cases op with
  | or => exact .logical (Or.inr rfl) hl hr
  | and => exact .logical (Or.inl rfl) hl hr
  | equal | notEqual | below | above | atMost | atLeast => exact .comparison rfl hl hr
  | plus | minus => exact .arithmetic (Or.inl rfl) rfl hl hr
  | star | slash => exact .arithmetic (Or.inr rfl) rfl hl hr

theorem Stmt.proper_declare {name : Name} {value : Expr} (hn : name.Proper) (hv : value.Proper)
    (start : Place) : (declare start name value).Proper := by
  rw [Proper, lower]
  exact .store (Or.inl rfl) hn hv

theorem Stmt.proper_declareBare {name : Name} (hn : name.Proper) (start : Place) :
    (declareBare start name).Proper := by
  rw [Proper, lower]
  exact .store (Or.inl rfl) hn (.literal rfl)

theorem Stmt.proper_assign {name : Name} {value : Expr} (hn : name.Proper) (hv : value.Proper) :
    (assign name value).Proper := by
  rw [Proper, lower]
  exact .store (Or.inr rfl) hn hv

theorem Stmt.proper_ifOnly {test : Expr} {body : Block} (ht : test.Proper) (hb : body.Proper)
    (start : Place) : (ifOnly start test body).Proper := by
  rw [Proper, lower]
  exact .ifOnly ht hb

theorem Stmt.proper_ifElse {test : Expr} {body : Block} {other : Stmt} (ht : test.Proper)
    (hb : body.Proper) (ho : other.Proper) (start : Place) :
    (ifElse start test body other).Proper := by
  rw [Proper, lower]
  exact .ifElse ht hb ho

theorem Stmt.proper_while {test : Expr} {body : Block} (ht : test.Proper) (hb : body.Proper)
    (start : Place) : (Stmt.while start test body).Proper := by
  rw [Proper, lower]
  exact .loop ht hb

theorem Stmt.proper_return {value : Expr} (hv : value.Proper) (start : Place) :
    (Stmt.return start value).Proper := by
  rw [Proper, lower]
  exact .ret hv

theorem Stmt.proper_returnBare (start : Place) : (returnBare start).Proper := by
  rw [Proper, lower]
  exact .ret (.literal rfl)

theorem Stmt.proper_function {name : Name} {params : List Name} {body : Block} (hn : name.Proper)
    (hp : ∀ p ∈ params, p.Proper) (hb : body.Proper) (start : Place) :
    (function start name params body).Proper := by
  rw [Proper, lower]
  exact .bareExpr (.function (Or.inr hn) (mem_paramsTree hp) hb)

theorem Stmt.proper_block {body : Block} (hb : body.Proper) : (block body).Proper := by
  obtain ⟨start, ss⟩ := body
  rw [Proper, lower]
  exact hb

theorem Stmt.proper_expr {e : Expr} (he : e.Proper) : (expr e).Proper := by
  rw [Proper, lower]
  exact .bareExpr he

theorem Stmt.proper_empty (start : Place) : (empty start).Proper := by
  rw [Proper, lower]
  exact .empty

/-! ## States of the reader -/

def FunctionHead.Proper : FunctionHead → Prop
  | named _ name => name.Proper
  | value _ => True

def BodyOf.Proper : BodyOf → Prop
  | plain => True
  | ifBody _ test => test.Proper
  | elseBody _ test body => test.Proper ∧ body.Proper
  | whileBody _ test => test.Proper
  | function head params => head.Proper ∧ ∀ p ∈ params, p.Proper

def Frame.Proper : Frame → Prop
  | items before => ∀ s ∈ before, s.Proper
  | body of _ => of.Proper
  | elseIf _ condition block => condition.Proper ∧ block.Proper
  | declared _ name => name.Proper
  | assigned name => name.Proper
  | argument callee before => callee.Proper ∧ ∀ e ∈ before, e.Proper
  | rightOf left _ _ => left.Proper
  | _ => True

def Mode.Proper : Mode → Prop
  | items before _ => ∀ s ∈ before, s.Proper
  | leading name => name.Proper
  | declareTail _ name => name.Proper
  | bodyOpen of => of.Proper
  | ifTail _ test body => test.Proper ∧ body.Proper
  | elseOpen _ test body => test.Proper ∧ body.Proper
  | paramsOpen head => head.Proper
  | paramsFirst head => head.Proper
  | paramsName head before => head.Proper ∧ ∀ p ∈ before, p.Proper
  | paramsTail head before => head.Proper ∧ ∀ p ∈ before, p.Proper
  | operator e _ => e.Proper
  | memberName object => object.Proper
  | _ => True

def AllProper (frames : List Frame) : Prop := ∀ f ∈ frames, f.Proper

structure State.Proper (st : State) : Prop where
  mode : st.mode.Proper
  frames : AllProper st.frames

theorem AllProper.cons {f : Frame} {frames : List Frame} (hf : f.Proper) (h : AllProper frames) :
    AllProper (f :: frames) := List.forall_mem_cons.mpr ⟨hf, h⟩

theorem AllProper.head {f : Frame} {frames : List Frame} (h : AllProper (f :: frames)) : f.Proper :=
  h f List.mem_cons_self

theorem AllProper.tail {f : Frame} {frames : List Frame} (h : AllProper (f :: frames)) :
    AllProper frames := fun g hg => h g (List.mem_cons_of_mem _ hg)

namespace State

variable {frames : List Frame} {l : Lexeme} {p : Place} {st next : State}

theorem proper_start : start.Proper := ⟨by simp [start, Mode.Proper], by simp [start, AllProper]⟩

theorem proper_beginExpr (hf : AllProper frames) (hl : l.chars ≠ [])
    (h : beginExpr frames l p = some next) : next.Proper := by
  cases l with
  | numeral s =>
    cases h
    exact ⟨.literal rfl, hf⟩
  | word s =>
    have text : s ≠ "" := by simpa [Lexeme.chars] using hl
    simp only [beginExpr] at h
    split at h <;> cases h
    · exact ⟨trivial, hf⟩
    · exact ⟨trivial, hf⟩
    · exact ⟨.literal rfl, hf⟩
    · exact ⟨.literal rfl, hf⟩
    · exact ⟨.literal rfl, hf⟩
    · exact ⟨.literal rfl, hf⟩
    · exact ⟨.name text, hf⟩
  | mark m =>
    cases m with
    | openParen | minus | plus | increment | decrement =>
      cases h
      exact ⟨trivial, hf.cons trivial⟩
    | _ => cases h

theorem proper_endStmt {s : Stmt} (hs : s.Proper) {braced : Bool} (hf : AllProper frames)
    (h : endStmt s braced frames = some next) : next.Proper := by
  induction frames generalizing s with
  | nil => cases h
  | cons f frames ih =>
    cases f with
    | items before =>
      cases h
      exact ⟨List.forall_mem_cons.mpr ⟨hs, hf.head⟩, hf.tail⟩
    | elseIf start test body =>
      obtain ⟨ht, hb⟩ := hf.head
      exact ih (Stmt.proper_ifElse ht hb hs start) hf.tail h
    | _ => cases h

theorem proper_endBody {before : List Stmt} (hb : ∀ s ∈ before, s.Proper) (hf : AllProper frames)
    (h : endBody before frames = some next) : next.Proper := by
  rcases frames with _ | ⟨f, frames⟩
  · cases h
  · cases f with
    | body of start =>
      have block : (Block.mk start before.reverse).Proper :=
        Block.proper_mk (fun s hs => hb s (List.mem_reverse.mp hs)) start
      have outer := hf.tail
      have head : of.Proper := hf.head
      cases of with
      | plain => exact proper_endStmt (Stmt.proper_block block) outer h
      | ifBody start test =>
        cases h
        exact ⟨⟨head, block⟩, outer⟩
      | elseBody start test body =>
        obtain ⟨ht, hb⟩ := head
        have other := Stmt.proper_block block
        exact proper_endStmt (Stmt.proper_ifElse ht hb other start) outer h
      | whileBody start test => exact proper_endStmt (Stmt.proper_while head block start) outer h
      | function literal params =>
        obtain ⟨hname, hparams⟩ := head
        cases literal with
        | named start name =>
          exact proper_endStmt (Stmt.proper_function hname hparams block start) outer h
        | value start =>
          cases h
          exact ⟨Expr.proper_function hparams block start, outer⟩
    | _ => cases h

theorem proper_beginStmt {before : List Stmt} (hb : ∀ s ∈ before, s.Proper) {braced : Bool}
    (hf : AllProper frames) (hl : l.chars ≠ [])
    (h : beginStmt before braced frames l p = some next) : next.Proper := by
  have inside : AllProper (.items before :: frames) := hf.cons hb
  have stated : AllProper (.stated :: .items before :: frames) := inside.cons trivial
  simp only [beginStmt] at h
  split at h
  · rename_i s
    have text : s ≠ "" := by simpa [Lexeme.chars] using hl
    split at h
    · cases h; exact ⟨trivial, inside⟩
    · cases h; exact ⟨trivial, inside⟩
    · split at h
      · cases h
      · cases h; exact ⟨text, inside⟩
    · cases h; exact ⟨trivial, inside⟩
    · cases h; exact ⟨trivial, inside⟩
    · cases h; exact ⟨trivial, inside⟩
    · exact proper_beginExpr stated hl h
    · cases h; exact ⟨text, inside⟩
  · cases h
    exact ⟨List.forall_mem_cons.mpr ⟨Stmt.proper_empty p, hb⟩, hf⟩
  · cases h; exact ⟨by simp [Mode.Proper], inside.cons trivial⟩
  · exact proper_endBody hb hf h
  · exact proper_beginExpr stated hl h

theorem proper_settle (level : Nat) {e : Expr} (he : e.Proper) (hf : AllProper frames) :
    (settle level e frames).1.Proper ∧ AllProper (settle level e frames).2 := by
  fun_induction settle level e frames with
  | case1 e start op frames ih => exact ih (Expr.proper_unary he start op) hf.tail
  | case2 e left op place frames _ ih =>
    exact ih (Expr.proper_binary hf.head he op place) hf.tail
  | case3 => exact ⟨he, hf⟩
  | case4 => exact ⟨he, hf⟩

theorem proper_endAtSemicolon {e : Expr} (he : e.Proper) (hf : AllProper frames)
    (h : endAtSemicolon e frames = some next) : next.Proper := by
  rcases frames with _ | ⟨f, frames⟩
  · cases h
  · have outer := hf.tail
    cases f with
    | stated => exact proper_endStmt (Stmt.proper_expr he) outer h
    | declared start name =>
      exact proper_endStmt (Stmt.proper_declare hf.head he start) outer h
    | assigned name => exact proper_endStmt (Stmt.proper_assign hf.head he) outer h
    | returned start => exact proper_endStmt (Stmt.proper_return he start) outer h
    | _ => cases h

theorem proper_endAtParen {e : Expr} (he : e.Proper) (hf : AllProper frames)
    (h : endAtParen e frames = some next) : next.Proper := by
  rcases frames with _ | ⟨f, frames⟩
  · cases h
  · cases f with
    | paren start =>
      cases h
      exact ⟨Expr.proper_paren he start, hf.tail⟩
    | argument callee before =>
      cases h
      obtain ⟨hc, hb⟩ := hf.head
      refine ⟨Expr.proper_call hc fun a ha => ?_, hf.tail⟩
      rcases List.mem_cons.mp (List.mem_reverse.mp ha) with rfl | ha
      · exact he
      · exact hb a ha
    | constructed start name before =>
      cases h
      exact ⟨Expr.proper_construct _ _ _, hf.tail⟩
    | test of start =>
      cases of <;> cases h <;> exact ⟨he, hf.tail⟩
    | _ => cases h

theorem proper_endAtComma {e : Expr} (he : e.Proper) (hf : AllProper frames)
    (h : endAtComma e frames = some next) : next.Proper := by
  rcases frames with _ | ⟨f, frames⟩
  · cases h
  · cases f with
    | argument callee before =>
      cases h
      obtain ⟨hc, hb⟩ := hf.head
      exact ⟨trivial, hf.tail.cons ⟨hc, List.forall_mem_cons.mpr ⟨he, hb⟩⟩⟩
    | constructed start name before =>
      cases h
      exact ⟨trivial, hf.tail.cons trivial⟩
    | _ => cases h

theorem proper_endNoArgs (hf : AllProper frames) (h : endNoArgs frames = some next) :
    next.Proper := by
  rcases frames with _ | ⟨f, frames⟩
  · cases h
  · cases f with
    | argument callee before =>
      cases before with
      | nil =>
        cases h
        exact ⟨Expr.proper_call hf.head.1 (by simp), hf.tail⟩
      | cons => cases h
    | constructed start name before =>
      cases before with
      | nil =>
        cases h
        exact ⟨Expr.proper_construct _ _ _, hf.tail⟩
      | cons => cases h
    | _ => cases h

/-- A token that is taken only if it is the one that has to be there. -/
theorem proper_expect {c : Prop} [Decidable c] (h : (if c then some st else none) = some next)
    (hst : st.Proper) : next.Proper := by
  split at h
  · cases h; exact hst
  · cases h

theorem proper_continueExpr {e : Expr} (he : e.Proper) (hf : AllProper frames)
    (h : continueExpr e frames l p = some next) : next.Proper := by
  obtain ⟨whole, outer⟩ := proper_settle 0 he hf
  simp only [continueExpr] at h
  split at h
  · cases h; exact ⟨Expr.proper_postfixed he _, hf⟩
  · cases h; exact ⟨Expr.proper_postfixed he _, hf⟩
  · exact proper_expect h ⟨trivial, hf.cons ⟨he, by simp⟩⟩
  · exact proper_expect h ⟨he, hf⟩
  · exact proper_endAtSemicolon whole outer h
  · exact proper_endAtParen whole outer h
  · exact proper_endAtComma whole outer h
  · obtain ⟨op, _, rfl⟩ := Option.map_eq_some_iff.mp h
    obtain ⟨left, rest⟩ := proper_settle op.level he hf
    exact ⟨trivial, rest.cons left⟩
  · cases h

theorem proper_endIf {test : Expr} {body : Block} (ht : test.Proper) (hb : body.Proper)
    {start : Place} (hf : AllProper frames) (h : endIf start test body frames = some next) :
    next.Proper := proper_endStmt (Stmt.proper_ifOnly ht hb start) hf h

theorem proper_continueIf {test : Expr} {body : Block} (ht : test.Proper) (hb : body.Proper)
    {start : Place} (hf : AllProper frames) (hl : l.chars ≠ [])
    (h : continueIf start test body frames l p = some next) : next.Proper := by
  rw [continueIf] at h
  split at h
  · cases h; exact ⟨⟨ht, hb⟩, hf⟩
  · split at h
    · rename_i before braced outer ended
      have := proper_endIf ht hb hf ended
      exact proper_beginStmt this.mode this.frames hl h
    · cases h

theorem proper_expected {mode mode' : Mode} {opened : List Frame} (hm : mode.Proper)
    (hf : AllProper frames) (e : mode.Expects p l mode' opened) :
    (⟨mode', opened ++ frames⟩ : State).Proper := by
  cases e with
  | assigned | declared | elseIf => exact ⟨trivial, hf.cons hm⟩
  | test | literal | args => exact ⟨trivial, hf.cons trivial⟩
  | body | elseBody => exact ⟨by simp [Mode.Proper], hf.cons hm⟩
  | params | nextParam => exact ⟨hm, hf⟩
  | noParams => exact ⟨⟨hm, by simp⟩, hf⟩
  | lastParam => exact ⟨⟨hm.1, fun n hn => hm.2 n (List.mem_reverse.mp hn)⟩, hf⟩

theorem proper_named {name : Name} {mode mode' : Mode} (hm : mode.Proper) (hn : name.Proper)
    (n : mode.Names name mode') : mode'.Proper := by
  cases n with
  | declared | function => exact hn
  | param => exact ⟨hm, by simpa using hn⟩
  | nextParam => exact ⟨hm.1, List.forall_mem_cons.mpr ⟨hn, hm.2⟩⟩
  | member => exact Expr.proper_member _ _
  | constructed => trivial

theorem proper_step (hst : st.Proper) (hl : l.chars ≠ []) (h : st.step l p = some next) :
    next.Proper := by
  obtain ⟨mode, frames⟩ := st
  obtain ⟨hm, hf⟩ := hst
  cases moves_of_step h with
  | expected e => exact proper_expected hm hf e
  | @named _ s _ n =>
    have hn : (Name.mk s p).Proper := by simpa [Name.Proper, Lexeme.chars] using hl
    exact ⟨proper_named hm hn n, hf⟩
  | items h => exact proper_beginStmt hm hf hl h
  | ifTail h => exact proper_continueIf hm.1 hm.2 hf hl h
  | operand h | argument h => exact proper_beginExpr hf hl h
  | @returned start _ _ h =>
    have inside : AllProper (.returned start :: frames) := hf.cons trivial
    exact proper_beginExpr inside hl h
  | @leading name _ _ h =>
    have stated : AllProper (.stated :: frames) := hf.cons trivial
    exact proper_continueExpr (e := .atom .identifier name) (.name hm) stated h
  | operator h => exact proper_continueExpr hm hf h
  | declareBare h => exact proper_endStmt (Stmt.proper_declareBare hm _) hf h
  | returnBare h => exact proper_endStmt (Stmt.proper_returnBare _) hf h
  | noArgs h => exact proper_endNoArgs hf h

theorem proper_run {ts : List Token} (hst : st.Proper) (hts : ∀ t ∈ ts, t.lexeme.chars ≠ [])
    (h : st.run ts = .ok next) : next.Proper := by
  induction ts generalizing st with
  | nil => cases h; exact hst
  | cons t ts ih =>
    obtain ⟨ht, hts⟩ := List.forall_mem_cons.mp hts
    rw [run] at h
    split at h
    · rename_i after taken
      exact ih (proper_step hst ht taken) hts h
    · cases h

theorem proper_program? {program : Program} (hst : st.Proper) (h : st.program? = some program) :
    ∀ s ∈ program, s.Proper := by
  simp only [program?] at h
  split at h
  · rename_i before braced ended
    cases h
    have hended : (⟨.items before braced, []⟩ : State).Proper := by
      split at ended
      · rename_i start test body mode
        obtain ⟨hm, hf⟩ := hst
        rw [mode] at hm
        exact proper_endIf hm.1 hm.2 hf ended
      · cases ended; exact hst
    exact fun s hs => hended.mode s (List.mem_reverse.mp hs)
  · cases h

end State

/-- Every token was cut off the front of some text. -/
theorem mem_scanFrom {done : List Token} {here : Cursor} :
    ∀ t ∈ (scanFrom done here).1, t ∈ done ∨ ∃ cs, Lexeme.first? cs = some t.lexeme := by
  fun_induction scanFrom done here with
  | case1 => exact fun t ht => Or.inl (List.mem_reverse.mp ht)
  | case2 done here l cut ih =>
    intro t ht
    rcases ih t ht with hd | hc
    · rcases List.mem_cons.mp hd with rfl | hd
      · exact Or.inr ⟨_, cut⟩
      · exact Or.inl hd
    · exact Or.inr hc

theorem mem_scan {cs : List Char} : ∀ t ∈ (scan cs).1, ∃ cs, Lexeme.first? cs = some t.lexeme := by
  intro t ht
  rcases mem_scanFrom t ht with hd | hc
  · cases hd
  · exact hc

/-- Whatever is read has the shape of a program. -/
theorem readProgram_isStmt {cs : List Char} {p : Program} (h : readProgram cs = .ok p) :
    p.tree.IsStmt := by
  simp only [readProgram] at h
  split at h
  · cases h
  · rename_i st run
    split at h
    · cases h
    · rename_i ended
      cases h
      have read : st.Proper := State.proper_run State.proper_start (fun t ht => by
        obtain ⟨cs, hcs⟩ := mem_scan t ht
        exact Lexeme.chars_ne_nil hcs) run
      exact Program.isStmt_tree (State.proper_program? read ended)
    · cases h

end Source

end Scriptlet
