import Scriptlet.Proofs.Grammar
/-!
# Reading expressions

`State.After` follows the reader over a list of lexemes. For each kind of phrase there is a
statement that its tokens are read as such a phrase, in whatever the phrase is part of, and for each
rule of the grammar a lemma that builds the statement for the whole from those for the parts. The
phrase that is read has the tree that the rule asks for, places aside.
-/

namespace Scriptlet.Source

/-! ## Trees without places -/

@[simp]
theorem Name.bare_tree (kind : TokenKind) (name : Name) :
    (name.tree kind).bare = .token kind name.text none := by
  simp [Name.tree]

theorem bare_paramsTree (ps : List Name) :
    (paramsTree ps).bare = .node .params none (ps.map fun p => nameTree p.text) := by
  simp [paramsTree, nameTree]

theorem bare_argsTree (es : List Expr) :
    (argsTree (lowerArgs es)).bare = .node .args none (es.map (·.lower.tree.bare)) := by
  simp [argsTree, lowerArgs_eq_map]

theorem Block.bare_tree (start : Place) (body : List Stmt) :
    (Block.mk start body).tree.bare = .sequence none (body.map (·.lower.tree.bare)) := by
  simp [Block.tree, Tree.bare_sequence, lowerBody_eq_map, Function.comp_def]

theorem Program.bare_tree (p : Program) :
    p.tree.bare = .sequence none (p.map (·.lower.tree.bare)) := by
  simp [Program.tree, Tree.bare_sequence, lowerBody_eq_map, Function.comp_def]

/-! ## Runs -/

namespace State

/-- Wherever the lexemes stand, they are taken one after another and lead to a state of which `P`
holds. -/
def After : State → List Lexeme → (State → Prop) → Prop
  | st, [], P => P st
  | st, l :: ls, P => ∀ p, ∃ next, st.step l p = some next ∧ After next ls P

variable {st : State} {ls ms : List Lexeme} {P Q : State → Prop}

theorem after_append : st.After (ls ++ ms) P ↔ st.After ls fun next => next.After ms P := by
  induction ls generalizing st with
  | nil => exact Iff.rfl
  | cons l ls ih =>
    constructor
    · intro h p
      obtain ⟨next, step, rest⟩ := h p
      exact ⟨next, step, ih.mp rest⟩
    · intro h p
      obtain ⟨next, step, rest⟩ := h p
      exact ⟨next, step, ih.mpr rest⟩

theorem After.mono (h : st.After ls P) (imp : ∀ next, P next → Q next) : st.After ls Q := by
  induction ls generalizing st with
  | nil => exact imp st h
  | cons l ls ih =>
    intro p
    obtain ⟨next, step, rest⟩ := h p
    exact ⟨next, step, ih rest⟩

/-- Two states that take the first lexeme alike. -/
theorem After.of_step {st' : State} {l : Lexeme} (h : st'.After (l :: ls) P)
    (same : ∀ p, (st'.step l p).isSome → st.step l p = st'.step l p) : st.After (l :: ls) P := by
  intro p
  obtain ⟨next, step, rest⟩ := h p
  exact ⟨next, by rw [same p (by simp [step]), step], rest⟩

theorem After.run {ts : List Token} (h : st.After (ts.map (·.lexeme)) P) :
    ∃ next, st.run ts = .ok next ∧ P next := by
  induction ts generalizing st with
  | nil => exact ⟨st, rfl, h⟩
  | cons t ts ih =>
    obtain ⟨after, step, rest⟩ := h t.place
    obtain ⟨next, run, hp⟩ := ih rest
    refine ⟨next, ?_, hp⟩
    rw [State.run, step]
    exact run

end State

open State

/-! ## Words -/

theorem Keyword.text_mem_reserved (k : Keyword) : k.text ∈ reserved := by cases k <;> decide

theorem Keyword.ofText?_eq_none {s : String} (h : s ∉ reserved) : Keyword.ofText? s = none := by
  refine List.find?_eq_none.mpr fun k _ same => h ?_
  have text : k.text = s := by simpa using same
  exact text ▸ k.text_mem_reserved

theorem Keyword.text_of_ofText? {s : String} {k : Keyword} (h : Keyword.ofText? s = some k) :
    k.text = s := by
  simpa using List.find?_some h

/-! ## Operators -/

/-- A phrase of this level may be an operand of the innermost open operator. -/
def Open (level : Nat) : List Frame → Prop
  | .operand _ _ :: _ => 7 ≤ level
  | .rightOf _ op _ :: _ => op.level < level
  | _ => True

theorem BinaryOp.level_lt (op : BinaryOp) : op.level < 7 := by cases op <;> decide

theorem Open.succ {level : Nat} {frames : List Frame} (h : Open level frames) :
    Open (level + 1) frames := by
  rcases frames with _ | ⟨f, frames⟩
  · trivial
  · cases f with
    | operand => exact Nat.le_succ_of_le h
    | rightOf => exact Nat.lt_succ_of_lt h
    | _ => trivial

/-- Nothing that is open binds as tightly as `level`. -/
theorem Open.settle {level : Nat} {frames : List Frame} (h : Open level frames) (lt : level < 7)
    (e : Expr) : settle level e frames = (e, frames) := by
  rcases frames with _ | ⟨f, frames⟩
  · rfl
  · cases f with
    | operand =>
      have : 7 ≤ level := h
      omega
    | rightOf left op place =>
      have : op.level < level := h
      rw [State.settle, if_neg (by omega)]
    | _ => rfl

theorem continueExpr_op {m : Mark} {op : BinaryOp} (h : BinaryOp.ofMark? m = some op) (e : Expr)
    (frames : List Frame) (p : Place) :
    continueExpr e frames (.mark m) p =
      some ⟨.operand, .rightOf (settle op.level e frames).1 op p ::
        (settle op.level e frames).2⟩ := by
  cases m <;> cases h <;> rfl

/-! ## Levels of expressions -/

/-- The state after an expression from which `whole` results as soon as no operator that binds less
tightly than `level` is closed. -/
def Ended (level : Nat) (whole : Expr) (frames : List Frame) (st : State) : Prop :=
  ∃ e braced inner, st = ⟨.operator e braced, inner⟩ ∧
    ∀ k ≤ level, settle k e inner = settle k whole frames

/-- The tokens are an expression whose operators outside parentheses have at least this level. -/
def ReadsLevel (level : Nat) (ts : List Lexeme) (t : Tree) : Prop :=
  ∀ frames, Open level frames → After ⟨.operand, frames⟩ ts fun st =>
    ∃ whole, Ended level whole frames st ∧ whole.lower.tree.bare = t

/-- The tokens are an expression that no operator in front can divide. -/
def ReadsPostfix (ts : List Lexeme) (t : Tree) : Prop :=
  ∀ frames, After ⟨.operand, frames⟩ ts fun st =>
    ∃ e braced, st = ⟨.operator e braced, frames⟩ ∧ e.lower.tree.bare = t

/-- The tokens are an expression that can be called. -/
def ReadsMember (ts : List Lexeme) (t : Tree) : Prop :=
  ∀ frames, After ⟨.operand, frames⟩ ts fun st =>
    ∃ e braced, st = ⟨.operator e braced, frames⟩ ∧ e.isMember ∧ e.lower.tree.bare = t

variable {ts us : List Lexeme} {t u : Tree}

theorem ReadsMember.postfix (h : ReadsMember ts t) : ReadsPostfix ts t := by
  intro frames
  refine (h frames).mono ?_
  rintro st ⟨e, braced, rfl, _, ht⟩
  exact ⟨e, braced, rfl, ht⟩

theorem ReadsPostfix.level (h : ReadsPostfix ts t) : ReadsLevel 7 ts t := by
  intro frames _
  refine (h frames).mono ?_
  rintro st ⟨e, braced, rfl, ht⟩
  exact ⟨e, ⟨e, braced, frames, rfl, fun _ _ => rfl⟩, ht⟩

theorem ReadsLevel.lift {level : Nat} (h : ReadsLevel (level + 1) ts t) :
    ReadsLevel level ts t := by
  intro frames free
  refine (h frames free.succ).mono ?_
  rintro st ⟨whole, ⟨e, braced, inner, rfl, settled⟩, ht⟩
  exact ⟨whole, ⟨e, braced, inner, rfl, fun k hk => settled k (Nat.le_succ_of_le hk)⟩, ht⟩

theorem reads_binary {m : Mark} {op : BinaryOp} {level : Nat} (hm : BinaryOp.ofMark? m = some op)
    (hop : op.level = level) (left : ReadsLevel level ts t) (right : ReadsLevel (level + 1) us u)
    {tree : Tree}
    (image : ∀ (a b : Expr) (p : Place), a.lower.tree.bare = t → b.lower.tree.bare = u →
      (Expr.binary a op p b).lower.tree.bare = tree) :
    ReadsLevel level (ts ++ .mark m :: us) tree := by
  subst hop
  intro frames free
  rw [after_append]
  refine (left frames free).mono ?_
  rintro st ⟨a, ⟨e, braced, inner, rfl, settled⟩, ha⟩
  have closed : settle op.level e inner = (a, frames) := by
    rw [settled _ (Nat.le_refl _), free.settle op.level_lt]
  intro p
  refine ⟨⟨.operand, .rightOf a op p :: frames⟩, ?_, ?_⟩
  · exact (continueExpr_op hm e inner p).trans (by rw [closed])
  · refine (right (.rightOf a op p :: frames) (Nat.lt_succ_self _)).mono ?_
    rintro st ⟨b, ⟨e', braced', inner', rfl, settled'⟩, hb⟩
    refine ⟨.binary a op p b, ⟨e', braced', inner', rfl, fun k hk => ?_⟩, image a b p ha hb⟩
    rw [settled' k (Nat.le_succ_of_le hk), settle, if_pos hk]

theorem reads_before {m : Mark} {label : Label} (h : Before m label) (operand : ReadsLevel 7 ts t) :
    ReadsLevel 7 (.mark m :: ts) (.node label none [t]) := by
  obtain ⟨op, hm, hlabel⟩ : ∃ op, UnaryOp.ofMark? m = some op ∧ op.label = label := by
    cases h <;> exact ⟨_, rfl, rfl⟩
  intro frames _ p
  refine ⟨⟨.operand, .operand p op :: frames⟩, ?_, ?_⟩
  · cases m <;> cases hm <;> rfl
  · refine (operand (.operand p op :: frames) (Nat.le_refl 7)).mono ?_
    rintro st ⟨whole, ⟨e, braced, inner, rfl, settled⟩, rfl⟩
    refine ⟨.unary p op whole, ⟨e, braced, inner, rfl, settled⟩, ?_⟩
    simp [Expr.lower, hlabel]

theorem reads_behind {m : Mark} {label : Label} (h : Behind m label) (operand : ReadsPostfix ts t) :
    ReadsPostfix (ts ++ [.mark m]) (.node label none [t]) := by
  obtain ⟨op, step, hlabel⟩ : ∃ op : PostfixOp, (∀ e frames p, continueExpr e frames (.mark m) p =
      some ⟨.operator (.postfixed e op) false, frames⟩) ∧ op.label = label := by
    cases h with
    | increment => exact ⟨.increment, fun _ _ _ => rfl, rfl⟩
    | decrement => exact ⟨.decrement, fun _ _ _ => rfl, rfl⟩
  intro frames
  rw [after_append]
  refine (operand frames).mono ?_
  rintro st ⟨e, braced, rfl, rfl⟩ p
  refine ⟨_, step e frames p, .postfixed e op, false, rfl, ?_⟩
  simp [Expr.lower, hlabel]

/-- A whole expression and the mark that ends it. -/
theorem ReadsLevel.after_end {frames : List Frame} {m : Mark} {ls : List Lexeme}
    {P : State → Prop} (h : ReadsLevel 0 ts t) (free : Open 0 frames)
    (close : Expr → List Frame → Option State)
    (hm : ∀ e inner p, continueExpr e inner (.mark m) p =
      close (settle 0 e inner).1 (settle 0 e inner).2)
    (closed : ∀ whole, whole.lower.tree.bare = t → ∃ next, close whole frames = some next ∧
      next.After ls P) :
    After ⟨.operand, frames⟩ (ts ++ .mark m :: ls) P := by
  rw [after_append]
  refine (h frames free).mono ?_
  rintro st ⟨whole, ⟨e, braced, inner, rfl, settled⟩, ht⟩ p
  have settled : settle 0 e inner = (whole, frames) := by
    rw [settled 0 (Nat.le_refl 0), free.settle (by decide)]
  obtain ⟨next, hnext, rest⟩ := closed whole ht
  refine ⟨next, ?_, rest⟩
  exact (hm e inner p).trans (by rw [settled, hnext])

/-! ## Lists of arguments -/

/-- What arguments are given to. -/
inductive ArgsOf
  | call (callee : Expr)
  | construct (start : Place) (name : Name)

namespace ArgsOf

def frame : ArgsOf → List Expr → Frame
  | call callee, before => .argument callee before
  | construct start name, before => .constructed start name before

def result : ArgsOf → List Expr → Expr
  | call callee, args => .call callee args
  | construct start name, args => .construct start name args

theorem open_frame (of : ArgsOf) (before : List Expr) (frames : List Frame) :
    Open 0 (of.frame before :: frames) := by cases of <;> trivial

theorem endAtParen (of : ArgsOf) (before : List Expr) (frames : List Frame) (e : Expr) :
    State.endAtParen e (of.frame before :: frames) =
      some ⟨.operator (of.result (e :: before).reverse) false, frames⟩ := by cases of <;> rfl

theorem endAtComma (of : ArgsOf) (before : List Expr) (frames : List Frame) (e : Expr) :
    State.endAtComma e (of.frame before :: frames) =
      some ⟨.operand, of.frame (e :: before) :: frames⟩ := by cases of <;> rfl

theorem endNoArgs (of : ArgsOf) (frames : List Frame) :
    State.endNoArgs (of.frame [] :: frames) =
      some ⟨.operator (of.result []) false, frames⟩ := by cases of <;> rfl

end ArgsOf

/-- The tokens are arguments that end a list of arguments. -/
def ReadsExprs (ts : List Lexeme) (trees : List Tree) : Prop :=
  ∀ (of : ArgsOf) before frames,
    After ⟨.operand, of.frame before :: frames⟩ (ts ++ [.mark .closeParen]) fun st =>
      ∃ args, st = ⟨.operator (of.result (before.reverse ++ args)) false, frames⟩ ∧
        args.map (·.lower.tree.bare) = trees

/-- The tokens are a list of arguments. -/
def ReadsArgs (ts : List Lexeme) (t : Tree) : Prop :=
  ∀ (of : ArgsOf) frames,
    After ⟨.argsFirst, of.frame [] :: frames⟩ (ts ++ [.mark .closeParen]) fun st =>
      ∃ args, st = ⟨.operator (of.result args) false, frames⟩ ∧
        (argsTree (lowerArgs args)).bare = t

theorem reads_exprLast (h : ReadsLevel 0 ts t) : ReadsExprs ts [t] := by
  intro of before frames
  refine h.after_end (of.open_frame before frames) endAtParen (fun _ _ _ => rfl) ?_
  rintro e rfl
  exact ⟨_, of.endAtParen before frames e, [e], by simp, rfl⟩

theorem reads_exprNext {trees : List Tree} (h : ReadsLevel 0 ts t) (rest : ReadsExprs us trees) :
    ReadsExprs (ts ++ .mark .comma :: us) (t :: trees) := by
  intro of before frames
  rw [List.append_assoc, List.cons_append]
  refine h.after_end (of.open_frame before frames) endAtComma (fun _ _ _ => rfl) ?_
  rintro e rfl
  refine ⟨_, of.endAtComma before frames e, (rest of (e :: before) frames).mono ?_⟩
  rintro st ⟨args, rfl, rfl⟩
  exact ⟨e :: args, by simp, rfl⟩

theorem reads_argsNone : ReadsArgs [] (.node .args none []) := by
  intro of frames p
  exact ⟨_, of.endNoArgs frames, [], rfl, by simp [bare_argsTree]⟩

/-- Where an argument may stand, one may stand first. -/
theorem State.After.argsFirst {frames : List Frame} {l : Lexeme} {P : State → Prop}
    {ls : List Lexeme} (h : After ⟨.operand, frames⟩ (l :: ls) P) :
    After ⟨.argsFirst, frames⟩ (l :: ls) P := by
  refine h.of_step fun p some => ?_
  by_cases close : l = .mark .closeParen
  · subst close
    cases some
  · simp [step, close]

theorem reads_argsSome {trees : List Tree} (h : ReadsExprs ts trees) :
    ReadsArgs ts (.node .args none trees) := by
  intro of frames
  obtain ⟨l, ls, hls⟩ := List.exists_cons_of_ne_nil (l := ts ++ [.mark .closeParen]) (by simp)
  have read := h of [] frames
  rw [hls] at read ⊢
  refine read.argsFirst.mono ?_
  rintro st ⟨args, rfl, rfl⟩
  exact ⟨args, rfl, bare_argsTree args⟩

/-! ## Lists of parameters -/

/-- The tokens are names that end a list of parameters, in which they may stand first. -/
def ReadsNames (ts : List Lexeme) (trees : List Tree) : Prop :=
  ∀ (head : FunctionHead) (before : List Name) (frames : List Frame) (st : State),
    st = ⟨.paramsName head before, frames⟩ ∨
      st = ⟨.paramsFirst head, frames⟩ ∧ before = [] →
    st.After ts fun next => ∃ ps : List Name,
      next = ⟨.paramsTail head (ps.reverse ++ before), frames⟩ ∧
        ps.map (fun p => nameTree p.text) = trees

/-- The tokens are a list of parameters. -/
def ReadsParams (ts : List Lexeme) (t : Tree) : Prop :=
  ∀ head frames, After ⟨.paramsFirst head, frames⟩ (ts ++ [.mark .closeParen]) fun st =>
    ∃ ps, st = ⟨.bodyOpen (.function head ps), frames⟩ ∧ (paramsTree ps).bare = t

theorem reads_nameLast (x : String) : ReadsNames [.word x] [nameTree x] := by
  rintro head before frames st (rfl | ⟨rfl, rfl⟩) p
  · exact ⟨_, rfl, [⟨x, p⟩], rfl, rfl⟩
  · exact ⟨_, rfl, [⟨x, p⟩], rfl, rfl⟩

theorem reads_nameNext (x : String) {trees : List Tree} (rest : ReadsNames ts trees) :
    ReadsNames (.word x :: .mark .comma :: ts) (nameTree x :: trees) := by
  intro head before frames st from_ p
  refine ⟨⟨.paramsTail head (⟨x, p⟩ :: before), frames⟩, ?_, fun _ => ⟨_, rfl, ?_⟩⟩
  · rcases from_ with rfl | ⟨rfl, rfl⟩ <;> rfl
  · refine (rest head (⟨x, p⟩ :: before) frames _ (Or.inl rfl)).mono ?_
    rintro st ⟨ps, rfl, rfl⟩
    exact ⟨⟨x, p⟩ :: ps, by simp, rfl⟩

theorem reads_paramsNone : ReadsParams [] (.node .params none []) := by
  intro head frames p
  exact ⟨_, rfl, [], rfl, by simp [bare_paramsTree]⟩

theorem reads_paramsSome {trees : List Tree} (h : ReadsNames ts trees) :
    ReadsParams ts (.node .params none trees) := by
  intro head frames
  rw [after_append]
  refine (h head [] frames _ (Or.inr ⟨rfl, rfl⟩)).mono ?_
  rintro st ⟨ps, rfl, rfl⟩ p
  exact ⟨_, rfl, ps, by simp, bare_paramsTree ps⟩

/-! ## Blocks -/

/-- The state is `next`, or will be once it is certain that no `else` follows. -/
def State.Settles (st next : State) : Prop :=
  st = next ∨ ∃ start test body, st.mode = .ifTail start test body ∧
    endIf start test body st.frames = some next

theorem State.Settles.after {st : State} {before : List Stmt} {braced : Bool} {frames : List Frame}
    {l : Lexeme} {ls : List Lexeme} {P : State → Prop}
    (h : st.Settles ⟨.items before braced, frames⟩) (hl : l ≠ .word "else")
    (rest : After ⟨.items before braced, frames⟩ (l :: ls) P) : st.After (l :: ls) P := by
  rcases h with rfl | ⟨start, test, body, mode, ended⟩
  · exact rest
  · refine rest.of_step fun p _ => ?_
    have hl : l ≠ .word Keyword.elseWord.text := hl
    simp only [step, mode, continueIf, if_neg hl, ended]

/-- The tokens are a block, whatever it is the body of. -/
def ReadsBlock (ts : List Lexeme) (t : Tree) : Prop :=
  ∃ ls, ts = .mark .openBrace :: (ls ++ [.mark .closeBrace]) ∧ ∀ of start frames,
    After ⟨.items [] false, .body of start :: frames⟩ ls fun st =>
      ∃ before braced, st.Settles ⟨.items before braced, .body of start :: frames⟩ ∧
        (Block.mk start before.reverse).tree.bare = t

theorem ReadsBlock.after {st : State} {of : BodyOf} {frames : List Frame} {P : State → Prop}
    (h : ReadsBlock ts t)
    (enter : ∀ p, st.step (.mark .openBrace) p = some ⟨.items [] false, .body of p :: frames⟩)
    (leave : ∀ start before, (Block.mk start before.reverse).tree.bare = t →
      ∃ next, endBody before (.body of start :: frames) = some next ∧ P next) :
    st.After ts P := by
  obtain ⟨ls, rfl, inside⟩ := h
  intro start
  refine ⟨_, enter start, ?_⟩
  rw [after_append]
  refine (inside of start frames).mono ?_
  rintro st ⟨before, braced, settles, ht⟩
  obtain ⟨next, hnext, hp⟩ := leave start before ht
  exact settles.after (by simp) fun _ => ⟨next, hnext, hp⟩

/-- The parameters and the body of a function. -/
theorem after_function {head : FunctionHead} {frames : List Frame} {P : State → Prop}
    (params : ReadsParams ts t) (body : ReadsBlock us u)
    (leave : ∀ ps start before, (paramsTree ps).bare = t →
      (Block.mk start before.reverse).tree.bare = u →
      ∃ next, endBody before (.body (.function head ps) start :: frames) = some next ∧ P next) :
    After ⟨.paramsOpen head, frames⟩ (.mark .openParen :: (ts ++ .mark .closeParen :: us)) P := by
  intro p
  refine ⟨⟨.paramsFirst head, frames⟩, rfl, ?_⟩
  rw [List.append_cons, after_append]
  refine (params head frames).mono ?_
  rintro st ⟨ps, rfl, hps⟩
  exact body.after (fun _ => rfl) fun start before hb => leave ps start before hps hb

/-! ## Members and primary expressions -/

theorem reads_call (callee : ReadsMember ts t) (args : ReadsArgs us u) :
    ReadsMember (ts ++ .mark .openParen :: (us ++ [.mark .closeParen]))
      (.node .call none [t, u]) := by
  intro frames
  rw [after_append]
  refine (callee frames).mono ?_
  rintro st ⟨e, braced, rfl, member, rfl⟩ p
  refine ⟨⟨.argsFirst, .argument e [] :: frames⟩, by simp [step, continueExpr, member], ?_⟩
  refine (args (.call e) frames).mono ?_
  rintro st ⟨es, rfl, rfl⟩
  exact ⟨.call e es, false, rfl, rfl, by simp [Expr.lower]⟩

theorem reads_member (object : ReadsMember ts t) (x : String) :
    ReadsMember (ts ++ [.mark .dot, .word x]) (.node .member none [t, nameTree x]) := by
  intro frames
  rw [after_append]
  refine (object frames).mono ?_
  rintro st ⟨e, braced, rfl, member, rfl⟩ _
  refine ⟨⟨.memberName e, frames⟩, by simp [step, continueExpr, member], fun p => ?_⟩
  refine ⟨_, rfl, .member e ⟨x, p⟩, false, rfl, rfl, ?_⟩
  simp [Expr.lower, nameTree]

/-- A token that is an expression by itself. -/
theorem reads_atom {l : Lexeme} {kind : TokenKind} {text : String}
    (h : ∀ frames p, beginExpr frames l p =
      some ⟨.operator (.atom kind ⟨text, p⟩) false, frames⟩) :
    ReadsMember [l] (.token kind text none) := by
  intro frames p
  exact ⟨_, h frames p, .atom kind ⟨text, p⟩, false, rfl, rfl, by simp [Expr.lower]⟩

theorem reads_number (s : String) : ReadsMember [.numeral s] (.token .number s none) :=
  reads_atom fun _ _ => rfl

theorem reads_constant {s : String} {kind : TokenKind} (h : Constant s kind) :
    ReadsMember [.word s] (.token kind s none) := by
  cases h <;> exact reads_atom fun _ _ => rfl

theorem reads_identifier {x : String} (h : x ∉ reserved) : ReadsMember [.word x] (nameTree x) :=
  reads_atom fun _ _ => by simp [beginExpr, Keyword.ofText?_eq_none h]

theorem reads_paren (h : ReadsLevel 0 ts t) :
    ReadsMember (.mark .openParen :: (ts ++ [.mark .closeParen])) t := by
  intro frames p
  refine ⟨⟨.operand, .paren p :: frames⟩, rfl, ?_⟩
  refine h.after_end trivial endAtParen (fun _ _ _ => rfl) ?_
  rintro e rfl
  exact ⟨_, rfl, .paren p e, false, rfl, rfl, by rw [Expr.tree_paren]⟩

theorem reads_functionValue (params : ReadsParams ts t) (body : ReadsBlock us u) :
    ReadsMember (.word "function" :: .mark .openParen :: (ts ++ .mark .closeParen :: us))
      (.node .function none [.missing, t, u]) := by
  intro frames p
  refine ⟨⟨.paramsOpen (.value p), frames⟩, rfl, after_function params body ?_⟩
  rintro ps start before rfl rfl
  refine ⟨_, rfl, .function p ps (.mk start before.reverse), true, rfl, rfl, ?_⟩
  simp [Expr.lower]

theorem reads_construct (x : String) (args : ReadsArgs ts t) :
    ReadsMember (.word "new" :: .word x :: .mark .openParen :: (ts ++ [.mark .closeParen]))
      (.node .construct none [nameTree x, t]) := by
  intro frames p
  refine ⟨⟨.constructName p, frames⟩, rfl, fun q => ⟨⟨.constructOpen p ⟨x, q⟩, frames⟩, rfl, ?_⟩⟩
  refine fun _ => ⟨⟨.argsFirst, .constructed p ⟨x, q⟩ [] :: frames⟩, rfl, ?_⟩
  refine (args (.construct p ⟨x, q⟩) frames).mono ?_
  rintro st ⟨es, rfl, rfl⟩
  refine ⟨.construct p ⟨x, q⟩ es, false, rfl, rfl, ?_⟩
  simp [Expr.lower, nameTree]

end Scriptlet.Source
