import Scriptlet.Proofs.Reading
import Scriptlet.Proofs.Scanning
/-!
# Every sentence is read

A statement is read wherever a statement may stand, and a list of statements likewise. With the
lemmas for expressions, an induction on the derivation shows that the reader takes every sentence of
the grammar to its tree; with scanning, that its text is parsed.
-/

namespace Scriptlet.Source

open State

variable {ts us vs : List Lexeme} {t u v : Tree}

/-! ## How phrases begin -/

/-- The words that only statements begin with, and the one that continues them. -/
def statementWords : List String := ["var", "if", "else", "while", "return"]

/-- The tokens begin as an expression may. -/
def Begins (ts : List Lexeme) : Prop :=
  ∃ l ls, ts = l :: ls ∧ ∀ s ∈ statementWords, l ≠ .word s

theorem Begins.append (h : Begins ts) (us : List Lexeme) : Begins (ts ++ us) := by
  obtain ⟨l, ls, rfl, hl⟩ := h
  exact ⟨l, ls ++ us, rfl, hl⟩

theorem begins_mark (m : Mark) (ts : List Lexeme) : Begins (.mark m :: ts) :=
  ⟨_, _, rfl, fun _ _ h => by cases h⟩

theorem begins_word {s : String} (h : s ∉ statementWords) (ts : List Lexeme) :
    Begins (.word s :: ts) := by
  refine ⟨_, _, rfl, fun w hw same => h ?_⟩
  cases same
  exact hw

theorem statementWords_subset : ∀ s ∈ statementWords, s ∈ reserved := by decide

/-- The symbols of expressions. -/
def Symbol.isExpr : Symbol → Bool
  | expr | orExpr | andExpr | equality | comparison | sum | product => true
  | unary | postfixExpr | member | primary => true
  | _ => false

theorem Symbol.isExpr_of_tighter? {sym next : Symbol} (h : sym.tighter? = some next) :
    next.isExpr := by
  cases sym <;> cases h <;> rfl

theorem Operator.isExpr {sym : Symbol} {m : Mark} {label : Label} {kept : List Tree}
    (h : Operator sym m label kept) : sym.isExpr := by
  cases h <;> rfl

theorem Derives.begins {sym : Symbol} {trees : List Tree}
    (h : Derives (· ∉ reserved) sym ts trees) (expr : sym.isExpr) : Begins ts := by
  induction h with
  | lift tighter _ ih => exact ih (Symbol.isExpr_of_tighter? tighter)
  | binary op _ _ _ ihLeft => exact (ihLeft op.isExpr).append _
  | before => exact begins_mark _ _
  | behind _ _ ih => exact (ih rfl).append _
  | call _ _ ih => exact (ih rfl).append _
  | member _ _ ih => exact (ih rfl).append _
  | number => exact ⟨_, _, rfl, fun _ _ h => by cases h⟩
  | constant hc => cases hc <;> exact begins_word (by decide) _
  | identifier _ plain => exact begins_word (fun h => plain (statementWords_subset _ h)) _
  | paren => exact begins_mark _ _
  | functionValue => exact begins_word (by decide) _
  | construct => exact begins_word (by decide) _
  | _ => cases expr

/-! ## Statements -/

/-- The tokens are a statement. -/
def ReadsStmt (ts : List Lexeme) (t : Tree) : Prop :=
  ∀ before braced frames, After ⟨.items before braced, frames⟩ ts fun st =>
    ∃ s braced', st.Settles ⟨.items (s :: before) braced', frames⟩ ∧ s.lower.tree.bare = t

/-- The tokens are a list of statements. -/
def ReadsStmts (ts : List Lexeme) (trees : List Tree) : Prop :=
  ∀ before braced frames (st : State), st.Settles ⟨.items before braced, frames⟩ →
    st.After ts fun next => ∃ (ss : List Stmt) (braced' : Bool),
      next.Settles ⟨.items (ss.reverse ++ before) braced', frames⟩ ∧
        ss.map (·.lower.tree.bare) = trees

/-- A statement may stand inside the innermost frame. -/
def Accepts (frames : List Frame) : Prop := ∀ s braced, (endStmt s braced frames).isSome

/-- The state after a statement inside `frames`. -/
def Finished (s : Stmt) (frames : List Frame) (st : State) : Prop :=
  ∃ braced next, endStmt s braced frames = some next ∧ st.Settles next

/-- The tokens are an `if` statement. -/
def ReadsIf (ts : List Lexeme) (t : Tree) : Prop :=
  ∃ ls, ts = .word "if" :: ls ∧ ∀ start frames, Accepts frames →
    After ⟨.testOpen .ifStmt start, frames⟩ ls fun st =>
      ∃ s, Finished s frames st ∧ s.lower.tree.bare = t

/-- The tokens are the other branch of an `if` statement. -/
def ReadsElse (ts : List Lexeme) (t : Tree) : Prop :=
  ∀ start test body frames, Accepts frames →
    After ⟨.elseOpen start test body, frames⟩ ts fun st =>
      ∃ s, Finished (.ifElse start test body s) frames st ∧ s.lower.tree.bare = t

/-- A statement that a semicolon ends. -/
theorem ReadsLevel.semicolon {before : List Stmt} {frames : List Frame} {f : Frame}
    (h : ReadsLevel 0 ts t) (free : Open 0 (f :: .items before :: frames)) {tree : Tree}
    (closed : ∀ e : Expr, e.lower.tree.bare = t → ∃ s : Stmt,
      endAtSemicolon e (f :: .items before :: frames) =
        some ⟨.items (s :: before) false, frames⟩ ∧ s.lower.tree.bare = tree) :
    After ⟨.operand, f :: .items before :: frames⟩ (ts ++ [.mark .semicolon]) fun st =>
      ∃ s braced, st.Settles ⟨.items (s :: before) braced, frames⟩ ∧ s.lower.tree.bare = tree := by
  refine h.after_end free endAtSemicolon (fun _ _ _ => rfl) fun e he => ?_
  obtain ⟨s, ended, hs⟩ := closed e he
  exact ⟨_, ended, s, false, Or.inl rfl, hs⟩

theorem reads_declare (x : String) (value : ReadsLevel 0 ts t) :
    ReadsStmt (.word "var" :: .word x :: .mark .becomes :: (ts ++ [.mark .semicolon]))
      (.node .decl none [nameTree x, t]) := by
  intro before braced frames p
  refine ⟨⟨.declareName p, .items before :: frames⟩, rfl, fun q => ?_⟩
  refine ⟨⟨.declareTail p ⟨x, q⟩, .items before :: frames⟩, rfl, fun _ => ?_⟩
  refine ⟨⟨.operand, .declared p ⟨x, q⟩ :: .items before :: frames⟩, rfl, ?_⟩
  refine value.semicolon (by trivial) ?_
  rintro e rfl
  refine ⟨.declare p ⟨x, q⟩ e, rfl, ?_⟩
  simp [Stmt.lower, nameTree]

theorem reads_declareBare (x : String) :
    ReadsStmt [.word "var", .word x, .mark .semicolon]
      (.node .decl none [nameTree x, undefinedTree]) := by
  intro before braced frames p
  refine ⟨⟨.declareName p, .items before :: frames⟩, rfl, fun q => ?_⟩
  refine ⟨⟨.declareTail p ⟨x, q⟩, .items before :: frames⟩, rfl, fun _ => ?_⟩
  refine ⟨_, rfl, .declareBare p ⟨x, q⟩, false, Or.inl rfl, ?_⟩
  simp [Stmt.lower, nameTree, undefinedAt, undefinedTree]

/-- A name that a statement starts with. -/
theorem beginStmt_name {x : String} (h : x ∉ reserved) (before : List Stmt) (braced : Bool)
    (frames : List Frame) (p : Place) : beginStmt before braced frames (.word x) p =
      some ⟨.leading ⟨x, p⟩, .items before :: frames⟩ := by
  simp [beginStmt, Keyword.ofText?_eq_none h]

theorem reads_assign {x : String} (h : x ∉ reserved) (value : ReadsLevel 0 ts t) :
    ReadsStmt (.word x :: .mark .becomes :: (ts ++ [.mark .semicolon]))
      (.node .assign none [nameTree x, t]) := by
  intro before braced frames p
  refine ⟨_, beginStmt_name h before braced frames p, fun _ => ?_⟩
  refine ⟨⟨.operand, .assigned ⟨x, p⟩ :: .items before :: frames⟩, rfl, ?_⟩
  refine value.semicolon (by trivial) ?_
  rintro e rfl
  refine ⟨.assign ⟨x, p⟩ e, rfl, ?_⟩
  simp [Stmt.lower, nameTree]

theorem reads_ret (value : ReadsLevel 0 ts t) :
    ReadsStmt (.word "return" :: (ts ++ [.mark .semicolon])) (.node .ret none [t]) := by
  intro before braced frames p
  refine ⟨⟨.returnTail p, .items before :: frames⟩, rfl, ?_⟩
  have read : After ⟨.operand, .returned p :: .items before :: frames⟩ (ts ++ [.mark .semicolon])
      fun st => ∃ s braced, st.Settles ⟨.items (s :: before) braced, frames⟩ ∧
        s.lower.tree.bare = .node .ret none [t] := by
    refine value.semicolon (by trivial) ?_
    rintro e rfl
    refine ⟨.return p e, rfl, ?_⟩
    simp [Stmt.lower]
  obtain ⟨l, ls, hls⟩ := List.exists_cons_of_ne_nil (l := ts ++ [.mark .semicolon]) (by simp)
  rw [hls] at read ⊢
  refine read.of_step fun q some => ?_
  by_cases semicolon : l = .mark .semicolon
  · subst semicolon
    cases some
  · simp [step, semicolon]

theorem reads_retBare :
    ReadsStmt [.word "return", .mark .semicolon] (.node .ret none [undefinedTree]) := by
  intro before braced frames p
  refine ⟨⟨.returnTail p, .items before :: frames⟩, rfl, fun _ => ?_⟩
  refine ⟨_, rfl, .returnBare p, false, Or.inl rfl, ?_⟩
  simp [Stmt.lower, undefinedAt, undefinedTree]

theorem reads_empty : ReadsStmt [.mark .semicolon] (.node .empty none []) := by
  intro before braced frames p
  refine ⟨_, rfl, .empty p, false, Or.inl rfl, ?_⟩
  simp [Stmt.lower]

/-- An expression may start a statement. If it starts with a name or with `function`, the next token
shows that it is one. -/
theorem State.After.items {before : List Stmt} {braced : Bool} {frames : List Frame}
    {l l' : Lexeme} {ls : List Lexeme} {P : State → Prop}
    (h : After ⟨.operand, .stated :: .items before :: frames⟩ (l :: l' :: ls) P)
    (hl : ∀ s ∈ statementWords, l ≠ .word s) :
    After ⟨.items before braced, frames⟩ (l :: l' :: ls) P := by
  intro p
  obtain ⟨next, begun, rest⟩ := h p
  cases l with
  | numeral s => exact ⟨next, begun, rest⟩
  | mark m => cases m <;> first | exact ⟨next, begun, rest⟩ | cases begun
  | word s =>
    have other {k : Keyword} (hk : Keyword.ofText? s = some k) : k.text ∉ statementWords := by
      intro mem
      exact hl _ mem (by rw [Keyword.text_of_ofText? hk])
    cases hk : Keyword.ofText? s with
    | none =>
      have begun : some ⟨.operator (.atom .identifier ⟨s, p⟩) false,
          .stated :: .items before :: frames⟩ = some next := by
        rw [← begun]
        simp [step, beginExpr, hk]
      obtain rfl := Option.some.inj begun
      refine ⟨⟨.leading ⟨s, p⟩, .items before :: frames⟩, by simp [step, beginStmt, hk], ?_⟩
      refine rest.of_step fun q some => ?_
      by_cases becomes : l' = .mark .becomes
      · subst becomes
        cases some
      · simp only [step, if_neg becomes]
    | some k =>
      cases k with
      | functionWord =>
        have begun : some ⟨.paramsOpen (.value p), .stated :: .items before :: frames⟩ =
            some next := by
          rw [← begun]
          simp [step, beginExpr, hk]
        obtain rfl := Option.some.inj begun
        refine ⟨⟨.functionName p, .items before :: frames⟩, by simp [step, beginStmt, hk], ?_⟩
        refine rest.of_step fun q some => ?_
        by_cases paren : l' = .mark .openParen
        · simp only [step, if_pos paren]
        · simp [step, paren] at some
      | varWord | ifWord | elseWord | whileWord | returnWord => exact absurd (other hk) (by decide)
      | _ => exact ⟨next, by simpa [step, beginStmt, hk] using begun, rest⟩

theorem reads_exprStmt (begins : Begins ts) (h : ReadsLevel 0 ts t) :
    ReadsStmt (ts ++ [.mark .semicolon]) (.node .bareExpr none [t]) := by
  intro before braced frames
  have read : After ⟨.operand, .stated :: .items before :: frames⟩ (ts ++ [.mark .semicolon])
      fun st => ∃ s braced, st.Settles ⟨.items (s :: before) braced, frames⟩ ∧
        s.lower.tree.bare = .node .bareExpr none [t] := by
    refine h.semicolon (by trivial) ?_
    rintro e rfl
    refine ⟨.expr e, rfl, ?_⟩
    simp [Stmt.lower]
  obtain ⟨l, ls, rfl, hl⟩ := begins
  obtain ⟨l', ls', hls⟩ := List.exists_cons_of_ne_nil (l := ls ++ [.mark .semicolon]) (by simp)
  rw [List.cons_append, hls] at read ⊢
  exact read.items hl

/-! ## Statements with bodies -/

theorem accepts_items (before : List Stmt) (frames : List Frame) :
    Accepts (.items before :: frames) := fun _ _ => rfl

theorem Accepts.elseIf {frames : List Frame} (h : Accepts frames) (start : Place) (test : Expr)
    (body : Block) : Accepts (.elseIf start test body :: frames) :=
  fun s braced => h (.ifElse start test body s) braced

/-- A finished statement inside a list of statements. -/
theorem Finished.items {s : Stmt} {before : List Stmt} {frames : List Frame} {st : State}
    (h : Finished s (.items before :: frames) st) :
    ∃ braced, st.Settles ⟨.items (s :: before) braced, frames⟩ := by
  obtain ⟨braced, next, ended, settles⟩ := h
  cases ended
  exact ⟨braced, settles⟩

theorem Accepts.finished {frames : List Frame} (h : Accepts frames) (s : Stmt) (braced : Bool) :
    ∃ next, endStmt s braced frames = some next ∧ Finished s frames next := by
  obtain ⟨next, ended⟩ := Option.isSome_iff_exists.mp (h s braced)
  exact ⟨next, ended, braced, next, ended, Or.inl rfl⟩

/-- A test in parentheses. -/
theorem after_test {of : TestOf} {start : Place} {frames : List Frame} {P : State → Prop}
    {bodyOf : Expr → BodyOf} (test : ReadsLevel 0 ts t)
    (closed : ∀ e, endAtParen e (.test of start :: frames) = some ⟨.bodyOpen (bodyOf e), frames⟩)
    (rest : ∀ e : Expr, e.lower.tree.bare = t → After ⟨.bodyOpen (bodyOf e), frames⟩ us P) :
    After ⟨.testOpen of start, frames⟩ (.mark .openParen :: (ts ++ .mark .closeParen :: us)) P := by
  intro p
  refine ⟨⟨.operand, .test of start :: frames⟩, rfl, ?_⟩
  exact test.after_end trivial endAtParen (fun _ _ _ => rfl) fun e he => ⟨_, closed e, rest e he⟩

theorem reads_blockStmt (body : ReadsBlock ts t) : ReadsStmt ts t := by
  intro before braced frames
  refine body.after (fun _ => rfl) ?_
  rintro start inside rfl
  exact ⟨_, rfl, .block (.mk start inside.reverse), true, Or.inl rfl, rfl⟩

theorem reads_whileStmt (test : ReadsLevel 0 ts t) (body : ReadsBlock us u) :
    ReadsStmt (.word "while" :: .mark .openParen :: (ts ++ .mark .closeParen :: us))
      (.node .loop none [t, u]) := by
  intro before braced frames p
  refine ⟨⟨.testOpen .whileStmt p, .items before :: frames⟩, rfl, ?_⟩
  refine after_test test (fun _ => rfl) ?_
  rintro e rfl
  refine body.after (fun _ => rfl) ?_
  rintro start inside rfl
  refine ⟨_, rfl, .while p e (.mk start inside.reverse), true, Or.inl rfl, ?_⟩
  simp [Stmt.lower]

theorem reads_function (x : String) (params : ReadsParams ts t) (body : ReadsBlock us u) :
    ReadsStmt
      (.word "function" :: .word x :: .mark .openParen :: (ts ++ .mark .closeParen :: us))
      (.node .bareExpr none [.node .function none [nameTree x, t, u]]) := by
  intro before braced frames p
  refine ⟨⟨.functionName p, .items before :: frames⟩, rfl, fun q => ?_⟩
  refine ⟨⟨.paramsOpen (.named p ⟨x, q⟩), .items before :: frames⟩, rfl, ?_⟩
  refine after_function params body ?_
  rintro ps start inside rfl rfl
  refine ⟨_, rfl, .function p ⟨x, q⟩ ps (.mk start inside.reverse), true, Or.inl rfl, ?_⟩
  simp [Stmt.lower, nameTree]

theorem reads_ifStmt (h : ReadsIf ts t) : ReadsStmt ts t := by
  obtain ⟨ls, rfl, read⟩ := h
  intro before braced frames p
  refine ⟨⟨.testOpen .ifStmt p, .items before :: frames⟩, rfl, ?_⟩
  refine (read p _ (accepts_items before frames)).mono ?_
  rintro st ⟨s, finished, ht⟩
  obtain ⟨braced', settles⟩ := finished.items
  exact ⟨s, braced', settles, ht⟩

/-- The test and the body of an `if` statement. -/
theorem after_if {start : Place} {frames : List Frame} {P : State → Prop}
    (test : ReadsLevel 0 ts t) (body : ReadsBlock us u)
    (rest : ∀ (e : Expr) (b : Block), e.lower.tree.bare = t → b.tree.bare = u →
      After ⟨.ifTail start e b, frames⟩ vs P) :
    After ⟨.testOpen .ifStmt start, frames⟩
      (.mark .openParen :: (ts ++ .mark .closeParen :: (us ++ vs))) P := by
  refine after_test test (fun _ => rfl) fun e he => ?_
  rw [after_append]
  refine body.after (fun _ => rfl) fun place inside hb => ?_
  exact ⟨⟨.ifTail start e (.mk place inside.reverse), frames⟩, rfl, rest e _ he hb⟩

theorem reads_ifOnly (test : ReadsLevel 0 ts t) (body : ReadsBlock us u) :
    ReadsIf (.word "if" :: .mark .openParen :: (ts ++ .mark .closeParen :: us))
      (.node .conditional none [t, u, .missing]) := by
  refine ⟨_, rfl, fun start frames accepts => ?_⟩
  rw [← List.append_nil us]
  refine after_if test body ?_
  rintro e b rfl rfl
  obtain ⟨next, ended, _⟩ := accepts.finished (.ifOnly start e b) true
  refine ⟨.ifOnly start e b, ⟨true, next, ended, Or.inr ⟨start, e, b, rfl, ended⟩⟩, ?_⟩
  simp [Stmt.lower]

theorem reads_ifElse (test : ReadsLevel 0 ts t) (body : ReadsBlock us u) (other : ReadsElse vs v) :
    ReadsIf
      (.word "if" :: .mark .openParen :: (ts ++ .mark .closeParen :: (us ++ .word "else" :: vs)))
      (.node .conditional none [t, u, v]) := by
  refine ⟨_, rfl, fun start frames accepts => ?_⟩
  refine after_if test body ?_
  rintro e b rfl rfl p
  refine ⟨⟨.elseOpen start e b, frames⟩, rfl, (other start e b frames accepts).mono ?_⟩
  rintro st ⟨s, finished, rfl⟩
  refine ⟨.ifElse start e b s, finished, ?_⟩
  simp [Stmt.lower]

theorem reads_elseBlock (body : ReadsBlock ts t) : ReadsElse ts t := by
  intro start test inner frames accepts
  refine body.after (fun _ => rfl) ?_
  rintro place inside rfl
  obtain ⟨next, ended, finished⟩ :=
    accepts.finished (.ifElse start test inner (.block (.mk place inside.reverse))) true
  exact ⟨next, ended, .block (.mk place inside.reverse), finished, rfl⟩

theorem reads_elseIf (h : ReadsIf ts t) : ReadsElse ts t := by
  obtain ⟨ls, rfl, read⟩ := h
  intro start test inner frames accepts p
  refine ⟨⟨.testOpen .ifStmt p, .elseIf start test inner :: frames⟩, rfl, ?_⟩
  exact read p _ (accepts.elseIf start test inner)

/-! ## Lists of statements -/

theorem reads_stmtsNone : ReadsStmts [] [] :=
  fun _ braced _ _ settles => ⟨[], braced, settles, rfl⟩

theorem reads_stmtsNext {trees : List Tree} (first : ReadsStmt ts t)
    (starts : ∃ l ls, ts = l :: ls ∧ l ≠ .word "else") (rest : ReadsStmts us trees) :
    ReadsStmts (ts ++ us) (t :: trees) := by
  intro before braced frames st settles
  rw [after_append]
  have read : st.After ts fun next => ∃ s braced',
      next.Settles ⟨.items (s :: before) braced', frames⟩ ∧ s.lower.tree.bare = t := by
    obtain ⟨l, ls, rfl, hl⟩ := starts
    exact settles.after hl (first before braced frames)
  refine read.mono ?_
  rintro st ⟨s, braced', settles', rfl⟩
  refine (rest _ _ _ st settles').mono ?_
  rintro st ⟨ss, braced'', settles'', rfl⟩
  exact ⟨s :: ss, braced'', by simpa using settles'', rfl⟩

theorem reads_block {trees : List Tree} (h : ReadsStmts ts trees) :
    ReadsBlock (.mark .openBrace :: (ts ++ [.mark .closeBrace])) (.sequence none trees) := by
  refine ⟨ts, rfl, fun of start frames => ?_⟩
  refine (h [] false _ _ (Or.inl rfl)).mono ?_
  rintro st ⟨ss, braced, settles, rfl⟩
  exact ⟨_, braced, settles, by simp [Block.bare_tree]⟩

/-! ## Derivations -/

/-- How tightly the operators of a symbol bind. -/
def Symbol.level : Symbol → Nat
  | orExpr => 1
  | andExpr => 2
  | equality => 3
  | comparison => 4
  | sum => 5
  | product => 6
  | unary => 7
  | _ => 0

/-- The tokens are read as a phrase of the symbol. -/
def Reads : Symbol → List Lexeme → List Tree → Prop
  | .start, ts, [t] => ∃ trees, ReadsStmts ts trees ∧ t = .sequence none trees
  | .stmts, ts, trees => ReadsStmts ts trees
  | .stmt, ts, [t] => ReadsStmt ts t
  | .ifstmt, ts, [t] => ReadsIf ts t
  | .elseBody, ts, [t] => ReadsElse ts t
  | .block, ts, [t] => ReadsBlock ts t
  | .params, ts, [t] => ReadsParams ts t
  | .names, ts, trees => ReadsNames ts trees
  | .args, ts, [t] => ReadsArgs ts t
  | .exprs, ts, trees => ReadsExprs ts trees
  | .postfixExpr, ts, [t] => ReadsPostfix ts t
  | .member, ts, [t] => ReadsMember ts t
  | .primary, ts, [t] => ReadsMember ts t
  | sym, ts, [t] => ReadsLevel sym.level ts t
  | _, _, _ => False

theorem reads_lift {sym next : Symbol} (h : sym.tighter? = some next) (read : Reads next ts [t]) :
    Reads sym ts [t] := by
  cases sym <;> cases h
  case unary => exact ReadsPostfix.level read
  case postfixExpr => exact ReadsMember.postfix read
  case member => exact read
  all_goals exact ReadsLevel.lift read

theorem Operator.spec {sym : Symbol} {m : Mark} {label : Label} {kept : List Tree}
    (h : Operator sym m label kept) : ∃ op, BinaryOp.ofMark? m = some op ∧ op.level = sym.level ∧
      ∀ a b p, (Expr.binary a op p b).lower.tree.bare =
        .node label none (a.lower.tree.bare :: (kept ++ [b.lower.tree.bare])) := by
  cases h <;> refine ⟨_, rfl, rfl, fun a b p => ?_⟩ <;>
    simp [Expr.lower, BinaryOp.tree, BinaryOp.token?, BinaryOp.label]

theorem reads_operator {sym next : Symbol} {m : Mark} {label : Label} {kept : List Tree}
    (op : Operator sym m label kept) (h : sym.tighter? = some next) (left : Reads sym ts [t])
    (right : Reads next us [u]) :
    Reads sym (ts ++ .mark m :: us) [.node label none (t :: (kept ++ [u]))] := by
  obtain ⟨o, hm, level, spec⟩ := op.spec
  have image : ∀ (a b : Expr) (p : Place), a.lower.tree.bare = t → b.lower.tree.bare = u →
      (Expr.binary a o p b).lower.tree.bare = .node label none (t :: (kept ++ [u])) := by
    rintro a b p rfl rfl
    exact spec a b p
  cases op <;> cases h <;> exact reads_binary hm level left right image

/-- A statement does not begin with `else`. -/
theorem Derives.stmt_starts {trees : List Tree} (h : Derives (· ∉ reserved) .stmt ts trees) :
    ∃ l ls, ts = l :: ls ∧ l ≠ .word "else" := by
  cases h with
  | assign _ plain =>
    refine ⟨_, _, rfl, fun same => plain ?_⟩
    cases same
    decide
  | ifStmt h =>
    cases h with
    | lift h => cases h
    | binary _ h => cases h
    | _ => exact ⟨_, _, rfl, by decide⟩
  | blockStmt h =>
    cases h with
    | lift h => cases h
    | binary _ h => cases h
    | block => exact ⟨_, _, rfl, by decide⟩
  | exprStmt h =>
    obtain ⟨l, ls, same, hl⟩ := (h.begins rfl).append [.mark .semicolon]
    exact ⟨l, ls, same, hl "else" (by decide)⟩
  | lift h => cases h
  | binary _ h => cases h
  | _ => exact ⟨_, _, rfl, by decide⟩

theorem Derives.reads {sym : Symbol} {trees : List Tree}
    (h : Derives (· ∉ reserved) sym ts trees) : Reads sym ts trees := by
  induction h with
  | start _ ih => exact ⟨_, ih, rfl⟩
  | stmtsNone => exact reads_stmtsNone
  | stmtsNext first _ ihFirst ihRest => exact reads_stmtsNext ihFirst first.stmt_starts ihRest
  | declare _ _ ih => exact reads_declare _ ih
  | declareBare => exact reads_declareBare _
  | assign _ plain _ ih => exact reads_assign plain ih
  | ifStmt _ ih => exact reads_ifStmt ih
  | whileStmt _ _ ihTest ihBody => exact reads_whileStmt ihTest ihBody
  | ret _ ih => exact reads_ret ih
  | retBare => exact reads_retBare
  | function _ _ _ ihParams ihBody => exact reads_function _ ihParams ihBody
  | blockStmt _ ih => exact reads_blockStmt ih
  | exprStmt he ih => exact reads_exprStmt (he.begins rfl) ih
  | empty => exact reads_empty
  | ifOnly _ _ ihTest ihBody => exact reads_ifOnly ihTest ihBody
  | ifElse _ _ _ ihTest ihBody ihOther => exact reads_ifElse ihTest ihBody ihOther
  | elseBlock _ ih => exact reads_elseBlock ih
  | elseIf _ ih => exact reads_elseIf ih
  | block _ ih => exact reads_block ih
  | paramsNone => exact reads_paramsNone
  | paramsSome _ ih => exact reads_paramsSome ih
  | nameLast => exact reads_nameLast _
  | nameNext _ _ ih => exact reads_nameNext _ ih
  | argsNone => exact reads_argsNone
  | argsSome _ ih => exact reads_argsSome ih
  | exprLast _ ih => exact reads_exprLast ih
  | exprNext _ _ ih ihRest => exact reads_exprNext ih ihRest
  | lift tighter _ ih => exact reads_lift tighter ih
  | binary op tighter _ _ ihLeft ihRight => exact reads_operator op tighter ihLeft ihRight
  | before op _ ih => exact reads_before op ih
  | behind op _ ih => exact reads_behind op ih
  | call _ _ ih ihArgs => exact reads_call ih ihArgs
  | member _ _ ih => exact reads_member ih _
  | number => exact reads_number _
  | constant hc => exact reads_constant hc
  | identifier _ plain => exact reads_identifier plain
  | paren _ ih => exact reads_paren ih
  | functionValue _ _ ihParams ihBody => exact reads_functionValue ihParams ihBody
  | construct _ _ ih => exact reads_construct _ ih

theorem State.Settles.program? {st : State} {before : List Stmt} {braced : Bool}
    (h : st.Settles ⟨.items before braced, []⟩) : st.program? = some before.reverse := by
  rcases h with rfl | ⟨start, test, body, mode, ended⟩
  · rfl
  · simp [State.program?, mode, ended]

theorem Derives.parse {sentence : List Lexeme} {tree : Tree}
    (h : Derives (· ∉ reserved) .start sentence [tree]) :
    ∃ parsed, parse (spaced sentence) = .ok parsed ∧ parsed.bare = tree := by
  obtain ⟨tokens, scanned, rfl⟩ := scan_spaced h.valid
  obtain ⟨trees, read, rfl⟩ := h.reads
  obtain ⟨st, run, ss, braced, settles, rfl⟩ := (read [] false [] .start (Or.inl rfl)).run
  have program : st.program? = some ss := by simpa using settles.program?
  refine ⟨Program.tree ss, ?_, Program.bare_tree ss⟩
  simp [Source.parse, readProgram, scanned, run, program, Except.map]

/-- The text of whole lexemes says which they are. -/
theorem spaced_injective {ls ms : List Lexeme} (hl : ∀ l ∈ ls, l.Valid) (hm : ∀ l ∈ ms, l.Valid)
    (same : spaced ls = spaced ms) : ls = ms := by
  obtain ⟨ts, scanned, rfl⟩ := scan_spaced hl
  obtain ⟨us, scanned', rfl⟩ := scan_spaced hm
  rw [same, scanned'] at scanned
  obtain ⟨rfl, _⟩ := Prod.mk.inj scanned
  rfl

/-- Every sentence of the grammar is parsed to the tree that the grammar gives it, and has no other
tree. -/
theorem sentences_parsed {sentence : List Lexeme} {tree : Tree}
    (h : Derives (· ∉ reserved) .start sentence [tree]) :
    (∃ parsed, parse (spaced sentence) = .ok parsed ∧ parsed.bare = tree) ∧
    ∀ other tree', Derives (· ∉ reserved) .start other [tree'] → spaced other = spaced sentence →
      other = sentence ∧ tree' = tree := by
  refine ⟨h.parse, fun other tree' h' same => ⟨spaced_injective h'.valid h.valid same, ?_⟩⟩
  obtain ⟨parsed, accepted, image⟩ := h.parse
  obtain ⟨parsed', accepted', image'⟩ := h'.parse
  rw [same, accepted] at accepted'
  cases accepted'
  exact image'.symm.trans image

private theorem product_of_primary {plain : String → Prop} (h : Derives plain .primary ts [t]) :
    Derives plain .product ts [t] :=
  .lift rfl (.lift rfl (.lift rfl (.lift rfl h)))

/-- Differences group from the left. -/
theorem sentences_parsed_difference : ∃ parsed, parse "a = 1 - .5 - b ;" = .ok parsed ∧
    parsed.bare = .node .assign none [nameTree "a", .node .add none
      [.node .add none [.token .number "1" none, .token .minus "-" none, .token .number ".5" none],
        .token .minus "-" none, nameTree "b"]] := by
  have a : IsIdentifier "a" := isIdentifier_of_toList rfl rfl rfl
  have b : IsIdentifier "b" := isIdentifier_of_toList rfl rfl rfl
  have one : IsNumber "1" :=
    ⟨['1'], [], rfl, .whole (by simp) (List.all_eq_true.mp rfl), .none⟩
  have half : IsNumber ".5" :=
    ⟨['.', '5'], [], rfl, .fraction (by simp) (List.all_eq_true.mp rfl), .none⟩
  have inner : Derives (· ∉ reserved) .sum [.numeral "1", .mark .minus, .numeral ".5"] _ :=
    .binary .minus rfl (.lift rfl (product_of_primary (.number one)))
      (product_of_primary (.number half))
  have difference := inner.binary .minus rfl
    (product_of_primary (.identifier b (by decide)))
  have assigned := Derives.assign a (by decide)
    (.lift rfl (.lift rfl (.lift rfl (.lift rfl (.lift rfl difference)))))
  have text : spaced [.word "a", .mark .becomes, .numeral "1", .mark .minus, .numeral ".5",
      .mark .minus, .word "b", .mark .semicolon] = "a = 1 - .5 - b ;" := by decide
  rw [← text]
  exact (sentences_parsed (.start (.stmtsNext assigned .stmtsNone))).1

end Scriptlet.Source
