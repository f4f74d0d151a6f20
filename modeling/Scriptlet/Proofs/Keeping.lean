import Scriptlet.Proofs.Rejection
/-!
# The tokens that a phrase keeps

The scanner finds tokens at places that only move forward, and at each of them the text spells the
token. Of some of these tokens the reader keeps the places, in the phrases that it builds. Each
token that it takes either goes to the end of this list or leaves no trace, so what a program keeps
has the order of the text.
-/

namespace Scriptlet

namespace Place

/-- The place `p` is `q` or comes before it. -/
def AtOrBefore (p q : Place) : Prop := p = q ∨ p.Before q

instance (p q : Place) : Decidable (p.AtOrBefore q) :=
  inferInstanceAs (Decidable (p = q ∨ p.Before q))

theorem before_afterAll_of_ne_nil (p : Place) {cs : List Char} (h : cs ≠ []) :
    p.Before (p.afterAll cs) := by
  obtain ⟨c, cs, rfl⟩ := List.exists_cons_of_ne_nil h
  exact p.before_afterAll c cs

end Place

namespace Source

/-- At the place `p` the source spells `text`, and no lexeme that begins there is longer. -/
def Spells (src : String) (p : Place) (text : String) : Prop :=
  ∃ before after, src.toList = before ++ text.toList ++ after ∧ Place.first.afterAll before = p ∧
    (Lexeme.first? (text.toList ++ after)).map Lexeme.text = some text

/-! ## Tokens -/

/-- A token as a phrase keeps it. -/
def Token.name (t : Token) : Name := ⟨t.lexeme.text, t.place⟩

/-- The gap that is skipped leads from the one place to the other. -/
theorem exists_gap (place : Place) (offset : Nat) (comment : Bool) (cs : List Char) :
    ∃ gap, cs = gap ++ (skipGap place offset comment cs).rest ∧
      (skipGap place offset comment cs).place = place.afterAll gap := by
  induction cs generalizing place offset comment with
  | nil => exact ⟨[], rfl, rfl⟩
  | cons c cs ih =>
    have next (comment : Bool) :
        ∃ gap, c :: cs = gap ++ (skipGap (place.after c) (offset + 1) comment cs).rest ∧
          (skipGap (place.after c) (offset + 1) comment cs).place = place.afterAll gap := by
      obtain ⟨gap, whole, there⟩ := ih (place.after c) (offset + 1) comment
      exact ⟨c :: gap, congrArg (c :: ·) whole, there⟩
    simp only [skipGap]
    split
    · exact next _
    · split
      · exact next _
      · split
        · exact next _
        · exact ⟨[], rfl, rfl⟩

namespace Cursor

variable {here there : Cursor} {ts : List Token}

/-- Every token is spelled where it stands. -/
theorem Cut.spelled (h : here.Cut ts there) : ∀ t ∈ ts, ∃ before after,
    here.rest = before ++ t.lexeme.chars ++ after ∧ here.place.afterAll before = t.place ∧
      Lexeme.first? (t.lexeme.chars ++ after) = some t.lexeme := by
  induction h with
  | nil => exact List.forall_mem_nil _
  | @cons here there l ts cut _ ih =>
    obtain ⟨gap, whole, past⟩ := exists_gap here.place here.offset false here.rest
    obtain ⟨rest, split, _⟩ := first?_cut cut
    have whole : here.rest = gap ++ (l.chars ++ rest) := split ▸ whole
    have past : here.pastGap.place = here.place.afterAll gap := past
    refine List.forall_mem_cons.mpr
      ⟨⟨gap, rest, by simpa using whole, past.symm, split ▸ cut⟩, fun t ht => ?_⟩
    obtain ⟨before, after, spelled, place, longest⟩ := ih t ht
    simp only [advance, split, List.drop_left, List.take_left] at spelled place
    refine ⟨gap ++ (l.chars ++ before), after, ?_, ?_, longest⟩
    · rw [whole, spelled]
      simp
    · rw [Place.afterAll_append, Place.afterAll_append, ← past, place]

/-- Each token stands before those that follow. -/
theorem Cut.ordered (h : here.Cut ts there) : ts.Pairwise (·.place.Before ·.place) := by
  induction h with
  | nil => exact .nil
  | @cons here there l ts cut tokens ih =>
    refine .cons (fun t ht => ?_) ih
    obtain ⟨before, _, _, place, _⟩ := tokens.spelled t ht
    obtain ⟨rest, split, _⟩ := first?_cut cut
    rw [← place]
    simp only [advance, split, List.take_left]
    rw [← Place.afterAll_append]
    exact Place.before_afterAll_of_ne_nil _
      (List.append_ne_nil_of_left_ne_nil (Lexeme.chars_ne_nil cut) _)

end Cursor

theorem scan_spelled {src : String} {ts : List Token} {ending : Ending}
    (scanned : scan src.toList = (ts, ending)) : ∀ t ∈ ts, Spells src t.place t.lexeme.text := by
  obtain ⟨ts', there, cut, _, found⟩ := exists_cut [] (.start src.toList)
  obtain rfl : ts' = ts := by simpa using congrArg (·.1) (found.symm.trans scanned)
  intro t ht
  obtain ⟨before, after, whole, place, longest⟩ := cut.spelled t ht
  refine ⟨before, after, ?_, place, ?_⟩
  · simpa [Lexeme.text, Cursor.start] using whole
  · simpa [Lexeme.text] using congrArg (Option.map Lexeme.text) longest

theorem scan_ordered {cs : List Char} {ts : List Token} {ending : Ending}
    (scanned : scan cs = (ts, ending)) : ts.Pairwise (·.place.Before ·.place) := by
  obtain ⟨ts', there, cut, _, found⟩ := exists_cut [] (.start cs)
  obtain rfl : ts' = ts := by simpa using congrArg (·.1) (found.symm.trans scanned)
  exact cut.ordered

/-! ## The tokens that a phrase keeps -/

def UnaryOp.text : UnaryOp → String
  | minus => "-"
  | plus => "+"
  | increment => "++"
  | decrement => "--"

def BinaryOp.text : BinaryOp → String
  | or => "||"
  | and => "&&"
  | equal => "=="
  | notEqual => "!="
  | below => "<"
  | above => ">"
  | atMost => "<="
  | atLeast => ">="
  | plus => "+"
  | minus => "-"
  | star => "*"
  | slash => "/"

mutual

/-- The tokens of which an expression holds the place, in the order in which they stand. -/
def Expr.kept : Expr → List Name
  | .atom _ name => [name]
  | .paren start inner => ⟨"(", start⟩ :: inner.kept
  | .function start params body => ⟨"function", start⟩ :: (params ++ body.kept)
  | .construct start name args => ⟨"new", start⟩ :: name :: keptOfArgs args
  | .call callee args => callee.kept ++ keptOfArgs args
  | .member object name => object.kept ++ [name]
  | .postfixed operand _ => operand.kept
  | .unary start op operand => ⟨op.text, start⟩ :: operand.kept
  | .binary left op place right => left.kept ++ ⟨op.text, place⟩ :: right.kept

def keptOfArgs : List Expr → List Name
  | [] => []
  | e :: es => e.kept ++ keptOfArgs es

def Block.kept : Block → List Name
  | .mk start body => ⟨"\x7b", start⟩ :: keptOfBody body

def keptOfBody : List Stmt → List Name
  | [] => []
  | s :: ss => s.kept ++ keptOfBody ss

def Stmt.kept : Stmt → List Name
  | .declare start name value => ⟨"var", start⟩ :: name :: value.kept
  | .declareBare start name => [⟨"var", start⟩, name]
  | .assign name value => name :: value.kept
  | .ifOnly start test body => ⟨"if", start⟩ :: (test.kept ++ body.kept)
  | .ifElse start test body other => ⟨"if", start⟩ :: (test.kept ++ body.kept ++ other.kept)
  | .while start test body => ⟨"while", start⟩ :: (test.kept ++ body.kept)
  | .return start value => ⟨"return", start⟩ :: value.kept
  | .returnBare start => [⟨"return", start⟩]
  | .function start name params body => ⟨"function", start⟩ :: name :: (params ++ body.kept)
  | .block body => body.kept
  | .expr value => value.kept
  | .empty start => [⟨";", start⟩]

end

theorem keptOfArgs_append (es es' : List Expr) :
    keptOfArgs (es ++ es') = keptOfArgs es ++ keptOfArgs es' := by
  induction es with
  | nil => rfl
  | cons e es ih => simp [keptOfArgs, ih]

theorem keptOfBody_append (ss ss' : List Stmt) :
    keptOfBody (ss ++ ss') = keptOfBody ss ++ keptOfBody ss' := by
  induction ss with
  | nil => rfl
  | cons s ss ih => simp [keptOfBody, ih]

def FunctionHead.kept : FunctionHead → List Name
  | .named start name => [⟨"function", start⟩, name]
  | .value start => [⟨"function", start⟩]

def BodyOf.kept : BodyOf → List Name
  | .plain => []
  | .ifBody start test => ⟨"if", start⟩ :: test.kept
  | .elseBody start test body => ⟨"if", start⟩ :: (test.kept ++ body.kept)
  | .whileBody start test => ⟨"while", start⟩ :: test.kept
  | .function head params => head.kept ++ params

def TestOf.kept (start : Place) : TestOf → List Name
  | .ifStmt => [⟨"if", start⟩]
  | .whileStmt => [⟨"while", start⟩]

def Frame.kept : Frame → List Name
  | .items before => keptOfBody before.reverse
  | .body of start => of.kept ++ [⟨"\x7b", start⟩]
  | .elseIf start e b => ⟨"if", start⟩ :: (e.kept ++ b.kept)
  | .declared start name => [⟨"var", start⟩, name]
  | .assigned name => [name]
  | .returned start => [⟨"return", start⟩]
  | .stated => []
  | .test of start => of.kept start
  | .paren start => [⟨"(", start⟩]
  | .argument callee before => callee.kept ++ keptOfArgs before.reverse
  | .constructed start name before => ⟨"new", start⟩ :: name :: keptOfArgs before.reverse
  | .operand start op => [⟨op.text, start⟩]
  | .rightOf left op place => left.kept ++ [⟨op.text, place⟩]

def Mode.kept : Mode → List Name
  | .items before _ => keptOfBody before.reverse
  | .leading name => [name]
  | .declareName start => [⟨"var", start⟩]
  | .declareTail start name => [⟨"var", start⟩, name]
  | .testOpen of start => of.kept start
  | .bodyOpen of => of.kept
  | .ifTail start test body | .elseOpen start test body => ⟨"if", start⟩ :: (test.kept ++ body.kept)
  | .returnTail start => [⟨"return", start⟩]
  | .functionName start => [⟨"function", start⟩]
  | .paramsOpen head | .paramsFirst head => head.kept
  | .paramsName head before | .paramsTail head before => head.kept ++ before.reverse
  | .operand | .argsFirst => []
  | .operator e _ => e.kept
  | .memberName object => object.kept
  | .constructName start => [⟨"new", start⟩]
  | .constructOpen start name => [⟨"new", start⟩, name]

/-- The innermost frame is the last to have been opened. -/
def keptOfFrames : List Frame → List Name
  | [] => []
  | f :: frames => keptOfFrames frames ++ f.kept

namespace State

/-- The tokens that the phrases of a state keep. -/
def kept (st : State) : List Name := keptOfFrames st.frames ++ st.mode.kept

/-! ## Steps of the reader -/

variable {frames : List Frame} {next : State} {l : Lexeme} {p : Place}

/-- The first token of an expression is kept. -/
theorem kept_beginExpr (h : beginExpr frames l p = some next) :
    next.kept = keptOfFrames frames ++ [⟨l.text, p⟩] := by
  cases l with
  | numeral s =>
    cases h
    simp [kept, Mode.kept, Expr.kept, Lexeme.text, Lexeme.chars]
  | word s =>
    have text {k : Keyword} (hk : Keyword.ofText? s = some k) : s = k.text :=
      (Keyword.text_of_ofText? hk).symm
    simp only [beginExpr] at h
    split at h <;> rename_i hk <;> cases h
    · simp [kept, Mode.kept, FunctionHead.kept, Lexeme.text, Lexeme.chars, text hk, Keyword.text]
    · simp [kept, Mode.kept, Lexeme.text, Lexeme.chars, text hk, Keyword.text]
    all_goals simp [kept, Mode.kept, Expr.kept, Lexeme.text, Lexeme.chars]
  | mark m =>
    cases m <;> simp only [beginExpr, UnaryOp.ofMark?, Option.map, Option.some.injEq,
      reduceCtorEq] at h <;> subst h <;>
      simp [kept, Mode.kept, keptOfFrames, Frame.kept, UnaryOp.text, Lexeme.text, Lexeme.chars,
        Mark.spelling]

theorem kept_endStmt {s : Stmt} {braced : Bool} (h : endStmt s braced frames = some next) :
    next.kept = keptOfFrames frames ++ s.kept := by
  fun_induction endStmt s braced frames with
  | case1 s before frames =>
    cases h
    simp [kept, Mode.kept, keptOfFrames, Frame.kept, keptOfBody_append, keptOfBody]
  | case2 s start test body frames ih =>
    rw [ih h]
    simp [keptOfFrames, Frame.kept, Stmt.kept]
  | case3 => cases h

/-- The closing brace of a body is not kept. -/
theorem kept_endBody {before : List Stmt} (h : endBody before frames = some next) :
    next.kept = keptOfFrames frames ++ keptOfBody before.reverse := by
  rcases frames with _ | ⟨f, frames⟩
  · cases h
  · cases f with
    | body of start =>
      cases of with
      | plain =>
        rw [kept_endStmt h]
        simp [keptOfFrames, Frame.kept, BodyOf.kept, Stmt.kept, Block.kept]
      | ifBody =>
        cases h
        simp [kept, Mode.kept, keptOfFrames, Frame.kept, BodyOf.kept, Block.kept]
      | elseBody | whileBody =>
        rw [kept_endStmt h]
        simp [keptOfFrames, Frame.kept, BodyOf.kept, Stmt.kept, Block.kept]
      | function head params =>
        cases head with
        | named =>
          rw [kept_endStmt h]
          simp [keptOfFrames, Frame.kept, BodyOf.kept, FunctionHead.kept, Stmt.kept, Block.kept]
        | value =>
          cases h
          simp [kept, Mode.kept, keptOfFrames, Frame.kept, BodyOf.kept, FunctionHead.kept,
            Expr.kept, Block.kept]
    | _ => cases h

/-- Of the tokens that a statement may begin with, only a closing brace is not kept. -/
theorem kept_beginStmt {before : List Stmt} {braced : Bool}
    (h : beginStmt before braced frames l p = some next) :
    next.kept = keptOfFrames frames ++ keptOfBody before.reverse ++
      if l = .mark .closeBrace then [] else [⟨l.text, p⟩] := by
  have begun (h : beginExpr (.stated :: .items before :: frames) l p = some next) :
      next.kept = keptOfFrames frames ++ keptOfBody before.reverse ++ [⟨l.text, p⟩] := by
    simpa [keptOfFrames, Frame.kept] using kept_beginExpr h
  cases l with
  | numeral s => exact begun h
  | word s =>
    have text {k : Keyword} (hk : Keyword.ofText? s = some k) : s = k.text :=
      (Keyword.text_of_ofText? hk).symm
    simp only [beginStmt] at h
    split at h <;> rename_i hk
    · cases h
      simp [kept, Mode.kept, keptOfFrames, Frame.kept, Lexeme.text, Lexeme.chars, text hk,
        Keyword.text]
    · cases h
      simp [kept, Mode.kept, keptOfFrames, Frame.kept, TestOf.kept, Lexeme.text, Lexeme.chars,
        text hk, Keyword.text]
    · obtain ⟨_, same⟩ := Option.ite_none_left_eq_some.mp h
      cases same
      simp [kept, Mode.kept, keptOfFrames, Frame.kept, Lexeme.text, Lexeme.chars]
    · cases h
      simp [kept, Mode.kept, keptOfFrames, Frame.kept, TestOf.kept, Lexeme.text, Lexeme.chars,
        text hk, Keyword.text]
    · cases h
      simp [kept, Mode.kept, keptOfFrames, Frame.kept, Lexeme.text, Lexeme.chars, text hk,
        Keyword.text]
    · cases h
      simp [kept, Mode.kept, keptOfFrames, Frame.kept, Lexeme.text, Lexeme.chars, text hk,
        Keyword.text]
    · exact begun h
    · cases h
      simp [kept, Mode.kept, keptOfFrames, Frame.kept, Lexeme.text, Lexeme.chars]
  | mark m =>
    cases m with
    | semicolon =>
      cases h
      simp [kept, Mode.kept, keptOfBody_append, keptOfBody, Stmt.kept, Lexeme.text, Lexeme.chars,
        Mark.spelling]
    | openBrace =>
      cases h
      simp [kept, Mode.kept, keptOfFrames, Frame.kept, BodyOf.kept, keptOfBody, Lexeme.text,
        Lexeme.chars, Mark.spelling]
    | closeBrace => simpa using kept_endBody h
    | _ => exact begun h

theorem kept_settle (level : Nat) (e : Expr) (frames : List Frame) :
    keptOfFrames (settle level e frames).2 ++ (settle level e frames).1.kept =
      keptOfFrames frames ++ e.kept := by
  induction frames generalizing e with
  | nil => rfl
  | cons f frames ih =>
    cases f with
    | operand start op =>
      simpa [settle, keptOfFrames, Frame.kept, Expr.kept] using ih (.unary start op e)
    | rightOf left op place =>
      rw [settle]
      split
      · simpa [keptOfFrames, Frame.kept, Expr.kept] using ih (.binary left op place e)
      · rfl
    | _ => rfl

theorem kept_endAtSemicolon {e : Expr} (h : endAtSemicolon e frames = some next) :
    next.kept = keptOfFrames frames ++ e.kept := by
  rcases frames with _ | ⟨f, frames⟩
  · cases h
  · cases f with
    | stated | declared | assigned | returned =>
      rw [kept_endStmt h]
      simp [keptOfFrames, Frame.kept, Stmt.kept]
    | _ => cases h

theorem kept_endAtParen {e : Expr} (h : endAtParen e frames = some next) :
    next.kept = keptOfFrames frames ++ e.kept := by
  rcases frames with _ | ⟨f, frames⟩
  · cases h
  · cases f with
    | test of start =>
      cases of <;> cases h <;>
        simp [kept, Mode.kept, keptOfFrames, Frame.kept, TestOf.kept, BodyOf.kept]
    | paren =>
      cases h
      simp [kept, Mode.kept, keptOfFrames, Frame.kept, Expr.kept]
    | argument | constructed =>
      cases h
      simp [kept, Mode.kept, keptOfFrames, Frame.kept, Expr.kept, keptOfArgs_append, keptOfArgs]
    | _ => cases h

theorem kept_endAtComma {e : Expr} (h : endAtComma e frames = some next) :
    next.kept = keptOfFrames frames ++ e.kept := by
  rcases frames with _ | ⟨f, frames⟩
  · cases h
  · cases f with
    | argument | constructed =>
      cases h
      simp [kept, Mode.kept, keptOfFrames, Frame.kept, keptOfArgs_append, keptOfArgs]
    | _ => cases h

theorem kept_endNoArgs (h : endNoArgs frames = some next) : next.kept = keptOfFrames frames := by
  rcases frames with _ | ⟨f, frames⟩
  · cases h
  · cases f with
    | argument callee before | constructed start name before =>
      cases before <;> cases h
      simp [kept, Mode.kept, keptOfFrames, Frame.kept, Expr.kept, keptOfArgs]
    | _ => cases h

/-- A token is either kept, behind all that have been, or leaves no trace. -/
def Grows (before : List Name) (token : Name) (after : List Name) : Prop :=
  after = before ++ [token] ∨ after = before

/-- Of the tokens behind an expression, the operators between two operands are kept. -/
theorem grows_continueExpr {e : Expr} (h : continueExpr e frames l p = some next) :
    Grows (keptOfFrames frames ++ e.kept) ⟨l.text, p⟩ next.kept := by
  have settled (level : Nat) := kept_settle level e frames
  cases l with
  | numeral s => cases h
  | word s => cases h
  | mark m =>
    cases hm : BinaryOp.ofMark? m with
    | some op =>
      rw [continueExpr_op hm] at h
      cases h
      have text : op.text = (Lexeme.mark m).text := by
        cases m <;> cases hm <;> rfl
      refine .inl ?_
      simp [kept, Mode.kept, keptOfFrames, Frame.kept, ← settled op.level, text]
    | none =>
      refine .inr ?_
      cases m with
      | increment | decrement =>
        cases h
        simp [kept, Mode.kept, Expr.kept]
      | openParen | dot =>
        obtain ⟨_, rfl⟩ := Option.ite_some_none_eq_some.mp h
        simp [kept, Mode.kept, keptOfFrames, Frame.kept, keptOfArgs]
      | semicolon => exact (kept_endAtSemicolon h).trans (settled 0)
      | closeParen => exact (kept_endAtParen h).trans (settled 0)
      | comma => exact (kept_endAtComma h).trans (settled 0)
      | becomes | openBrace | closeBrace => cases h
      | _ => cases hm

theorem grows_beginStmt {before : List Stmt} {braced : Bool}
    (h : beginStmt before braced frames l p = some next) :
    Grows (keptOfFrames frames ++ keptOfBody before.reverse) ⟨l.text, p⟩ next.kept := by
  have taken := kept_beginStmt h
  split at taken
  · exact .inr (by simpa using taken)
  · exact .inl taken

theorem grows_continueIf {start : Place} {test : Expr} {body : Block}
    (h : continueIf start test body frames l p = some next) :
    Grows (keptOfFrames frames ++ ⟨"if", start⟩ :: (test.kept ++ body.kept)) ⟨l.text, p⟩
      next.kept := by
  rw [continueIf] at h
  split at h
  · cases h
    exact .inr rfl
  · split at h
    · rename_i before braced frames' ended
      have ended := kept_endStmt ended
      simp only [kept, Mode.kept, Stmt.kept] at ended
      exact ended ▸ grows_beginStmt h
    · cases h

/-- Of the tokens that are waited for, the braces and the `if` behind an `else` are kept. -/
theorem grows_expected {mode mode' : Mode} {opened : List Frame} (frames : List Frame)
    (e : mode.Expects p l mode' opened) :
    Grows (State.kept ⟨mode, frames⟩) ⟨l.text, p⟩ (State.kept ⟨mode', opened ++ frames⟩) := by
  cases e with
  | body | elseBody =>
    refine .inl ?_
    simp [kept, Mode.kept, keptOfFrames, Frame.kept, BodyOf.kept, keptOfBody, Lexeme.text,
      Lexeme.chars, Mark.spelling]
  | elseIf =>
    refine .inl ?_
    simp [kept, Mode.kept, keptOfFrames, Frame.kept, TestOf.kept, Lexeme.text, Lexeme.chars,
      Keyword.text]
  | assigned | declared | test | literal | args =>
    refine .inr ?_
    simp [kept, Mode.kept, keptOfFrames, Frame.kept, FunctionHead.kept, keptOfArgs]
  | params | noParams | nextParam | lastParam =>
    refine .inr ?_
    simp [kept, Mode.kept, BodyOf.kept]

/-- Every name is kept. -/
theorem kept_named {name : Name} {mode mode' : Mode} (frames : List Frame)
    (n : mode.Names name mode') :
    State.kept ⟨mode', frames⟩ = State.kept ⟨mode, frames⟩ ++ [name] := by
  cases n <;> simp [kept, Mode.kept, FunctionHead.kept, Expr.kept]

/-- One more token. -/
theorem grows_step {st : State} (h : st.step l p = some next) :
    Grows st.kept ⟨l.text, p⟩ next.kept := by
  obtain ⟨mode, frames⟩ := st
  cases moves_of_step h with
  | expected e => exact grows_expected frames e
  | named n => exact .inl (by simpa [Lexeme.text, Lexeme.chars] using kept_named frames n)
  | items h => exact grows_beginStmt h
  | ifTail h => exact grows_continueIf h
  | operand h | argument h => exact .inl (by simpa [kept, Mode.kept] using kept_beginExpr h)
  | returned h =>
    exact .inl (by simpa [kept, Mode.kept, keptOfFrames, Frame.kept] using kept_beginExpr h)
  | leading h =>
    simpa [kept, Mode.kept, keptOfFrames, Frame.kept, Expr.kept] using grows_continueExpr h
  | operator h => exact grows_continueExpr h
  | declareBare h | returnBare h => exact .inr (kept_endStmt h)
  | noArgs h => exact .inr (by simpa [kept, Mode.kept] using kept_endNoArgs h)

/-- What is kept of a run has its order. -/
theorem run_kept {st done : State} {ts : List Token} (h : st.run ts = .ok done) :
    ∃ names, done.kept = st.kept ++ names ∧ names.Sublist (ts.map Token.name) := by
  induction ts generalizing st with
  | nil =>
    cases h
    exact ⟨[], by simp, .slnil⟩
  | cons t ts ih =>
    rw [State.run] at h
    split at h
    · rename_i next taken
      obtain ⟨names, kept, sublist⟩ := ih h
      rcases grows_step taken with grown | same
      · exact ⟨t.name :: names, by rw [kept, grown]; simp [Token.name], sublist.cons_cons _⟩
      · exact ⟨names, by rw [kept, same], sublist.cons _⟩
    · cases h

/-- The first token of a program is kept. -/
theorem run_start_kept {done : State} {ts : List Token} (h : State.start.run ts = .ok done)
    (none : done.kept = []) : ts = [] := by
  cases ts with
  | nil => rfl
  | cons t ts =>
    rw [State.run] at h
    split at h
    · rename_i next taken
      obtain ⟨names, kept, _⟩ := run_kept h
      have first := kept_beginStmt taken
      split at first
      · rename_i brace
        rw [brace] at taken
        cases taken
      · rw [kept, first] at none
        simp at none
    · cases h

theorem kept_program {st : State} {program : Program} (h : st.program? = some program) :
    st.kept = keptOfBody program := by
  obtain ⟨braced, rfl | ⟨start, test, body, mode, ended⟩⟩ := settles_of_program? h
  · simp [kept, keptOfFrames, Mode.kept]
  · have ended := kept_endStmt ended
    simp only [kept, Mode.kept, keptOfFrames, List.nil_append, List.reverse_reverse, Stmt.kept]
      at ended
    rw [kept, mode, Mode.kept, ← ended]

end State

end Source

end Scriptlet
