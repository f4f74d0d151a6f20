import Scriptlet.Fragment
import Scriptlet.Proofs.Keeping
import Scriptlet.Proofs.Layout
import Scriptlet.Proofs.Numerals
/-!
# The ends of a program

The last token of a program is a semicolon or a closing brace. So where a line that is a program by
itself is trimmed and lacks either at its end, it ends in a comment, and the semicolon that
completing the line adds stands in the comment. No lexeme begins or goes on with a blank, and so the
completed line has the tokens of the line itself, and is the same program at other places.
-/

namespace Scriptlet

namespace Source

/-! ## The last token -/

namespace State

variable {st next : State} {l : Lexeme} {p : Place} {frames : List Frame}

/-- What a state says of the token in front of it. -/
def EndsAt (l : Lexeme) (st : State) : Prop :=
  match st.mode with
  | .items _ braced => l = .mark .semicolon ∧ braced = false ∨
      l = .mark .closeBrace ∧ braced = true ∨ l = .mark .openBrace ∧ st.frames ≠ []
  | .ifTail .. => l = .mark .closeBrace
  | _ => True

theorem endsAt_endStmt {s : Stmt} {braced : Bool}
    (hl : l = .mark .semicolon ∧ braced = false ∨ l = .mark .closeBrace ∧ braced = true)
    (h : endStmt s braced frames = some next) : next.EndsAt l := by
  fun_induction endStmt s braced frames with
  | case1 s before frames =>
    obtain rfl := Option.some.inj h
    exact hl.imp_right .inl
  | case2 s start test body frames ih => exact ih h
  | case3 => cases h

theorem endsAt_endBody {before : List Stmt} (h : endBody before frames = some next) :
    next.EndsAt (.mark .closeBrace) := by
  rcases frames with _ | ⟨f, frames⟩
  · cases h
  · cases f with
    | body of start =>
      cases of with
      | plain => exact endsAt_endStmt (.inr ⟨rfl, rfl⟩) h
      | ifBody start test =>
        cases h
        rfl
      | elseBody start test body => exact endsAt_endStmt (.inr ⟨rfl, rfl⟩) h
      | whileBody start test => exact endsAt_endStmt (.inr ⟨rfl, rfl⟩) h
      | function literal params =>
        cases literal with
        | named start name => exact endsAt_endStmt (.inr ⟨rfl, rfl⟩) h
        | value start =>
          cases h
          trivial
    | _ => cases h

theorem endsAt_beginExpr (h : beginExpr frames l p = some next) : next.EndsAt l := by
  simp only [beginExpr] at h
  split at h
  · cases h
    trivial
  · split at h <;> cases h <;> trivial
  · cases h
    trivial
  · obtain ⟨op, -, rfl⟩ := Option.map_eq_some_iff.mp h
    trivial

theorem endsAt_beginStmt {before : List Stmt} {braced : Bool}
    (h : beginStmt before braced frames l p = some next) : next.EndsAt l := by
  simp only [beginStmt] at h
  split at h
  · split at h
    · cases h; trivial
    · cases h; trivial
    · split at h
      · cases h
      · cases h; trivial
    · cases h; trivial
    · cases h; trivial
    · cases h; trivial
    · exact endsAt_beginExpr h
    · cases h; trivial
  · cases h
    exact .inl ⟨rfl, rfl⟩
  · cases h
    exact .inr (.inr ⟨rfl, List.cons_ne_nil _ _⟩)
  · exact endsAt_endBody h
  · exact endsAt_beginExpr h

theorem endsAt_endAtSemicolon {e : Expr} (h : endAtSemicolon e frames = some next) :
    next.EndsAt (.mark .semicolon) := by
  rcases frames with _ | ⟨f, frames⟩
  · cases h
  · cases f with
    | stated | declared | assigned | returned => exact endsAt_endStmt (.inl ⟨rfl, rfl⟩) h
    | _ => cases h

theorem endsAt_endAtParen {e : Expr} (h : endAtParen e frames = some next) :
    next.EndsAt (.mark .closeParen) := by
  rcases frames with _ | ⟨f, frames⟩
  · cases h
  · cases f with
    | test of => cases of <;> cases h <;> trivial
    | paren | argument | constructed =>
      cases h
      trivial
    | _ => cases h

theorem endsAt_endAtComma {e : Expr} (h : endAtComma e frames = some next) :
    next.EndsAt (.mark .comma) := by
  rcases frames with _ | ⟨f, frames⟩
  · cases h
  · cases f with
    | argument | constructed =>
      cases h
      trivial
    | _ => cases h

theorem endsAt_endNoArgs (h : endNoArgs frames = some next) : next.EndsAt l := by
  rcases frames with _ | ⟨f, frames⟩
  · cases h
  · cases f with
    | argument _ before | constructed _ _ before =>
      cases before with
      | nil =>
        cases h
        trivial
      | cons => cases h
    | _ => cases h

theorem endsAt_continueExpr {e : Expr} (h : continueExpr e frames l p = some next) :
    next.EndsAt l := by
  simp only [continueExpr] at h
  split at h
  · cases h
    trivial
  · cases h
    trivial
  · split at h <;> cases h
    trivial
  · split at h <;> cases h
    trivial
  · exact endsAt_endAtSemicolon h
  · exact endsAt_endAtParen h
  · exact endsAt_endAtComma h
  · obtain ⟨op, -, rfl⟩ := Option.map_eq_some_iff.mp h
    trivial
  · cases h

theorem endsAt_expected {mode mode' : Mode} {opened : List Frame}
    (e : mode.Expects p l mode' opened) (frames : List Frame) :
    EndsAt l ⟨mode', opened ++ frames⟩ := by
  cases e with
  | body | elseBody => exact .inr (.inr ⟨rfl, List.cons_ne_nil _ _⟩)
  | _ => trivial

theorem endsAt_continueIf {start : Place} {test : Expr} {body : Block}
    (h : continueIf start test body frames l p = some next) : next.EndsAt l := by
  rw [continueIf] at h
  split at h
  · cases h
    trivial
  · split at h
    · exact endsAt_beginStmt h
    · cases h

/-- After a list of statements comes the token that ended the last one, or the brace before it. -/
theorem endsAt_step (h : st.step l p = some next) : next.EndsAt l := by
  obtain ⟨mode, frames⟩ := st
  cases moves_of_step h with
  | expected e => exact endsAt_expected e frames
  | named n => cases n <;> trivial
  | items h => exact endsAt_beginStmt h
  | ifTail h => exact endsAt_continueIf h
  | operand h | returned h | argument h => exact endsAt_beginExpr h
  | leading h | operator h => exact endsAt_continueExpr h
  | declareBare h | returnBare h => exact endsAt_endStmt (.inl ⟨rfl, rfl⟩) h
  | noArgs h => exact endsAt_endNoArgs h

theorem run_last {ts : List Token} {t : Token} (h : st.run (ts ++ [t]) = .ok next) :
    ∃ mid, st.run ts = .ok mid ∧ mid.step t.lexeme t.place = some next := by
  obtain ⟨mid, front⟩ := run_front h
  refine ⟨mid, front, ?_⟩
  rw [run_append front, run] at h
  cases taken : mid.step t.lexeme t.place with
  | none =>
    rw [taken] at h
    cases h
  | some after =>
    rw [taken] at h
    cases h
    rfl

theorem endsAt_run {ts : List Token} {t : Token} (h : st.run (ts ++ [t]) = .ok next) :
    next.EndsAt t.lexeme := by
  obtain ⟨_, _, taken⟩ := run_last h
  exact endsAt_step taken

/-- A program ends with a semicolon, and then the last brace is forgotten, or with a brace. -/
theorem EndsAt.program? {program : Program} (h : st.EndsAt l)
    (ended : st.program? = some program) :
    l = .mark .semicolon ∧ st = ⟨.items program.reverse false, []⟩ ∨ l = .mark .closeBrace := by
  obtain ⟨braced, rfl | ⟨start, test, body, mode, -⟩⟩ := settles_of_program? ended
  · rcases h with ⟨semicolon, rfl⟩ | ⟨brace, -⟩ | ⟨-, open_⟩
    · exact .inl ⟨semicolon, rfl⟩
    · exact .inr brace
    · exact absurd rfl open_
  · rw [EndsAt, mode] at h
    exact .inr h

end State

end Source

/-! ## Blanks -/

namespace Text

theorem isBlank_of_isWordPart {c : Char} (h : Source.isWordPart c) : isBlank c = false := by
  simp only [Source.isWordPart, Char.isAlphanum, Bool.or_eq_true, beq_iff_eq] at h
  rcases h with ((letter | digit) | rfl) | rfl
  · have range := Source.toNat_of_isAlpha letter
    have apart : ∀ blanks ∈ blankRanges, blanks.2 < 65 ∨ 122 < blanks.1 := by decide
    simp only [isBlank, List.any_eq_false, Bool.and_eq_true, decide_eq_true_eq]
    rintro ⟨first, last⟩ mem ⟨above, below⟩
    rcases apart (first, last) mem with low | high
    · exact absurd (Nat.lt_of_le_of_lt below low) (by omega)
    · exact absurd (Nat.lt_of_lt_of_le high above) (by omega)
  · exact isBlank_of_isDigit (isDigit_of_ascii digit)
  · decide
  · decide

/-- The text is what is trimmed off at both ends, and what is left ends with no blank. -/
theorem exists_trim (cs : List Char) :
    ∃ lead trail, cs = lead ++ (trim cs ++ trail) ∧ (∀ c ∈ lead, isBlank c) ∧
      (∀ c ∈ trail, isBlank c) ∧ ∀ c, (trim cs).getLast? = some c → isBlank c = false := by
  let rest := cs.dropWhile isBlank
  have front : cs = cs.takeWhile isBlank ++ rest := List.takeWhile_append_dropWhile.symm
  have back : rest = trim cs ++ (rest.reverse.takeWhile isBlank).reverse := by
    rw [trim, dropAround, ← List.reverse_append, List.takeWhile_append_dropWhile,
      List.reverse_reverse]
  refine ⟨_, _, front.trans (congrArg _ back), fun c mem => ?_, fun c mem => ?_, fun c last => ?_⟩
  · exact List.all_eq_true.mp List.all_takeWhile c mem
  · exact List.all_eq_true.mp List.all_takeWhile c (List.mem_reverse.mp mem)
  · rw [trim, dropAround, List.getLast?_reverse] at last
    exact Source.not_of_head?_dropWhile last

end Text

namespace Source

open Text (isBlank trim)

variable {c w : Char} {cs : List Char}

theorem Mark.not_blank {m : Mark} (mem : c ∈ m.spelling) : isBlank c = false := by
  have solid : m.spelling.all (!isBlank ·) := by cases m <;> decide
  simpa using List.all_eq_true.mp solid c mem

/-- Of what kinds the characters of a lexeme are. -/
theorem Lexeme.Valid.mem_chars {l : Lexeme} (h : l.Valid) (mem : c ∈ l.chars) :
    (isWordPart c ∨ Text.isDigit c ∨ c ∈ ['.', '+', '-']) ∨ ∃ m, l = .mark m ∧ c ∈ m.spelling := by
  cases l with
  | word s =>
    obtain ⟨d, ds, spelled, start, parts⟩ := h
    rw [chars, spelled, List.mem_cons] at mem
    refine .inl (.inl (isWordPart_iff.mpr ?_))
    rcases mem with rfl | mem
    · exact start.imp_left fun alpha => by simp [Char.isAlphanum, alpha]
    · exact parts c mem
  | numeral s =>
    obtain ⟨m, e, spelled, hm, he⟩ := h
    rw [chars, spelled, List.mem_append] at mem
    rcases mem with mem | mem
    · rcases hm.mem c mem with digit | rfl
      · exact .inl (.inr (.inl digit))
      · exact .inl (.inr (.inr (by decide)))
    · rcases he.mem c mem with digit | mark
      · exact .inl (.inr (.inl digit))
      · simp only [List.mem_cons, List.not_mem_nil, or_false] at mark
        rcases mark with rfl | rfl | rfl | rfl
        · exact .inl (.inl (by decide))
        · exact .inl (.inl (by decide))
        · exact .inl (.inr (.inr (by decide)))
        · exact .inl (.inr (.inr (by decide)))
  | mark m => exact .inr ⟨m, rfl, mem⟩

theorem Lexeme.Valid.solid {l : Lexeme} (h : l.Valid) (mem : c ∈ l.chars) : isBlank c = false := by
  rcases h.mem_chars mem with (part | digit | sign) | ⟨m, rfl, spelled⟩
  · exact Text.isBlank_of_isWordPart part
  · exact Text.isBlank_of_isDigit digit
  · have solid : ['.', '+', '-'].all (!isBlank ·) := by decide
    simpa using List.all_eq_true.mp solid c sign
  · exact Mark.not_blank spelled

theorem not_isWordPart_of_isBlank (blank : isBlank w) : isWordPart w = false := by
  cases part : isWordPart w with
  | false => rfl
  | true => simp [Text.isBlank_of_isWordPart part] at blank

theorem not_isDigit_of_isBlank (blank : isBlank w) : Text.isDigit w = false := by
  cases digit : Text.isDigit w with
  | false => rfl
  | true => simp [Text.isBlank_of_isDigit digit] at blank

theorem ne_of_isBlank (blank : isBlank w) (solid : isBlank c = false) : w ≠ c := by
  rintro rfl
  simp [solid] at blank

theorem parts_of_isBlank (blank : isBlank w) : Parts w where
  digit := not_isDigit_of_isBlank blank
  word := not_isWordPart_of_isBlank blank
  numeral mem := by
    have solid : ['.', '+', '-'].all (!isBlank ·) := by decide
    exact ne_of_isBlank blank (by simpa using List.all_eq_true.mp solid w mem) rfl
  mark m _ mem := ne_of_isBlank blank (Mark.not_blank (List.mem_of_mem_tail mem)) rfl

/-- No lexeme begins with a blank. -/
theorem first?_of_isBlank (blank : isBlank w) (cs : List Char) :
    Lexeme.first? (w :: cs) = none := by
  have part := not_isWordPart_of_isBlank blank
  have start : isWordStart w = false := by
    simp only [isWordPart, isWordStart, Char.isAlphanum, Bool.or_eq_false_iff] at part ⊢
    exact ⟨⟨part.1.1.1, part.1.2⟩, part.2⟩
  have plain : w ≠ '.' := ne_of_isBlank blank (by decide)
  have numeral : Number.numeralLength (w :: cs) = 0 := by
    simp [Number.numeralLength, Number.mantissaLength, not_isDigit_of_isBlank blank, plain]
  have mark : Mark.first? (w :: cs) = none := by
    refine List.find?_eq_none.mpr fun m _ front => ?_
    obtain ⟨s, ss, spelled⟩ := List.exists_cons_of_ne_nil m.spelling_ne_nil
    rw [spelled, List.isPrefixOf, Bool.and_eq_true, beq_iff_eq] at front
    exact ne_of_isBlank blank (Mark.not_blank (m := m) (by simp [spelled])) front.1.symm
  simp [Lexeme.first?, start, numeral, mark]

/-! ## Scanning without the blanks -/

/-- A text without insets. -/
theorem Cursor.Relaid.refl (here : Cursor) : here.Relaid here.rest := by
  obtain ⟨ts, there, cut, none, -⟩ := exists_cut [] here
  induction cut with
  | nil => exact .rest none
  | @cons here there l ts cut _ ih =>
    obtain ⟨gap, whole⟩ := here.pastGap_suffix
    obtain ⟨rest, split, _⟩ := first?_cut cut
    have inset : IsInset [] := ⟨.nil, by simp⟩
    have relaid := Relaid.token cut whole inset inset (ih none)
    have same : gap ++ [] ++ l.chars ++ [] ++ (here.pastGap.advance l.chars.length).rest =
        here.rest := by
      simp only [advance, split, List.drop_left, List.append_nil] at whole ⊢
      rw [whole, List.append_assoc]
    rwa [same] at relaid

/-- A blank in front of a text that is scanned to its end is skipped. -/
theorem scanFrom_blank {done : List Token} {here : Cursor} (blank : isBlank w)
    (rest : here.rest = w :: cs) (finished : (scanFrom done here).2 = .finished) :
    scanFrom done here = scanFrom done ⟨here.place.after w, here.offset + 1, cs⟩ := by
  by_cases gap : isGapChar w
  · refine scanFrom_of_pastGap ?_
    rw [Cursor.pastGap, rest, skipGap, if_neg Bool.false_ne_true, if_pos gap]
    rfl
  · have slashes : ¬(w = '/' ∧ cs.head? = some '/') := fun h =>
      ne_of_isBlank blank (by decide) h.1
    have past : here.pastGap = ⟨here.place, here.offset, w :: cs⟩ := by
      rw [Cursor.pastGap, rest, skipGap, if_neg Bool.false_ne_true, if_neg gap, if_neg slashes]
    have none : Lexeme.first? here.pastGap.rest = none := by
      rw [past]
      exact first?_of_isBlank blank cs
    rw [scanFrom_of_none none, past] at finished
    cases finished

theorem scan_dropFront {lead : List Char} (blank : ∀ c ∈ lead, isBlank c)
    (finished : (scan (lead ++ cs)).2 = .finished) :
    (scan cs).2 = .finished ∧
      (scan cs).1.map (·.lexeme) = (scan (lead ++ cs)).1.map (·.lexeme) := by
  suffices skipped : ∀ here : Cursor, here.rest = lead ++ cs →
      (scanFrom [] here).2 = .finished →
      ∃ there : Cursor, there.rest = cs ∧ scanFrom [] here = scanFrom [] there by
    obtain ⟨there, rest, same⟩ := skipped (.start (lead ++ cs)) rfl finished
    have whole : scan (lead ++ cs) = scanFrom [] there := same
    rw [whole] at finished ⊢
    exact (Cursor.Relaid.refl there).lexemes .nil rest.symm rfl finished
  clear finished
  induction lead with
  | nil => exact fun here rest _ => ⟨here, rest, rfl⟩
  | cons w lead ih =>
    intro here rest finished
    obtain ⟨first, blank⟩ := List.forall_mem_cons.mp blank
    have next := scanFrom_blank first rest finished
    obtain ⟨there, rest', same⟩ := ih blank ⟨here.place.after w, here.offset + 1, lead ++ cs⟩ rfl
      (next ▸ finished)
    exact ⟨there, rest', next.trans same⟩

/-- Of a character behind the last gap nothing is left but itself, if anything. -/
theorem skipGap_through {place : Place} {offset : Nat} {comment : Bool}
    (ended : (skipGap place offset comment cs).rest = []) (w : Char) :
    (skipGap place offset comment (cs ++ [w])).rest = [] ∨
      (skipGap place offset comment (cs ++ [w])).rest = [w] := by
  induction cs generalizing place offset comment with
  | nil =>
    rw [List.nil_append, skipGap]
    split
    · exact .inl rfl
    · split
      · exact .inl rfl
      · exact .inr (by simp)
  | cons c cs ih =>
    rw [skipGap] at ended
    rw [List.cons_append, skipGap]
    split
    · rename_i commented
      rw [if_pos commented] at ended
      exact ih ended
    · rename_i closed
      rw [if_neg closed] at ended
      split
      · rename_i gap
        rw [if_pos gap] at ended
        exact ih ended
      · rename_i still
        rw [if_neg still] at ended
        by_cases slashes : c = '/' ∧ cs.head? = some '/'
        · have more : (cs ++ [w]).head? = some '/' := by
            rw [List.head?_append, slashes.2, Option.some_or]
          rw [if_pos slashes] at ended
          rw [if_pos ⟨slashes.1, more⟩]
          exact ih ended
        · rw [if_neg slashes] at ended
          cases ended

/-- A blank behind the last token begins none, and is skipped if the text is scanned to its end. -/
theorem Cursor.pastGap_dropBlank (blank : isBlank w) {here : Cursor} {done : List Token}
    (none : Lexeme.first? here.pastGap.rest = none)
    (finished : (scanFrom done { here with rest := here.rest ++ [w] }).2 = .finished) :
    Lexeme.first? (pastGap { here with rest := here.rest ++ [w] }).rest = .none ∧
      here.pastGap.rest = [] := by
  by_cases ended : here.pastGap.rest = []
  · refine ⟨?_, ended⟩
    rcases skipGap_through ended w with nothing | itself
    · rw [pastGap, nothing]
      rfl
    · rw [pastGap, itself]
      exact first?_of_isBlank blank []
  · have past : pastGap { here with rest := here.rest ++ [w] } =
        { here.pastGap with rest := here.pastGap.rest ++ [w] } :=
      skipGap_parted here.rest [] (ne_of_isBlank blank (by decide)) here.place here.offset false
        ended
    have stuck : Lexeme.first? (pastGap { here with rest := here.rest ++ [w] }).rest = .none := by
      rw [past]
      exact (first?_parted _ _ (parts_of_isBlank blank) ended).trans none
    rw [scanFrom_of_none stuck] at finished
    have nothing := rest_of_finished finished
    rw [past] at nothing
    simp at nothing

/-- A blank behind a text that is scanned to its end is skipped. -/
theorem scan_dropBlank (blank : isBlank w) (finished : (scan (cs ++ [w])).2 = .finished) :
    scan cs = ((scan (cs ++ [w])).1, .finished) := by
  have solid : w ≠ '/' := ne_of_isBlank blank (by decide)
  obtain ⟨ts, there, cut, none, scanned⟩ := exists_cut [] (.start cs)
  have whole : scan (cs ++ [w]) = scanFrom (ts.reverse ++ [])
      { there with rest := there.rest ++ [w] } :=
    (cut.parted (parts_of_isBlank blank) solid []).scanFrom []
  rw [whole] at finished ⊢
  obtain ⟨none', ended⟩ := Cursor.pastGap_dropBlank blank none finished
  rw [scanFrom_of_none none']
  refine scanned.trans ?_
  simp [Cursor.ending, ended]

theorem scan_dropBack {trail : List Char} (blank : ∀ c ∈ trail, isBlank c)
    (finished : (scan (cs ++ trail)).2 = .finished) :
    scan cs = ((scan (cs ++ trail)).1, .finished) := by
  induction trail generalizing cs with
  | nil =>
    rw [List.append_nil] at finished ⊢
    exact Prod.ext rfl finished
  | cons w trail ih =>
    obtain ⟨first, blank⟩ := List.forall_mem_cons.mp blank
    rw [List.append_cons] at finished ⊢
    have inner := ih blank finished
    have last := scan_dropBlank first (congrArg (·.2) inner)
    rw [last, inner]

/-! ## A semicolon behind the text -/

/-- Where nothing follows the last token, the text ends as it does. -/
theorem Cursor.Cut.getLast? {here there : Cursor} {ts : List Token} {t : Token}
    (h : here.Cut (ts ++ [t]) there) (ended : there.rest = []) :
    here.rest.getLast? = t.lexeme.chars.getLast? := by
  obtain ⟨mid, front, back⟩ := h.split
  obtain ⟨before, whole⟩ := front.suffix
  cases back with
  | @cons _ _ l _ cut nil =>
    cases nil
    obtain ⟨gap, same⟩ := mid.pastGap_suffix
    obtain ⟨rest, split, _⟩ := first?_cut cut
    have rest : rest = [] := by simpa [advance, split] using ended
    obtain ⟨d, hd⟩ := Option.ne_none_iff_exists'.mp
      (mt List.getLast?_eq_none_iff.mp (Lexeme.chars_ne_nil cut))
    rw [whole, same, split, rest, List.append_nil]
    simp [hd]

theorem rest_skipGap_open (place : Place) (offset : Nat) {body : List Char} (plain : '\n' ∉ body) :
    (skipGap place offset true body).rest = [] := by
  induction body generalizing place offset with
  | nil => rfl
  | cons c body ih =>
    obtain ⟨here, plain⟩ := not_or.mp (mt List.mem_cons.mpr plain)
    have still : (c != '\n') = true := by simpa using Ne.symm here
    rw [skipGap, if_pos rfl, still]
    exact ih _ _ plain

/-- Nothing is left behind the last gap. -/
theorem IsLastGap.rest_skipGap {gap : List Char} (h : IsLastGap gap) (place : Place)
    (offset : Nat) : (skipGap place offset false gap).rest = [] := by
  cases h with
  | closed closed =>
    have whole := closed.rest_skipGap place offset []
    rwa [List.append_nil] at whole
  | comment closed plain =>
    rw [closed.rest_skipGap, skipGap, if_neg Bool.false_ne_true, if_neg (by decide),
      if_pos ⟨rfl, rfl⟩, skipGap, if_pos rfl]
    exact rest_skipGap_open _ _ plain

/-- A gap that does not end with a blank ends in a comment, which goes on. -/
theorem rest_skipGap_semicolon {c : Char} {gap : List Char} (h : IsLastGap gap)
    (last : gap.getLast? = some c) (solid : isBlank c = false) (place : Place) (offset : Nat) :
    (skipGap place offset false (gap ++ [';'])).rest = [] := by
  cases h with
  | closed closed =>
    have space := closed.getLast? last
    have blanks : [' ', '\t', '\x0c', '\r', '\n'].all isBlank := by decide
    simp [List.all_eq_true.mp blanks c space] at solid
  | @comment gap body closed plain =>
    have plain : '\n' ∉ body ++ [';'] := by simp [plain]
    rw [List.append_assoc]
    exact (IsLastGap.comment closed plain).rest_skipGap place offset

/-- A text that ends neither with its last token nor with a blank ends in a comment. -/
theorem scan_semicolon {ts : List Token} {c : Char} (scanned : scan cs = (ts, .finished))
    (last : cs.getLast? = some c) (solid : isBlank c = false)
    (apart : ∀ t, ts.getLast? = some t → t.lexeme.chars.getLast? ≠ some c) :
    scan (cs ++ [';']) = (ts, .finished) := by
  obtain ⟨us, there, cut, none, found⟩ := exists_cut [] (.start cs)
  obtain ⟨same, finished⟩ := Prod.mk.inj (scanned.symm.trans found)
  obtain rfl : ts = us := same
  have ended : there.pastGap.rest = [] := Cursor.rest_of_finished finished.symm
  have whole : scan (cs ++ [';']) = scanFrom (ts.reverse ++ [])
      { there with rest := there.rest ++ [';'] } :=
    (cut.parted parts_semicolon (by decide) []).scanFrom []
  have more : there.rest ≠ [] := by
    intro nothing
    rcases List.eq_nil_or_concat ts with rfl | ⟨before, t, rfl⟩
    · cases cut
      rw [show cs = [] from nothing] at last
      cases last
    · rw [List.concat_eq_append] at cut apart
      exact apart t (by simp) ((cut.getLast? nothing).symm.trans last)
  have tail : there.rest.getLast? = some c := by
    obtain ⟨front, split⟩ := cut.suffix
    obtain ⟨d, hd⟩ := Option.ne_none_iff_exists'.mp (mt List.getLast?_eq_none_iff.mp more)
    rw [show cs = front ++ there.rest from split, List.getLast?_append, hd, Option.some_or] at last
    rw [hd, last]
  have commented : (Cursor.pastGap { there with rest := there.rest ++ [';'] }).rest = [] :=
    rest_skipGap_semicolon (isLastGap_of_skipGap ended) tail solid _ _
  rw [whole, scanFrom_of_none (by rw [commented]; rfl), Cursor.ending, commented]
  simp

/-! ## Completed lines -/

theorem last_lexeme {program : Program} (read : readProgram cs = .ok program) {l : Lexeme}
    (last : ((scan cs).1.map (·.lexeme)).getLast? = some l) :
    l = .mark .semicolon ∨ l = .mark .closeBrace := by
  obtain ⟨ts, st, scanned, run, ended⟩ := readProgram_eq_ok_iff.mp read
  rw [scanned, List.getLast?_map] at last
  obtain ⟨t, final, rfl⟩ := Option.map_eq_some_iff.mp last
  obtain ⟨before, rfl⟩ := List.getLast?_eq_some_iff.mp final
  exact ((State.endsAt_run run).program? ended).imp_left And.left

/-- Trimming a text that is scanned to its end keeps its lexemes. -/
theorem scan_trim (finished : (scan cs).2 = .finished) :
    (scan (trim cs)).2 = .finished ∧
      (scan (trim cs)).1.map (·.lexeme) = (scan cs).1.map (·.lexeme) := by
  obtain ⟨lead, trail, split, front, back, -⟩ := Text.exists_trim cs
  rw [split] at finished
  obtain ⟨finished, lexemes⟩ := scan_dropFront front finished
  rw [← split] at lexemes
  rw [scan_dropBack back finished]
  exact ⟨rfl, lexemes⟩

/-- Completing a line that is a program keeps its lexemes. -/
theorem scan_complete {line : String} {program : Program}
    (read : readProgram line.toList = .ok program) :
    (scan (complete line).toList).2 = .finished ∧
      (scan (complete line).toList).1.map (·.lexeme) = (scan line.toList).1.map (·.lexeme) := by
  obtain ⟨ts, st, scanned, -⟩ := readProgram_eq_ok_iff.mp read
  obtain ⟨finished, lexemes⟩ := scan_trim (congrArg (·.2) scanned)
  have stripped : (Text.strip line).toList = trim line.toList := String.toList_ofList
  rw [← stripped] at finished lexemes
  simp only [complete]
  split
  · exact ⟨finished, lexemes⟩
  · rename_i some
    split
    · exact ⟨finished, lexemes⟩
    · exact ⟨finished, lexemes⟩
    · rename_i semicolon brace
      obtain ⟨c, last⟩ := Option.ne_none_iff_exists'.mp
        (mt List.getLast?_eq_none_iff.mp (mt String.toList_eq_nil_iff.mp some))
      have solid : isBlank c = false := by
        obtain ⟨_, _, _, _, _, solid⟩ := Text.exists_trim line.toList
        exact solid c (stripped ▸ last)
      have commented := scan_semicolon (Prod.ext rfl finished) last solid fun t final => by
        have lexeme : ((scan line.toList).1.map (·.lexeme)).getLast? = Option.some t.lexeme := by
          rw [← lexemes, List.getLast?_map, final, Option.map_some]
        rcases last_lexeme read lexeme with same | same
        · rw [same]
          rintro ⟨⟩
          exact semicolon last
        · rw [same]
          rintro ⟨⟩
          exact brace last
      rw [String.toList_append]
      exact commented.symm ▸ ⟨rfl, lexemes⟩

/-- A line that is a program is the same program at other places when it is completed. -/
theorem readProgram_complete {line : String} {program : Program}
    (read : readProgram line.toList = .ok program) :
    ∃ program', readProgram (complete line).toList = .ok program' ∧
      program'.map (Stmt.move fun _ => .first) = program.map (Stmt.move fun _ => .first) := by
  obtain ⟨finished, lexemes⟩ := scan_complete read
  exact readProgram_of_lexemes read finished lexemes

end Source

end Scriptlet
