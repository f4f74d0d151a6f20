import Scriptlet.Proofs.Typed
/-!
# The semicolon that a line lacks

Completing a line looks at nothing but the last character of the trimmed line. That is enough to
keep every program the program it is, and a line that was completed is left as it is from then on.
Where nothing but the semicolon behind the last token is missing, the completed line is the text
with the semicolon, trimmed, and so is a program. Only a closing brace stops that: a line that ends
in one is taken for finished, even if the brace closes a function that is an operand.
-/

namespace Scriptlet

/-! ## Trimmed texts -/

namespace Text

variable {lead cs trail : List Char} {c : Char}

/-- Blanks around a text make no difference to the trimmed text. -/
theorem trim_around (front : ∀ c ∈ lead, isBlank c) (back : ∀ c ∈ trail, isBlank c) :
    trim (lead ++ (cs ++ trail)) = trim cs := by
  have back' : ∀ c ∈ trail.reverse, isBlank c := fun c mem => back c (List.mem_reverse.mp mem)
  have none : trail.dropWhile isBlank = [] := List.dropWhile_eq_nil_iff.mpr back
  rw [trim, trim, dropAround, dropAround, List.dropWhile_append_of_pos front,
    List.dropWhile_append]
  split
  · rename_i empty
    rw [none, List.isEmpty_iff.mp empty]
  · rw [List.reverse_append, List.dropWhile_append_of_pos back']

theorem solid_head_trim (h : (trim cs).head? = some c) : isBlank c = false := by
  have front : trim cs <+: cs.dropWhile isBlank := by
    rw [← List.reverse_suffix, trim, dropAround, List.reverse_reverse]
    exact List.dropWhile_suffix _
  obtain ⟨more, rest⟩ := front
  have first : (cs.dropWhile isBlank).head? = some c := by
    rw [← rest, List.head?_append, h, Option.some_or]
  exact Source.not_of_head?_dropWhile first

theorem solid_last_trim (h : (trim cs).getLast? = some c) : isBlank c = false := by
  obtain ⟨_, _, _, _, _, solid⟩ := exists_trim cs
  exact solid c h

theorem trim_append_semicolon (head : ∀ c, cs.head? = some c → isBlank c = false)
    (more : cs ≠ []) : trim (cs ++ [';']) = cs ++ [';'] := by
  refine dropAround_eq_self (fun c first => ?_) fun c last => ?_
  · rw [List.head?_append_of_ne_nil _ more] at first
    exact head c first
  · obtain rfl : ';' = c := by simpa using last
    decide

/-- A semicolon in front of the blanks at the end of a text is the end of the trimmed text. -/
theorem trim_semicolon {front : List Char} (back : ∀ c ∈ trail, isBlank c)
    (last : front.getLast? = some c) (solid : isBlank c = false) :
    trim (front ++ ';' :: trail) = trim (front ++ trail) ++ [';'] ∧
      (trim (front ++ trail)).getLast? = some c := by
  let body := front.dropWhile isBlank
  have split : front = front.takeWhile isBlank ++ body := List.takeWhile_append_dropWhile.symm
  have blank : ∀ c ∈ front.takeWhile isBlank, isBlank c := List.all_eq_true.mp List.all_takeWhile
  have more : body ≠ [] := by
    intro none
    rw [split, none, List.append_nil] at last
    simp [blank c (List.mem_of_getLast? last)] at solid
  have last' : body.getLast? = some c := by
    rwa [split, List.getLast?_append_of_ne_nil _ more] at last
  have head : ∀ d, body.head? = some d → isBlank d = false := fun d first =>
    Source.not_of_head?_dropWhile first
  have without : trim (front ++ trail) = body := by
    rw [split, List.append_assoc, trim_around blank back]
    refine dropAround_eq_self head fun d final => ?_
    obtain rfl := Option.some.inj (last'.symm.trans final)
    exact solid
  have within : trim (front ++ ';' :: trail) = body ++ [';'] := by
    rw [split, List.append_assoc, List.append_cons, trim_around blank back]
    exact trim_append_semicolon head more
  rw [without]
  exact ⟨within, last'⟩

theorem strip_strip (line : String) : strip (strip line) = strip line := by
  have trimmed : trim (trim line.toList) = trim line.toList :=
    dropAround_eq_self (fun _ => solid_head_trim) fun _ => solid_last_trim
  rw [strip, strip, String.toList_ofList, trimmed]

end Text

/-! ## Completed lines -/

theorem complete_eq_self {s : String} (stripped : Text.strip s = s)
    (ended : s = "" ∨ s.toList.getLast? = some ';' ∨ s.toList.getLast? = some '\x7d') :
    complete s = s := by
  rcases ended with rfl | last | last
  · rfl
  · simp [complete, stripped, last]
  · simp [complete, stripped, last]

theorem toList_strip (line : String) : (Text.strip line).toList = Text.trim line.toList :=
  String.toList_ofList

theorem complete_of_closeBrace {line : String}
    (last : (Text.trim line.toList).getLast? = some '\x7d') : complete line = Text.strip line := by
  rw [← toList_strip] at last
  simp [complete, last]

theorem toList_complete {line : String} {c : Char}
    (last : (Text.trim line.toList).getLast? = some c) (semicolon : c ≠ ';') (brace : c ≠ '\x7d') :
    (complete line).toList = Text.trim line.toList ++ [';'] := by
  have some : Text.strip line ≠ "" := fun empty => by
    rw [← toList_strip, empty] at last
    cases last
  rw [complete, if_neg some, toList_strip]
  split
  · rename_i same
    exact absurd (Option.some.inj (last.symm.trans same)) semicolon
  · rename_i same
    exact absurd (Option.some.inj (last.symm.trans same)) brace
  · rw [String.toList_append, toList_strip]
    rfl

/-- A completed line is empty or ends with a semicolon or a brace, and has no blanks around it. -/
theorem complete_ended (line : String) :
    Text.strip (complete line) = complete line ∧
      (complete line = "" ∨ (complete line).toList.getLast? = some ';' ∨
        (complete line).toList.getLast? = some '\x7d') := by
  have stripped := Text.strip_strip line
  simp only [complete]
  split
  · rename_i empty
    exact ⟨stripped, .inl empty⟩
  · rename_i some
    split
    · rename_i last
      exact ⟨stripped, .inr (.inl last)⟩
    · rename_i last
      exact ⟨stripped, .inr (.inr last)⟩
    · have chars : (Text.strip line ++ ";").toList = Text.trim line.toList ++ [';'] := by
        rw [String.toList_append, Text.strip, String.toList_ofList]
        rfl
      have more : Text.trim line.toList ≠ [] := by
        rw [← String.toList_ofList (l := Text.trim line.toList)]
        exact mt String.toList_eq_nil_iff.mp some
      have whole : Text.trim (Text.trim line.toList ++ [';']) = Text.trim line.toList ++ [';'] :=
        Text.trim_append_semicolon (fun _ => Text.solid_head_trim) more
      refine ⟨?_, .inr (.inl (by simp [chars]))⟩
      rw [Text.strip, chars, whole, ← chars, String.ofList_toList]

/-- Completing a line keeps every program the program it is, and completes a line for good. -/
theorem completing_keeps_programs (line : String) :
    (∀ tree, Source.parse line = .ok tree →
      ∃ tree', Source.parse (complete line) = .ok tree' ∧ tree'.bare = tree.bare) ∧
    complete (complete line) = complete line := by
  obtain ⟨stripped, ended⟩ := complete_ended line
  refine ⟨fun tree accepted => ?_, complete_eq_self stripped ended⟩
  obtain ⟨program, read, rfl⟩ := Source.parse_eq_ok_iff.mp accepted
  obtain ⟨program', read', same⟩ := Source.readProgram_complete read
  exact ⟨program'.tree, Source.parse_eq_ok_iff.mpr ⟨program', read', rfl⟩,
    Source.Program.bare_tree_eq same⟩

/-- Behind the comment of a program there may be a blank that is no white space of the language. -/
theorem completing_keeps_programs_noted : ∃ tree tree',
    Source.parse "x = 1; // one\u3000" = .ok tree ∧
    Source.parse (complete "x = 1; // one\u3000") = .ok tree' ∧ tree'.bare = tree.bare := by
  obtain ⟨tree, accepted⟩ := Source.exists_tree "x = 1; // one\u3000" (by decide +kernel)
  obtain ⟨tree', accepted', same⟩ :=
    (completing_keeps_programs "x = 1; // one\u3000").1 tree accepted
  exact ⟨tree, tree', accepted, accepted', same⟩

/-! ## The characters of a lexeme -/

namespace Source

open Text (isBlank)

variable {cs : List Char} {c : Char} {l : Lexeme} {t : Token}

/-- A character that only one mark has, and no word or numeral. -/
theorem Lexeme.Valid.eq_mark {m : Mark} (h : l.Valid) (mem : c ∈ l.chars)
    (apart : ¬(isWordPart c ∨ Text.isDigit c ∨ c ∈ ['.', '+', '-']))
    (own : ∀ m' : Mark, c ∈ m'.spelling → m' = m) : l = .mark m := by
  obtain ⟨m', rfl, spelled⟩ := (h.mem_chars mem).resolve_left apart
  rw [own m' spelled]

theorem Lexeme.Valid.eq_semicolon (h : l.Valid) (mem : ';' ∈ l.chars) : l = .mark .semicolon :=
  h.eq_mark mem (by decide) fun m' => by cases m' <;> decide

theorem Lexeme.Valid.eq_closeBrace (h : l.Valid) (mem : '\x7d' ∈ l.chars) :
    l = .mark .closeBrace :=
  h.eq_mark mem (by decide) fun m' => by cases m' <;> decide

/-! ## Behind a semicolon -/

namespace State

variable {st mid next done : State} {p : Place} {frames : List Frame}

theorem items_endStmt {s : Stmt} {braced : Bool} (h : endStmt s braced frames = some next) :
    ∃ before, next.mode = .items before braced := by
  fun_induction endStmt s braced frames with
  | case1 s before frames =>
    obtain rfl := Option.some.inj h
    exact ⟨_, rfl⟩
  | case2 s start test body frames ih => exact ih h
  | case3 => cases h

theorem items_endAtSemicolon {e : Expr} (h : endAtSemicolon e frames = some next) :
    ∃ before, next.mode = .items before false := by
  rcases frames with _ | ⟨f, frames⟩
  · cases h
  · cases f with
    | stated | declared | assigned | returned => exact items_endStmt h
    | _ => cases h

/-- A semicolon ends a statement wherever it is taken. -/
theorem items_step_semicolon (h : st.step (.mark .semicolon) p = some next) :
    ∃ before, next.mode = .items before false := by
  obtain ⟨mode, frames⟩ := st
  cases mode with
  | items before =>
    obtain rfl := Option.some.inj h
    exact ⟨_, rfl⟩
  | ifTail start test body =>
    simp only [step, continueIf] at h
    rw [if_neg (by simp)] at h
    split at h
    · obtain rfl := Option.some.inj h
      exact ⟨_, rfl⟩
    · cases h
  | leading name =>
    simp only [step] at h
    rw [if_neg (by simp), continueExpr] at h
    exact items_endAtSemicolon h
  | operator e => exact items_endAtSemicolon h
  | declareTail => exact items_endStmt h
  | returnTail => exact items_endStmt h
  | _ => cases h

/-- Of two semicolons one behind the other a program does not need the second. -/
theorem run_semicolons {ts : List Token} {t u : Token} (run : st.run (ts ++ [t, u]) = .ok done)
    (ht : t.lexeme = .mark .semicolon) (hu : u.lexeme = .mark .semicolon)
    (ended : done.program?.isSome) :
    ∃ mid, st.run (ts ++ [t]) = .ok mid ∧ mid.program?.isSome := by
  rw [List.append_cons] at run
  obtain ⟨mid, front, second⟩ := run_last run
  obtain ⟨_, _, first⟩ := run_last front
  rw [ht] at first
  obtain ⟨before, mode⟩ := items_step_semicolon first
  obtain ⟨_, frames⟩ := mid
  obtain rfl : _ = Mode.items before false := mode
  rw [hu] at second
  obtain rfl := Option.some.inj second
  refine ⟨_, front, ?_⟩
  cases frames with
  | nil => rfl
  | cons => cases ended

end State

/-! ## A semicolon behind the last token -/

/-- The text with a semicolon right behind the token. -/
def Token.withSemicolon (t : Token) (cs : List Char) : List Char :=
  cs.take (t.offset + t.lexeme.chars.length) ++ ';' :: t.behind cs

/-- A comment stands behind the token. -/
def Token.Commented (t : Token) (cs : List Char) : Prop := ['/', '/'] <:+: t.behind cs

instance (t : Token) (cs : List Char) : Decidable (t.Commented cs) :=
  inferInstanceAs (Decidable (_ <:+: _))

theorem IsGap.space_of_plain {gap : List Char} (h : IsGap gap) (plain : ¬['/', '/'] <:+: gap) :
    ∀ c ∈ gap, isGapChar c := by
  induction h with
  | nil => simp
  | @space c gap space _ ih =>
    have here : isGapChar c := by simpa [isGapChar, or_assoc] using space
    exact List.forall_mem_cons.mpr
      ⟨here, ih fun inside => plain (inside.trans (List.suffix_cons c gap).isInfix)⟩
  | comment => exact absurd ⟨[], _, rfl⟩ plain

theorem IsLastGap.space_of_plain {gap : List Char} (h : IsLastGap gap)
    (plain : ¬['/', '/'] <:+: gap) : ∀ c ∈ gap, isGapChar c := by
  cases h with
  | closed closed => exact closed.space_of_plain plain
  | @comment gap body => exact absurd ⟨gap, body, by simp⟩ plain

namespace Cursor

variable {here there : Cursor} {ts before : List Token}

theorem Cut.within (cut : here.Cut ts there) (within : here.Within cs) : there.Within cs := by
  induction cut with
  | nil => exact within
  | cons _ _ ih => exact ih (within.pastGap.advance _)

/-- Behind the last token the text goes on as it does behind the token's place in it. -/
theorem Cut.behind (cut : here.Cut (before ++ [t]) there) (within : here.Within cs) :
    there.rest = t.behind cs := by
  obtain ⟨mid, front, back⟩ := cut.split
  cases back with
  | cons _ nil =>
    cases nil
    exact (front.within within).pastGap.advance _

theorem Cut.valid (cut : here.Cut (before ++ [t]) there) : t.lexeme.Valid := by
  obtain ⟨mid, -, back⟩ := cut.split
  cases back with
  | cons first _ =>
    obtain ⟨_, _, valid, -⟩ := first?_cut first
    exact valid

end Cursor

theorem first?_semicolon (rest : List Char) :
    Lexeme.first? (';' :: rest) = some (.mark .semicolon) := by
  have digit : Text.isDigit ';' = false := by decide
  have numeral : Number.numeralLength (';' :: rest) = 0 := by
    simp [Number.numeralLength, Number.mantissaLength, digit]
  have start : ¬isWordStart ';' := by decide
  rw [Lexeme.first?, if_neg start, numeral]
  rfl

/-- The semicolon is one more token, and nothing else changes. -/
theorem scan_withSemicolon {before : List Token} (scanned : (scan cs).1 = before ++ [t])
    (finished : (scan (t.withSemicolon cs)).2 = .finished) :
    (scan cs).2 = .finished ∧ IsLastGap (t.behind cs) ∧ t.lexeme.Valid ∧
      (cs.take (t.offset + t.lexeme.chars.length)).getLast? = t.lexeme.chars.getLast? ∧
      ∃ u, u.lexeme = .mark .semicolon ∧ (scan (t.withSemicolon cs)).1 = before ++ [t, u] := by
  obtain ⟨ts, there, cut, none, found⟩ := exists_cut [] (.start cs)
  obtain rfl : ts = before ++ [t] := (congrArg (·.1) found).symm.trans scanned
  have behind : there.rest = t.behind cs := cut.behind (rfl : (Cursor.start cs).Within cs)
  have whole : (Cursor.start cs).rest =
      cs.take (t.offset + t.lexeme.chars.length) ++ t.behind cs :=
    (List.take_append_drop ..).symm
  have front := cut.front whole (behind.trans (List.nil_append _).symm)
  have parted := (front.parted parts_semicolon (by decide) (t.behind cs)).scanFrom []
  have start : scan (t.withSemicolon cs) = scanFrom _ { there with rest := ';' :: t.behind cs } :=
    parted
  have still : Cursor.pastGap { there with rest := ';' :: t.behind cs } =
      { there with rest := ';' :: t.behind cs } := rfl
  have taken : Lexeme.first? (Cursor.pastGap { there with rest := ';' :: t.behind cs }).rest =
      some (.mark .semicolon) := still ▸ first?_semicolon (t.behind cs)
  rw [start, scanFrom_of_some taken, still] at finished ⊢
  have rest : (Cursor.pastGap (Cursor.advance { there with rest := ';' :: t.behind cs }
      (Lexeme.mark .semicolon).chars.length)).rest = there.pastGap.rest := by
    rw [Cursor.pastGap, Cursor.pastGap, behind]
    exact rest_skipGap ..
  rw [scanFrom_of_none (rest ▸ none)] at finished ⊢
  have ended : there.pastGap.rest = [] := rest.symm.trans (Cursor.rest_of_finished finished)
  refine ⟨?_, ?_, cut.valid, front.getLast? rfl, ⟨.mark .semicolon, there.place, there.offset⟩,
    rfl, by simp⟩
  · rw [show (scan cs).2 = _ from congrArg (·.2) found]
    rw [Cursor.ending, ended]
  · rw [← behind]
    exact isLastGap_of_skipGap ended

/-- Nothing but a semicolon behind its last token keeps the text from being a program. -/
structure LacksSemicolon (line : String) (t : Token) : Prop where
  rejected : ∀ tree, parse line ≠ .ok tree
  last : (scan line.toList).1.getLast? = some t
  accepted : ∃ tree, parse (.ofList (t.withSemicolon line.toList)) = .ok tree

/-- Without a comment behind the last token, the trimmed text ends with that token. -/
theorem trim_withSemicolon (gap : IsLastGap (t.behind cs)) (plain : ¬t.Commented cs)
    (final : (cs.take (t.offset + t.lexeme.chars.length)).getLast? = some c)
    (solid : isBlank c = false) :
    Text.trim (t.withSemicolon cs) = Text.trim cs ++ [';'] ∧
      (Text.trim cs).getLast? = some c := by
  have blank : ∀ c ∈ t.behind cs, isBlank c := fun c mem =>
    Text.isBlank_of_isGapChar (gap.space_of_plain plain c mem)
  have both := Text.trim_semicolon blank final solid
  rwa [show cs.take (t.offset + t.lexeme.chars.length) ++ t.behind cs = cs from
    List.take_append_drop ..] at both

namespace LacksSemicolon

variable {line : String}

theorem exists_program (lacks : LacksSemicolon line t) :
    ∃ program, readProgram (t.withSemicolon line.toList) = .ok program := by
  obtain ⟨tree, accepted⟩ := lacks.accepted
  obtain ⟨program, read, -⟩ := parse_eq_ok_iff.mp accepted
  rw [String.toList_ofList] at read
  exact ⟨program, read⟩

theorem finished (lacks : LacksSemicolon line t) :
    (scan (t.withSemicolon line.toList)).2 = .finished := by
  obtain ⟨program, read⟩ := lacks.exists_program
  obtain ⟨ts, done, whole, -⟩ := readProgram_eq_ok_iff.mp read
  exact congrArg (·.2) whole

/-- A second semicolon is never missed: the text would be a program as it is. -/
theorem ne_semicolon (lacks : LacksSemicolon line t) : t.lexeme ≠ .mark .semicolon := by
  intro same
  obtain ⟨before, scanned⟩ := List.getLast?_eq_some_iff.mp lacks.last
  obtain ⟨finished, -, -, -, u, semicolon, tokens⟩ := scan_withSemicolon scanned lacks.finished
  obtain ⟨program, read⟩ := lacks.exists_program
  obtain ⟨ts, done, whole, run, ended⟩ := readProgram_eq_ok_iff.mp read
  obtain rfl : ts = before ++ [t, u] := (congrArg (·.1) whole).symm.trans tokens
  obtain ⟨mid, run', ended'⟩ := State.run_semicolons run same semicolon (by simp [ended])
  obtain ⟨program', ended'⟩ := Option.isSome_iff_exists.mp ended'
  have read' : readProgram line.toList = .ok program' :=
    readProgram_eq_ok_iff.mpr ⟨_, mid, Prod.ext scanned finished, run', ended'⟩
  exact lacks.rejected _ (parse_eq_ok_iff.mpr ⟨program', read', rfl⟩)

/-- The text is cut into tokens to its end, and the trimmed text ends with the last of them. -/
theorem trimmed (lacks : LacksSemicolon line t) (plain : ¬t.Commented line.toList) :
    (scan line.toList).2 = .finished ∧ t.lexeme.Valid ∧
      Text.trim (t.withSemicolon line.toList) = Text.trim line.toList ++ [';'] ∧
      ∃ c ∈ t.lexeme.chars, t.lexeme.chars.getLast? = some c ∧
        (Text.trim line.toList).getLast? = some c := by
  obtain ⟨before, scanned⟩ := List.getLast?_eq_some_iff.mp lacks.last
  obtain ⟨finished, gap, valid, final, -⟩ := scan_withSemicolon scanned lacks.finished
  obtain ⟨c, hc⟩ : ∃ c, t.lexeme.chars.getLast? = some c := by
    obtain ⟨d, ds, chars, -⟩ := chars_eq_cons valid
    rw [chars]
    exact ⟨_, List.getLast?_cons⟩
  have mem : c ∈ t.lexeme.chars := List.mem_of_getLast? hc
  obtain ⟨ended, ends⟩ := trim_withSemicolon gap plain (final.trans hc) (valid.solid mem)
  exact ⟨finished, valid, ended, c, mem, hc, ends⟩

/-- The completed line is the text with the semicolon, trimmed. -/
theorem toList_complete (lacks : LacksSemicolon line t) (plain : ¬t.Commented line.toList)
    (other : t.lexeme ≠ .mark .closeBrace) :
    (complete line).toList = Text.trim (t.withSemicolon line.toList) := by
  obtain ⟨-, valid, ended, c, mem, -, ends⟩ := lacks.trimmed plain
  rw [ended]
  refine Scriptlet.toList_complete ends ?_ ?_
  · rintro rfl
    exact lacks.ne_semicolon (valid.eq_semicolon mem)
  · rintro rfl
    exact other (valid.eq_closeBrace mem)

end LacksSemicolon

/-- A text that lacks nothing but a semicolon behind its last token is a program when it is
completed, unless that token is a closing brace: then it is left as it is. -/
theorem lacking_semicolon_completed {line : String} {t : Token} (lacks : LacksSemicolon line t)
    (plain : ¬t.Commented line.toList) :
    (t.lexeme ≠ .mark .closeBrace →
      ∃ tree tree', parse (.ofList (t.withSemicolon line.toList)) = .ok tree ∧
        parse (complete line) = .ok tree' ∧ tree'.bare = tree.bare) ∧
    (t.lexeme = .mark .closeBrace → ∀ tree, parse (complete line) ≠ .ok tree) := by
  constructor
  · intro other
    obtain ⟨program, read⟩ := lacks.exists_program
    obtain ⟨finished, lexemes⟩ := scan_trim lacks.finished
    rw [← lacks.toList_complete plain other] at finished lexemes
    obtain ⟨program', read', same⟩ := readProgram_of_lexemes read finished lexemes
    rw [← String.toList_ofList (l := t.withSemicolon line.toList)] at read
    exact ⟨program.tree, program'.tree, parse_eq_ok_iff.mpr ⟨program, read, rfl⟩,
      parse_eq_ok_iff.mpr ⟨program', read', rfl⟩, Program.bare_tree_eq same⟩
  · intro brace tree' accepted'
    obtain ⟨finished, -, -, c, -, hc, ends⟩ := lacks.trimmed plain
    obtain rfl : '\x7d' = c := by simpa [brace, Lexeme.chars, Mark.spelling] using hc
    rw [complete_of_closeBrace ends] at accepted'
    obtain ⟨program', read', rfl⟩ := parse_eq_ok_iff.mp accepted'
    rw [toList_strip] at read'
    obtain ⟨-, lexemes⟩ := scan_trim finished
    obtain ⟨program'', read'', -⟩ := readProgram_of_lexemes read' finished lexemes.symm
    exact lacks.rejected _ (parse_eq_ok_iff.mpr ⟨program'', read'', rfl⟩)

theorem ne_ok_of_isOk {src : String} (h : (parse src).isOk = false) (tree : Tree) :
    parse src ≠ .ok tree := fun same => by
  rw [same] at h
  cases h

theorem lacksSemicolon_of_isOk {line : String} {t : Token} (rejected : (parse line).isOk = false)
    (last : (scan line.toList).1.getLast? = some t)
    (accepted : (parse (.ofList (t.withSemicolon line.toList))).isOk = true) :
    LacksSemicolon line t :=
  ⟨ne_ok_of_isOk rejected, last, exists_tree _ accepted⟩

theorem lacksSemicolon_function :
    LacksSemicolon "x = function () \x7b\x7d" ⟨.mark .closeBrace, ⟨1, 18⟩, 17⟩ :=
  lacksSemicolon_of_isOk (by decide +kernel) (by decide +kernel) (by decide +kernel)

/-- A call between all kinds of white space, and a function that is assigned. -/
theorem lacking_semicolon_completed_call :
    (∃ t tree tree', LacksSemicolon "\x0cx = f(1)\t\x0d\n " t ∧
      parse (.ofList (t.withSemicolon "\x0cx = f(1)\t\x0d\n ".toList)) = .ok tree ∧
      parse (complete "\x0cx = f(1)\t\x0d\n ") = .ok tree' ∧ tree'.bare = tree.bare) ∧
    ∃ t, LacksSemicolon "x = function () \x7b\x7d" t ∧ t.lexeme = .mark .closeBrace ∧
      ∀ tree, parse (complete "x = function () \x7b\x7d") ≠ .ok tree := by
  constructor
  · have lacks : LacksSemicolon "\x0cx = f(1)\t\x0d\n " ⟨.mark .closeParen, ⟨1, 9⟩, 8⟩ :=
      lacksSemicolon_of_isOk (by decide +kernel) (by decide +kernel) (by decide +kernel)
    obtain ⟨tree, tree', accepted, accepted', same⟩ :=
      (lacking_semicolon_completed lacks (by decide +kernel)).1 (by decide)
    exact ⟨_, tree, tree', lacks, accepted, accepted', same⟩
  · have lacks := lacksSemicolon_function
    exact ⟨_, lacks, rfl, (lacking_semicolon_completed lacks (by decide +kernel)).2 rfl⟩

/-- A brace that closes an operand, and a comment behind the last token. -/
theorem lacking_semicolon_not_completed :
    (∃ t, LacksSemicolon "x = function () \x7b\x7d" t ∧
      ∀ tree, parse (complete "x = function () \x7b\x7d") ≠ .ok tree) ∧
    ∃ t, LacksSemicolon "true // hi" t ∧ ∀ tree, parse (complete "true // hi") ≠ .ok tree := by
  have comment : LacksSemicolon "true // hi" ⟨.word "true", ⟨1, 1⟩, 0⟩ :=
    lacksSemicolon_of_isOk (by decide +kernel) (by decide +kernel) (by decide +kernel)
  exact ⟨⟨_, lacksSemicolon_function, ne_ok_of_isOk (by decide +kernel)⟩,
    _, comment, ne_ok_of_isOk (by decide +kernel)⟩

end Source

end Scriptlet
