import Scriptlet.Proofs.Endings
import Scriptlet.Proofs.Transcripts
/-!
# What is typed

A line that is typed loses its invisible characters before anything else is done with it. Outside
comments a program has none of them but carriage returns, which are white space. So the tokens stay
the same, unless a carriage return was all that stood between one and the next, or between a slash
and a comment. What remains is a command if it begins with a slash. No statement does, but a comment
may come first. What is neither is completed and run, and is the program that was typed.
-/

namespace Scriptlet

namespace Source

/-! ## One character further -/

section

variable {x tail : List Char} {c : Char}

theorem takeWhile_next {p : Char → Bool} (tail' : List Char)
    (le : ((x ++ c :: tail).takeWhile p).length ≤ x.length) :
    (x ++ c :: tail').takeWhile p = (x ++ c :: tail).takeWhile p := by
  rw [← takeWhile_front le]
  by_cases stop : p c
  · rw [List.takeWhile_append] at le ⊢
    split at le
    · simp [stop] at le
    · rename_i short
      rw [if_neg short]
  · exact takeWhile_parted x tail' (by simpa using stop)

open Number

/-- Whether a mantissa goes on is seen from the next character. -/
theorem mantissaLength_next (tail' : List Char) (some : x ≠ [])
    (le : mantissaLength (x ++ c :: tail) ≤ x.length) :
    mantissaLength (x ++ c :: tail') = mantissaLength (x ++ c :: tail) := by
  have whole := Nat.le_trans (length_takeWhile_le_mantissaLength _) le
  have digits := takeWhile_next tail' whole
  have after (more : List Char) :
      (x ++ c :: more).drop ((x ++ c :: tail).takeWhile Text.isDigit).length =
        x.drop ((x ++ c :: tail).takeWhile Text.isDigit).length ++ c :: more :=
    List.drop_append_of_le_length whole
  cases front : x.drop ((x ++ c :: tail).takeWhile Text.isDigit).length with
  | nil =>
    simp only [front, List.nil_append] at after
    by_cases point : c = '.'
    · subst point
      have length := congrArg List.length front
      have total := List.length_pos_iff.mpr some
      rw [mantissaLength_of_point (after tail)] at le
      rw [List.length_drop, List.length_nil] at length
      split at le <;> omega
    · rw [mantissaLength_of_plain (after tail) (by simpa using point),
        mantissaLength_of_plain (digits ▸ after tail') (by simpa using point), digits]
  | cons d ds =>
    simp only [front, List.cons_append] at after
    by_cases point : d = '.'
    · subst point
      have length := congrArg List.length front
      have fraction : ((ds ++ c :: tail).takeWhile Text.isDigit).length ≤ ds.length := by
        rw [mantissaLength_of_point (after tail)] at le
        rw [List.length_drop, List.length_cons] at length
        split at le <;> omega
      rw [mantissaLength_of_point (after tail), mantissaLength_of_point (digits ▸ after tail'),
        digits, takeWhile_next tail' fraction]
    · rw [mantissaLength_of_plain (after tail) (by simpa using point),
        mantissaLength_of_plain (digits ▸ after tail') (by simpa using point), digits]

/-- Unless its mark comes next, whether an exponent goes on is seen from the next character. -/
theorem exponentLength_next (tail' : List Char)
    (whole : exponentLength (x ++ c :: tail) = x.length) (plain : c ≠ 'e' ∧ c ≠ 'E') :
    exponentLength (x ++ c :: tail') = x.length := by
  rcases x with _ | ⟨mark, cs⟩
  · simp [exponentLength, plain]
  · have hmark : mark = 'e' ∨ mark = 'E' := by
      by_contra none
      simp [exponentLength, none] at whole
    rcases cs with _ | ⟨d, cs⟩
    · obtain ⟨sign, body, -, -, length⟩ := exponentLength_sign hmark (c :: tail)
      rw [List.cons_append, List.nil_append, length] at whole
      split at whole
      · cases whole
      · rename_i some
        have digits := List.length_pos_iff.mpr some
        simp only [List.length_cons, List.length_nil] at whole
        omega
    · obtain ⟨sign, body, same, -, hsign⟩ := exists_isSign d cs
      rw [same, List.cons_append, List.append_assoc, exponentLength_eq hmark (hsign _),
        List.length_cons, List.length_append] at whole ⊢
      have digits : ((body ++ c :: tail).takeWhile Text.isDigit).length ≤ body.length := by
        split at whole <;> omega
      rw [takeWhile_next tail' digits, whole]

theorem numeralLength_next (tail' : List Char)
    (whole : numeralLength (x ++ c :: tail) = x.length) (plain : c ≠ 'e' ∧ c ≠ 'E')
    (some : x ≠ []) : numeralLength (x ++ c :: tail') = x.length := by
  rw [numeralLength] at whole ⊢
  have le : mantissaLength (x ++ c :: tail) ≤ x.length := by
    split at whole <;> omega
  rw [mantissaLength_next tail' some le]
  cases h : mantissaLength (x ++ c :: tail) with
  | zero => rwa [h] at whole
  | succ n =>
    rw [h] at whole le
    dsimp only at whole ⊢
    rw [List.drop_append_of_le_length le] at whole ⊢
    have length : (x.drop (n + 1)).length = x.length - (n + 1) := List.length_drop
    have exponent : exponentLength (x.drop (n + 1) ++ c :: tail) = (x.drop (n + 1)).length := by
      omega
    rw [exponentLength_next tail' exponent plain]
    omega

theorem numeralLength_eq_zero {cs : List Char} : numeralLength cs = 0 ↔ mantissaLength cs = 0 := by
  rw [numeralLength]
  split
  · rename_i none
    simp [none]
  · rename_i some
    simp [some]

/-- A mark has at most two characters. -/
theorem Mark.first?_pair (a b : Char) (cs ds : List Char) :
    Mark.first? (a :: b :: cs) = Mark.first? (a :: b :: ds) := by
  have same (m : Mark) : m.spelling.isPrefixOf (a :: b :: cs) =
      m.spelling.isPrefixOf (a :: b :: ds) := by
    cases m <;> simp [spelling, List.isPrefixOf]
  rw [Mark.first?, Mark.first?, funext same]

/-- Where a lexeme ends is seen from the next character, unless a word comes after a numeral. -/
theorem first?_next {l : Lexeme} (tail' : List Char)
    (cut : Lexeme.first? (l.chars ++ c :: tail) = some l)
    (plain : ∀ s, l = .numeral s → c ≠ 'e' ∧ c ≠ 'E') :
    Lexeme.first? (l.chars ++ c :: tail') = some l := by
  obtain ⟨d, ds, chars⟩ := List.exists_cons_of_ne_nil (Lexeme.chars_ne_nil cut)
  rw [chars, List.cons_append, Lexeme.first?] at cut ⊢
  split at cut
  · rename_i start
    obtain rfl := Option.some.inj cut
    have body : (ds ++ c :: tail).takeWhile isWordPart = ds := by simpa [Lexeme.chars] using chars
    rw [if_pos start, takeWhile_next tail' (Nat.le_of_eq (congrArg List.length body))]
  · rename_i start
    rw [if_neg start]
    split at cut
    · rename_i none
      have none' : numeralLength (d :: (ds ++ c :: tail')) = 0 := by
        rw [numeralLength_eq_zero] at none ⊢
        rw [← none]
        exact mantissaLength_next (x := d :: ds) tail' (by simp) (by simp [none])
      rw [none', ← cut]
      cases ds with
      | nil => exact congrArg (Option.map _) (Mark.first?_pair ..)
      | cons => exact congrArg (Option.map _) (Mark.first?_pair ..)
    · rename_i n some
      obtain rfl := Option.some.inj cut
      have total := numeralLength_le (d :: (ds ++ c :: tail))
      simp only [Lexeme.chars, String.toList_ofList] at chars
      have length := congrArg List.length chars
      rw [List.length_take] at length
      have whole : numeralLength (d :: ds ++ c :: tail) = (d :: ds).length := by
        rw [List.cons_append]
        omega
      have whole' : numeralLength (d :: (ds ++ c :: tail')) = (d :: ds).length :=
        numeralLength_next tail' whole (plain _ rfl) (by simp)
      have taken : (d :: (ds ++ c :: tail')).take (ds.length + 1) = d :: ds := by simp
      rw [whole', List.length_cons]
      dsimp only
      rw [taken, chars]

end

/-! ## Visible characters -/

open Prompt (isInvisible)

/-- What is left of a text without the invisible characters. -/
def visible (cs : List Char) : List Char := cs.filter (!isInvisible ·)

section

variable {c : Char} {cs : List Char}

@[simp] theorem visible_append (ds : List Char) : visible (cs ++ ds) = visible cs ++ visible ds :=
  List.filter_append ..

theorem visible_cons_of_seen (seen : isInvisible c = false) :
    visible (c :: cs) = c :: visible cs :=
  List.filter_cons_of_pos (by simp [seen])

theorem visible_eq_self (seen : ∀ c ∈ cs, isInvisible c = false) : visible cs = cs :=
  List.filter_eq_self.mpr fun c mem => by simp [seen c mem]

theorem not_invisible_of_class (h : isWordPart c ∨ Text.isDigit c ∨ c ∈ ['.', '+', '-']) :
    isInvisible c = false := by
  by_contra hidden
  simp only [isInvisible, Bool.not_eq_false, Bool.or_eq_true, beq_iff_eq] at hidden
  rcases hidden with ((((rfl | rfl) | rfl) | rfl) | rfl) | rfl <;> revert h <;> decide

/-- Lexemes are made of visible characters. -/
theorem Lexeme.Valid.seen {l : Lexeme} (h : l.Valid) (mem : c ∈ l.chars) :
    isInvisible c = false := by
  rcases h.mem_chars mem with kind | ⟨m, rfl, spelled⟩
  · exact not_invisible_of_class kind
  · have seen : m.spelling.all (!isInvisible ·) := by cases m <;> decide
    simpa using List.all_eq_true.mp seen c spelled

theorem feed_not_mem_visible {body : List Char} (plain : '\n' ∉ body) : '\n' ∉ visible body :=
  fun mem => plain (List.mem_of_mem_filter mem)

theorem IsGap.visible {gap : List Char} (h : IsGap gap) : IsGap (visible gap) := by
  induction h with
  | nil => exact .nil
  | @space c gap space _ ih =>
    by_cases hidden : isInvisible c
    · rwa [Source.visible, List.filter_cons_of_neg (by simp [hidden])]
    · rw [visible_cons_of_seen (by simpa using hidden)]
      exact .space space ih
  | @comment body gap plain _ ih =>
    have feed : Source.visible ('/' :: '/' :: (body ++ '\n' :: gap)) =
        '/' :: '/' :: (Source.visible body ++ '\n' :: Source.visible gap) := by
      rw [visible_cons_of_seen (by decide), visible_cons_of_seen (by decide), visible_append,
        visible_cons_of_seen (by decide)]
    rw [feed]
    exact .comment (feed_not_mem_visible plain) ih

theorem IsLastGap.visible {gap : List Char} (h : IsLastGap gap) : IsLastGap (visible gap) := by
  cases h with
  | closed closed => exact .closed closed.visible
  | @comment gap body closed plain =>
    rw [visible_append, visible_cons_of_seen (by decide), visible_cons_of_seen (by decide)]
    exact .comment closed.visible (feed_not_mem_visible plain)

end

/-! ## Slashes -/

theorem eq_slash {l : Lexeme} (valid : l.Valid) {cs : List Char} (chars : l.chars = '/' :: cs) :
    l = .mark .slash := by
  cases l with
  | word s =>
    obtain ⟨c, cs, spelled, start, -⟩ := valid
    cases spelled.symm.trans chars
    exact absurd start (by decide)
  | numeral s =>
    obtain ⟨c, cs, spelled, first⟩ := IsNumber.head valid
    cases spelled.symm.trans chars
    exact absurd first (by decide)
  | mark m => cases m <;> cases chars; rfl

/-- No gap begins with a lexeme, except where a slash opens a comment. -/
theorem still_of_valid {l : Lexeme} (valid : l.Valid) {rest : List Char}
    (slashes : ¬(l = .mark .slash ∧ rest.head? = some '/')) : Still (l.chars ++ rest) := by
  obtain ⟨c, cs, chars, gap, single⟩ := chars_eq_cons valid
  rw [chars, List.cons_append, still_cons_iff]
  refine ⟨by simp [gap], ?_⟩
  rintro ⟨rfl, head⟩
  rw [single rfl, List.nil_append] at head
  exact slashes ⟨eq_slash valid chars, head⟩

/-! ## Tokens held apart -/

/-- The lexeme goes on in what follows it, or opens a comment with it. -/
def Lexeme.RunsInto (l : Lexeme) (rest : List Char) : Prop :=
  first? (l.chars ++ rest) ≠ some l ∨ l = .mark .slash ∧ rest.head? = some '/'

instance (l : Lexeme) (rest : List Char) : Decidable (l.RunsInto rest) :=
  inferInstanceAs (Decidable (_ ∨ _))

/-- What follows the token in its text. -/
def Token.behind (t : Token) (cs : List Char) : List Char :=
  cs.drop (t.offset + t.lexeme.chars.length)

/-- Nothing but carriage returns keeps some token from running into what follows it. -/
def HeldApart (cs : List Char) : Prop :=
  ∃ t ∈ (scan cs).1, (t.behind cs).head? = some '\r' ∧ t.lexeme.RunsInto (visible (t.behind cs))

instance (cs : List Char) : Decidable (HeldApart cs) :=
  inferInstanceAs (Decidable (∃ t ∈ _, _))

/-! ## Scanning what is visible -/

namespace Cursor

variable {cs : List Char} {here next stop : Cursor} {ts : List Token}

/-- The position is the one at its offset in the text. -/
def Within (cs : List Char) (here : Cursor) : Prop := here.rest = cs.drop here.offset

theorem Within.pastGap (h : here.Within cs) : here.pastGap.Within cs := by
  obtain ⟨gap, whole⟩ := here.pastGap_suffix
  have ends := (here.pastGap_end []).2
  have length := congrArg List.length whole
  rw [List.length_append] at length
  have offset : here.pastGap.offset = here.offset + gap.length := by omega
  rw [Within, offset, ← List.drop_drop, ← h, whole, List.drop_left]

theorem Within.advance (h : here.Within cs) (n : Nat) : (here.advance n).Within cs := by
  rw [Within, Cursor.advance, h, List.drop_drop]

/-- A character that follows a token is white space, or a comment or the next token begins with
it. -/
theorem Cut.first {c : Char} {more : List Char} (cut : here.Cut ts stop)
    (ended : stop.pastGap.rest = []) (rest : here.rest = c :: more) :
    isGapChar c ∨ c = '/' ∨
      ∃ t us, ts = t :: us ∧ Lexeme.first? (c :: more) = some t.lexeme := by
  by_cases gap : isGapChar c
  · exact .inl gap
  · by_cases slash : c = '/'
    · exact .inr (.inl slash)
    · have past : here.pastGap.rest = c :: more := by
        rw [pastGap, rest, skipGap, if_neg Bool.false_ne_true, if_neg gap,
          if_neg fun slashes => slash slashes.1]
      cases cut with
      | nil =>
        rw [past] at ended
        cases ended
      | cons first => exact .inr (.inr ⟨_, _, rfl, past ▸ first⟩)

end Cursor

variable {cs : List Char} {here next there stop : Cursor} {ts : List Token}

/-- A carriage return is the only character that can be lost behind a token. -/
theorem seen_behind {c : Char} {more : List Char} (cut : next.Cut ts stop)
    (ended : stop.pastGap.rest = []) (rest : next.rest = c :: more) (other : c ≠ '\r') :
    isInvisible c = false := by
  rcases cut.first ended rest with gap | rfl | ⟨t, us, rfl, first⟩
  · simp only [isGapChar, Bool.or_eq_true, beq_iff_eq] at gap
    rcases gap with (((rfl | rfl) | rfl) | rfl) | rfl
    · decide
    · decide
    · decide
    · exact absurd rfl other
    · decide
  · decide
  · obtain ⟨after, split, valid, -⟩ := first?_cut first
    obtain ⟨d, ds, chars⟩ := List.exists_cons_of_ne_nil (Lexeme.chars_ne_nil first)
    rw [chars, List.cons_append] at split
    exact valid.seen (by simp [chars, (List.cons.inj split).1])

/-- A token that does not run over a carriage return stays as it is. -/
theorem not_runsInto {l : Lexeme} (first : Lexeme.first? (l.chars ++ next.rest) = some l)
    (still : Still (l.chars ++ next.rest)) (cut : next.Cut ts stop)
    (ended : stop.pastGap.rest = [])
    (apart : ∀ s t us x, l = .numeral s → ts = t :: us → t.lexeme ≠ .word x)
    (free : ¬(next.rest.head? = some '\r' ∧ l.RunsInto (visible next.rest))) :
    ¬l.RunsInto (visible next.rest) := by
  cases rest : next.rest with
  | nil =>
    rw [rest] at first
    rintro (other | ⟨-, head⟩)
    · exact other first
    · cases head
  | cons c more =>
    by_cases other : c = '\r'
    · intro runs
      exact free ⟨by rw [rest, other]; rfl, rest ▸ runs⟩
    · rw [visible_cons_of_seen (seen_behind cut ended rest other)]
      rw [rest] at first still
      have plain (s : String) (numeral : l = .numeral s) : c ≠ 'e' ∧ c ≠ 'E' := by
        rw [← not_or]
        intro mark
        have start : isWordStart c := by rcases mark with rfl | rfl <;> decide
        rcases cut.first ended rest with gap | rfl | ⟨t, us, tokens, word⟩
        · rcases mark with rfl | rfl <;> exact absurd gap (by decide)
        · exact absurd start (by decide)
        · rw [Lexeme.first?, if_pos start] at word
          exact apart s t us _ numeral tokens (Option.some.inj word).symm
      rintro (other | ⟨rfl, head⟩)
      · exact other (first?_next _ first plain)
      · cases head
        exact (still_cons_iff.mp still).2 ⟨rfl, rfl⟩

/-- The visible characters of a text have its tokens, if none is held apart. -/
theorem Cursor.Cut.visible (cut : here.Cut ts stop) (ended : stop.pastGap.rest = [])
    (within : here.Within cs)
    (free : ∀ t ∈ ts,
      ¬((t.behind cs).head? = some '\r' ∧ t.lexeme.RunsInto (visible (t.behind cs))))
    (apart : ∀ before s x after,
      ts.map (·.lexeme) ≠ before ++ .numeral s :: .word x :: after)
    (same : there.rest = visible here.rest) :
    ∃ us stop', there.Cut us stop' ∧ stop'.pastGap.rest = [] ∧
      us.map (·.lexeme) = ts.map (·.lexeme) := by
  induction cut generalizing there with
  | nil here =>
    refine ⟨[], there, .nil there, ?_, rfl⟩
    rw [pastGap, same]
    exact (isLastGap_of_skipGap ended).visible.rest_skipGap _ _
  | @cons here stop l ts first cut ih =>
    obtain ⟨rest, split, valid, -⟩ := first?_cut first
    obtain ⟨gap, whole⟩ := here.pastGap_suffix
    obtain ⟨held, free⟩ := List.forall_mem_cons.mp free
    have within := within.pastGap.advance l.chars.length
    have next : (here.pastGap.advance l.chars.length).rest = rest := by
      rw [advance, split, List.drop_left]
    have behind : rest = Token.behind ⟨l, here.pastGap.place, here.pastGap.offset⟩ cs :=
      next.symm.trans within
    have stays : ¬l.RunsInto (Source.visible rest) := by
      rw [← behind, ← next] at held
      rw [split, ← next] at first
      rw [← next]
      refine not_runsInto first ?_ cut ended ?_ held
      · rw [next, ← split]
        exact still_skipGap ..
      · rintro s t us x rfl rfl word
        exact apart [] s x (us.map (·.lexeme)) (by simp [word])
    have past : there.pastGap.rest = l.chars ++ Source.visible rest := by
      have chars : Source.visible l.chars = l.chars := visible_eq_self fun c mem => valid.seen mem
      rw [pastGap, same, whole, split, visible_append, visible_append, chars,
        (isGap first whole).visible.rest_skipGap]
      exact (rest_skipGap ..).trans (still_of_valid valid fun opens => stays (.inr opens))
    have first' : Lexeme.first? there.pastGap.rest = some l := by
      rw [past]
      by_contra other
      exact stays (.inl other)
    have next' : (there.pastGap.advance l.chars.length).rest =
        Source.visible (here.pastGap.advance l.chars.length).rest := by
      rw [next, advance, past, List.drop_left]
    have apart' (before s x after) :
        ts.map (·.lexeme) ≠ before ++ .numeral s :: .word x :: after := fun split =>
      apart (l :: before) s x after (congrArg (l :: ·) split)
    obtain ⟨us, stop', cut', ended', lexemes⟩ := ih ended within free apart' next'
    exact ⟨_, stop', .cons first' cut', ended', congrArg (l :: ·) lexemes⟩

/-- Where no token is held apart, dropping the invisible characters of a program keeps its
lexemes. -/
theorem scan_visible {program : Program} (read : readProgram cs = .ok program)
    (free : ¬HeldApart cs) :
    (scan (visible cs)).2 = .finished ∧
      (scan (visible cs)).1.map (·.lexeme) = (scan cs).1.map (·.lexeme) := by
  obtain ⟨ts, st, scanned, run, -⟩ := readProgram_eq_ok_iff.mp read
  obtain ⟨us, stop, cut, -, found⟩ := exists_cut [] (.start cs)
  obtain ⟨tokens, finished⟩ := Prod.mk.inj (scanned.symm.trans found)
  obtain rfl : ts = us := tokens
  have ended : stop.pastGap.rest = [] := Cursor.rest_of_finished finished.symm
  have begun : (Cursor.start cs).Within cs := rfl
  have free : ∀ t ∈ ts,
      ¬((t.behind cs).head? = some '\r' ∧ t.lexeme.RunsInto (visible (t.behind cs))) :=
    fun t mem held => free ⟨t, by rwa [scanned], held⟩
  have same : (Cursor.start (visible cs)).rest = visible (Cursor.start cs).rest := rfl
  obtain ⟨us, stop', cut', ended', lexemes⟩ := cut.visible ended begun free
    (fun _ _ _ _ => State.apart_of_run run) same
  have whole : scan (visible cs) = (us, .finished) := by
    refine (cut'.scanFrom []).trans ?_
    rw [scanFrom_of_none (by rw [ended']; rfl), Cursor.ending, ended']
    simp
  rw [whole, scanned]
  exact ⟨rfl, lexemes⟩

/-! ## The first character -/

/-- The text has a token or a comment. -/
def Written (cs : List Char) : Prop := (scan cs).1 ≠ [] ∨ ['/', '/'] <:+: cs

instance (cs : List Char) : Decidable (Written cs) := inferInstanceAs (Decidable (_ ∨ _))

/-- Apart from white space the text begins with a comment. -/
def LedByComment (cs : List Char) : Prop := ['/', '/'] <+: cs.dropWhile isGapChar

instance (cs : List Char) : Decidable (LedByComment cs) :=
  inferInstanceAs (Decidable (_ <+: _))

theorem isGap_of_all {gap : List Char} (h : ∀ c ∈ gap, isGapChar c) : IsGap gap := by
  induction gap with
  | nil => exact .nil
  | cons c gap ih =>
    obtain ⟨first, rest⟩ := List.forall_mem_cons.mp h
    exact .space (by simpa [isGapChar, or_assoc] using first) (ih rest)

theorem rest_pastGap_start {gap rest : List Char} (h : ∀ c ∈ gap, isGapChar c)
    (still : Still rest) : (Cursor.start (gap ++ rest)).pastGap.rest = rest :=
  ((isGap_of_all h).rest_skipGap ..).trans still

/-- No statement begins with a slash. -/
theorem head_ne_slash {ts : List Token} {t : Token} {st : State}
    (run : State.start.run (t :: ts) = .ok st) : t.lexeme ≠ .mark .slash := by
  intro slash
  rw [State.run, slash] at run
  cases run

/-- A program that does not begin with a comment begins with a token, which is no slash. -/
theorem exists_head {program : Program} (read : readProgram cs = .ok program)
    (written : Written cs) (led : ¬LedByComment cs) :
    ∃ lead c more, cs = lead ++ c :: more ∧ (∀ d ∈ lead, isGapChar d) ∧
      Text.isBlank c = false ∧ isInvisible c = false ∧ c ≠ '/' := by
  obtain ⟨ts, st, scanned, run, -⟩ := readProgram_eq_ok_iff.mp read
  have split : cs = cs.takeWhile isGapChar ++ cs.dropWhile isGapChar :=
    List.takeWhile_append_dropWhile.symm
  have gap : ∀ c ∈ cs.takeWhile isGapChar, isGapChar c := List.all_eq_true.mp List.all_takeWhile
  have start : scan cs = scanFrom [] (.start cs) := rfl
  cases rest : cs.dropWhile isGapChar with
  | nil =>
    rw [rest, List.append_nil] at split
    rw [← split] at gap
    have still : Still [] := rfl
    have past : (Cursor.start cs).pastGap.rest = [] := by simpa using rest_pastGap_start gap still
    rcases written with token | comment
    · rw [start, scanFrom_of_none (by rw [past]; rfl)] at token
      exact absurd rfl token
    · exact absurd (gap '/' (comment.subset (by simp))) (by decide)
  | cons c more =>
    rw [rest] at split
    have still : Still (c :: more) := by
      refine still_cons_iff.mpr ⟨by simp [not_of_head?_dropWhile (by rw [rest]; rfl)], ?_⟩
      rintro ⟨rfl, head⟩
      obtain ⟨ds, rfl⟩ := List.head?_eq_some_iff.mp head
      exact led (by rw [LedByComment, rest]; exact ⟨ds, rfl⟩)
    have past : (Cursor.start cs).pastGap.rest = c :: more := by
      conv_lhs => rw [split]
      exact rest_pastGap_start gap still
    refine ⟨_, c, more, split, gap, ?_⟩
    rw [start] at scanned
    cases first : Lexeme.first? (c :: more) with
    | none =>
      rw [scanFrom_of_none (past ▸ first), Cursor.ending, past] at scanned
      cases scanned
    | some l =>
      obtain ⟨rest, chars, valid, -⟩ := first?_cut first
      obtain ⟨d, ds, spelled⟩ := List.exists_cons_of_ne_nil (Lexeme.chars_ne_nil first)
      rw [spelled, List.cons_append] at chars
      obtain rfl : c = d := (List.cons.inj chars).1
      refine ⟨?_, valid.seen (by simp [spelled]), ?_⟩
      · by_contra blank
        rw [first?_of_isBlank (by simpa using blank)] at first
        cases first
      · rintro rfl
        obtain ⟨us, there, -, -, found⟩ := exists_cut
          [⟨l, (Cursor.start cs).pastGap.place, (Cursor.start cs).pastGap.offset⟩]
          ((Cursor.start cs).pastGap.advance l.chars.length)
        rw [scanFrom_of_some (past ▸ first), found] at scanned
        obtain rfl := (Prod.mk.inj scanned).1
        exact head_ne_slash run (eq_slash valid spelled)

end Source

/-! ## Answers -/

theorem Text.isBlank_of_isGapChar {c : Char} (gap : Source.isGapChar c) : isBlank c := by
  simp only [Source.isGapChar, Bool.or_eq_true, beq_iff_eq] at gap
  rcases gap with (((rfl | rfl) | rfl) | rfl) | rfl <;> decide

/-- Trimming a text leaves its first character that is not blank in front. -/
theorem Text.head?_trim {lead : List Char} {c : Char} (blank : ∀ d ∈ lead, isBlank d)
    (solid : isBlank c = false) (more : List Char) : (trim (lead ++ c :: more)).head? = some c := by
  have front : (lead ++ c :: more).dropWhile isBlank = c :: more := by
    rw [List.dropWhile_append_of_pos blank, List.dropWhile_cons_of_neg (by simp [solid])]
  rw [trim, dropAround, front, List.reverse_cons, List.dropWhile_append]
  split <;> simp [solid]

namespace Prompt

open Source (parse exists_tree Written LedByComment HeldApart visible)

/-- The prompt runs what is typed: a text with a token or a comment is evaluated, unless it begins
with a comment, and unless only carriage returns keep some token of it from running into what
follows, the program that is run is the one that was typed. -/
theorem typed_is_run {typed : String} {tree : Tree} (accepted : parse typed = .ok tree)
    (written : Written typed.toList) :
    (¬LedByComment typed.toList → ∀ (limits : Limits) (p : Prompt),
      p.answer limits typed = p.evaluate limits (normalize typed)) ∧
    (¬HeldApart typed.toList → ∃ tree', parse (complete (normalize typed)) = .ok tree' ∧
      tree'.bare = tree.bare) := by
  obtain ⟨program, read, rfl⟩ := Source.parse_eq_ok_iff.mp accepted
  have chars : (normalize typed).toList = visible typed.toList := String.toList_ofList
  constructor
  · intro led limits p
    obtain ⟨lead, c, more, split, gap, solid, seen, slash⟩ :=
      Source.exists_head read written led
    have head : (Text.strip (normalize typed)).toList.head? = some c := by
      have blank : ∀ d ∈ visible lead, Text.isBlank d := fun d mem =>
        Text.isBlank_of_isGapChar (gap d (List.mem_of_mem_filter mem))
      rw [Text.strip, String.toList_ofList, chars, split, Source.visible_append,
        Source.visible_cons_of_seen seen]
      exact Text.head?_trim blank solid _
    refine answer_fragment ?_ ?_
    · intro empty
      rw [empty] at head
      cases head
    · simp [isCommand, head, slash]
  · intro free
    obtain ⟨finished, lexemes⟩ := Source.scan_visible read free
    rw [← chars] at finished lexemes
    obtain ⟨shown, read', same⟩ := Source.readProgram_of_lexemes read finished lexemes
    obtain ⟨run, read'', same'⟩ := Source.readProgram_complete read'
    exact ⟨run.tree, Source.parse_eq_ok_iff.mpr ⟨run, read'', rfl⟩,
      Source.Program.bare_tree_eq (same'.trans same)⟩

/-- A call on two lines, with carriage returns at their ends and behind the name, and a comment
with a byte order mark. -/
theorem typed_is_run_call : ∃ tree tree', parse "f\r(1);\r\n// \ufeffdone\r" = .ok tree ∧
    Written "f\r(1);\r\n// \ufeffdone\r".toList ∧
    parse (complete (normalize "f\r(1);\r\n// \ufeffdone\r")) = .ok tree' ∧
    tree'.bare = tree.bare ∧ ∀ (limits : Limits) (p : Prompt),
      p.answer limits "f\r(1);\r\n// \ufeffdone\r" =
        p.evaluate limits (normalize "f\r(1);\r\n// \ufeffdone\r") := by
  obtain ⟨tree, accepted⟩ := exists_tree "f\r(1);\r\n// \ufeffdone\r" (by decide +kernel)
  have written : Written "f\r(1);\r\n// \ufeffdone\r".toList := by decide +kernel
  obtain ⟨answered, run⟩ := typed_is_run accepted written
  obtain ⟨tree', accepted', same⟩ := run (by decide +kernel)
  exact ⟨tree, tree', accepted, written, accepted', same, answered (by decide +kernel)⟩

/-- What a fragment spells, places aside. -/
private def spelled? (src : String) : Option String := (parse src).toOption.map (·.bare.literal)

/-- A comment is taken for a command, and without a carriage return a keyword is lost in a name. -/
theorem typed_is_not_run :
    (∃ tree, parse "// hi" = .ok tree ∧ Written "// hi".toList ∧ ∃ (limits : Limits) (p : Prompt),
      p.answer limits "// hi" ≠ p.evaluate limits (normalize "// hi")) ∧
    ∃ tree, parse "var\rx = 1;" = .ok tree ∧ Written "var\rx = 1;".toList ∧
      ¬∃ tree', parse (complete (normalize "var\rx = 1;")) = .ok tree' ∧
        tree'.bare = tree.bare := by
  constructor
  · obtain ⟨tree, accepted⟩ := exists_tree "// hi" (by decide +kernel)
    refine ⟨tree, accepted, by decide +kernel, ⟨10, 10⟩, {}, fun same => ?_⟩
    have complaint := congrArg (·.1.err) same
    revert complaint
    decide +kernel
  · obtain ⟨tree, accepted⟩ := exists_tree "var\rx = 1;" (by decide +kernel)
    have other : spelled? (complete (normalize "var\rx = 1;")) ≠ spelled? "var\rx = 1;" := by
      decide +kernel
    refine ⟨tree, accepted, by decide +kernel, ?_⟩
    rintro ⟨tree', accepted', same⟩
    simp only [spelled?, accepted, accepted'] at other
    exact other (congrArg (fun t : Tree => some t.literal) same)

end Prompt

end Scriptlet
