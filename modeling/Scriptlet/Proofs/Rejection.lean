import Scriptlet.Proofs.Completion
import Scriptlet.Proofs.Stacking
/-!
# Where texts are rejected

A text that is cut in front of a token, or behind one, is scanned up to there as the whole text is.
So the error of a rejected text stands at the first place up to which the text can still be
completed, and it is the end of the text that is wrong exactly if the whole text can be.
-/

namespace Scriptlet

namespace Place

/-- The place `p` comes before `q`: on an earlier line, or further left on the same one. -/
def Before (p q : Place) : Prop := p.line < q.line ∨ p.line = q.line ∧ p.column < q.column

instance (p q : Place) : Decidable (p.Before q) :=
  inferInstanceAs (Decidable (p.line < q.line ∨ p.line = q.line ∧ p.column < q.column))

theorem not_before_self (p : Place) : ¬p.Before p := by
  rintro (less | ⟨_, less⟩) <;> exact Nat.lt_irrefl _ less

theorem Before.trans {p q r : Place} (h : p.Before q) (h' : q.Before r) : p.Before r := by
  simp only [Before] at *
  omega

theorem before_after (p : Place) (c : Char) : p.Before (p.after c) := by
  by_cases feed : c = '\n'
  · exact Or.inl (by simp [after, feed])
  · exact Or.inr (by simp [after, feed])

theorem before_afterAll (p : Place) (c : Char) (cs : List Char) :
    p.Before (p.afterAll (c :: cs)) := by
  induction cs generalizing p c with
  | nil => exact before_after p c
  | cons d cs ih => exact (before_after p c).trans (ih (p.after c) d)

theorem afterAll_right {cs : List Char} (plain : '\n' ∉ cs) (p : Place) :
    p.afterAll cs = p.right cs.length := by
  induction cs generalizing p with
  | nil => rfl
  | cons c cs ih =>
    obtain ⟨here, plain⟩ := not_or.mp (mt List.mem_cons.mpr plain)
    have rest := ih plain (p.after c)
    simp only [afterAll, List.foldl_cons, after, if_neg (Ne.symm here), right] at rest ⊢
    rw [rest, List.length_cons]
    congr 1
    omega

end Place

/-- The characters that stand before the place `q`, in a text that begins at `p`. -/
def charsBefore (q : Place) : Place → List Char → List Char
  | _, [] => []
  | p, c :: cs => if p.Before q then c :: charsBefore q (p.after c) cs else []

/-- The part of a text strictly before a place. -/
def textBefore (q : Place) (src : String) : String := .ofList (charsBefore q .first src.toList)

theorem charsBefore_afterAll (p : Place) (front tail : List Char) :
    charsBefore (p.afterAll front) p (front ++ tail) = front := by
  induction front generalizing p with
  | nil => cases tail <;> simp [charsBefore, Place.afterAll, Place.not_before_self]
  | cons c front ih =>
    rw [List.cons_append, charsBefore, if_pos (p.before_afterAll c front)]
    exact congrArg (c :: ·) (ih (p.after c))

namespace Source

/-! ## Lexemes at the end of a text -/

section

variable {x tail : List Char}

theorem takeWhile_front {p : Char → Bool} (le : ((x ++ tail).takeWhile p).length ≤ x.length) :
    x.takeWhile p = (x ++ tail).takeWhile p := by
  rw [List.takeWhile_append] at le ⊢
  split
  · rename_i whole
    rw [if_pos whole, List.length_append] at le
    have none : tail.takeWhile p = [] := List.length_eq_zero_iff.mp (by omega)
    rw [none, List.append_nil]
    exact (List.takeWhile_prefix p).eq_of_length whole
  · rfl

open Number

theorem mantissaLength_front (le : mantissaLength (x ++ tail) ≤ x.length) :
    mantissaLength x = mantissaLength (x ++ tail) := by
  have whole := Nat.le_trans (length_takeWhile_le_mantissaLength _) le
  have digits := takeWhile_front whole
  have after : (x ++ tail).drop ((x ++ tail).takeWhile Text.isDigit).length =
      x.drop (x.takeWhile Text.isDigit).length ++ tail := by
    rw [digits]
    exact List.drop_append_of_le_length whole
  cases front : x.drop (x.takeWhile Text.isDigit).length with
  | nil =>
    rw [front, List.nil_append] at after
    rw [mantissaLength_of_plain front (by simp), digits]
    by_cases point : tail.head? = some '.'
    · obtain ⟨fraction, rfl⟩ := List.head?_eq_some_iff.mp point
      have length := congrArg List.length front
      rw [List.length_drop, List.length_nil, digits] at length
      rw [mantissaLength_of_point after] at le ⊢
      split at le
      · rename_i none
        rw [if_pos none, none.1]
      · omega
    · rw [mantissaLength_of_plain after point]
  | cons c ds =>
    rw [front, List.cons_append] at after
    by_cases point : c = '.'
    · subst point
      have length := congrArg List.length front
      have fraction : ((ds ++ tail).takeWhile Text.isDigit).length ≤ ds.length := by
        rw [mantissaLength_of_point after] at le
        rw [List.length_drop, List.length_cons, digits] at length
        split at le <;> omega
      rw [mantissaLength_of_point front, mantissaLength_of_point after, digits,
        takeWhile_front fraction]
    · rw [mantissaLength_of_plain front (by simpa using point),
        mantissaLength_of_plain after (by simpa using point), digits]

/-- The sign of an exponent; where there is none, the digits do not begin with one. -/
def IsSign (sign digits : List Char) : Prop :=
  sign = ['+'] ∨ sign = ['-'] ∨ sign = [] ∧ digits.head? ≠ some '+' ∧ digits.head? ≠ some '-'

theorem exponentLength_eq {mark : Char} (hmark : mark = 'e' ∨ mark = 'E') {sign body : List Char}
    (h : IsSign sign body) : exponentLength (mark :: (sign ++ body)) =
      if body.takeWhile Text.isDigit = [] then 0
      else 1 + sign.length + (body.takeWhile Text.isDigit).length := by
  rcases h with rfl | rfl | ⟨rfl, plus, minus⟩
  · cases digits : body.takeWhile Text.isDigit <;> simp [exponentLength, hmark, digits]
  · cases digits : body.takeWhile Text.isDigit <;> simp [exponentLength, hmark, digits]
  · cases body with
    | nil => simp [exponentLength, hmark]
    | cons c cs =>
      have plus : c ≠ '+' := by simpa using plus
      have minus : c ≠ '-' := by simpa using minus
      cases digits : (c :: cs).takeWhile Text.isDigit <;>
        simp [exponentLength, hmark, plus, minus, digits]

theorem exists_isSign (c : Char) (cs : List Char) :
    ∃ sign body, c :: cs = sign ++ body ∧ IsSign sign body ∧
      ∀ tail, IsSign sign (body ++ tail) := by
  by_cases plus : c = '+'
  · exact ⟨['+'], cs, plus ▸ rfl, Or.inl rfl, fun _ => Or.inl rfl⟩
  · by_cases minus : c = '-'
    · exact ⟨['-'], cs, minus ▸ rfl, Or.inr (Or.inl rfl), fun _ => Or.inr (Or.inl rfl)⟩
    · have none (ds : List Char) : IsSign [] (c :: ds) :=
        Or.inr (Or.inr ⟨rfl, by simpa using plus, by simpa using minus⟩)
      exact ⟨[], c :: cs, rfl, none cs, fun tail => none (cs ++ tail)⟩

theorem exponentLength_front (le : exponentLength (x ++ tail) ≤ x.length) :
    exponentLength x = exponentLength (x ++ tail) := by
  rcases x with _ | ⟨mark, cs⟩
  · exact (Nat.le_zero.mp le).symm
  · by_cases hmark : mark = 'e' ∨ mark = 'E'
    · rcases cs with _ | ⟨c, cs⟩
      · obtain ⟨sign, body, rfl, _, length⟩ := exponentLength_sign hmark tail
        have one : exponentLength [mark] = 0 := by simp [exponentLength]
        rw [List.cons_append, List.nil_append, length] at le ⊢
        split at le
        · rename_i none
          rw [one, if_pos none]
        · rename_i some
          have digits := List.length_pos_iff.mpr some
          simp only [List.length_cons, List.length_nil] at le
          omega
      · obtain ⟨sign, body, same, hsign, hsign'⟩ := exists_isSign c cs
        rw [same, List.cons_append, List.append_assoc, exponentLength_eq hmark (hsign' tail),
          List.length_cons, List.length_append] at le
        have digits : ((body ++ tail).takeWhile Text.isDigit).length ≤ body.length := by
          split at le
          · rename_i none
            rw [none]
            exact Nat.zero_le _
          · omega
        rw [same, List.cons_append, List.append_assoc, exponentLength_eq hmark (hsign' tail),
          exponentLength_eq hmark hsign, takeWhile_front digits]
    · simp [exponentLength, hmark]

theorem numeralLength_front (le : numeralLength (x ++ tail) ≤ x.length) :
    numeralLength x = numeralLength (x ++ tail) := by
  have mantissa : mantissaLength x = mantissaLength (x ++ tail) := by
    refine mantissaLength_front (Nat.le_trans ?_ le)
    rw [numeralLength]
    split <;> omega
  rw [numeralLength] at le
  rw [numeralLength, numeralLength, mantissa]
  cases h : mantissaLength (x ++ tail) with
  | zero => rfl
  | succ n =>
    rw [h] at le
    dsimp only at le ⊢
    rw [List.drop_append_of_le_length (by omega)] at le ⊢
    have exponent : exponentLength (x.drop (n + 1) ++ tail) ≤ (x.drop (n + 1)).length := by
      rw [List.length_drop]
      omega
    rw [exponentLength_front exponent]

theorem Mark.first?_front {m : Mark} (h : Mark.first? (x ++ tail) = some m)
    (le : m.spelling.length ≤ x.length) : Mark.first? x = some m := by
  obtain ⟨found, before, after, split, others⟩ := List.find?_eq_some_iff_append.mp h
  have spelled : m.spelling <+: x ++ tail := by simpa using found
  refine List.find?_eq_some_iff_append.mpr ⟨?_, before, after, split, fun a ha => ?_⟩
  · simpa using List.prefix_of_prefix_length_le spelled (List.prefix_append x tail) le
  · cases here : a.spelling.isPrefixOf x with
    | false => rfl
    | true =>
      have whole := (List.isPrefixOf_iff_prefix.mp here).trans (List.prefix_append x tail)
      have absent := others a ha
      rw [List.isPrefixOf_iff_prefix.mpr whole] at absent
      exact absent

/-- The lexeme that a text begins with is found in any front of the text that it fits into. -/
theorem first?_front {l : Lexeme} (h : Lexeme.first? (x ++ tail) = some l)
    (le : l.chars.length ≤ x.length) : Lexeme.first? x = some l := by
  rcases x with _ | ⟨c, cs⟩
  · exact absurd (List.length_eq_zero_iff.mp (Nat.le_zero.mp le)) (Lexeme.chars_ne_nil h)
  · rw [List.cons_append, Lexeme.first?, ← List.cons_append] at h
    rw [Lexeme.first?]
    split at h
    · rename_i start
      obtain rfl := Option.some.inj h
      simp only [Lexeme.chars, String.toList_ofList, List.length_cons] at le
      rw [if_pos start, takeWhile_front (Nat.le_of_succ_le_succ le)]
    · rename_i start
      rw [if_neg start]
      split at h
      · rename_i none
        obtain ⟨m, found, rfl⟩ := Option.map_eq_some_iff.mp h
        have none' : numeralLength (c :: cs) = 0 := by
          rw [numeralLength_front (none ▸ Nat.zero_le _), none]
        rw [none']
        exact Option.map_eq_some_iff.mpr ⟨m, Mark.first?_front found le, rfl⟩
      · rename_i n length
        obtain rfl := Option.some.inj h
        have total := numeralLength_le (c :: cs ++ tail)
        simp only [Lexeme.chars, String.toList_ofList, List.length_take] at le
        have fits : n + 1 ≤ (c :: cs).length := by omega
        rw [numeralLength_front (Nat.le_trans (Nat.le_of_eq length) fits), length]
        dsimp only
        rw [List.take_append_of_le_length fits]

/-- Where a gap ends in the whole text, it ends in a front of the text, unless that ends before. -/
theorem skipGap_front {y : List Char} {place : Place} {offset : Nat} {comment : Bool}
    (h : (skipGap place offset comment (x ++ tail)).rest = y ++ tail) :
    skipGap place offset comment x =
      { skipGap place offset comment (x ++ tail) with rest := y } := by
  have shorter {c : Char} {cs : List Char} (place : Place) (offset : Nat) (comment : Bool) :
      (skipGap place offset comment cs).rest ≠ y ++ c :: cs := by
    intro same
    have length := length_skipGap_le place offset comment cs
    rw [same, List.length_append, List.length_cons] at length
    omega
  induction x generalizing place offset comment with
  | nil =>
    cases tail with
    | nil =>
      rw [List.nil_append, List.append_nil] at h
      rw [List.nil_append, ← h]
    | cons d ds =>
      simp only [List.nil_append, skipGap] at h ⊢
      split at h
      · exact (shorter _ _ _ h).elim
      · split at h
        · exact (shorter _ _ _ h).elim
        · split at h
          · exact (shorter _ _ _ h).elim
          · rename_i open_ gap slashes
            have none : y = [] := List.self_eq_append_left.mp h
            rw [if_neg open_, if_neg gap, if_neg slashes, none]
  | cons c cs ih =>
    simp only [List.cons_append, skipGap] at h ⊢
    split at h
    · rename_i open_
      rw [if_pos open_, if_pos open_]
      exact ih h
    · rename_i open_
      rw [if_neg open_, if_neg open_]
      split at h
      · rename_i gap
        rw [if_pos gap, if_pos gap]
        exact ih h
      · rename_i gap
        rw [if_neg gap, if_neg gap]
        split at h
        · rename_i slashes
          rw [if_pos slashes]
          cases cs with
          | nil =>
            obtain ⟨ds, rfl⟩ := List.head?_eq_some_iff.mp slashes.2
            simp only [List.nil_append, skipGap, if_true] at h
            exact (shorter _ _ _ h).elim
          | cons d ds =>
            have slashes' : c = '/' ∧ (d :: ds).head? = some '/' := slashes
            rw [if_pos slashes']
            exact ih h
        · rename_i slashes
          rw [if_neg slashes]
          have slashes' : ¬(c = '/' ∧ cs.head? = some '/') := by
            rintro ⟨rfl, head⟩
            exact slashes ⟨rfl, by rw [List.head?_append, head]; rfl⟩
          have whole : c :: cs = y := List.append_cancel_right h
          rw [if_neg slashes', ← whole]

end

/-! ## Fronts of a text -/

namespace Cursor

variable {here there : Cursor} {ts us : List Token}

theorem Cut.split (h : here.Cut (ts ++ us) there) : ∃ mid, here.Cut ts mid ∧ mid.Cut us there := by
  induction ts generalizing here with
  | nil => exact ⟨here, .nil here, h⟩
  | cons t ts ih =>
    cases h with
    | cons cut rest =>
      obtain ⟨mid, front, back⟩ := ih rest
      exact ⟨mid, .cons cut front, back⟩

theorem pastGap_suffix (here : Cursor) : ∃ gap, here.rest = gap ++ here.pastGap.rest := by
  obtain ⟨gap, same, _⟩ := (skipGap_skips here.rest here.place here.offset).1
  exact ⟨gap, same⟩

theorem Cut.suffix (h : here.Cut ts there) : ∃ front, here.rest = front ++ there.rest := by
  induction h with
  | nil => exact ⟨[], rfl⟩
  | @cons here there l ts cut _ ih =>
    obtain ⟨gap, same⟩ := here.pastGap_suffix
    obtain ⟨front, rest⟩ := ih
    refine ⟨gap ++ here.pastGap.rest.take l.chars.length ++ front, ?_⟩
    rw [List.append_assoc, ← rest, advance, List.append_assoc, List.take_append_drop, ← same]

/-- Tokens of the whole text are tokens of any front of the text that they fit into. -/
theorem Cut.front {x z tail : List Char} (h : here.Cut ts there) (hx : here.rest = x ++ tail)
    (hz : there.rest = z ++ tail) : Cut { here with rest := x } ts { there with rest := z } := by
  induction h generalizing x with
  | nil here =>
    obtain rfl : x = z := List.append_cancel_right (hx.symm.trans hz)
    exact .nil _
  | @cons here there l ts cut tokens ih =>
    obtain ⟨after, whole, _⟩ := first?_cut cut
    have next : (here.pastGap.advance l.chars.length).rest = after := by simp [advance, whole]
    obtain ⟨front, suffix⟩ := tokens.suffix
    rw [next, hz, ← List.append_assoc] at suffix
    have whole : here.pastGap.rest = (l.chars ++ (front ++ z)) ++ tail := by
      simp only [whole, suffix, List.append_assoc]
    have past : pastGap { here with rest := x } =
        { here.pastGap with rest := l.chars ++ (front ++ z) } := by
      rw [pastGap, hx] at whole
      rw [pastGap, pastGap, hx]
      exact skipGap_front whole
    have token : Lexeme.first? (pastGap { here with rest := x }).rest = some l := by
      rw [past]
      exact first?_front (whole ▸ cut) (by rw [List.length_append]; omega)
    have moved : (pastGap { here with rest := x }).advance l.chars.length =
        { here.pastGap.advance l.chars.length with rest := front ++ z } := by
      simp only [past, advance, whole, List.append_assoc, List.take_left, List.drop_left]
    have rest := ih (next.trans suffix) hz
    rw [← moved] at rest
    have tokens := Cut.cons token rest
    rw [past] at tokens
    exact tokens

end Cursor

/-! ## Texts that can be completed -/

/-- The text is all tokens, and each of them is taken. -/
def Readable (cs : List Char) : Prop :=
  ∃ ts st, scan cs = (ts, .finished) ∧ State.start.run ts = .ok st

/-- What is readable can be completed below. -/
theorem Readable.complete {cs : List Char} (h : Readable cs) :
    ∃ more program, readProgram (cs ++ '\n' :: more) = .ok program := by
  obtain ⟨ts, st, scanned, run⟩ := h
  have nested : st.Nested := State.nested_run State.nested_start run
  obtain ⟨us, below, lexemes⟩ := scan_spaced st.valid_completion
  have moved : (us.map (Token.down (Place.height cs) (cs.length + 1))).map (·.lexeme) =
      st.completion := by
    rw [← lexemes, List.map_map]
    rfl
  obtain ⟨done, rest, ended⟩ := State.After.run (moved ▸ nested.after_completion)
  obtain ⟨program, ended⟩ := Option.isSome_iff_exists.mp ended
  exact ⟨_, program, readProgram_eq_ok_iff.mpr
    ⟨_, done, scan_feed scanned below, (State.run_append run).trans rest, ended⟩⟩

namespace State

variable {st mid : State} {ts us : List Token}

theorem run_front (h : st.run (ts ++ us) = .ok mid) : ∃ next, st.run ts = .ok next := by
  induction ts generalizing st with
  | nil => exact ⟨st, rfl⟩
  | cons t ts ih =>
    rw [List.cons_append, run] at h
    rw [run]
    cases step : st.step t.lexeme t.place with
    | none => rw [step] at h; cases h
    | some next =>
      rw [step] at h
      exact ih h

/-- The tokens in front of the one refused are taken. -/
theorem run_eq_error {t : Token} {taken : Nat} (h : st.run ts = .error (t, taken)) :
    ∃ before after mid, ts = before ++ t :: after ∧ st.run before = .ok mid ∧
      mid.taken t.lexeme = taken := by
  induction ts generalizing st with
  | nil => cases h
  | cons u ts ih =>
    rw [run] at h
    cases step : st.step u.lexeme u.place with
    | none =>
      rw [step] at h
      cases h
      exact ⟨[], ts, st, rfl, rfl, rfl⟩
    | some next =>
      rw [step] at h
      obtain ⟨before, after, mid, rfl, read, same⟩ := ih h
      refine ⟨u :: before, after, mid, rfl, ?_, same⟩
      rw [run, step]
      exact read

/-- The characters of a refused lexeme that are no part of the error make a lexeme that is taken. -/
theorem taken_spec (st : State) (l : Lexeme) : st.taken l = 0 ∨
    ∃ l' : Lexeme, l'.Valid ∧ l.chars.take (st.taken l) = l'.chars ∧
      l'.chars.length = st.taken l ∧ '\n' ∉ l'.chars ∧ ∀ p, (st.step l' p).isSome := by
  have point {l : Lexeme} (h : l.startsWithPoint) : l.chars.take 1 = ['.'] := by
    cases l with
    | numeral s =>
      obtain ⟨cs, same⟩ := List.head?_eq_some_iff.mp (eq_of_beq h)
      simp [Lexeme.chars, same]
    | _ => cases h
  obtain ⟨mode, frames⟩ := st
  cases mode with
  | leading name =>
    simp only [taken]
    split
    · rename_i h
      exact Or.inr ⟨.mark .dot, trivial, point h, rfl, by decide, fun _ => rfl⟩
    · exact Or.inl rfl
  | declareTail start name =>
    simp only [taken]
    split
    · rename_i h
      subst h
      exact Or.inr ⟨.mark .becomes, trivial, rfl, rfl, by decide, fun _ => rfl⟩
    · exact Or.inl rfl
  | elseOpen start test body =>
    simp only [taken]
    split
    · rename_i h
      cases l with
      | word s =>
        obtain ⟨cs, same⟩ := List.isPrefixOf_iff_prefix.mp h
        refine Or.inr ⟨.word Keyword.ifWord.text, isIdentifier_of_toList rfl rfl rfl, ?_, rfl,
          by decide, fun _ => rfl⟩
        simp only [Lexeme.chars, ← same]
        rfl
      | _ => cases h
    · exact Or.inl rfl
  | operator e braced =>
    cases braced with
    | true => exact Or.inl rfl
    | false =>
      simp only [taken]
      split
      · rename_i h
        refine Or.inr ⟨.mark .dot, trivial, point h.2, rfl, by decide, fun p => ?_⟩
        simp [step, continueExpr, h.1]
      · exact Or.inl rfl
  | _ => exact Or.inl rfl

end State

/-- What can be completed below is readable. -/
theorem readable_of_complete {cs more : List Char} {program : Program}
    (h : readProgram (cs ++ '\n' :: more) = .ok program) : Readable cs := by
  obtain ⟨ts, st, scanned, run, _⟩ := readProgram_eq_ok_iff.mp h
  obtain ⟨us, there, cut, none, found⟩ := exists_cut [] (.start cs)
  have whole : scanFrom [] (.start (cs ++ '\n' :: more)) = (ts, .finished) := scanned
  have below := (cut.parted parts_feed (by decide) more).scanFrom []
  obtain ⟨vs, last, _, _, rest⟩ := exists_cut (us.reverse ++ [])
    { there with rest := there.rest ++ '\n' :: more }
  obtain ⟨tokens, _⟩ := Prod.mk.inj (whole.symm.trans (below.trans rest))
  obtain rfl : ts = us ++ vs := by simpa using tokens
  obtain ⟨next, read⟩ := State.run_front run
  refine ⟨us, next, ?_, read⟩
  cases ended : there.pastGap.rest with
  | nil => rw [scan, found, Cursor.ending, ended]; rfl
  | cons c ds =>
    have more' : there.pastGap.rest ≠ [] := by simp [ended]
    have past : Cursor.pastGap { there with rest := there.rest ++ '\n' :: more } =
        { there.pastGap with rest := there.pastGap.rest ++ '\n' :: more } :=
      (skipGap_feed there.rest more there.place there.offset false).trans (if_neg more')
    have none' : Lexeme.first?
        (Cursor.pastGap { there with rest := there.rest ++ '\n' :: more }).rest = .none := by
      rw [past]
      exact (first?_parted _ _ parts_feed more').trans none
    -- The character at which the text is stuck is still there in the longer one.
    have stuck := whole.symm.trans (below.trans (scanFrom_of_none none'))
    rw [past, Cursor.ending, ended] at stuck
    exact Ending.noConfusion (Prod.mk.inj stuck).2

theorem readable_iff {cs : List Char} :
    Readable cs ↔ ∃ more program, readProgram (cs ++ '\n' :: more) = .ok program :=
  ⟨Readable.complete, fun ⟨_, _, h⟩ => readable_of_complete h⟩

/-- Up to the place where a token begins, or where characters end that would have been taken there,
a text is readable. -/
theorem readable_before {cs y tail : List Char} {here : Cursor} {before : List Token} {st : State}
    (cut : (Cursor.start cs).Cut before here) (run : State.start.run before = .ok st)
    (rest : here.pastGap.rest = y ++ tail)
    (taken : y = [] ∨ ∃ l : Lexeme, l.Valid ∧ y = l.chars ∧ ∀ p, (st.step l p).isSome) :
    Readable (charsBefore (here.pastGap.place.afterAll y) .first cs) := by
  obtain ⟨front, hfront⟩ := cut.suffix
  obtain ⟨gap, hgap⟩ := here.pastGap_suffix
  have hz : here.rest = (gap ++ y) ++ tail := by rw [hgap, rest, List.append_assoc]
  have hx : cs = (front ++ (gap ++ y)) ++ tail := by
    rw [List.append_assoc, ← hz]
    exact hfront
  have cut' := cut.front hx hz
  have past : Cursor.pastGap { here with rest := gap ++ y } = { here.pastGap with rest := y } := by
    rw [Cursor.pastGap, hz] at rest
    rw [Cursor.pastGap, Cursor.pastGap, hz]
    exact skipGap_front rest
  have place : Place.first.afterAll (front ++ (gap ++ y)) = here.pastGap.place.afterAll y := by
    have gapEnd := (Cursor.pastGap_end { here with rest := gap ++ y } []).1
    have cutEnd := (cut'.end []).1
    rw [past] at gapEnd
    simp only [List.append_nil] at gapEnd cutEnd
    exact (gapEnd.trans cutEnd).symm
  rw [← place, hx, charsBefore_afterAll]
  have found := cut'.scanFrom []
  rcases taken with rfl | ⟨l, valid, rfl, next⟩
  · refine ⟨before, st, found.trans ?_, run⟩
    rw [scanFrom_of_none (by rw [past]; rfl), past]
    simp [Cursor.ending]
  · have token : Lexeme.first? (Cursor.pastGap { here with rest := gap ++ l.chars }).rest =
        some l := by
      have alone := first?_valid valid Stops.nil
      rw [List.append_nil] at alone
      rw [past, alone]
    obtain ⟨next, step⟩ := Option.isSome_iff_exists.mp (next here.pastGap.place)
    refine ⟨before ++ [⟨l, here.pastGap.place, here.pastGap.offset⟩], next, found.trans ?_, ?_⟩
    · have ended : (Cursor.pastGap { here with rest := gap ++ l.chars }).advance l.chars.length =
          ⟨here.pastGap.place.afterAll l.chars, here.pastGap.offset + l.chars.length, []⟩ := by
        simp [past, Cursor.advance]
      rw [scanFrom_of_some token, ended, scanFrom_of_none rfl, past]
      simp [Cursor.ending, Cursor.pastGap, skipGap]
    · rw [State.run_append run, State.run, step]
      rfl

/-! ## Errors -/

/-- In front of a token, a text is readable. -/
theorem readable_before_token {cs : List Char} {before after : List Token} {t : Token}
    {there : Cursor} {st : State} (cut : (Cursor.start cs).Cut (before ++ t :: after) there)
    (run : State.start.run before = .ok st) : Readable (charsBefore t.place .first cs) := by
  obtain ⟨here, front, back⟩ := cut.split
  cases back with
  | cons _ _ => exact readable_before front run rfl (Or.inl rfl)

/-- What is taken of a refused token is readable as well. -/
theorem readable_before_refused {cs : List Char} {before after : List Token} {t : Token}
    {there : Cursor} {st : State} (cut : (Cursor.start cs).Cut (before ++ t :: after) there)
    (run : State.start.run before = .ok st) :
    Readable (charsBefore (t.place.right (st.taken t.lexeme)) .first cs) := by
  rcases st.taken_spec t.lexeme with none | ⟨l, valid, chars, length, plain, taken⟩
  · rw [none]
    exact readable_before_token cut run
  · obtain ⟨here, front, back⟩ := cut.split
    cases back with
    | @cons _ _ l' _ first _ =>
      obtain ⟨rest, whole, _⟩ := first?_cut first
      have split : here.pastGap.rest = l.chars ++ (l'.chars.drop (st.taken l') ++ rest) := by
        rw [whole, ← chars, ← List.append_assoc, List.take_append_drop]
      rw [← length, ← Place.afterAll_right plain]
      exact readable_before front run split (Or.inr ⟨l, valid, rfl, taken⟩)

/-- An error stands where the readable part of the text ends; it is the end of the text that is
wrong if that part is the whole text. -/
theorem readProgram_eq_error {cs : List Char} {e : ParseError} (h : readProgram cs = .error e) :
    Readable (charsBefore e.place .first cs) ∧ (Readable cs ↔ e.cause = .ending) := by
  obtain ⟨ts, here, cut, none, scanned⟩ := exists_cut [] (.start cs)
  have scanned : scan cs = (ts, here.pastGap.ending) := scanned
  have readable : Readable cs ↔
      here.pastGap.ending = .finished ∧ ∃ st, State.start.run ts = .ok st := by
    rw [Readable, scanned]
    constructor
    · rintro ⟨us, st, same, run⟩
      obtain ⟨rfl, finished⟩ := Prod.mk.inj same
      exact ⟨finished, st, run⟩
    · rintro ⟨finished, st, run⟩
      exact ⟨ts, st, by rw [finished], run⟩
  rw [readable]
  simp only [readProgram, scanned] at h
  cases run : State.start.run ts with
  | error refused =>
    obtain ⟨t, taken⟩ := refused
    rw [run] at h
    obtain rfl := Except.error.inj h
    obtain ⟨before, after, st, rfl, front, rfl⟩ := State.run_eq_error run
    refine ⟨readable_before_refused cut front, fun finished => ?_, fun same => ?_⟩
    · obtain ⟨_, _, read⟩ := finished
      cases read
    · cases same
  | ok st =>
    rw [run] at h
    cases ended : here.pastGap.rest with
    | cons c rest =>
      rw [Cursor.ending, ended] at h ⊢
      obtain rfl := Except.error.inj h
      refine ⟨readable_before cut run rfl (Or.inl rfl), fun finished => ?_, fun same => ?_⟩
      · obtain ⟨same, _⟩ := finished
        cases same
      · cases same
    | nil =>
      rw [Cursor.ending, ended] at h ⊢
      dsimp only at h
      cases program : st.program? with
      | some program => rw [program] at h; cases h
      | none =>
        rw [program] at h
        obtain rfl := Except.error.inj h
        refine ⟨?_, ?_⟩
        · rcases List.eq_nil_or_concat ts with rfl | ⟨before, t, rfl⟩
          · have empty : charsBefore .first .first cs = [] := charsBefore_afterAll .first [] cs
            exact ⟨[], State.start, (congrArg scan empty).trans (scanFrom_of_none rfl), rfl⟩
          · rw [List.concat_eq_append] at cut run ⊢
            obtain ⟨mid, front⟩ := State.run_front run
            rw [List.getLast?_append]
            exact readable_before_token cut front
        · exact ⟨fun _ => by split <;> rfl, fun _ => ⟨rfl, st, rfl⟩⟩

/-- Some text below this one makes it a program. -/
def Completable (src : String) : Prop := ∃ more tree, parse (src ++ "\n" ++ more) = .ok tree

theorem completable_iff {src : String} : Completable src ↔ Readable src.toList := by
  have below (more : List Char) : (src ++ "\n" ++ String.ofList more).toList =
      src.toList ++ '\n' :: more := by
    simp
  rw [readable_iff]
  constructor
  · rintro ⟨more, tree, accepted⟩
    rw [← String.ofList_toList (s := more), parse, below] at accepted
    cases read : readProgram (src.toList ++ '\n' :: more.toList) with
    | error e => rw [read] at accepted; cases accepted
    | ok program => exact ⟨more.toList, program, read⟩
  · rintro ⟨more, program, read⟩
    refine ⟨.ofList more, program.tree, ?_⟩
    rw [parse, below, read]
    rfl

theorem ParseCause.message_eq_iff {cause : ParseCause} :
    cause.message = "Unexpected end of input" ↔ cause = .ending := by
  have other {kind rest : String} (long : 11 < kind.toList.length)
      (letter : kind.toList[11]? ≠ some 'e') : kind ++ rest ≠ "Unexpected end of input" := by
    intro same
    have twelfth : (kind ++ rest).toList[11]? = some 'e' := same ▸ rfl
    rw [String.toList_append, List.getElem?_append_left long] at twelfth
    exact letter twelfth
  constructor
  · intro same
    cases cause with
    | ending => rfl
    | token text => exact absurd same (other (by decide) (by decide))
    | character c => exact absurd same (other (by decide) (by decide))
  · rintro rfl
    rfl

/-- The place of an error is the first one that is wrong: what stands before it can be completed
below. And only if the end of the text is what is wrong, the whole text can be. -/
theorem parse_error_place {src : String} {e : ParseError} (h : parse src = .error e) :
    Completable (textBefore e.place src) ∧
      (e.cause.message = "Unexpected end of input" → Completable src) ∧
      (e.cause.message ≠ "Unexpected end of input" → ¬Completable src) := by
  have read : readProgram src.toList = .error e := by
    cases read : readProgram src.toList with
    | error e' => rw [parse, read] at h; cases h; rfl
    | ok program => rw [parse, read] at h; cases h
  have located := readProgram_eq_error read
  simp only [completable_iff, ne_eq, ParseCause.message_eq_iff, textBefore, String.toList_ofList]
  exact ⟨located.1, located.2.mpr, mt located.2.mp⟩

/-- Behind an `else` the letters of an `if` are still right. -/
theorem parse_error_place_else : ∃ e, parse "if (a) \x7b\x7d else iffy" = .error e ∧
    e.message = "Unexpected token 'fy' at line 1, col 18" ∧
    Completable (textBefore e.place "if (a) \x7b\x7d else iffy") ∧
    ¬Completable "if (a) \x7b\x7d else iffy" := by
  have rejected : (match parse "if (a) \x7b\x7d else iffy" with
      | .error e => e.message == "Unexpected token 'fy' at line 1, col 18" &&
          e.cause.message != "Unexpected end of input"
      | .ok _ => false) = true := by decide +kernel
  cases h : parse "if (a) \x7b\x7d else iffy" with
  | error e =>
    rw [h] at rejected
    obtain ⟨text, other⟩ := Bool.and_eq_true_iff.mp rejected
    have located := parse_error_place h
    exact ⟨e, rfl, eq_of_beq text, located.1, located.2.2 (bne_iff_ne.mp other)⟩
  | ok tree => rw [h] at rejected; cases rejected

end Source

end Scriptlet
