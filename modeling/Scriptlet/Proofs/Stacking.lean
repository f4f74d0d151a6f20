import Scriptlet.Proofs.Accepted
import Scriptlet.Proofs.Relocation
import Scriptlet.Proofs.Sentences
/-!
# Two texts on top of each other

Behind a line feed a text is scanned and read as by itself, except that all its places lie further
down. So the statements of two texts, one below the other, are those of the first and then those of
the second, moved down.
-/

namespace Scriptlet

namespace Place

/-- The same column, `k` lines further down. -/
def down (k : Nat) (p : Place) : Place := ⟨p.line + k, p.column⟩

theorem after_down (k : Nat) (p : Place) (c : Char) : (p.down k).after c = (p.after c).down k := by
  by_cases feed : c = '\n'
  · simp only [after, down, if_pos feed, Nat.add_right_comm]
  · simp only [after, down, if_neg feed]

theorem afterAll_down (k : Nat) (p : Place) (cs : List Char) :
    (p.down k).afterAll cs = (p.afterAll cs).down k := by
  induction cs generalizing p with
  | nil => rfl
  | cons c cs ih =>
    have first := after_down k p c
    simp only [afterAll, List.foldl_cons] at ih ⊢
    rw [first, ih]

theorem afterAll_append (p : Place) (cs ds : List Char) :
    p.afterAll (cs ++ ds) = (p.afterAll cs).afterAll ds := List.foldl_append

theorem line_afterAll (p : Place) (cs : List Char) :
    (p.afterAll cs).line = p.line + cs.count '\n' := by
  induction cs generalizing p with
  | nil => rfl
  | cons c cs ih =>
    have rest := ih (p.after c)
    simp only [afterAll, List.foldl_cons] at rest ⊢
    by_cases feed : c = '\n'
    · simp only [after, if_pos feed] at rest ⊢
      rw [rest, feed, List.count_cons_self]
      omega
    · simp only [after, if_neg feed] at rest ⊢
      rw [rest, List.count_cons_of_ne feed]

/-- How far down the text below `cs` is. -/
def height (cs : List Char) : Nat := cs.count '\n' + 1

theorem afterAll_height (cs : List Char) :
    first.afterAll (cs ++ ['\n']) = first.down (height cs) := by
  have line : (first.afterAll cs).line + 1 = first.line + height cs := by
    rw [line_afterAll, height, Nat.add_assoc]
  rw [afterAll_append, down, ← line]
  rfl

end Place

namespace Source

/-! ## Scanning further down -/

def Token.down (k n : Nat) (t : Token) : Token := ⟨t.lexeme, t.place.down k, t.offset + n⟩

def Cursor.down (k n : Nat) (here : Cursor) : Cursor :=
  ⟨here.place.down k, here.offset + n, here.rest⟩

theorem skipGap_down (k n : Nat) (place : Place) (offset : Nat) (comment : Bool) (cs : List Char) :
    skipGap (place.down k) (offset + n) comment cs =
      (skipGap place offset comment cs).down k n := by
  induction cs generalizing place offset comment with
  | nil => rfl
  | cons c cs ih =>
    have next (comment : Bool) : skipGap ((place.down k).after c) (offset + n + 1) comment cs =
        (skipGap (place.after c) (offset + 1) comment cs).down k n := by
      rw [Place.after_down, Nat.add_right_comm]
      exact ih ..
    simp only [skipGap, next, apply_ite (Cursor.down k n)]
    rfl

theorem Cursor.pastGap_down (k n : Nat) (here : Cursor) :
    (here.down k n).pastGap = here.pastGap.down k n := skipGap_down ..

theorem Cursor.advance_down (k n i : Nat) (here : Cursor) :
    (here.down k n).advance i = (here.advance i).down k n := by
  simp only [advance, down, Place.afterAll_down, Nat.add_right_comm]

theorem scanFrom_of_none {done : List Token} {here : Cursor}
    (h : Lexeme.first? here.pastGap.rest = none) :
    scanFrom done here = (done.reverse, here.pastGap.ending) := by
  rw [scanFrom]
  split
  · rfl
  · rename_i some
    rw [h] at some
    cases some

theorem scanFrom_of_some {done : List Token} {here : Cursor} {l : Lexeme}
    (h : Lexeme.first? here.pastGap.rest = some l) :
    scanFrom done here = scanFrom (⟨l, here.pastGap.place, here.pastGap.offset⟩ :: done)
      (here.pastGap.advance l.chars.length) := by
  rw [scanFrom]
  split
  · rename_i none
    rw [h] at none
    cases none
  · rename_i l' some
    rw [h] at some
    cases some
    rfl

theorem scanFrom_of_pastGap {done : List Token} {here there : Cursor}
    (h : here.pastGap = there.pastGap) : scanFrom done here = scanFrom done there := by
  cases cut : Lexeme.first? here.pastGap.rest with
  | none => rw [scanFrom_of_none cut, scanFrom_of_none (h ▸ cut), h]
  | some l =>
    refine (scanFrom_of_some cut).trans (Eq.trans ?_ (scanFrom_of_some (h ▸ cut)).symm)
    rw [h]

/-- The tokens between two positions. -/
inductive Cursor.Cut : Cursor → List Token → Cursor → Prop
  | nil (here) : Cut here [] here
  | cons {here there l ts} : Lexeme.first? here.pastGap.rest = some l →
      Cut (here.pastGap.advance l.chars.length) ts there →
      Cut here (⟨l, here.pastGap.place, here.pastGap.offset⟩ :: ts) there

theorem Cursor.Cut.scanFrom {here there : Cursor} {ts : List Token} (h : here.Cut ts there)
    (done : List Token) : scanFrom done here = Source.scanFrom (ts.reverse ++ done) there := by
  induction h generalizing done with
  | nil => rfl
  | cons cut _ ih => rw [scanFrom_of_some cut, ih, List.reverse_cons, List.append_assoc]; rfl

/-- Scanning cuts tokens off, up to where no lexeme begins. -/
theorem exists_cut (done : List Token) (here : Cursor) :
    ∃ ts there, here.Cut ts there ∧ Lexeme.first? there.pastGap.rest = none ∧
      scanFrom done here = (done.reverse ++ ts, there.pastGap.ending) := by
  fun_induction scanFrom done here with
  | case1 done here none => exact ⟨[], here, .nil here, none, by rw [List.append_nil]⟩
  | case2 done here l cut ih =>
    obtain ⟨ts, there, tokens, none, same⟩ := ih
    exact ⟨_, there, .cons cut tokens, none, by simpa using same⟩

/-- The place from which a text is scanned is added to all of its places. -/
theorem scanFrom_down (k n : Nat) (before done : List Token) (here : Cursor)
    (finished : (scanFrom done here).2 = .finished) :
    scanFrom (done.map (Token.down k n) ++ before) (here.down k n) =
      (before.reverse ++ (scanFrom done here).1.map (Token.down k n), .finished) := by
  fun_induction scanFrom done here with
  | case1 done here none =>
    have ended : (here.down k n).pastGap.ending = .finished := by
      have rest : here.pastGap.rest = [] := Cursor.rest_of_finished finished
      rw [Cursor.pastGap_down, Cursor.down, rest]
      rfl
    rw [scanFrom_of_none (by rw [Cursor.pastGap_down]; exact none), ended]
    simp
  | case2 done here l cut ih =>
    have rest := ih finished
    rw [scanFrom_of_some (l := l) (by rw [Cursor.pastGap_down]; exact cut), Cursor.pastGap_down,
      Cursor.advance_down]
    exact rest

/-! ## Scanning up to a character that ends every lexeme -/

/-- No lexeme goes on past `w`. -/
structure Parts (w : Char) : Prop where
  digit : Text.isDigit w = false
  word : isWordPart w = false
  numeral : w ∉ ['.', '+', '-']
  mark : ∀ m ∈ Mark.all, w ∉ m.spelling.tail

theorem parts_of_isGapChar {w : Char} (gap : isGapChar w) : Parts w := by
  have space : w ∈ [' ', '\t', '\x0c', '\r', '\n'] := by simpa [isGapChar, or_assoc] using gap
  simp only [List.mem_cons, List.not_mem_nil, or_false] at space
  rcases space with rfl | rfl | rfl | rfl | rfl <;> constructor <;> decide

theorem parts_feed : Parts '\n' := parts_of_isGapChar (by decide)

theorem parts_semicolon : Parts ';' := by constructor <;> decide

section

open Number

theorem mantissaLength_of_plain {cs ds : List Char}
    (after : cs.drop (cs.takeWhile Text.isDigit).length = ds) (plain : ds.head? ≠ some '.') :
    mantissaLength cs = (cs.takeWhile Text.isDigit).length := by
  rw [mantissaLength]
  split
  · rename_i point
    rw [← after, point] at plain
    exact absurd rfl plain
  · rfl

theorem mantissaLength_of_point {cs ds : List Char}
    (point : cs.drop (cs.takeWhile Text.isDigit).length = '.' :: ds) :
    mantissaLength cs =
      if (cs.takeWhile Text.isDigit).length = 0 ∧ (ds.takeWhile Text.isDigit).length = 0 then 0
      else (cs.takeWhile Text.isDigit).length + 1 + (ds.takeWhile Text.isDigit).length := by
  simp only [mantissaLength, point]

theorem length_takeWhile_le_mantissaLength (cs : List Char) :
    (cs.takeWhile Text.isDigit).length ≤ mantissaLength cs := by
  simp only [mantissaLength]
  split
  · split <;> omega
  · exact Nat.le_refl _

end

section

variable (cs rest : List Char) {w : Char}

theorem takeWhile_parted {p : Char → Bool} (stop : p w = false) :
    (cs ++ w :: rest).takeWhile p = cs.takeWhile p := by
  induction cs with
  | nil => simp [stop]
  | cons c cs ih => simp [ih, List.takeWhile_cons]

theorem drop_takeWhile_parted (p : Char → Bool) :
    (cs ++ w :: rest).drop (cs.takeWhile p).length =
      cs.drop (cs.takeWhile p).length ++ w :: rest :=
  List.drop_append_of_le_length (List.takeWhile_prefix p).length_le

open Number

theorem mantissaLength_parted (parts : Parts w) :
    mantissaLength (cs ++ w :: rest) = mantissaLength cs := by
  have plain : w ≠ '.' := fun same => parts.numeral (by simp [same])
  have digits := takeWhile_parted cs rest parts.digit
  have after : (cs ++ w :: rest).drop ((cs ++ w :: rest).takeWhile Text.isDigit).length =
      cs.drop (cs.takeWhile Text.isDigit).length ++ w :: rest := by
    rw [digits, drop_takeWhile_parted]
  cases front : cs.drop (cs.takeWhile Text.isDigit).length with
  | nil =>
    rw [front] at after
    rw [mantissaLength_of_plain front (by simp),
      mantissaLength_of_plain after (by simpa using plain), digits]
  | cons c ds =>
    rw [front, List.cons_append] at after
    by_cases point : c = '.'
    · subst point
      rw [mantissaLength_of_point front, mantissaLength_of_point after, digits,
        takeWhile_parted ds rest parts.digit]
    · rw [mantissaLength_of_plain front (by simpa using point),
        mantissaLength_of_plain after (by simpa using point), digits]

theorem exponentLength_parted (parts : Parts w) :
    exponentLength (cs ++ w :: rest) = exponentLength cs := by
  have noPlus : w ≠ '+' := fun same => parts.numeral (by simp [same])
  have noMinus : w ≠ '-' := fun same => parts.numeral (by simp [same])
  have noMark : ¬(w = 'e' ∨ w = 'E') := by
    rintro (rfl | rfl)
    · exact absurd parts.word (by decide)
    · exact absurd parts.word (by decide)
  rcases cs with _ | ⟨mark, cs⟩
  · simp [exponentLength, noMark]
  · by_cases hmark : mark = 'e' ∨ mark = 'E'
    · rcases cs with _ | ⟨c, cs⟩
      · simp [exponentLength, hmark, noPlus, noMinus, parts.digit]
      · have digits := takeWhile_parted cs rest parts.digit
        have whole := takeWhile_parted (c :: cs) rest parts.digit
        by_cases plus : c = '+'
        · subst plus
          simp [exponentLength, hmark, digits]
        · by_cases minus : c = '-'
          · subst minus
            simp [exponentLength, hmark, digits]
          · rw [List.cons_append] at whole
            simp [exponentLength, hmark, plus, minus, whole]
    · simp [exponentLength, hmark]

theorem mantissaLength_le : mantissaLength cs ≤ cs.length := by
  by_cases none : mantissaLength cs = 0
  · omega
  · obtain ⟨mantissa, after, rfl, _, length⟩ := mantissaLength_cut none
    rw [length, List.length_append]
    omega

theorem numeralLength_parted (parts : Parts w) :
    numeralLength (cs ++ w :: rest) = numeralLength cs := by
  have le := mantissaLength_le cs
  rw [numeralLength, numeralLength, mantissaLength_parted cs rest parts]
  cases h : mantissaLength cs with
  | zero => rfl
  | succ n =>
    rw [h] at le
    dsimp only
    rw [List.drop_append_of_le_length le, exponentLength_parted _ _ parts]

theorem numeralLength_le : numeralLength cs ≤ cs.length := by
  have le := mantissaLength_le cs
  rw [numeralLength]
  cases h : mantissaLength cs with
  | zero => exact Nat.zero_le _
  | succ n =>
    obtain ⟨exponent, after, same, _, length⟩ := exponentLength_cut (cs.drop (n + 1))
    have total := congrArg List.length same
    rw [List.length_drop, List.length_append] at total
    dsimp only
    omega

theorem isPrefixOf_parted {ss : List Char} (plain : w ∉ ss) :
    ss.isPrefixOf (cs ++ w :: rest) = ss.isPrefixOf cs := by
  induction ss generalizing cs with
  | nil => simp
  | cons s ss ih =>
    obtain ⟨here, plain⟩ := not_or.mp (mt List.mem_cons.mpr plain)
    cases cs with
    | nil => simp [List.isPrefixOf, Ne.symm here]
    | cons c cs => simp [List.isPrefixOf, ih cs plain]

theorem Mark.first?_parted (parts : Parts w) (c : Char) :
    Mark.first? (c :: cs ++ w :: rest) = Mark.first? (c :: cs) := by
  suffices same : ∀ ms : List Mark, ms ⊆ Mark.all →
      ms.find? (fun m => m.spelling.isPrefixOf (c :: cs ++ w :: rest)) =
        ms.find? (fun m => m.spelling.isPrefixOf (c :: cs)) from
    same Mark.all (List.Subset.refl _)
  intro ms within
  induction ms with
  | nil => rfl
  | cons m ms ih =>
    obtain ⟨first, within⟩ := List.cons_subset.mp within
    have here : m.spelling.isPrefixOf (c :: cs ++ w :: rest) = m.spelling.isPrefixOf (c :: cs) := by
      have later := isPrefixOf_parted cs rest (parts.mark m first)
      cases spelled : m.spelling with
      | nil => rfl
      | cons s ss =>
        rw [spelled] at later
        exact congrArg (s == c && ·) later
    rw [List.find?_cons, List.find?_cons, here, ih within]

/-- A lexeme never goes on past such a character. -/
theorem first?_parted (parts : Parts w) (some : cs ≠ []) :
    Lexeme.first? (cs ++ w :: rest) = Lexeme.first? cs := by
  obtain ⟨c, cs, rfl⟩ := List.exists_cons_of_ne_nil some
  have numeral := numeralLength_parted (c :: cs) rest parts
  have mark := Mark.first?_parted cs rest parts c
  have le := numeralLength_le (c :: cs)
  have word := takeWhile_parted cs rest parts.word
  rw [List.cons_append] at numeral mark ⊢
  rw [Lexeme.first?, Lexeme.first?, word, numeral, mark]
  split
  · rfl
  · split
    · rfl
    · rename_i n length
      rw [length] at le
      rw [← List.cons_append, List.take_append_of_le_length le]

end

/-- Nor does what is skipped in front of it, unless it is a slash. -/
theorem skipGap_parted (cs rest : List Char) {w : Char} (apart : w ≠ '/') (place : Place)
    (offset : Nat) (comment : Bool) (more : (skipGap place offset comment cs).rest ≠ []) :
    skipGap place offset comment (cs ++ w :: rest) =
      { skipGap place offset comment cs with
        rest := (skipGap place offset comment cs).rest ++ w :: rest } := by
  induction cs generalizing place offset comment with
  | nil => exact absurd rfl more
  | cons c cs ih =>
    have head : (cs ++ w :: rest).head? = some '/' ↔ cs.head? = some '/' := by
      cases cs <;> simp [apart]
    rw [List.cons_append]
    simp only [skipGap, head] at more ⊢
    split
    · rename_i commented
      rw [if_pos commented] at more
      exact ih _ _ _ more
    · rename_i closed
      rw [if_neg closed] at more
      split
      · rename_i gap
        rw [if_pos gap] at more
        exact ih _ _ _ more
      · rename_i still
        rw [if_neg still] at more
        split
        · rename_i slashes
          rw [if_pos slashes] at more
          exact ih _ _ _ more
        · rfl

theorem Cursor.advance_parted (more : List Char) {here : Cursor} {n : Nat}
    (le : n ≤ here.rest.length) :
    Cursor.advance { here with rest := here.rest ++ more } n =
      { here.advance n with rest := (here.advance n).rest ++ more } := by
  simp only [advance, List.take_append_of_le_length le, List.drop_append_of_le_length le]

/-! ## Scanning up to a line feed -/

section

variable (cs rest : List Char)

/-- A line feed ends the gap in front of it, or comes after the next lexeme. -/
theorem skipGap_feed (place : Place) (offset : Nat) (comment : Bool) :
    skipGap place offset comment (cs ++ '\n' :: rest) =
      if (skipGap place offset comment cs).rest = [] then
        skipGap (place.afterAll (cs ++ ['\n'])) (offset + cs.length + 1) false rest
      else { skipGap place offset comment cs with
        rest := (skipGap place offset comment cs).rest ++ '\n' :: rest } := by
  induction cs generalizing place offset comment with
  | nil => cases comment <;> rfl
  | cons c cs ih =>
    have length : offset + (c :: cs).length + 1 = offset + 1 + cs.length + 1 := by
      rw [List.length_cons]
      omega
    have head : (cs ++ '\n' :: rest).head? = some '/' ↔ cs.head? = some '/' := by
      cases cs <;> simp
    rw [length, List.cons_append]
    cases comment with
    | true => exact ih (place.after c) (offset + 1) (c != '\n')
    | false =>
      by_cases gap : isGapChar c
      · simp only [skipGap, gap, if_true, Bool.false_eq_true, if_false]
        exact ih (place.after c) (offset + 1) false
      · by_cases slashes : c = '/' ∧ cs.head? = some '/'
        · have slashes' : c = '/' ∧ (cs ++ '\n' :: rest).head? = some '/' := by rwa [head]
          simp only [skipGap, gap, if_pos slashes, if_pos slashes', Bool.false_eq_true, if_false]
          exact ih (place.after c) (offset + 1) true
        · have slashes' : ¬(c = '/' ∧ (cs ++ '\n' :: rest).head? = some '/') := by rwa [head]
          simp only [skipGap, gap, if_neg slashes, if_neg slashes', Bool.false_eq_true, if_false]
          rfl

end

/-- The places behind a gap and those before it agree on where the text ends. -/
theorem Cursor.pastGap_end (here : Cursor) (tail : List Char) :
    here.pastGap.place.afterAll (here.pastGap.rest ++ tail) =
        here.place.afterAll (here.rest ++ tail) ∧
      here.pastGap.offset + here.pastGap.rest.length = here.offset + here.rest.length := by
  suffices h : ∀ cs place offset comment,
      (skipGap place offset comment cs).place.afterAll
          ((skipGap place offset comment cs).rest ++ tail) = place.afterAll (cs ++ tail) ∧
        (skipGap place offset comment cs).offset + (skipGap place offset comment cs).rest.length =
          offset + cs.length from h here.rest here.place here.offset false
  intro cs
  induction cs with
  | nil => exact fun _ _ _ => ⟨rfl, rfl⟩
  | cons c cs ih =>
    intro place offset comment
    have next (comment : Bool) := ih (place.after c) (offset + 1) comment
    have length : offset + (c :: cs).length = offset + 1 + cs.length := by
      rw [List.length_cons]
      omega
    rw [length]
    simp only [skipGap]
    split
    · exact next _
    · split
      · exact next _
      · split
        · exact next _
        · exact ⟨rfl, length⟩

theorem Cursor.advance_end {here : Cursor} {n : Nat} (le : n ≤ here.rest.length)
    (tail : List Char) :
    (here.advance n).place.afterAll ((here.advance n).rest ++ tail) =
        here.place.afterAll (here.rest ++ tail) ∧
      (here.advance n).offset + (here.advance n).rest.length = here.offset + here.rest.length := by
  constructor
  · rw [advance, ← Place.afterAll_append, ← List.append_assoc, List.take_append_drop]
  · simp only [advance, List.length_drop]
    omega

namespace Cursor

variable {here there : Cursor} {ts : List Token}

theorem length_le_of_first? {l : Lexeme} (h : Lexeme.first? here.rest = some l) :
    l.chars.length ≤ here.rest.length := by
  obtain ⟨after, same, _⟩ := first?_cut h
  rw [same, List.length_append]
  omega

/-- The tokens that are cut off do not change where the text ends. -/
theorem Cut.end (h : here.Cut ts there) (tail : List Char) :
    there.place.afterAll (there.rest ++ tail) = here.place.afterAll (here.rest ++ tail) ∧
      there.offset + there.rest.length = here.offset + here.rest.length := by
  induction h with
  | nil => exact ⟨rfl, rfl⟩
  | @cons here there l ts cut _ ih =>
    have token := advance_end (length_le_of_first? cut) tail
    have gap := here.pastGap_end tail
    exact ⟨(ih.1.trans token.1).trans gap.1, (ih.2.trans token.2).trans gap.2⟩

/-- In front of a character that ends every lexeme, tokens are cut off as in front of the end of the
text. -/
theorem Cut.parted {w : Char} (parts : Parts w) (apart : w ≠ '/') (rest : List Char)
    (h : here.Cut ts there) :
    Cut { here with rest := here.rest ++ w :: rest } ts
      { there with rest := there.rest ++ w :: rest } := by
  induction h with
  | nil => exact .nil _
  | @cons here there l ts cut _ ih =>
    have more : here.pastGap.rest ≠ [] := by
      intro none
      rw [none] at cut
      cases cut
    have past : pastGap { here with rest := here.rest ++ w :: rest } =
        { here.pastGap with rest := here.pastGap.rest ++ w :: rest } :=
      skipGap_parted here.rest rest apart here.place here.offset false more
    rw [← advance_parted (w :: rest) (length_le_of_first? cut), ← past] at ih
    have token : Lexeme.first? (pastGap { here with rest := here.rest ++ w :: rest }).rest =
        some l := by
      rw [past]
      exact (first?_parted _ _ parts more).trans cut
    have tokens := Cut.cons token ih
    rw [past] at tokens
    exact tokens

end Cursor

/-- Scanning goes on below a line feed with what was found above it. -/
theorem scanFrom_feed (rest : List Char) {done : List Token} {here : Cursor}
    (finished : (scanFrom done here).2 = .finished) :
    scanFrom done { here with rest := here.rest ++ '\n' :: rest } =
      scanFrom (scanFrom done here).1.reverse
        ⟨here.place.afterAll (here.rest ++ ['\n']), here.offset + here.rest.length + 1, rest⟩ := by
  obtain ⟨ts, there, cut, _, scanned⟩ := exists_cut done here
  rw [scanned] at finished ⊢
  have ended : there.pastGap.rest = [] := Cursor.rest_of_finished finished
  have past : Cursor.pastGap { there with rest := there.rest ++ '\n' :: rest } =
      Cursor.pastGap ⟨there.place.afterAll (there.rest ++ ['\n']),
        there.offset + there.rest.length + 1, rest⟩ :=
    (skipGap_feed there.rest rest there.place there.offset false).trans (if_pos ended)
  have tokens : (done.reverse ++ ts).reverse = ts.reverse ++ done := by simp
  rw [(cut.parted parts_feed (by decide) rest).scanFrom, scanFrom_of_pastGap past,
    (cut.end ['\n']).1, (cut.end []).2, tokens]

/-- Below a line feed a text is scanned as by itself, further down. -/
theorem scan_feed {cs ds : List Char} {ts us : List Token} (hc : scan cs = (ts, .finished))
    (hd : scan ds = (us, .finished)) :
    scan (cs ++ '\n' :: ds) =
      (ts ++ us.map (Token.down (Place.height cs) (cs.length + 1)), .finished) := by
  have finished : (scanFrom [] (.start cs)).2 = .finished := congrArg (·.2) hc
  have finished' : (scanFrom [] (.start ds)).2 = .finished := congrArg (·.2) hd
  have above := scanFrom_feed ds finished
  have below := scanFrom_down (Place.height cs) (cs.length + 1) ts.reverse [] (.start ds) finished'
  have start : (⟨Place.first.afterAll (cs ++ ['\n']), 0 + cs.length + 1, ds⟩ : Cursor) =
      (Cursor.start ds).down (Place.height cs) (cs.length + 1) := by
    rw [Place.afterAll_height, Nat.zero_add]
    simp [Cursor.start, Cursor.down]
  have hc : scanFrom [] (.start cs) = (ts, .finished) := hc
  have hd : scanFrom [] (.start ds) = (us, .finished) := hd
  rw [hd, List.reverse_reverse] at below
  rw [hc] at above
  exact above.trans ((congrArg (scanFrom ts.reverse) start).trans below)

/-! ## Reading behind a program -/

namespace State

variable {st mid : State} {ts us : List Token} {l : Lexeme} {p : Place}

theorem run_append (h : st.run ts = .ok mid) : st.run (ts ++ us) = mid.run us := by
  induction ts generalizing st with
  | nil =>
    cases h
    rfl
  | cons t ts ih =>
    rw [State.run] at h
    rw [List.cons_append, State.run]
    generalize st.step t.lexeme t.place = next at h ⊢
    cases next with
    | none => cases h
    | some next => exact ih h

/-- Two states that take the first token alike. -/
theorem run_of_step {st' done : State} {t : Token} (h : st'.run (t :: us) = .ok done)
    (same : st.step t.lexeme t.place = st'.step t.lexeme t.place) :
    st.run (t :: us) = .ok done := by
  rw [State.run] at h ⊢
  rw [same]
  generalize st'.step t.lexeme t.place = next at h ⊢
  cases next with
  | none => cases h
  | some next => exact h

/-- What the last brace closed only matters to an `else`. -/
theorem step_braced (hl : l ≠ .word Keyword.elseWord.text) (before : List Stmt)
    (braced braced' : Bool) (frames : List Frame) :
    step ⟨.items before braced, frames⟩ l p = step ⟨.items before braced', frames⟩ l p := by
  cases l with
  | word s =>
    simp only [step, beginStmt]
    cases found : Keyword.ofText? s with
    | none => rfl
    | some k =>
      cases k with
      | elseWord => exact absurd (congrArg Lexeme.word (Keyword.text_of_ofText? found).symm) hl
      | _ => rfl
  | numeral => rfl
  | mark m => cases m <;> rfl

theorem Settles.step {before : List Stmt} {braced : Bool} {frames : List Frame}
    (h : st.Settles ⟨.items before braced, frames⟩) (hl : l ≠ .word Keyword.elseWord.text) :
    st.step l p = State.step ⟨.items before braced, frames⟩ l p := by
  rcases h with rfl | ⟨start, test, body, mode, ended⟩
  · rfl
  · simp only [State.step, mode, continueIf, if_neg hl, ended]

/-- The end of a program is that of the moved one, behind the statements above. -/
theorem Below.program? {program : Program} {f : Place → Place} {above : List Stmt} {st' : State}
    (h : st.Below f above st') (ended : st.program? = some program) :
    st'.program? = some (above.reverse ++ program.map (Stmt.move f)) := by
  obtain ⟨braced, settles⟩ := settles_of_program? ended
  obtain ⟨next, settled, same⟩ := below_settles h settles
  cases same with
  | items h =>
    cases h with
    | bottom => simpa using settled.program?
    | inside h => cases h
  | other h => cases h

/-- Behind the tokens of one program, those of another one are read as its statements, unless the
first one is an `else`. -/
theorem run_below {f : Place → Place} {g : Token → Token}
    (lexeme : ∀ t, (g t).lexeme = t.lexeme) (place : ∀ t, (g t).place = f t.place)
    {above below : Program} {st' : State} {t : Token} (run : start.run ts = .ok st)
    (ended : st.program? = some above) (run' : start.run (t :: us) = .ok st')
    (ended' : st'.program? = some below) (afresh : t.lexeme ≠ .word Keyword.elseWord.text) :
    ∃ done, start.run (ts ++ (t :: us).map g) = .ok done ∧
      done.program? = some (above ++ below.map (Stmt.move f)) := by
  obtain ⟨braced, settles⟩ := settles_of_program? ended
  -- The first program may have ended with a brace, after which only an `else` is read otherwise.
  have alone : State.run ⟨.items [] braced, []⟩ (t :: us) = .ok st' :=
    run_of_step run' (step_braced afresh [] braced false [])
  have behind : State.Below f above.reverse ⟨.items [] braced, []⟩
      ⟨.items above.reverse braced, []⟩ := .items .bottom
  obtain ⟨done, read, whole⟩ := below_run behind lexeme place alone
  have first : (g t).lexeme ≠ .word Keyword.elseWord.text := lexeme t ▸ afresh
  refine ⟨done, (run_append run).trans (run_of_step read (settles.step first)), ?_⟩
  simpa using whole.program? ended'

end State

/-- The first token of the text, if it has one, is no `else`. -/
def BeginsAfresh (cs : List Char) : Prop :=
  (scan cs).1.head?.map (·.lexeme) ≠ some (.word Keyword.elseWord.text)

instance (cs : List Char) : Decidable (BeginsAfresh cs) := inferInstanceAs (Decidable (_ ≠ _))

/-- A text below another one adds its statements to those of the first, moved down. -/
theorem readProgram_below {cs ds : List Char} {above below : Program}
    (hc : readProgram cs = .ok above) (hd : readProgram ds = .ok below) (some : below ≠ [])
    (afresh : BeginsAfresh ds) :
    readProgram (cs ++ '\n' :: ds) =
      .ok (above ++ below.map (Stmt.move (Place.down (Place.height cs)))) := by
  obtain ⟨ts, st, scanned, run, ended⟩ := readProgram_eq_ok_iff.mp hc
  obtain ⟨us, st', scanned', run', ended'⟩ := readProgram_eq_ok_iff.mp hd
  cases us with
  | nil =>
    cases run'
    cases ended'
    exact absurd rfl some
  | cons u us =>
    have first : u.lexeme ≠ .word Keyword.elseWord.text := by
      simpa [BeginsAfresh, scanned'] using afresh
    obtain ⟨done, joined, program⟩ := State.run_below (f := Place.down (Place.height cs))
      (g := Token.down (Place.height cs) (cs.length + 1)) (fun _ => rfl) (fun _ => rfl) run ended
      run' ended' first
    exact readProgram_eq_ok_iff.mpr ⟨_, done, scan_feed scanned scanned', joined, program⟩

end Source

end Scriptlet
