import Scriptlet.Proofs.Grammar
/-!
# Scanning tokens that stand apart

A lexeme in front of a space, or at the end of the text, is cut off as it is. So a text of lexemes
with single spaces between them is scanned into these lexemes.
-/

namespace Scriptlet

theorem takeWhile_append_stop {α : Type} {p : α → Bool} {body rest : List α}
    (inside : ∀ a ∈ body, p a) (stop : ∀ a, rest.head? = some a → p a = false) :
    (body ++ rest).takeWhile p = body := by
  rw [List.takeWhile_append_of_pos inside]
  cases rest with
  | nil => simp
  | cons a rest => simp [stop a rfl]

theorem dropWhile_append_stop {α : Type} {p : α → Bool} {body rest : List α}
    (inside : ∀ a ∈ body, p a) (stop : ∀ a, rest.head? = some a → p a = false) :
    (body ++ rest).dropWhile p = rest := by
  rw [List.dropWhile_append_of_pos inside]
  cases rest with
  | nil => rfl
  | cons a rest => exact List.dropWhile_cons_of_neg (by simp [stop a rfl])

theorem Text.digit_range {c : Char} (h : isDigit c) :
    48 ≤ c.toNat ∧ c.toNat ≤ 57 ∨ 1632 ≤ c.toNat := by
  have later : ∀ z ∈ zeros, z = 48 ∨ 1632 ≤ z := by decide
  rw [isDigit, digit?] at h
  rw [Option.isSome_map] at h
  obtain ⟨z, hz⟩ := Option.isSome_iff_exists.mp h
  have range := List.find?_some hz
  simp only [Bool.and_eq_true, decide_eq_true_eq] at range
  rcases later z (List.mem_of_find?_eq_some hz) with rfl | hz
  · omega
  · omega

namespace Source

/-- What may follow a lexeme: a space, or nothing. -/
def Stops (rest : List Char) : Prop := ∀ c, rest.head? = some c → c = ' '

theorem Stops.nil : Stops [] := by
  intro c hc
  cases hc

theorem Stops.space (cs : List Char) : Stops (' ' :: cs) := by
  intro c hc
  exact (Option.some.inj hc).symm

/-! ## Words -/

theorem first?_word {s : String} (h : IsIdentifier s) {rest : List Char} (stops : Stops rest) :
    Lexeme.first? (s.toList ++ rest) = some (.word s) := by
  obtain ⟨c, cs, hs, start, parts⟩ := h
  have body : (cs ++ rest).takeWhile isWordPart = cs := by
    refine takeWhile_append_stop (fun d hd => isWordPart_iff.mpr (parts d hd)) ?_
    intro d hd
    rw [stops d hd]
    decide
  rw [hs, List.cons_append, Lexeme.first?, if_pos (isWordStart_iff.mpr start), body, ← hs,
    String.ofList_toList]

/-! ## Numerals -/

theorem toNat_of_isAlpha {c : Char} (h : c.isAlpha) :
    65 ≤ c.toNat ∧ c.toNat ≤ 90 ∨ 97 ≤ c.toNat ∧ c.toNat ≤ 122 := by
  have letter : (c.isUpper || c.isLower) = true := h
  rcases Bool.or_eq_true_iff.mp letter with upper | lower
  · exact Or.inl (of_decide_eq_true upper)
  · have lower : (decide ('a'.val ≤ c.val) && decide (c.val ≤ 'z'.val)) = true := lower
    simp only [Bool.and_eq_true, decide_eq_true_eq] at lower
    exact Or.inr lower

theorem not_isWordStart_of_isDigit {c : Char} (h : Text.isDigit c) : isWordStart c = false := by
  have range := Text.digit_range h
  by_cases start : isWordStart c
  · simp only [isWordStart, Bool.or_eq_true, beq_iff_eq] at start
    rcases start with (alpha | rfl) | rfl
    · have := toNat_of_isAlpha alpha
      omega
    · revert range
      decide
    · revert range
      decide
  · simpa using start

theorem IsMantissa.mem {m : List Char} (h : IsMantissa m) : ∀ c ∈ m, Text.isDigit c ∨ c = '.' := by
  intro c hc
  cases h with
  | point _ whole fraction =>
    rcases List.mem_append.mp hc with hc | hc
    · exact .inl (whole c hc)
    · rcases List.mem_cons.mp hc with rfl | hc
      · exact .inr rfl
      · exact .inl (fraction c hc)
  | fraction _ fraction =>
    rcases List.mem_cons.mp hc with rfl | hc
    · exact .inr rfl
    · exact .inl (fraction c hc)
  | whole _ whole => exact .inl (whole c hc)

theorem IsMantissa.ne_nil {m : List Char} (h : IsMantissa m) : m ≠ [] := by
  cases h with
  | point => simp
  | fraction => simp
  | whole some => exact some

theorem IsExponent.mem {e : List Char} (h : IsExponent e) :
    ∀ c ∈ e, Text.isDigit c ∨ c ∈ ['e', 'E', '+', '-'] := by
  intro c hc
  cases h with
  | none => cases hc
  | some mark sign _ digits =>
    rcases List.mem_cons.mp hc with rfl | hc
    · rcases mark with rfl | rfl <;> exact .inr (by decide)
    · rcases List.mem_append.mp hc with hc | hc
      · rcases sign with rfl | rfl | rfl
        · cases hc
        · obtain rfl := List.mem_singleton.mp hc
          exact .inr (by decide)
        · obtain rfl := List.mem_singleton.mp hc
          exact .inr (by decide)
      · exact .inl (digits c hc)

theorem exponent_stops {e : List Char} (h : IsExponent e) :
    ∀ c, e.head? = some c → Text.isDigit c = false ∧ c ≠ '.' := by
  rintro c hc
  cases h with
  | none => cases hc
  | some mark =>
    obtain rfl := Option.some.inj hc
    rcases mark with rfl | rfl <;> decide

theorem IsNumber.head {s : String} (h : IsNumber s) :
    ∃ c cs, s.toList = c :: cs ∧ (Text.isDigit c ∨ c = '.') := by
  obtain ⟨m, e, hs, hm, _⟩ := h
  obtain ⟨c, cs, rfl⟩ := List.exists_cons_of_ne_nil hm.ne_nil
  exact ⟨c, cs ++ e, hs, hm.mem c List.mem_cons_self⟩

open Number

theorem mantissaLength_append {m rest : List Char} (h : IsMantissa m)
    (stop : ∀ c, rest.head? = some c → Text.isDigit c = false ∧ c ≠ '.') :
    mantissaLength (m ++ rest) = m.length := by
  have stopDigit : ∀ c, rest.head? = some c → Text.isDigit c = false := fun c hc => (stop c hc).1
  have point : Text.isDigit '.' = false := by decide
  cases h with
  | @point whole fraction hw hwhole hfraction =>
    have hpoint : ∀ c, ('.' :: (fraction ++ rest)).head? = some c → Text.isDigit c = false := by
      intro c hc
      obtain rfl := Option.some.inj hc
      exact point
    have positive := List.length_pos_iff.mpr hw
    simp only [mantissaLength, List.append_assoc, List.cons_append,
      takeWhile_append_stop hwhole hpoint, List.drop_left,
      takeWhile_append_stop hfraction stopDigit, List.length_append, List.length_cons]
    split <;> omega
  | @fraction fraction hf hfraction =>
    have positive := List.length_pos_iff.mpr hf
    have none : (('.' :: (fraction ++ rest)).takeWhile Text.isDigit) = [] := by simp [point]
    simp only [mantissaLength, List.cons_append, none, List.length_nil, List.drop_zero,
      takeWhile_append_stop hfraction stopDigit, List.length_cons]
    split <;> omega
  | whole hw hwhole =>
    simp only [mantissaLength, takeWhile_append_stop hwhole stopDigit, List.drop_left]
    split
    · exact absurd rfl (stop _ rfl).2
    · rfl

theorem exponentLength_append {e rest : List Char} (h : IsExponent e) (stops : Stops rest) :
    exponentLength (e ++ rest) = e.length := by
  have stopDigit : ∀ c, rest.head? = some c → Text.isDigit c = false := by
    intro c hc
    rw [stops c hc]
    decide
  cases h with
  | none =>
    cases rest with
    | nil => rfl
    | cons c cs =>
      obtain rfl := stops c rfl
      rfl
  | @some mark sign digits hmark hsign hd hdigits =>
    obtain ⟨d, ds, rfl⟩ := List.exists_cons_of_ne_nil hd
    have first : Text.isDigit d := hdigits d List.mem_cons_self
    have plus : d ≠ '+' := by rintro rfl; revert first; decide
    have minus : d ≠ '-' := by rintro rfl; revert first; decide
    have body := takeWhile_append_stop hdigits stopDigit
    simp only [List.cons_append] at body
    rcases hsign with rfl | rfl | rfl
    · simp [exponentLength, hmark, body, plus, minus]
      omega
    · simp [exponentLength, hmark, body]
      omega
    · simp [exponentLength, hmark, body]
      omega

theorem numeralLength_append {s : String} (h : IsNumber s) {rest : List Char}
    (stops : Stops rest) : numeralLength (s.toList ++ rest) = s.toList.length := by
  obtain ⟨m, e, hs, hm, he⟩ := h
  have positive : 0 < m.length := List.length_pos_iff.mpr hm.ne_nil
  have mantissa : mantissaLength (m ++ (e ++ rest)) = m.length := by
    refine mantissaLength_append hm fun c hc => ?_
    cases e with
    | nil =>
      rw [stops c hc]
      decide
    | cons => exact exponent_stops he c hc
  obtain ⟨n, hn⟩ := Nat.exists_eq_succ_of_ne_zero (Nat.ne_of_gt positive)
  rw [hs, List.append_assoc, numeralLength, mantissa, hn]
  dsimp only
  rw [← Nat.succ_eq_add_one, ← hn, List.drop_left, exponentLength_append he stops,
    List.length_append]

theorem first?_numeral {s : String} (h : IsNumber s) {rest : List Char} (stops : Stops rest) :
    Lexeme.first? (s.toList ++ rest) = some (.numeral s) := by
  have length := numeralLength_append h stops
  obtain ⟨c, cs, hc, first⟩ := h.head
  have start : isWordStart c = false := by
    rcases first with digit | rfl
    · exact not_isWordStart_of_isDigit digit
    · decide
  have whole : (s.toList ++ rest).take (cs.length + 1) = s.toList := by simp [hc]
  rw [hc, List.cons_append] at length whole ⊢
  rw [Lexeme.first?, start, length, List.length_cons]
  simp only [whole, ← hc, String.ofList_toList]
  rfl

/-! ## Lexemes -/

theorem first?_mark (m : Mark) {rest : List Char} (stops : Stops rest) :
    Lexeme.first? (m.spelling ++ rest) = some (.mark m) := by
  cases rest with
  | nil => cases m <;> rfl
  | cons c cs =>
    obtain rfl := stops c rfl
    cases m <;> rfl

theorem first?_valid {l : Lexeme} (h : l.Valid) {rest : List Char} (stops : Stops rest) :
    Lexeme.first? (l.chars ++ rest) = some l := by
  cases l with
  | word s => exact first?_word h stops
  | numeral s => exact first?_numeral h stops
  | mark m => exact first?_mark m stops

/-- A lexeme begins with a character outside gaps, and with a slash only if it is one. -/
theorem chars_eq_cons {l : Lexeme} (h : l.Valid) :
    ∃ c cs, l.chars = c :: cs ∧ isGapChar c = false ∧ (c = '/' → cs = []) := by
  have outside {c : Char} (hc : isWordStart c ∨ Text.isDigit c ∨ c = '.') :
      isGapChar c = false ∧ c ≠ '/' := by
    constructor
    · by_cases gap : isGapChar c
      · simp only [isGapChar, Bool.or_eq_true, beq_iff_eq] at gap
        rcases gap with (((rfl | rfl) | rfl) | rfl) | rfl <;> revert hc <;> decide
      · simpa using gap
    · rintro rfl
      revert hc
      decide
  cases l with
  | word s =>
    obtain ⟨c, cs, hs, start, _⟩ := h
    obtain ⟨gap, slash⟩ := outside (Or.inl (isWordStart_iff.mpr start))
    exact ⟨c, cs, hs, gap, fun hc => absurd hc slash⟩
  | numeral s =>
    obtain ⟨c, cs, hs, first⟩ := h.head
    obtain ⟨gap, slash⟩ := outside (Or.inr first)
    exact ⟨c, cs, hs, gap, fun hc => absurd hc slash⟩
  | mark m => cases m <;> exact ⟨_, _, rfl, by decide, by decide⟩

theorem skipGap_lexeme {l : Lexeme} (h : l.Valid) {rest : List Char} (stops : Stops rest)
    (place : Place) (offset : Nat) :
    skipGap place offset false (l.chars ++ rest) = ⟨place, offset, l.chars ++ rest⟩ := by
  obtain ⟨c, cs, hc, gap, slash⟩ := chars_eq_cons h
  have comment : ¬(c = '/' ∧ (cs ++ rest).head? = some '/') := by
    rintro ⟨rfl, head⟩
    rw [slash rfl] at head
    exact absurd (stops '/' head) (by decide)
  rw [hc, List.cons_append, skipGap, if_neg Bool.false_ne_true, gap, if_neg Bool.false_ne_true,
    if_neg comment]

/-! ## Texts -/

/-- Lexemes with a space before each. -/
def spacedChars : List Lexeme → List Char
  | [] => []
  | l :: ls => ' ' :: (l.chars ++ spacedChars ls)

theorem stops_spacedChars (ls : List Lexeme) : Stops (spacedChars ls) := by
  cases ls with
  | nil => exact .nil
  | cons l ls => exact .space _

theorem toList_spaced_cons (l : Lexeme) (ls : List Lexeme) :
    (spaced (l :: ls)).toList = l.chars ++ spacedChars ls := by
  induction ls generalizing l with
  | nil => simp [spaced, spacedChars, Lexeme.text]
  | cons l' ls ih =>
    have tail := ih l'
    simp only [spaced, List.map_cons, String.intercalate_cons_cons, String.toList_append] at tail ⊢
    rw [tail, spacedChars]
    simp [Lexeme.text]

/-- One lexeme is scanned, and then what follows it. -/
theorem scanFrom_lexeme {l : Lexeme} (h : l.Valid) {rest : List Char} (stops : Stops rest)
    {done : List Token} {here : Cursor} (past : here.pastGap.rest = l.chars ++ rest) :
    ∃ t next, t.lexeme = l ∧ next.rest = rest ∧
      scanFrom done here = scanFrom (t :: done) next := by
  refine ⟨⟨l, here.pastGap.place, here.pastGap.offset⟩, here.pastGap.advance l.chars.length, rfl,
    by simp [Cursor.advance, past], ?_⟩
  have first : Lexeme.first? here.pastGap.rest = some l := past ▸ first?_valid h stops
  rw [scanFrom]
  split
  · rename_i none
    rw [first] at none
    cases none
  · rename_i l' some
    rw [first] at some
    cases some
    rfl

theorem scanFrom_spacedChars {ls : List Lexeme} (h : ∀ l ∈ ls, l.Valid) (done : List Token)
    {here : Cursor} (rest : here.rest = spacedChars ls) :
    ∃ ts, scanFrom done here = (done.reverse ++ ts, .finished) ∧ ts.map (·.lexeme) = ls := by
  induction ls generalizing done here with
  | nil =>
    have past : here.pastGap.rest = [] := by rw [Cursor.pastGap, rest]; rfl
    refine ⟨[], ?_, rfl⟩
    rw [scanFrom]
    split
    · simp [Cursor.ending, past]
    · rename_i some
      rw [past] at some
      cases some
  | cons l ls ih =>
    obtain ⟨hl, hls⟩ := List.forall_mem_cons.mp h
    have past : here.pastGap.rest = l.chars ++ spacedChars ls := by
      rw [Cursor.pastGap, rest, spacedChars, skipGap]
      simp [isGapChar, skipGap_lexeme hl (stops_spacedChars ls)]
    obtain ⟨t, next, ht, hnext, step⟩ := scanFrom_lexeme hl (stops_spacedChars ls) past
    obtain ⟨ts, scanned, lexemes⟩ := ih hls (t :: done) hnext
    refine ⟨t :: ts, ?_, by simp [ht, lexemes]⟩
    rw [step, scanned]
    simp

theorem scan_spaced {ls : List Lexeme} (h : ∀ l ∈ ls, l.Valid) :
    ∃ ts, scan (spaced ls).toList = (ts, .finished) ∧ ts.map (·.lexeme) = ls := by
  cases ls with
  | nil =>
    refine scanFrom_spacedChars h [] ?_
    simp [spaced, Cursor.start, spacedChars]
  | cons l ls =>
    obtain ⟨hl, hls⟩ := List.forall_mem_cons.mp h
    have past : (Cursor.start (spaced (l :: ls)).toList).pastGap.rest =
        l.chars ++ spacedChars ls := by
      rw [Cursor.pastGap, Cursor.start, toList_spaced_cons,
        skipGap_lexeme hl (stops_spacedChars ls)]
    obtain ⟨t, next, ht, hnext, step⟩ := scanFrom_lexeme hl (stops_spacedChars ls) past
    obtain ⟨ts, scanned, lexemes⟩ := scanFrom_spacedChars hls [t] hnext
    refine ⟨t :: ts, ?_, by simp [ht, lexemes]⟩
    rw [scan, step, scanned]
    rfl

end Source

end Scriptlet
