import Scriptlet.Proofs.Grammar
/-!
# How a text is cut

A text that is scanned to its end is a series of lexemes with gaps between them (`Cuts`): nothing
is left over, every lexeme is spelled as its terminal asks, and no word ends in front of a character
that could go on with it.
-/

namespace Scriptlet

theorem drop_length_takeWhile {α : Type} (p : α → Bool) (as : List α) :
    as.drop (as.takeWhile p).length = as.dropWhile p := by
  conv => lhs; arg 2; rw [← List.takeWhile_append_dropWhile (p := p) (l := as)]
  exact List.drop_left

namespace Source

/-! ## Gaps -/

/-- White space, and comments with the line feed that ends them. -/
inductive IsGap : List Char → Prop
  | nil : IsGap []
  | space {c cs} : c ∈ [' ', '\t', '\x0c', '\r', '\n'] → IsGap cs → IsGap (c :: cs)
  | comment {body cs} : '\n' ∉ body → IsGap cs → IsGap ('/' :: '/' :: (body ++ '\n' :: cs))

/-- A gap at the end of a text, where a comment may be open. -/
inductive IsLastGap : List Char → Prop
  | closed {cs} : IsGap cs → IsLastGap cs
  | comment {cs body} : IsGap cs → '\n' ∉ body → IsLastGap (cs ++ '/' :: '/' :: body)

theorem IsGap.append {cs ds : List Char} (h : IsGap cs) (h' : IsGap ds) : IsGap (cs ++ ds) := by
  induction h with
  | nil => exact h'
  | space hc _ ih => exact .space hc ih
  | comment hb _ ih =>
    simp only [List.cons_append, List.append_assoc]
    exact .comment hb ih

theorem IsGap.appendLast {cs ds : List Char} (h : IsGap cs) (h' : IsLastGap ds) :
    IsLastGap (cs ++ ds) := by
  cases h' with
  | closed hd => exact .closed (h.append hd)
  | comment hd hb =>
    rw [← List.append_assoc]
    exact .comment (h.append hd) hb

/-- A gap ends with white space. -/
theorem IsGap.getLast? {cs : List Char} (h : IsGap cs) {c : Char} (hc : cs.getLast? = some c) :
    c ∈ [' ', '\t', '\x0c', '\r', '\n'] := by
  induction h with
  | nil => cases hc
  | @space d ds hd _ ih =>
    cases ds with
    | nil =>
      obtain rfl := Option.some.inj hc
      exact hd
    | cons e es => exact ih (by simpa using hc)
  | @comment body ds _ _ ih =>
    have hc : (('/' :: '/' :: body) ++ '\n' :: ds).getLast? = some c := hc
    rw [List.getLast?_append] at hc
    cases ds with
    | nil =>
      obtain rfl := Option.some.inj hc
      decide
    | cons e es => exact ih (by simpa using hc)

/-- What may be skipped on the way from one text to the rest of it. -/
def Skips (cs rest : List Char) : Prop :=
  ∃ gap, cs = gap ++ rest ∧ (IsGap gap ∨ rest = [] ∧ IsLastGap gap)

theorem Skips.refl (cs : List Char) : Skips cs cs := ⟨[], rfl, Or.inl .nil⟩

theorem IsGap.skips {gap cs rest : List Char} (h : IsGap gap) (h' : Skips cs rest) :
    Skips (gap ++ cs) rest := by
  obtain ⟨gap', rfl, closed | ⟨ended, last⟩⟩ := h'
  · exact ⟨gap ++ gap', by simp, Or.inl (h.append closed)⟩
  · exact ⟨gap ++ gap', by simp, Or.inr ⟨ended, h.appendLast last⟩⟩

/-- A comment that is open begins with two slashes, of which the second may still be to come. -/
theorem eq_of_comment {read cs : List Char} (slashes : ['/', '/'] <+: read ++ cs)
    (ended : cs.head? ≠ some '/') : ∃ body, read = '/' :: '/' :: body := by
  obtain ⟨rest, hrest⟩ := slashes
  rcases read with _ | ⟨a, _ | ⟨b, body⟩⟩
  · rw [List.nil_append] at hrest
    simp [← hrest] at ended
  · obtain ⟨rfl, rfl⟩ : '/' = a ∧ '/' :: rest = cs := by simpa using hrest
    simp at ended
  · obtain ⟨rfl, rfl, _⟩ : '/' = a ∧ '/' = b ∧ rest = body ++ cs := by simpa using hrest
    exact ⟨body, rfl⟩

theorem skipGap_skips (cs : List Char) (place : Place) (offset : Nat) :
    Skips cs (skipGap place offset false cs).rest ∧
    ∀ read, '\n' ∉ read → ['/', '/'] <+: read ++ cs →
      Skips (read ++ cs) (skipGap place offset true cs).rest := by
  induction cs generalizing place offset with
  | nil =>
    refine ⟨.refl [], fun read hr slashes => ?_⟩
    obtain ⟨body, rfl⟩ := eq_of_comment slashes (by simp)
    have hb : '\n' ∉ body := by simp at hr; exact hr
    exact ⟨_, rfl, Or.inr ⟨rfl, by simpa using IsLastGap.comment .nil hb⟩⟩
  | cons c cs ih =>
    constructor
    · simp only [skipGap]
      split
      · contradiction
      · split
        · rename_i gap
          have space : c ∈ [' ', '\t', '\x0c', '\r', '\n'] := by
            simpa [isGapChar, or_assoc] using gap
          exact (IsGap.space space .nil).skips (ih _ _).1
        · split
          · rename_i slashes
            obtain ⟨rfl, head⟩ := slashes
            obtain ⟨ds, rfl⟩ := List.head?_eq_some_iff.mp head
            exact (ih _ _).2 ['/'] (by decide) ⟨ds, rfl⟩
          · exact .refl _
    · intro read hr slashes
      simp only [skipGap, if_true]
      by_cases feed : c = '\n'
      · subst feed
        obtain ⟨body, rfl⟩ := eq_of_comment slashes (by simp)
        have hb : '\n' ∉ body := by simp at hr; exact hr
        have after := (IsGap.comment hb .nil).skips (ih (place.after '\n') (offset + 1)).1
        simpa using after
      · have more : '\n' ∉ read ++ [c] := by simp [hr, Ne.symm feed]
        have after :=
          (ih (place.after c) (offset + 1)).2 (read ++ [c]) more (by simpa using slashes)
        have open_ : (c != '\n') = true := by simpa using feed
        rw [open_]
        simpa using after

theorem isLastGap_of_skipGap {cs : List Char} {place : Place} {offset : Nat}
    (ended : (skipGap place offset false cs).rest = []) : IsLastGap cs := by
  obtain ⟨gap, same, closed⟩ := (skipGap_skips cs place offset).1
  rw [ended, List.append_nil] at same
  rw [same]
  rcases closed with closed | ⟨-, last⟩
  · exact .closed closed
  · exact last

/-! ## Lexemes -/

/-- `[A-Za-z0-9_$]` -/
def InWord (c : Char) : Prop := c.isAlphanum ∨ c = '_' ∨ c = '$'

instance : DecidablePred InWord := fun c =>
  inferInstanceAs (Decidable (c.isAlphanum ∨ c = '_' ∨ c = '$'))

theorem not_of_head?_dropWhile {α : Type} {p : α → Bool} {as : List α} {a : α}
    (h : (as.dropWhile p).head? = some a) : p a = false := by
  have := List.head?_dropWhile_not p as
  rw [h] at this
  simpa using this

open Number

theorem isDigit_of_mem_takeWhile {cs : List Char} :
    ∀ c ∈ cs.takeWhile Text.isDigit, Text.isDigit c :=
  List.all_eq_true.mp List.all_takeWhile

/-- A length that is not zero is that of a mantissa. -/
theorem mantissaLength_cut {cs : List Char} (h : mantissaLength cs ≠ 0) :
    ∃ mantissa rest, cs = mantissa ++ rest ∧ IsMantissa mantissa ∧
      mantissaLength cs = mantissa.length := by
  have cut := List.takeWhile_append_dropWhile (p := Text.isDigit) (l := cs)
  rw [mantissaLength] at h ⊢
  simp only [drop_length_takeWhile] at h ⊢
  split at h
  · rename_i rest point
    have cutRest := List.takeWhile_append_dropWhile (p := Text.isDigit) (l := rest)
    split at h
    · contradiction
    · rename_i some
      rw [if_neg some]
      refine ⟨cs.takeWhile Text.isDigit ++ '.' :: rest.takeWhile Text.isDigit,
        rest.dropWhile Text.isDigit, ?_, ?_, ?_⟩
      · rw [List.append_assoc, List.cons_append, cutRest, ← point, cut]
      · by_cases whole : cs.takeWhile Text.isDigit = []
        · rw [whole, List.nil_append]
          refine .fraction (fun fraction => some ?_) isDigit_of_mem_takeWhile
          simp [whole, fraction]
        · exact .point whole isDigit_of_mem_takeWhile isDigit_of_mem_takeWhile
      · simp only [List.length_append, List.length_cons]
        omega
  · refine ⟨_, _, cut.symm, .whole (fun none => h ?_) isDigit_of_mem_takeWhile, rfl⟩
    simp [none]

/-- An exponent has its mark, then at most one sign, then digits. -/
theorem exponentLength_sign {mark : Char} (hmark : mark = 'e' ∨ mark = 'E') (cs : List Char) :
    ∃ sign body, cs = sign ++ body ∧ (sign = [] ∨ sign = ['+'] ∨ sign = ['-']) ∧
      exponentLength (mark :: cs) =
        if body.takeWhile Text.isDigit = [] then 0
        else 1 + sign.length + (body.takeWhile Text.isDigit).length := by
  by_cases plus : ∃ ds, cs = '+' :: ds
  · obtain ⟨ds, rfl⟩ := plus
    refine ⟨['+'], ds, rfl, Or.inr (Or.inl rfl), ?_⟩
    cases h : ds.takeWhile Text.isDigit <;> simp [exponentLength, hmark, h]
  · by_cases minus : ∃ ds, cs = '-' :: ds
    · obtain ⟨ds, rfl⟩ := minus
      refine ⟨['-'], ds, rfl, Or.inr (Or.inr rfl), ?_⟩
      cases h : ds.takeWhile Text.isDigit <;> simp [exponentLength, hmark, h]
    · refine ⟨[], cs, rfl, Or.inl rfl, ?_⟩
      simp only [not_exists] at plus minus
      cases h : cs.takeWhile Text.isDigit <;> simp [exponentLength, hmark, h]

theorem exponentLength_cut (cs : List Char) :
    ∃ exponent rest, cs = exponent ++ rest ∧ IsExponent exponent ∧
      exponentLength cs = exponent.length := by
  rcases cs with _ | ⟨mark, cs⟩
  · exact ⟨[], [], rfl, .none, rfl⟩
  · by_cases hmark : mark = 'e' ∨ mark = 'E'
    · obtain ⟨sign, body, rfl, hsign, length⟩ := exponentLength_sign hmark cs
      rw [length]
      split
      · exact ⟨[], _, rfl, .none, rfl⟩
      · rename_i some
        refine ⟨mark :: (sign ++ body.takeWhile Text.isDigit), body.dropWhile Text.isDigit, ?_,
          .some hmark hsign some isDigit_of_mem_takeWhile, ?_⟩
        · simp [List.takeWhile_append_dropWhile]
        · simp only [List.length_cons, List.length_append]
          omega
    · exact ⟨[], _, rfl, .none, by simp [exponentLength, hmark]⟩

/-- A length that is not zero is that of a numeral. -/
theorem numeralLength_cut {cs : List Char} (h : numeralLength cs ≠ 0) :
    ∃ rest, cs = cs.take (numeralLength cs) ++ rest ∧
      IsNumber (.ofList (cs.take (numeralLength cs))) := by
  have some : mantissaLength cs ≠ 0 := by
    intro none
    simp [numeralLength, none] at h
  obtain ⟨mantissa, rest, hcs, hm, length⟩ := mantissaLength_cut some
  obtain ⟨exponent, rest', hrest, he, length'⟩ := exponentLength_cut rest
  have total : numeralLength cs = (mantissa ++ exponent).length := by
    obtain ⟨n, hn⟩ := Nat.exists_eq_succ_of_ne_zero some
    have after : cs.drop (n + 1) = rest := by
      rw [← Nat.succ_eq_add_one, ← hn, length, hcs, List.drop_left]
    rw [numeralLength, hn]
    dsimp only
    rw [after, length', List.length_append, ← length, hn]
  rw [hrest, ← List.append_assoc] at hcs
  rw [total, hcs, List.take_left]
  exact ⟨rest', rfl, mantissa, exponent, String.toList_ofList, hm, he⟩

/-- A lexeme is cut off the front of a text, and a word as far as it goes. -/
theorem first?_cut {cs : List Char} {l : Lexeme} (h : Lexeme.first? cs = some l) :
    ∃ rest, cs = l.chars ++ rest ∧ l.Valid ∧
      ∀ x, l = .word x → ∀ c, rest.head? = some c → ¬ InWord c := by
  rcases cs with _ | ⟨c, cs⟩
  · cases h
  · rw [Lexeme.first?] at h
    split at h
    · rename_i start
      obtain rfl := Option.some.inj h
      have split := List.takeWhile_append_dropWhile (p := isWordPart) (l := cs)
      refine ⟨cs.dropWhile isWordPart, by simp [Lexeme.chars, split], ?_, ?_⟩
      · exact isIdentifier_of_toList String.toList_ofList start List.all_takeWhile
      · intro _ _ d hd part
        have outside := not_of_head?_dropWhile hd
        rw [isWordPart_iff.mpr part] at outside
        contradiction
    · split at h
      · obtain ⟨m, hm, rfl⟩ := Option.map_eq_some_iff.mp h
        obtain ⟨rest, hrest⟩ : m.spelling <+: c :: cs := by simpa using List.find?_some hm
        exact ⟨rest, hrest.symm, trivial, fun _ same => by cases same⟩
      · rename_i n some
        obtain rfl := Option.some.inj h
        obtain ⟨rest, hrest, number⟩ :=
          numeralLength_cut (show numeralLength (c :: cs) ≠ 0 by omega)
        rw [some] at hrest number
        exact ⟨rest, by simpa [Lexeme.chars] using hrest, number, fun _ same => by cases same⟩

/-! ## Texts -/

/-- A lexeme with the gap in front of it. -/
structure Piece where
  gap : List Char
  lexeme : Lexeme

def Piece.chars (p : Piece) : List Char := p.gap ++ p.lexeme.chars

/-- The text is the pieces in order, and the tail. -/
structure Cuts (text : List Char) (pieces : List Piece) (tail : List Char) : Prop where
  text_eq : text = pieces.flatMap Piece.chars ++ tail
  gaps : ∀ p ∈ pieces, IsGap p.gap
  tail : IsLastGap tail
  lexemes : ∀ p ∈ pieces, p.lexeme.Valid

/-- No word ends in front of a character that could go on with it. -/
def WordsEnd (pieces : List Piece) (tail : List Char) : Prop :=
  ∀ before gap x after, pieces = before ++ ⟨gap, .word x⟩ :: after →
    ∀ c, (after.flatMap Piece.chars ++ tail).head? = some c → ¬ InWord c

/-- No word begins behind a character that could be part of it. -/
def WordsBegin (pieces : List Piece) : Prop :=
  ∀ before gap x after, pieces = before ++ ⟨gap, .word x⟩ :: after →
    ∀ c, (before.flatMap Piece.chars ++ gap).getLast? = some c → ¬ InWord c

theorem Cursor.rest_of_finished {here : Cursor} (h : here.ending = .finished) : here.rest = [] := by
  cases rest : here.rest with
  | nil => rfl
  | cons => simp [ending, rest] at h

theorem scanFrom_cuts {done : List Token} {here : Cursor}
    (finished : (scanFrom done here).2 = .finished) :
    ∃ pieces tail, (scanFrom done here).1.map (·.lexeme) =
        done.reverse.map (·.lexeme) ++ pieces.map (·.lexeme) ∧
      Cuts here.rest pieces tail ∧ WordsEnd pieces tail := by
  fun_induction scanFrom done here with
  | case1 done here none =>
    have ended : here.pastGap.rest = [] := Cursor.rest_of_finished finished
    refine ⟨[], here.rest, by simp, ⟨by simp, by simp, isLastGap_of_skipGap ended, by simp⟩, ?_⟩
    intro before gap x after same
    simp at same
  | case2 done here l cut ih =>
    obtain ⟨pieces, tail, lexemes, cuts, words⟩ := ih finished
    obtain ⟨rest, hrest, valid, stop⟩ := first?_cut cut
    obtain ⟨gap, hgap, closed⟩ := (skipGap_skips here.rest here.place here.offset).1
    have hgap : here.rest = gap ++ here.pastGap.rest := hgap
    have closed : IsGap gap := by
      rcases closed with closed | ⟨ended, _⟩
      · exact closed
      · have ended : here.pastGap.rest = [] := ended
        rw [ended] at cut
        cases cut
    have next : (here.pastGap.advance l.chars.length).rest = rest := by
      simp [Cursor.advance, hrest]
    rw [next] at cuts
    refine ⟨⟨gap, l⟩ :: pieces, tail, by simpa using lexemes, ?_, ?_⟩
    · refine ⟨?_, List.forall_mem_cons.mpr ⟨closed, cuts.gaps⟩, cuts.tail,
        List.forall_mem_cons.mpr ⟨valid, cuts.lexemes⟩⟩
      simp [hgap, hrest, cuts.text_eq, Piece.chars]
    · intro before gap' x after same c hc
      cases before with
      | nil =>
        obtain ⟨hl, rfl⟩ := List.cons.inj same
        rw [← cuts.text_eq] at hc
        exact stop x (Piece.mk.inj hl).2 c hc
      | cons b before => exact words before gap' x after (List.cons.inj same).2 c hc

theorem scan_cuts {cs : List Char} {tokens : List Token} (scanned : scan cs = (tokens, .finished)) :
    ∃ pieces tail, tokens.map (·.lexeme) = pieces.map (·.lexeme) ∧ Cuts cs pieces tail ∧
      WordsEnd pieces tail := by
  have whole : scanFrom [] (.start cs) = (tokens, .finished) := scanned
  have cut := scanFrom_cuts (congrArg (·.2) whole)
  rwa [whole] at cut

theorem not_inWord_of_space {c : Char} (h : c ∈ [' ', '\t', '\x0c', '\r', '\n']) : ¬ InWord c := by
  simp only [List.mem_cons, List.not_mem_nil, or_false] at h
  rcases h with rfl | rfl | rfl | rfl | rfl <;> decide

theorem Mark.not_inWord (m : Mark) {c : Char} (h : m.spelling.getLast? = some c) : ¬ InWord c := by
  cases m <;> obtain rfl := Option.some.inj h <;> decide

theorem IsIdentifier.inWord {x : String} (h : IsIdentifier x) :
    ∃ c, x.toList.head? = some c ∧ InWord c := by
  obtain ⟨c, cs, hx, start, _⟩ := h
  refine ⟨c, by rw [hx]; rfl, ?_⟩
  rcases start with alpha | rfl | rfl
  · exact Or.inl (by simp [Char.isAlphanum, alpha])
  · exact Or.inr (Or.inl rfl)
  · exact Or.inr (Or.inr rfl)

/-- Where no word comes right after a numeral, every word is whole. -/
theorem Cuts.wordsBegin {text tail : List Char} {pieces : List Piece} (h : Cuts text pieces tail)
    (words : WordsEnd pieces tail)
    (apart : ∀ before s x after,
      pieces.map (·.lexeme) ≠ before ++ .numeral s :: .word x :: after) : WordsBegin pieces := by
  intro before gap x after same c hc
  have closed : IsGap gap := h.gaps ⟨gap, .word x⟩ (by simp [same])
  obtain ⟨first, hfirst, inside⟩ := IsIdentifier.inWord (h.lexemes ⟨gap, .word x⟩ (by simp [same]))
  by_cases some : gap = []
  · subst some
    rw [List.append_nil] at hc
    rcases List.eq_nil_or_concat before with rfl | ⟨before, ⟨gap', l⟩, rfl⟩
    · cases hc
    · rw [List.concat_eq_append] at same hc
      rw [List.append_assoc] at same
      cases l with
      | numeral s =>
        exact absurd (by simp [same]) (apart (before.map (·.lexeme)) s x (after.map (·.lexeme)))
      | word y =>
        refine absurd inside (words before gap' y _ same first ?_)
        simp [Piece.chars, Lexeme.chars, List.head?_append, hfirst]
      | mark m =>
        refine m.not_inWord ?_
        obtain ⟨d, hd⟩ := Option.ne_none_iff_exists'.mp
          (mt List.getLast?_eq_none_iff.mp m.spelling_ne_nil)
        simp only [List.flatMap_append, List.flatMap_singleton, Piece.chars, Lexeme.chars,
          List.getLast?_append, hd, Option.some_or] at hc
        rw [hd, hc]
  · refine not_inWord_of_space (closed.getLast? ?_)
    obtain ⟨d, hd⟩ := Option.ne_none_iff_exists'.mp (mt List.getLast?_eq_none_iff.mp some)
    rw [List.getLast?_append, hd, Option.some_or] at hc
    rw [hd, hc]

end Source

end Scriptlet
