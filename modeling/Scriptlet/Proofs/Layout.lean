import Scriptlet.Proofs.Rejection
/-!
# Layout

White space and comments in front of a token or behind it change nothing: the scanner finds the same
lexemes, and the reader, which never compares two places, makes the same tree of them at others.
-/

namespace Scriptlet

mutual

theorem Tree.bare_move (f : Place → Place) : (t : Tree) → (t.move f).bare = t.bare
  | .missing => by rw [move_missing]
  | .token kind text place => by rw [move_token, bare_token, bare_token]
  | .node label place children => by
    rw [move_node, bare, bare, bareAll_move f children]

theorem Tree.bareAll_move (f : Place → Place) :
    (ts : List Tree) → bareAll (ts.map (move f)) = bareAll ts
  | [] => rfl
  | t :: ts => by rw [List.map_cons, bareAll, bareAll, bare_move f t, bareAll_move f ts]

end

namespace Source

/-! ## Insets -/

/-- A gap to be put in: it does not begin with a comment. -/
structure IsInset (cs : List Char) : Prop where
  gap : IsGap cs
  space : ∀ c, cs.head? = some c → isGapChar c

/-- The text from a position on, with an inset in front of each token and one behind it. -/
inductive Cursor.Relaid : Cursor → List Char → Prop
  | rest {here} : Lexeme.first? here.pastGap.rest = none → Relaid here here.rest
  | token {here l gap front back text} : Lexeme.first? here.pastGap.rest = some l →
      here.rest = gap ++ here.pastGap.rest → IsInset front → IsInset back →
      Relaid (here.pastGap.advance l.chars.length) text →
      Relaid here (gap ++ front ++ l.chars ++ back ++ text)

/-- Up to a white space that only the other text has, the texts are the same. -/
def Forks (rest text : List Char) : Prop :=
  text = rest ∨ ∃ front back w more, rest = front ++ back ∧ text = front ++ w :: more ∧ isGapChar w

theorem Forks.append {rest text : List Char} (h : Forks rest text) (cs : List Char) :
    Forks (cs ++ rest) (cs ++ text) := by
  rcases h with rfl | ⟨front, back, w, more, rfl, rfl, gap⟩
  · exact .inl rfl
  · exact .inr ⟨cs ++ front, back, w, more, by simp, by simp, gap⟩

theorem Forks.inset {rest text front : List Char} (h : Forks rest text) (inset : IsInset front) :
    Forks rest (front ++ text) := by
  cases front with
  | nil => exact h
  | cons w more => exact .inr ⟨[], rest, w, more ++ text, rfl, rfl, inset.space w rfl⟩

theorem Cursor.Relaid.forks {here : Cursor} {text : List Char} (h : here.Relaid text) :
    Forks here.rest text := by
  induction h with
  | rest => exact .inl rfl
  | @token here l gap front back text cut whole hf hb _ ih =>
    obtain ⟨rest, split, _⟩ := first?_cut cut
    have next : (here.pastGap.advance l.chars.length).rest = rest := by
      rw [advance, split, List.drop_left]
    rw [next] at ih
    have behind : Forks (l.chars ++ rest) (l.chars ++ (back ++ text)) := (ih.inset hb).append _
    rw [whole, split]
    simpa using (behind.inset hf).append gap

/-- The lexeme in front is the same in both texts. -/
theorem Forks.first? {l : Lexeme} {rest text : List Char} (h : Forks rest text)
    (cut : Lexeme.first? (l.chars ++ rest) = some l) :
    Lexeme.first? (l.chars ++ text) = some l := by
  rcases h with rfl | ⟨front, back, w, more, rfl, rfl, gap⟩
  · exact cut
  · have nonempty : l.chars ++ front ≠ [] :=
      List.append_ne_nil_of_left_ne_nil (Lexeme.chars_ne_nil cut) front
    rw [← List.append_assoc] at cut ⊢
    rw [first?_parted _ _ (parts_of_isGapChar gap) nonempty]
    exact first?_front cut (by simp)

/-! ## Gaps in front -/

theorem rest_skipGap (place place' : Place) (offset offset' : Nat) (comment : Bool)
    (cs : List Char) :
    (skipGap place offset comment cs).rest = (skipGap place' offset' comment cs).rest := by
  induction cs generalizing place place' offset offset' comment with
  | nil => rfl
  | cons c cs ih =>
    simp only [skipGap]
    split
    · exact ih ..
    · split
      · exact ih ..
      · split
        · exact ih ..
        · rfl

theorem rest_skipGap_comment (place : Place) (offset : Nat) {body : List Char} (cs : List Char)
    (plain : '\n' ∉ body) :
    (skipGap place offset true (body ++ '\n' :: cs)).rest =
      (skipGap place offset false cs).rest := by
  induction body generalizing place offset with
  | nil =>
    rw [List.nil_append, skipGap, if_pos rfl]
    exact rest_skipGap ..
  | cons c body ih =>
    obtain ⟨here, plain⟩ := not_or.mp (mt List.mem_cons.mpr plain)
    have open_ : (c != '\n') = true := by simpa using Ne.symm here
    rw [List.cons_append, skipGap, if_pos rfl, open_, ih _ _ plain]
    exact rest_skipGap ..

/-- A gap is skipped, whatever stands behind it. -/
theorem IsGap.rest_skipGap {gap : List Char} (h : IsGap gap) (place : Place) (offset : Nat)
    (cs : List Char) :
    (skipGap place offset false (gap ++ cs)).rest = (skipGap place offset false cs).rest := by
  induction h generalizing place offset with
  | nil => rfl
  | @space c gap hc _ ih =>
    have space : isGapChar c := by simpa [isGapChar, or_assoc] using hc
    rw [List.cons_append, skipGap, if_neg Bool.false_ne_true, if_pos space, ih]
    exact Source.rest_skipGap ..
  | @comment body gap plain _ ih =>
    have slash : ¬isGapChar '/' := by decide
    rw [List.cons_append, List.cons_append, skipGap, if_neg Bool.false_ne_true, if_neg slash,
      if_pos ⟨rfl, rfl⟩, skipGap, if_pos rfl, List.append_assoc]
    refine (rest_skipGap_comment _ _ (gap ++ cs) plain).trans ?_
    exact (ih _ _).trans (Source.rest_skipGap ..)

/-- No gap begins here. -/
def Still (cs : List Char) : Prop := (skipGap .first 0 false cs).rest = cs

theorem still_cons_iff {c : Char} {cs : List Char} :
    Still (c :: cs) ↔ ¬isGapChar c ∧ ¬(c = '/' ∧ cs.head? = some '/') := by
  have shorter (place : Place) (offset : Nat) (comment : Bool) :
      (skipGap place offset comment cs).rest ≠ c :: cs := by
    intro same
    have length := length_skipGap_le place offset comment cs
    rw [same, List.length_cons] at length
    omega
  rw [Still, skipGap, if_neg Bool.false_ne_true]
  by_cases gap : isGapChar c
  · rw [if_pos gap]
    exact iff_of_false (shorter _ _ _) fun h => h.1 gap
  · rw [if_neg gap]
    by_cases slashes : c = '/' ∧ cs.head? = some '/'
    · rw [if_pos slashes]
      exact iff_of_false (shorter _ _ _) fun h => h.2 slashes
    · rw [if_neg slashes]
      exact iff_of_true rfl ⟨gap, slashes⟩

theorem still_skipGap (place : Place) (offset : Nat) (comment : Bool) (cs : List Char) :
    Still (skipGap place offset comment cs).rest := by
  induction cs generalizing place offset comment with
  | nil => rfl
  | cons c cs ih =>
    simp only [skipGap]
    split
    · exact ih ..
    · split
      · exact ih ..
      · rename_i gap
        split
        · exact ih ..
        · rename_i slashes
          exact still_cons_iff.mpr ⟨gap, slashes⟩

/-- Two slashes are no closer together in the other text. -/
theorem Forks.still {cs rest text : List Char} (h : Forks rest text) (some : cs ≠ [])
    (still : Still (cs ++ rest)) : Still (cs ++ text) := by
  obtain ⟨c, cs, rfl⟩ := List.exists_cons_of_ne_nil some
  rw [List.cons_append, still_cons_iff] at still ⊢
  obtain ⟨gap, slashes⟩ := still
  refine ⟨gap, fun ⟨slash, head⟩ => slashes ⟨slash, ?_⟩⟩
  rcases h.append cs with same | ⟨front, back, w, more, whole, whole', space⟩
  · rw [← same, head]
  · cases front with
    | nil =>
      obtain rfl : w = '/' := by simpa [whole'] using head
      exact absurd space (by decide)
    | cons d front =>
      rw [whole'] at head
      rw [whole, ← head]
      rfl

/-- What the scanner skips in front of a lexeme is a gap. -/
theorem Cursor.isGap {here : Cursor} {gap : List Char} {l : Lexeme}
    (cut : Lexeme.first? here.pastGap.rest = some l)
    (whole : here.rest = gap ++ here.pastGap.rest) : IsGap gap := by
  obtain ⟨gap', whole', closed | ⟨ended, _⟩⟩ :=
    (skipGap_skips here.rest here.place here.offset).1
  · obtain rfl : gap = gap' := List.append_cancel_right (whole.symm.trans whole')
    exact closed
  · rw [show here.pastGap.rest = [] from ended] at cut
    cases cut

/-! ## Scanning -/

/-- A text with insets has the lexemes of the text itself. -/
theorem Cursor.Relaid.lexemes {here there : Cursor} {text gap : List Char} (h : here.Relaid text)
    (closed : IsGap gap) (text_eq : there.rest = gap ++ text) {done done' : List Token}
    (same : done'.map (·.lexeme) = done.map (·.lexeme))
    (finished : (scanFrom done here).2 = .finished) :
    (scanFrom done' there).2 = .finished ∧
      (scanFrom done' there).1.map (·.lexeme) = (scanFrom done here).1.map (·.lexeme) := by
  induction h generalizing there gap done done' with
  | @rest here none =>
    have past : there.pastGap.rest = here.pastGap.rest := by
      rw [pastGap, text_eq, closed.rest_skipGap]
      exact rest_skipGap ..
    rw [scanFrom_of_none none] at finished ⊢
    have ended : here.pastGap.rest = [] := rest_of_finished finished
    rw [scanFrom_of_none (past ▸ none), ending, past, ended]
    exact ⟨rfl, by rw [List.map_reverse, same, List.map_reverse]⟩
  | @token here l between front back text cut whole hf hb relaid ih =>
    obtain ⟨rest, split, _⟩ := first?_cut cut
    have next : (here.pastGap.advance l.chars.length).rest = rest := by
      rw [advance, split, List.drop_left]
    have forks : Forks rest (back ++ text) := (next ▸ relaid.forks).inset hb
    have still : Still (l.chars ++ rest) := split ▸ still_skipGap ..
    have past : there.pastGap.rest = l.chars ++ (back ++ text) := by
      have gaps : IsGap (gap ++ (between ++ front)) :=
        closed.append ((isGap cut whole).append hf.gap)
      have text_eq : there.rest = gap ++ (between ++ front) ++ (l.chars ++ (back ++ text)) := by
        simpa using text_eq
      rw [pastGap, text_eq, gaps.rest_skipGap]
      exact (rest_skipGap ..).trans (forks.still (Lexeme.chars_ne_nil cut) still)
    have cut' : Lexeme.first? there.pastGap.rest = some l := by
      rw [past]
      exact forks.first? (split ▸ cut)
    have next' : (there.pastGap.advance l.chars.length).rest = back ++ text := by
      rw [advance, past, List.drop_left]
    rw [scanFrom_of_some cut] at finished ⊢
    rw [scanFrom_of_some cut']
    exact ih hb.gap next' (by rw [List.map_cons, List.map_cons, same]) finished

/-! ## Reading -/

namespace State

variable {f : Place → Place} {above : List Stmt} {st st' : State}

/-- Tokens that are read when they are moved are read where they are. -/
theorem below_run_back {done' : State} (h : st.Below f above st') {g : Token → Token}
    (lexeme : ∀ t, (g t).lexeme = t.lexeme) (place : ∀ t, (g t).place = f t.place) {ts : List Token}
    (read : st'.run (ts.map g) = .ok done') :
    ∃ done, st.run ts = .ok done ∧ done.Below f above done' := by
  induction ts generalizing st st' with
  | nil =>
    cases read
    exact ⟨st, rfl, h⟩
  | cons t ts ih =>
    have next := below_step h t.lexeme t.place
    rw [List.map_cons, State.run, lexeme, place] at read
    rw [State.run]
    generalize st.step t.lexeme t.place = after at next ⊢
    generalize st'.step t.lexeme (f t.place) = after' at next read
    cases next with
    | none => cases read
    | some below => exact ih below read

theorem below_settles_back {next' : State} (h : st.Below f above st') (ended : st'.Settles next') :
    ∃ next, st.Settles next ∧ next.Below f above next' := by
  rcases ended with rfl | ⟨start, test, body, mode, ended⟩
  · exact ⟨st, .inl rfl, h⟩
  · cases h with
    | items => cases mode
    | @other before frames frames' h =>
      cases before with
      | ifTail start' test' body' =>
        cases mode
        have rest := below_endStmt h (.ifOnly start' test' body') true
        rw [show endStmt (Stmt.move f (.ifOnly start' test' body')) true frames' = _ from ended]
          at rest
        generalize ended' : endStmt (.ifOnly start' test' body') true frames = next at rest
        cases rest with
        | some below => exact ⟨_, .inr ⟨_, _, _, rfl, ended'⟩, below⟩
      | _ => cases mode

/-- A moved program is at its end where the program itself is. -/
theorem Below.program?_back {moved : Program} (h : st.Below f above st')
    (ended : st'.program? = some moved) :
    ∃ program, st.program? = some program ∧ moved = above.reverse ++ program.map (Stmt.move f) := by
  obtain ⟨braced, settles⟩ := settles_of_program? ended
  obtain ⟨next, settled, same⟩ := below_settles_back h settles
  generalize reversed : moved.reverse = before at same
  generalize last : (⟨.items before braced, []⟩ : State) = next' at same
  cases same with
  | items h =>
    cases h with
    | bottom =>
      cases last
      refine ⟨_, settled.program?, ?_⟩
      rw [List.reverse_eq_iff.mp reversed, List.reverse_append, List.map_reverse]
    | inside h =>
      cases last
      cases h
  | other h =>
    cases (State.mk.inj last).2
    cases h

end State

/-- The token with nothing but its lexeme. -/
def Token.plain (t : Token) : Token := ⟨t.lexeme, .first, 0⟩

theorem map_plain {ts us : List Token} (same : us.map (·.lexeme) = ts.map (·.lexeme)) :
    us.map Token.plain = ts.map Token.plain := by
  have tokens := congrArg (List.map fun l => (⟨l, .first, 0⟩ : Token)) same
  rwa [List.map_map, List.map_map] at tokens

/-- A text with the lexemes of another one is read as the same program, at other places. -/
theorem readProgram_of_lexemes {cs ds : List Char} {program : Program}
    (read : readProgram cs = .ok program) (finished : (scan ds).2 = .finished)
    (same : (scan ds).1.map (·.lexeme) = (scan cs).1.map (·.lexeme)) :
    ∃ program', readProgram ds = .ok program' ∧
      program'.map (Stmt.move fun _ => .first) = program.map (Stmt.move fun _ => .first) := by
  obtain ⟨ts, st, scanned, run, ended⟩ := readProgram_eq_ok_iff.mp read
  have start : State.Below (fun _ => .first) [] State.start State.start := .items .bottom
  obtain ⟨done, run₁, moved⟩ :=
    State.below_run start (g := Token.plain) (fun _ => rfl) (fun _ => rfl) run
  rw [scanned] at same
  rw [← map_plain same] at run₁
  obtain ⟨st', run', moved'⟩ :=
    State.below_run_back start (g := Token.plain) (fun _ => rfl) (fun _ => rfl) run₁
  obtain ⟨program', ended', same'⟩ := moved'.program?_back (moved.program? ended)
  refine ⟨program', ?_, same'.symm⟩
  exact readProgram_eq_ok_iff.mpr ⟨_, st', Prod.ext rfl finished, run', ended'⟩

theorem Program.bare_tree_eq {p q : Program}
    (same : p.map (Stmt.move fun _ => .first) = q.map (Stmt.move fun _ => .first)) :
    p.tree.bare = q.tree.bare := by
  rw [← Tree.bare_move (fun _ => .first) p.tree, ← tree_move, same, tree_move, Tree.bare_move]

/-- A text that is accepted has a tree. -/
theorem exists_tree (src : String) (accepted : (parse src).isOk = true) :
    ∃ tree, parse src = .ok tree := by
  cases read : parse src with
  | ok tree => exact ⟨tree, rfl⟩
  | error e =>
    rw [read] at accepted
    cases accepted

/-- Insets do not change the tree of a text. -/
theorem layout_is_free {src : String} {tree : Tree} {text : List Char}
    (accepted : parse src = .ok tree) (relaid : (Cursor.start src.toList).Relaid text) :
    ∃ tree', parse (.ofList text) = .ok tree' ∧ tree'.bare = tree.bare := by
  obtain ⟨program, read, rfl⟩ := parse_eq_ok_iff.mp accepted
  obtain ⟨_, _, scanned, _⟩ := readProgram_eq_ok_iff.mp read
  have finished : (scanFrom [] (.start src.toList)).2 = .finished := congrArg (·.2) scanned
  have begun : (Cursor.start text).rest = [] ++ text := rfl
  obtain ⟨finished', lexemes⟩ := relaid.lexemes .nil begun rfl finished
  obtain ⟨program', read', same⟩ := readProgram_of_lexemes read finished' lexemes
  refine ⟨program'.tree, ?_, Program.bare_tree_eq same⟩
  exact parse_eq_ok_iff.mpr ⟨program', by rwa [String.toList_ofList], rfl⟩

/-- A call that is spread over three lines, with a comment inside. -/
theorem layout_is_free_call : ∃ tree tree', parse "f(x);//" = .ok tree ∧
    parse "f\n( // in\nx\t) ;//" = .ok tree' ∧ tree'.bare = tree.bare := by
  have inset {c : Char} {cs : List Char} (space : c ∈ [' ', '\t', '\x0c', '\r', '\n'])
      (rest : IsGap cs) : IsInset (c :: cs) := by
    refine ⟨.space space rest, ?_⟩
    rintro _ ⟨⟩
    simpa [isGapChar, or_assoc] using space
  have comment : IsInset [' ', '/', '/', ' ', 'i', 'n', '\n'] :=
    inset (by decide) (.comment (show '\n' ∉ [' ', 'i', 'n'] by decide) .nil)
  have none : IsInset [] := ⟨.nil, by rintro _ ⟨⟩⟩
  have token (l : Lexeme) {here : Cursor} {back text : List Char}
      (cut : Lexeme.first? here.pastGap.rest = some l) (close : here.rest = [] ++ here.pastGap.rest)
      (hb : IsInset back) (rest : (here.pastGap.advance l.chars.length).Relaid text) :
      here.Relaid ([] ++ [] ++ l.chars ++ back ++ text) := .token cut close none hb rest
  have relaid : (Cursor.start "f(x);//".toList).Relaid "f\n( // in\nx\t) ;//".toList :=
    token (.word "f") (by decide) rfl (inset (by decide) .nil)
      (token (.mark .openParen) (by decide) rfl comment
        (token (.word "x") (by decide) rfl (inset (by decide) .nil)
          (token (.mark .closeParen) (by decide) rfl (inset (by decide) .nil)
            (token (.mark .semicolon) (by decide) rfl none
              (.rest (by decide))))))
  obtain ⟨tree, accepted⟩ := exists_tree "f(x);//" (by decide +kernel)
  obtain ⟨tree', accepted', same⟩ := layout_is_free accepted relaid
  exact ⟨tree, tree', accepted, accepted', same⟩

end Source

end Scriptlet
