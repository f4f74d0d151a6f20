import Scriptlet.Proofs.Endings
import Scriptlet.Proofs.Exhaustion
import Scriptlet.Proofs.Transcripts
/-!
# A file and its text as a whole

A file is run line by line, each line completed. Where the lines are cut at line feeds only, where
each is a program by itself and is run to its end without a return, the text as a whole is the
program of all their statements and leaves the same bindings: completing a line does not change its
program, and a list of statements comes to what its parts come to one after the other.

One line can spoil the next: after a closing brace the word `else` is no name, so that a line that
begins with it is a program by itself but not below a line that ends with a brace.
-/

namespace Scriptlet

/-! ## Reading a text below another one -/

namespace Source

/-- The last token of the text, if it has one, is a closing brace. -/
def EndsBraced (cs : List Char) : Prop :=
  (scan cs).1.getLast?.map (·.lexeme) = some (.mark .closeBrace)

instance (cs : List Char) : Decidable (EndsBraced cs) := inferInstanceAs (Decidable (_ = _))

theorem readProgram_nil : readProgram [] = .ok [] := by
  have nothing : scan [] = ([], .finished) := scanFrom_of_none rfl
  exact readProgram_eq_ok_iff.mpr ⟨[], .start, nothing, rfl, rfl⟩

/-- Where no brace comes last, the reader is at the beginning of a statement like any other. -/
theorem State.eq_of_unbraced {st : State} {ts : List Token} {program : Program}
    (run : start.run ts = .ok st) (ended : st.program? = some program)
    (unbraced : ts.getLast?.map (·.lexeme) ≠ some (.mark .closeBrace)) :
    st = ⟨.items program.reverse false, []⟩ := by
  rcases List.eq_nil_or_concat ts with rfl | ⟨before, t, rfl⟩
  · cases run
    cases ended
    rfl
  · rw [List.concat_eq_append] at run unbraced
    rcases (endsAt_run run).program? ended with ⟨-, same⟩ | brace
    · exact same
    · simp [brace] at unbraced

/-- A text below another one adds its statements to those of the first, moved down, unless it
begins with an `else` that comes after a brace. -/
theorem readProgram_stacked {cs ds : List Char} {above below : Program}
    (hc : readProgram cs = .ok above) (hd : readProgram ds = .ok below)
    (apart : BeginsAfresh ds ∨ ¬EndsBraced cs) :
    readProgram (cs ++ '\n' :: ds) =
      .ok (above ++ below.map (Stmt.move (Place.down (Place.height cs)))) := by
  obtain ⟨ts, st, scanned, run, ended⟩ := readProgram_eq_ok_iff.mp hc
  obtain ⟨us, st', scanned', run', ended'⟩ := readProgram_eq_ok_iff.mp hd
  let f := Place.down (Place.height cs)
  let g := Token.down (Place.height cs) (cs.length + 1)
  suffices joined : ∃ done, State.start.run (ts ++ us.map g) = .ok done ∧
      done.program? = some (above ++ below.map (Stmt.move f)) by
    obtain ⟨done, joined, program⟩ := joined
    exact readProgram_eq_ok_iff.mpr ⟨_, done, scan_feed scanned scanned', joined, program⟩
  by_cases braced : EndsBraced cs
  · cases us with
    | nil =>
      cases run'
      cases ended'
      exact ⟨st, by simpa using run, by simpa using ended⟩
    | cons u us =>
      have afresh := apart.resolve_right (not_not.mpr braced)
      have first : u.lexeme ≠ .word Keyword.elseWord.text := by
        simpa [BeginsAfresh, scanned'] using afresh
      exact State.run_below (f := f) (g := g) (fun _ => rfl) (fun _ => rfl) run ended run' ended'
        first
  · rw [EndsBraced, scanned] at braced
    obtain rfl := State.eq_of_unbraced run ended braced
    have behind : State.Below f above.reverse State.start ⟨.items above.reverse false, []⟩ :=
      .items .bottom
    obtain ⟨done, read, whole⟩ := State.below_run behind (g := g) (fun _ => rfl) (fun _ => rfl) run'
    exact ⟨done, (State.run_append run).trans read, by simpa using whole.program? ended'⟩

/-- Moving a program does not change what its statements are. -/
theorem Program.bare_statements_move (f : Place → Place) (program : Program) :
    (statements (program.map (Stmt.move f))).map Tree.bare = program.statements.map Tree.bare := by
  rw [statements, ← moveBody_eq_map, lowerBody_move, trees_move, List.map_map]
  exact List.map_congr_left fun t _ => Tree.bare_move f t

theorem Program.bare_statements_eq {p q : Program}
    (same : p.map (Stmt.move fun _ => .first) = q.map (Stmt.move fun _ => .first)) :
    p.statements.map Tree.bare = q.statements.map Tree.bare := by
  rw [← bare_statements_move (fun _ => .first) p, same, bare_statements_move]

end Source

/-! ## Statements at other places -/

theorem Tree.forall₂_bare {ts ts' : List Tree} (same : ts.map bare = ts'.map bare) :
    List.Forall₂ (fun t t' => t.bare = t'.bare) ts ts' := by
  rwa [← List.forall₂_eq_eq_eq, List.forall₂_map_left_iff, List.forall₂_map_right_iff] at same

namespace Comparison

open Source

section

variable {c : Comparison} {rounds depth : Nat} {ts ts' : List Tree}
  (tooDeep : c.excused .tooDeep)
include tooDeep

/-- The end of a list is run as if it were in the middle, with one level less. -/
theorem agree_last_list (same : List.Forall₂ c.tree ts ts') (spines : ∀ t ∈ ts', t.Spine) :
    c.Agree c.Completions ((evaluator rounds depth).list (evaluator rounds depth).last ts)
      ((evaluator rounds (depth + 1)).list (evaluator rounds (depth + 1)).stmt ts') := by
  induction same with
  | nil => exact .pure Bodies.completions_undefined
  | cons here others ih =>
    obtain ⟨spine, spines⟩ := List.forall_mem_cons.mp spines
    cases others with
    | nil => exact agree_last_stmt tooDeep spine here
    | cons =>
      have first := (evaluators_of_le tooDeep rounds (Nat.le_succ depth)).stmt here
      exact c.parallel.andThen first (ih spines)

/-- A program by itself is run like its statements one after the other. -/
theorem agree_statements {p : Program} (same : List.Forall₂ c.tree p.statements ts)
    (spines : ∀ t ∈ ts, t.Spine) :
    c.Agree c.Completions ((evaluator rounds depth).stmt p.tree)
      ((evaluator rounds depth).list (evaluator rounds depth).stmt ts) := by
  match depth, p, same with
  | 0, _, _ => exact fun _ _ _ _ machines => .excused tooDeep machines.stack
  | depth + 1, [], .nil => exact fun _ _ _ _ machines => .ok Bodies.completions_undefined machines
  | depth + 1, [s], .cons here .nil => exact (evaluators_refl c rounds (depth + 1)).stmt here
  | depth + 1, s :: s' :: ss, same =>
    rw [stmt_tree (by simp)]
    exact agree_last_list tooDeep same spines

end

/-- Both runs are of the same trees at whatever places, the first one perhaps with too little
depth. -/
def unplaced : Comparison where
  tree t t' := t.bare = t'.bare
  place _ _ := True
  excused := (·.failure.HitsLimit)
  alike := by
    intro t t' same
    cases t with
    | missing =>
      cases t' <;> simp only [Tree.bare_missing, Tree.bare_token, Tree.bare_node, reduceCtorEq]
        at same
      exact .missing
    | token kind text place =>
      cases t' <;> simp only [Tree.bare_missing, Tree.bare_token, Tree.bare_node, reduceCtorEq,
        Tree.token.injEq, and_true] at same
      obtain ⟨rfl, rfl⟩ := same
      exact .token
    | node label place children =>
      cases t' <;> simp only [Tree.bare_missing, Tree.bare_token, Tree.bare_node, reduceCtorEq,
        Tree.node.injEq, true_and] at same
      obtain ⟨rfl, same⟩ := same
      exact .node (Tree.forall₂_bare same)
  placeless := trivial
  outer _ _ := trivial
  excused_fault := Stop.hitsLimit_fault
  excused_call := Stop.hitsLimit_calls

end Comparison

/-! ## Actions that go on -/

/-- The action ends without a return, and leaves the second machine. -/
def Eval.GoesOn (x : Eval Completion) (m n : Machine) : Prop :=
  ∃ e, x m = .ok e n ∧ e.returned = none

open Evaluator

theorem goesOn_undefined (m : Machine) : Eval.GoesOn (pure .undefined) m m := ⟨_, rfl, rfl⟩

theorem Eval.GoesOn.andThen_eq {x y : Eval Completion} {m n : Machine} (h : x.GoesOn m n) :
    andThen x y m = y n := by
  obtain ⟨e, ended, goesOn⟩ := h
  simp [andThen, Bind.bind, EStateM.bind, ended, goesOn]

/-- The statements of two lists go on if those of the one do and then those of the other. -/
theorem goesOn_list_append {inner : Evaluator} {ps qs : List Tree} {m n k : Machine}
    (above : (inner.list inner.stmt ps).GoesOn m n)
    (below : (inner.list inner.stmt qs).GoesOn n k) :
    (inner.list inner.stmt (ps ++ qs)).GoesOn m k := by
  by_cases noneAbove : ps = []
  · subst noneAbove
    obtain ⟨_, ended, _⟩ := above
    cases ended
    exact below
  · by_cases noneBelow : qs = []
    · subst noneBelow
      obtain ⟨_, ended, _⟩ := below
      cases ended
      rwa [List.append_nil]
    · obtain ⟨e, ended, goesOn⟩ := below
      rw [list_append _ noneAbove noneBelow]
      exact ⟨e, above.andThen_eq.trans ended, goesOn⟩

namespace Comparison

variable {c : Comparison} {x y : Eval Completion} {m m' n : Machine}

theorem Heaps.machines (heaps : c.Heaps m m') :
    c.Machines ⟨m.journal, m'.journal, m.store.stack, m'.store.stack⟩ m m' :=
  ⟨heaps.frames, heaps.captured, heaps.anonymous, ⟨[], [], .nil, rfl, rfl⟩, rfl, rfl⟩

/-- Runs that agree both go on if the first one does. -/
theorem Heaps.goesOn (heaps : c.Heaps m m') (agree : c.Agree c.Completions x y)
    (first : x.GoesOn m n) : ∃ n', y.GoesOn m' n' ∧ c.Heaps n n' := by
  obtain ⟨e, ended, goesOn⟩ := first
  have ends := agree _ m m' (congrArg List.head? heaps.stack) heaps.machines
  rw [ended] at ends
  generalize again : y m' = r at ends
  cases ends with
  | @ok _ e' _ n' same machines =>
    have returned := same.isSome_returned
    rw [goesOn] at returned
    exact ⟨n', ⟨e', again, by simpa using returned.symm⟩, machines.heaps heaps.stack⟩

/-- The same names are bound in the same order. -/
theorem Heaps.bindings (heaps : c.Heaps m m') :
    List.Forall₂ (Slot.Alike c.Data) m.store.bindings m'.store.bindings := by
  have top : m.store.top = m'.store.top := (List.cons.inj heaps.stack).1
  have chains : List.Forall₂ c.Frames (m.store.chain m.store.top) (m'.store.chain m.store.top) :=
    Corresponds.chain strictMono_id heaps.frames (fun _ _ same => same.parent_map) _
  have visible : List.Forall₂ (Slot.Alike c.Data) m.store.visible m'.store.visible := by
    rw [Store.visible, Store.visible, ← top]
    generalize m.store.chain m.store.top = fs at chains ⊢
    generalize m'.store.chain m.store.top = fs' at chains ⊢
    induction chains with
    | nil => exact .nil
    | cons here _ ih => exact Slots.putAll_alike ih here.slots
  refine List.rel_filter ?_ visible
  rintro ⟨name, d⟩ ⟨name', d'⟩ ⟨rfl, -⟩
  exact Iff.rfl

end Comparison

/-- A closure without the places in its body. -/
def Closure.bare (f : Closure) : Closure := { f with body := f.body.bare }

def Datum.bare (d : Datum) : Datum := ⟨d.value, d.function.map Closure.bare⟩

def Slots.bare (slots : Slots) : Slots := slots.map fun (name, d) => (name, d.bare)

namespace Comparison

variable {m m' : Machine}

section

variable {c : Comparison} (trees : ∀ {t t' : Tree}, c.tree t t' → t.bare = t'.bare)
include trees

theorem Closures.bare_eq {f f' : Closure} (h : c.Closures f f') : f.bare = f'.bare := by
  obtain ⟨params, body, name, scope⟩ := f
  obtain ⟨params', body', name', scope'⟩ := f'
  obtain ⟨rfl, same, rfl, rfl⟩ := h
  exact congrArg (Closure.mk params · name scope) (trees same)

theorem Data.bare_eq {d d' : Datum} (h : c.Data d d') : d.bare = d'.bare := by
  obtain ⟨v, f⟩ := d
  obtain ⟨v', f'⟩ := d'
  obtain ⟨rfl, function⟩ := h
  cases function with
  | none => rfl
  | some same => exact congrArg (fun f => Datum.mk v (some f)) (Closures.bare_eq trees same)

/-- Places apart, both machines bind the same data to the same names. -/
theorem Heaps.bindings_bare (heaps : c.Heaps m m') :
    m.store.bindings.bare = m'.store.bindings.bare := by
  rw [Slots.bare, Slots.bare, ← List.forall₂_eq_eq_eq, List.forall₂_map_left_iff,
    List.forall₂_map_right_iff]
  exact heaps.bindings.imp fun _ _ same => Prod.ext same.name (same.datum.bare_eq trees)

end

/-- What is taken for one another does not depend on the journals. -/
theorem Heaps.of_store {c : Comparison} {n n' : Machine} (heaps : c.Heaps m m')
    (store : n.store = m.store) (anonymous : n.anonymous = m.anonymous)
    (store' : n'.store = m'.store) (anonymous' : n'.anonymous = m'.anonymous) :
    c.Heaps n n' := by
  obtain ⟨frames, captured, stack, names⟩ := heaps
  constructor
  all_goals simpa only [store, store', anonymous, anonymous']

theorem Heaps.refl {c : Comparison} (hr : ∀ t, c.tree t t) (m : Machine) : c.Heaps m m :=
  (Machines.of_sameFrames hr ⟨rfl, rfl, rfl⟩).heaps rfl

end Comparison

/-! ## Pieces run in turn -/

/-- The machine after some fragments, if each of them is run to its end without a return. -/
def Machine.runAll? (limits : Limits) : List String → Machine → Option Machine
  | [], m => some m
  | src :: srcs, m =>
    match m.run limits src with
    | (.ok e, n) => if e.returned.isSome then none else n.runAll? limits srcs
    | (.error _, _) => none

open Source Comparison

section

variable {limits : Limits} {src : String} {srcs : List String} {m n : Machine}

theorem Machine.exists_of_runAll? (ran : m.runAll? limits (src :: srcs) = some n) :
    ∃ program next, readProgram src.toList = .ok program ∧ program.nesting ≤ limits.depth ∧
      ((evaluator limits.rounds limits.depth).stmt program.tree).GoesOn
        (m.record (.fragment src)) next ∧ next.runAll? limits srcs = some n := by
  cases read : readProgram src.toList with
  | error e => simp [runAll?, Machine.run, read] at ran
  | ok program =>
    by_cases fits : program.nesting ≤ limits.depth
    · rw [runAll?, Machine.run_eq read fits, Eval.outcome] at ran
      cases ended : (evaluator limits.rounds limits.depth).stmt program.tree
          (m.record (.fragment src)) with
      | error stop next => simp [ended] at ran
      | ok e next =>
        by_cases goesOn : e.returned = none
        · exact ⟨program, next, rfl, fits, ⟨e, ended, goesOn⟩, by simpa [ended, goesOn] using ran⟩
        · have returns : e.returned.isSome := Option.isSome_iff_ne_none.mpr goesOn
          simp [ended, returns] at ran
    · simp [runAll?, Machine.run, read, Nat.lt_of_not_le fits] at ran

theorem Machine.run_of_goesOn {program : Program} (read : readProgram src.toList = .ok program)
    (fits : program.nesting ≤ limits.depth)
    (ended : ((evaluator limits.rounds limits.depth).stmt program.tree).GoesOn
      (m.record (.fragment src)) n) : ∃ e, m.run limits src = (.ok e, n) ∧ e.returned = none := by
  obtain ⟨e, ended, goesOn⟩ := ended
  refine ⟨e, ?_, goesOn⟩
  simp only [Machine.run_eq read fits, Eval.outcome, ended]

/-- A line whose program goes on by itself goes on in a file. -/
theorem runLines_goesOn (log : Bool) {program : Program} {next m' : Machine}
    (read : readProgram src.toList = .ok program) (fits : program.nesting ≤ limits.depth)
    (ended : ((evaluator limits.rounds limits.depth).stmt program.tree).GoesOn m next)
    (heaps : unplaced.Heaps m m') (srcs : List String) : ∃ next', unplaced.Heaps next next' ∧
      (ScriptFile.runLines limits log (src :: srcs) m').trouble =
        (ScriptFile.runLines limits log srcs next').trouble ∧
      (ScriptFile.runLines limits log (src :: srcs) m').machine =
        (ScriptFile.runLines limits log srcs next').machine := by
  obtain ⟨program', read', same⟩ := readProgram_complete read
  by_cases blank : complete src = ""
  -- Nothing is left of a blank line, and its program does nothing.
  · rw [blank] at read'
    obtain rfl : program' = [] := Except.ok.inj (read'.symm.trans readProgram_nil)
    have agree : unplaced.Agree unplaced.Completions
        ((evaluator limits.rounds limits.depth).stmt program.tree) (pure .undefined) :=
      agree_statements Failure.HitsLimit.nesting
        (Tree.forall₂_bare (Program.bare_statements_eq same).symm) (spine_body [])
    obtain ⟨_, ⟨_, skipped, _⟩, heaps⟩ := heaps.goesOn agree ended
    cases skipped
    exact ⟨m', heaps, by simp [ScriptFile.runLines, blank]⟩
  · have fits' : program'.nesting ≤ limits.depth := by
      rwa [← Program.nesting_move (fun _ => .first), same, Program.nesting_move]
    have agree := (evaluators_refl unplaced limits.rounds limits.depth).stmt
      (Program.bare_tree_eq same).symm
    have recorded : unplaced.Heaps m (m'.record (.fragment (complete src))) :=
      heaps.of_store rfl rfl rfl rfl
    obtain ⟨next', ended', heaps'⟩ := recorded.goesOn agree ended
    obtain ⟨e, ran, -⟩ := Machine.run_of_goesOn read' fits' ended'
    refine ⟨(next'.flush log).2, heaps'.of_store rfl rfl rfl rfl, ?_⟩
    simp [ScriptFile.runLines, blank, ran]

/-- As the lines of a file, the pieces leave what they leave by themselves. -/
theorem runLines_pieces (log : Bool) (ran : m.runAll? limits srcs = some n) {m' : Machine}
    (heaps : unplaced.Heaps m m') :
    (ScriptFile.runLines limits log srcs m').trouble = none ∧
      unplaced.Heaps n (ScriptFile.runLines limits log srcs m').machine := by
  induction srcs generalizing m m' with
  | nil =>
    cases ran
    exact ⟨rfl, heaps⟩
  | cons src srcs ih =>
    obtain ⟨program, next, read, fits, ended, rest⟩ := Machine.exists_of_runAll? ran
    have recorded : unplaced.Heaps (m.record (.fragment src)) m' :=
      heaps.of_store rfl rfl rfl rfl
    obtain ⟨next', heaps', trouble, machine⟩ := runLines_goesOn log read fits ended recorded srcs
    rw [trouble, machine]
    exact ih rest heaps'

end

/-! ## The pieces of a text -/

namespace Text

/-- A text with one spelling of the line feed. -/
def unified (s : String) : String := .ofList (unifyFeeds s.toList)

/-- What stands between the line feeds of a text. -/
def pieces (s : String) : List String := (s.toList.splitOn '\n').map .ofList

/-- Nothing but a line feed ends a line. -/
def FeedsOnly (cs : List Char) : Prop := ∀ c ∈ cs, isBoundary c → c = '\n'

theorem feedsOnly_iff {cs : List Char} :
    FeedsOnly cs ↔ cs.all fun c => !isBoundary c || c == '\n' := by
  simp [FeedsOnly, imp_iff_not_or]

instance (cs : List Char) : Decidable (FeedsOnly cs) := decidable_of_iff _ feedsOnly_iff.symm

theorem intercalate_pieces (s : String) : "\n".intercalate (pieces s) = s := by
  rw [← String.toList_inj, String.toList_intercalate, pieces]
  simp [List.intercalate_splitOn]

theorem exists_pieces (s : String) : ∃ piece rest, pieces s = piece :: rest :=
  List.exists_cons_of_ne_nil (by simp [pieces])

/-- The lines are what stands between the line feeds, but for a final empty line. -/
theorem cutLines_splitOn {cs : List Char} (feeds : FeedsOnly cs) :
    cutLines cs = cs.splitOn '\n' ∨ cutLines cs ++ [[]] = cs.splitOn '\n' := by
  induction cs with
  | nil => exact .inr rfl
  | cons c cs ih =>
    have rest := ih fun d hd => feeds d (List.mem_cons_of_mem _ hd)
    have some := List.splitOn_ne_nil '\n' cs
    rw [cutLines, List.foldr_cons, ← cutLines, List.splitOn_cons_eq_if_modifyHead]
    by_cases feed : c = '\n'
    · subst feed
      have ends : isBoundary '\n' = true := by decide
      simpa [consLine, ends] using rest
    · have goesOn : isBoundary c = false := by
        simpa using mt (feeds c List.mem_cons_self) feed
      cases lines : cutLines cs with
      | nil =>
        rw [lines] at rest
        rcases rest with none | lost
        · exact absurd none.symm some
        · exact .inl (by simp [consLine, goesOn, feed, ← lost])
      | cons line others =>
        rw [lines] at rest
        rcases rest with all | lost
        · exact .inl (by simp [consLine, goesOn, feed, ← all])
        · exact .inr (by simp [consLine, goesOn, feed, ← lost])

theorem lines_pieces {s : String} (feeds : FeedsOnly (unified s).toList) :
    lines s = pieces (unified s) ∨ lines s ++ [""] = pieces (unified s) := by
  rw [lines, pieces, unified, String.toList_ofList] at *
  rcases cutLines_splitOn feeds with all | lost
  · exact .inl (by rw [all])
  · exact .inr (by rw [← lost, List.map_append]; rfl)

end Text

/-- As a file, a text leaves what its pieces leave. -/
theorem file_pieces {limits : Limits} {bytes : ByteArray} {s : String} {m n m' : Machine}
    (decoded : String.fromUTF8? bytes = some s) (feeds : Text.FeedsOnly (Text.unified s).toList)
    (ran : m.runAll? limits (Text.pieces (Text.unified s)) = some n)
    (heaps : unplaced.Heaps m m') (log : Bool) (path : String) :
    (ScriptFile.run limits log path (.ok bytes) m').trouble = none ∧
      unplaced.Heaps n (ScriptFile.run limits log path (.ok bytes) m').machine := by
  have lines := runLines_pieces log ran heaps
  simp only [ScriptFile.run, decoded]
  rcases Text.lines_pieces feeds with all | lost
  · rwa [all]
  · rwa [← lost, ScriptFile.runLines_append_blank] at lines

/-! ## The whole text -/

/-- The statements of the program, run in turn on the first machine, are run to their end without a
return, and leave what is taken for the second machine. -/
def Reaches (limits : Limits) (program : Program) (m n : Machine) : Prop :=
  ∃ k, ((evaluator limits.rounds limits.depth).list (evaluator limits.rounds limits.depth).stmt
    program.statements).GoesOn m k ∧ unplaced.Heaps n k

section

variable {limits : Limits} {program below piece : Program} {m n next : Machine}

/-- One more piece, of which the statements are at other places in the whole text. -/
theorem Reaches.append {src : String} (reached : Reaches limits program m n)
    (ended : ((evaluator limits.rounds limits.depth).stmt piece.tree).GoesOn
      (n.record (.fragment src)) next)
    (same : piece.statements.map Tree.bare = below.statements.map Tree.bare) :
    Reaches limits (program ++ below) m next := by
  obtain ⟨k, above, heaps⟩ := reached
  have agree : unplaced.Agree unplaced.Completions
      ((evaluator limits.rounds limits.depth).stmt piece.tree)
      ((evaluator limits.rounds limits.depth).list (evaluator limits.rounds limits.depth).stmt
        below.statements) :=
    agree_statements Failure.HitsLimit.nesting (Tree.forall₂_bare same) (spine_body below)
  have recorded : unplaced.Heaps (n.record (.fragment src)) k := heaps.of_store rfl rfl rfl rfl
  obtain ⟨k', further, heaps'⟩ := recorded.goesOn agree ended
  rw [Reaches, Program.statements_append]
  exact ⟨k', goesOn_list_append above further, heaps'⟩

/-- Below a text, pieces that go on by themselves go on in the whole text. -/
theorem Reaches.pieces {srcs : List String} {text : String} {k : Machine}
    (reached : Reaches limits program m n) (read : readProgram text.toList = .ok program)
    (fits : program.nesting ≤ limits.depth) (ran : n.runAll? limits srcs = some k)
    (apart : ∀ before src after, srcs = before ++ src :: after →
      BeginsAfresh src.toList ∨ ¬EndsBraced ("\n".intercalate (text :: before)).toList) :
    ∃ whole, readProgram ("\n".intercalate (text :: srcs)).toList = .ok whole ∧
      whole.nesting ≤ limits.depth ∧ Reaches limits whole m k := by
  induction srcs generalizing text program n with
  | nil =>
    cases ran
    exact ⟨program, read, fits, reached⟩
  | cons src srcs ih =>
    obtain ⟨piece, next, read', fits', ended, rest⟩ := Machine.exists_of_runAll? ran
    have stacked : readProgram (text ++ "\n" ++ src).toList = .ok (program ++
        piece.map (Stmt.move (Place.down (Place.height text.toList)))) := by
      simpa [String.toList_append] using
        readProgram_stacked read read' (apart [] src srcs rfl)
    refine ih (reached.append ended (Program.bare_statements_move _ piece).symm) stacked ?_ rest ?_
    · rw [Program.nesting_append, Program.nesting_move]
      exact Nat.max_le.mpr ⟨fits, fits'⟩
    · rintro before src' after rfl
      exact apart (src :: before) src' after rfl

/-- One level more than the statements need is enough for the whole text. -/
theorem Reaches.run {text : String} (reached : Reaches limits program m n)
    (read : readProgram text.toList = .ok program) (fits : program.nesting ≤ limits.depth) :
    ∃ e k, m.run ⟨limits.depth + 1, limits.rounds⟩ text = (.ok e, k) ∧ e.returned = none ∧
      k.store.bindings.bare = n.store.bindings.bare := by
  obtain ⟨k, ended, heaps⟩ := reached
  have recorded : shallow.Heaps m (m.record (.fragment text)) :=
    (Heaps.refl (fun _ => rfl) m).of_store rfl rfl rfl rfl
  obtain ⟨k', ended', heaps'⟩ := recorded.goesOn (agree_above program) ended
  let deeper : Limits := ⟨limits.depth + 1, limits.rounds⟩
  have fits' : program.nesting ≤ deeper.depth := Nat.le_succ_of_le fits
  obtain ⟨e, ran, goesOn⟩ := Machine.run_of_goesOn read fits' ended'
  have below : k.store.bindings.bare = k'.store.bindings.bare :=
    heaps'.bindings_bare (congrArg Tree.bare)
  exact ⟨e, k', ran, goesOn, (below.symm.trans (heaps.bindings_bare id).symm)⟩

end

/-- No piece begins with an `else` that would stand behind a brace in the whole text. -/
def ElseApart (pieces : List String) : Prop :=
  ∀ before src after, pieces = before ++ src :: after →
    BeginsAfresh src.toList ∨ ¬EndsBraced ("\n".intercalate before).toList

/-- A text leaves what its pieces leave in turn, if it has one level more. -/
theorem run_pieces {limits : Limits} {text : String} {m n : Machine}
    (ran : m.runAll? limits (Text.pieces text) = some n) (apart : ElseApart (Text.pieces text)) :
    (∃ program, readProgram text.toList = .ok program) ∧
      ∃ e k, m.run ⟨limits.depth + 1, limits.rounds⟩ text = (.ok e, k) ∧ e.returned = none ∧
        k.store.bindings.bare = n.store.bindings.bare := by
  obtain ⟨src, srcs, cut⟩ := Text.exists_pieces text
  have joined : "\n".intercalate (src :: srcs) = text := cut ▸ Text.intercalate_pieces text
  rw [cut] at ran apart
  obtain ⟨piece, next, read, fits, ended, rest⟩ := Machine.exists_of_runAll? ran
  have begun : Reaches limits [] m m := ⟨m, goesOn_undefined m, .refl (fun _ => rfl) m⟩
  obtain ⟨whole, read', fits', reached⟩ := (begun.append ended rfl).pieces read fits rest
    fun before src' after same => apart (src :: before) src' after (congrArg (src :: ·) same)
  rw [joined] at read'
  exact ⟨⟨whole, read'⟩, reached.run read' fits'⟩

/-- A file of which each piece between line feeds is a program by itself and is run to its end
without a return is run without an error. Its whole text is a program too, and leaves the same
bindings, if it has one level more than its pieces, and with fewer unless it comes to the limit. -/
theorem file_runs_as_whole {limits : Limits} {bytes : ByteArray} {s : String}
    (decoded : String.fromUTF8? bytes = some s) (feeds : Text.FeedsOnly (Text.unified s).toList)
    {m : Machine} (ran : (m.runAll? limits (Text.pieces (Text.unified s))).isSome)
    (apart : ElseApart (Text.pieces (Text.unified s))) (log : Bool) (path : String) :
    let file := ScriptFile.run limits log path (.ok bytes) m
    file.trouble = none ∧ (∃ program, readProgram (Text.unified s).toList = .ok program) ∧
      ∀ depth, let whole := m.run ⟨depth, limits.rounds⟩ (Text.unified s)
        (limits.depth < depth → WithinLimits whole.1) ∧
        (WithinLimits whole.1 → ∃ e, whole.1 = .ok e ∧ e.returned = none ∧
          file.machine.store.bindings.bare = whole.2.store.bindings.bare) := by
  intro file
  obtain ⟨n, ran⟩ := Option.isSome_iff_exists.mp ran
  obtain ⟨untroubled, heaps⟩ := file_pieces decoded feeds ran (.refl (fun _ => rfl) m) log path
  obtain ⟨accepted, e, k, ran', goesOn, bindings⟩ := run_pieces ran apart
  refine ⟨untroubled, accepted, fun depth => ?_⟩
  have within : WithinLimits (m.run ⟨limits.depth + 1, limits.rounds⟩ (Text.unified s)).1 := by
    intro f failed
    rw [ran'] at failed
    cases failed
  constructor
  · intro more
    rwa [run_of_le more within]
  · intro within'
    have same : m.run ⟨depth, limits.rounds⟩ (Text.unified s) = (.ok e, k) := by
      rcases Nat.lt_or_ge limits.depth depth with more | le
      · rw [run_of_le more within, ran']
      · rw [← run_of_le (Nat.le_succ_of_le le) within', ran']
    rw [same]
    exact ⟨e, rfl, goesOn, heaps.bindings_bare id ▸ bindings.symm⟩

private def noted : String :=
  "// begin\r\nfunction f() \x7b return true; \x7d\n\nvar a = f(); // else"

/-- A function and its call, with comments, a blank line and two spellings of the line feed. -/
theorem file_runs_as_whole_noted :
    String.fromUTF8? noted.toUTF8 = some noted ∧
      Text.FeedsOnly (Text.unified noted).toList ∧
      (Machine.fresh.runAll? ⟨20, 5⟩ (Text.pieces (Text.unified noted))).isSome ∧
      ElseApart (Text.pieces (Text.unified noted)) ∧
      let file := ScriptFile.run ⟨20, 5⟩ false "s.js" (.ok noted.toUTF8) .fresh
      let whole := Machine.fresh.run ⟨21, 5⟩ (Text.unified noted)
      file.trouble = none ∧ (∃ e, whole.1 = .ok e) ∧
        file.machine.store.bindings.bare = whole.2.store.bindings.bare ∧
        file.machine.store.bindings.map (·.1) = ["f", "a"] := by
  have decoded : String.fromUTF8? noted.toUTF8 = some noted := ScriptFile.fromUTF8?_toUTF8 _
  have feeds : Text.FeedsOnly (Text.unified noted).toList := by decide +kernel
  have ran : (Machine.fresh.runAll? ⟨20, 5⟩ (Text.pieces (Text.unified noted))).isSome := by
    decide +kernel
  have afresh : ∀ src ∈ Text.pieces (Text.unified noted), BeginsAfresh src.toList := by
    decide +kernel
  have apart : ElseApart (Text.pieces (Text.unified noted)) :=
    fun before src after cut => .inl (afresh src (by simp [cut]))
  obtain ⟨untroubled, -, runs⟩ := file_runs_as_whole decoded feeds ran apart false "s.js"
  obtain ⟨e, ended, -, bindings⟩ := (runs 21).2 ((runs 21).1 (by decide))
  exact ⟨decoded, feeds, ran, apart, untroubled, ⟨e, ended⟩, bindings, by decide +kernel⟩

private def elseBelow : String := "if (false) \x7b\x7d\nelse = true;"

private def cutComment : String := "true; // \x0bvar y = true"

private def flat : String := "var a = true;\nvar b = a;"

/-- An `else` behind a brace is refused in the whole text only, a comment that is cut by a vertical
tab is run in the file only, and the whole text may need one level more than its pieces. -/
theorem file_apart_from_whole :
    let ran (depth : Nat) (text : String) :=
      (Machine.fresh.runAll? ⟨depth, 5⟩ (Text.pieces text)).isSome
    let file (depth : Nat) (text : String) :=
      ScriptFile.run ⟨depth, 5⟩ false "s.js" (.ok text.toUTF8) .fresh
    let whole (depth : Nat) (text : String) := (Machine.fresh.run ⟨depth, 5⟩ text).2
    let names (m : Machine) := m.store.bindings.map (·.1)
    (ran 20 elseBelow ∧ (file 20 elseBelow).trouble.isNone ∧
      names (file 20 elseBelow).machine = ["else"] ∧ names (whole 20 elseBelow) = []) ∧
    (ran 20 cutComment ∧ (file 20 cutComment).trouble.isNone ∧
      names (file 20 cutComment).machine = ["y"] ∧ names (whole 20 cutComment) = []) ∧
    (ran 2 flat ∧ (file 2 flat).trouble.isNone ∧
      names (file 2 flat).machine = ["a", "b"] ∧ names (whole 2 flat) = []) := by
  decide +kernel

end Scriptlet
