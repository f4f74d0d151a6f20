import Scriptlet.Proofs.Frames
import Scriptlet.Proofs.Renaming
import Scriptlet.Proofs.Transcripts
/-!
# Sessions at the prompt

A line leaves a store, the traceback setting and a count of anonymous names to the lines after it.
The stack of that store is always the global frame alone, so a line that failed does not disturb the
others; many lines leave all three as they were, and can be left out; and the count never reaches
what is printed, so that a session begins anew when its store is replaced.
-/

namespace Scriptlet

open Store (isHidden)

namespace Prompt

variable {limits : Limits} {line : String} {lines : List String} {p q : Prompt}

/-! ## Commands -/

/-- Words that turn announcing tracebacks on or off. -/
def switches : List String := ["on", "1", "true", "yes", "off", "0", "false", "no"]

theorem setTraceback_of_unrecognised {arg : String} (h : Settings.toLower arg ∉ switches)
    (given : arg ≠ "") : (p.setTraceback arg).2 = p := by
  have none : switch? arg p.traceback = none := by
    simp only [switches, List.mem_cons, List.not_mem_nil, or_false, not_or] at h
    simp [switch?, h, given]
  rw [setTraceback_eq, none]

theorem setTraceback_machine (arg : String) : (p.setTraceback arg).2.machine = p.machine := by
  rw [setTraceback_eq]
  cases switch? arg p.traceback <;> rfl

/-! ## Between lines -/

/-- Nothing waits to be logged, and the stack holds the global frame alone. -/
structure Ready (p : Prompt) : Prop where
  journal : p.machine.journal = []
  depth : p.machine.store.depth = 1

theorem ready_fresh (anonymous : Nat) (traceback log : Bool) :
    Ready ⟨{ anonymous }, traceback, log⟩ := ⟨rfl, rfl⟩

theorem Ready.evaluate (h : p.Ready) (line : String) : (p.evaluate limits line).2.Ready := by
  constructor
  · rfl
  · have stack : (p.machine.run limits (complete line)).2.store.stack = p.machine.store.stack :=
      (p.machine.journaled_run limits _).stackKept.stack
    have below : (p.machine.run limits (complete line)).2.store.below = p.machine.store.below :=
      (List.cons.inj stack).2
    exact (congrArg (·.length + 1) below).trans h.depth

theorem Ready.obey (h : p.Ready) (name arg : String) : (p.obey name arg).2.Ready := by
  rcases obey_cases name arg with toggled | renewed | listed | ⟨output, refused⟩
  · rw [toggled]
    exact ⟨p.setTraceback_machine arg ▸ h.journal, p.setTraceback_machine arg ▸ h.depth⟩
  · rw [renewed]
    exact ⟨h.journal, rfl⟩
  · rw [listed]
    exact h
  · rw [refused]
    exact h

theorem Ready.answer (h : p.Ready) (line : String) : (p.answer limits line).2.Ready := by
  rcases answer_cases limits line with skipped | ⟨name, arg, obeyed⟩ | ⟨src, evaluated⟩
  · rw [skipped]
    exact h
  · rw [obeyed]
    exact h.obey name arg
  · rw [evaluated]
    exact h.evaluate src

theorem Ready.after (h : p.Ready) (limits : Limits) (lines : List String) :
    (p.after limits lines).Ready := by
  induction lines generalizing p with
  | nil => exact h
  | cons line lines ih => exact ih (h.answer line)

/-! ## Lines that can be left out -/

/-- Lines that leave the prompt as it was. -/
inductive Idle (limits : Limits) (line : String) : Prop
  | blank (h : Text.strip (normalize line) = "")
  | unparsed {e : Source.ParseError} (fragment : isCommand (normalize line) = false)
    (h : Source.readProgram (complete (normalize line)).toList = .error e)
  /-- Phrases nest too deeply for the fragment to be started. -/
  | unstarted {program : Source.Program} (fragment : isCommand (normalize line) = false)
    (h : Source.readProgram (complete (normalize line)).toList = .ok program)
    (deep : limits.depth < program.nesting)
  /-- A listing of the bindings, or no command that there is. -/
  | command (h : isCommand (normalize line)) (reset : word line ≠ "/reset")
    (toggle : word line ≠ "/py-traceback")
  | unrecognised (h : isCommand (normalize line)) (toggle : word line = "/py-traceback")
    (other : Settings.toLower (argument line) ∉ switches) (given : argument line ≠ "")

/-- A fragment that is not started is only noted in the journal, which every line empties. -/
theorem evaluate_unstarted (ready : p.Ready)
    (h : (p.machine.run limits (complete line)).2.store = p.machine.store ∧
      (p.machine.run limits (complete line)).2.anonymous = p.machine.anonymous) :
    (p.evaluate limits line).2 = p := by
  obtain ⟨⟨store, anonymous, journal⟩, traceback, log⟩ := p
  obtain rfl : journal = [] := ready.journal
  obtain ⟨sameStore, sameCount⟩ := h
  simp only [evaluate, Machine.flush, Machine.takeJournal, sameStore, sameCount]

theorem Idle.answer (h : Idle limits line) (ready : p.Ready) : (p.answer limits line).2 = p := by
  cases h with
  | blank blank => rw [answer_blank blank]
  | unparsed fragment unread =>
    by_cases blank : Text.strip (normalize line) = ""
    · rw [answer_blank blank]
    · rw [answer_fragment blank fragment, evaluate_unstarted ready]
      rw [Machine.run, unread]
      exact ⟨rfl, rfl⟩
  | unstarted fragment read deep =>
    by_cases blank : Text.strip (normalize line) = ""
    · rw [answer_blank blank]
    · rw [answer_fragment blank fragment, evaluate_unstarted ready]
      simp only [Machine.run, read, if_pos deep]
      exact ⟨rfl, rfl⟩
  | command h reset toggle =>
    rw [answer_command h, obey, if_neg toggle, if_neg reset, apply_ite Prod.snd, ite_self]
  | unrecognised h toggle other given =>
    rw [answer_command h, obey, if_pos toggle, setTraceback_of_unrecognised other given]

/-- Those of some things that are to be kept. -/
def kept {α : Type} (marked : List (α × Bool)) : List α := (marked.filter (·.2)).map (·.1)

/-- Idle lines that are not kept do not change what is answered to the others. -/
theorem answers_kept {script : List (String × Bool)}
    (idle : ∀ line, (line, false) ∈ script → Idle limits line) (ready : p.Ready) :
    p.answers limits (kept script) =
      kept ((p.answers limits (script.map (·.1))).zip (script.map (·.2))) := by
  induction script generalizing p with
  | nil => rfl
  | cons first script ih =>
    obtain ⟨line, keep⟩ := first
    have rest := fun q : Prompt => ih (p := q) fun l hl => idle l (List.mem_cons_of_mem _ hl)
    cases keep with
    | true =>
      have here := rest (p.answer limits line).2 (ready.answer line)
      simpa [kept, answers] using here
    | false =>
      have here := rest p ready
      have same := (idle line List.mem_cons_self).answer ready
      simpa [kept, answers, same] using here

end Prompt

/-! ## Sessions that differ in the count of anonymous names -/

namespace Slots

theorem named_putAll (slots new : Slots) :
    (slots.putAll new).named = slots.named.putAll new.named := by
  induction new generalizing slots with
  | nil => rfl
  | cons slot new ih =>
    obtain ⟨name, d⟩ := slot
    have step : (slots.putAll ((name, d) :: new)) = (slots.put name d).putAll new := rfl
    rw [step, ih, named_put, named_cons]
    by_cases hidden : isHidden name
    · rw [if_pos hidden, if_pos hidden]
    · rw [if_neg hidden, if_neg hidden]
      rfl

end Slots

namespace Shift

section

variable {σ : Shift}

/-- A listing of the bindings shows the same names in the same order. -/
theorem Stores.bindings {s s' : Store} (h : σ.Stores s s') :
    List.Forall₂ (Slot.Alike σ.Data) s.bindings s'.bindings := by
  have chains := h.chain s.top
  rw [← h.top] at chains
  have visible : List.Forall₂ (Slot.Alike σ.Data) s.visible.named s'.visible.named := by
    rw [Store.visible, Store.visible]
    generalize s.chain s.top = fs at chains ⊢
    generalize s'.chain s'.top = fs' at chains ⊢
    induction chains with
    | nil => exact .nil
    | cons here _ ih =>
      rw [List.foldr_cons, List.foldr_cons, Slots.named_putAll, Slots.named_putAll]
      exact Slots.putAll_alike ih here.named
  exact visible

end

/-- Nothing is moved. -/
def still : Shift := ⟨⟨0, 0⟩, ⟨0, 0⟩, []⟩

@[simp] theorem up_zero (n : Nat) : Move.up ⟨0, 0⟩ n = n := Move.up_of_le (Nat.zero_le n)

theorem tag_still (tag : Int) : still.tag tag = tag := by
  cases tag with
  | ofNat n => exact congrArg Int.ofNat (up_zero n)
  | negSucc => rfl

theorem value_still (v : Value) : still.value v = v := by
  cases v with
  | ref tag => exact congrArg Value.ref (tag_still tag)
  | _ => rfl

theorem closure_still (f : Closure) : still.closure f = f := by
  rw [closure, tag_still]

theorem stop_still (stop : Stop) : still.stop stop = stop := by
  cases stop with
  | fault f place =>
    cases f with
    | unknownScope id => rw [Shift.stop, tag_still]
    | _ => rfl
  | _ => rfl

theorem Data.eq_of_still {d d' : Datum} (h : still.Data d d') : d' = d := by
  obtain ⟨value, function, -⟩ := h
  have same : still.closure = id := funext closure_still
  have sameValue : d'.value = d.value := by
    rcases value with moved | ⟨_, kept⟩
    · rw [moved, value_still]
    · exact kept
  rw [same, Option.map_id, id] at function
  exact congrArg₂ Datum.mk sameValue function

theorem Completions.eq_of_still {c c' : Completion} (h : still.Completions c c') : c' = c := by
  obtain ⟨d, returned⟩ := c
  obtain ⟨d', returned'⟩ := c'
  obtain ⟨datum, rel⟩ := h
  obtain rfl : d' = d := datum.eq_of_still
  cases rel with
  | none => rfl
  | some same => rw [same.eq_of_still]

theorem Stores.bindings_still {s s' : Store} (h : still.Stores s s') :
    s'.bindings = s.bindings := by
  have rel := h.bindings
  generalize s.bindings = b at rel
  generalize s'.bindings = b' at rel
  induction rel with
  | nil => rfl
  | cons here _ ih => rw [ih, Prod.ext here.name here.datum.eq_of_still.symm]

theorem stores_still_fresh : still.Stores .fresh .fresh where
  frames i := by
    rw [still, up_zero]
    rcases i with _ | i
    · exact .some ⟨rfl, .nil⟩
    · exact .none
  captured n := by
    rw [still, up_zero]
    rcases n with _ | n <;> rfl
  frameCount := ⟨Nat.zero_le _, rfl⟩
  scopeCount := ⟨Nat.zero_le _, rfl⟩
  top := rfl
  below := rfl

/-- Fragments see of the machine what is visible in its store. -/
theorem run_still {m m' : Machine} (h : still.Stores m.store m'.store) (limits : Limits)
    (src : String) :
    (m'.run limits src).1 = (m.run limits src).1 ∧
      still.Stores (m.run limits src).2.store (m'.run limits src).2.store := by
  simp only [Machine.run]
  cases read : Source.readProgram src.toList with
  | error e => exact ⟨rfl, h⟩
  | ok program =>
    by_cases deep : limits.depth < program.nesting
    · simp only [if_pos deep]
      exact ⟨trivial, h⟩
    · simp only [if_neg deep, Machine.exec, Eval.outcome]
      have ends := (still.evaluators limits.rounds limits.depth).stmt
        (Source.readProgram_visible read) (m.record (.fragment src)) (m'.record (.fragment src)) h
      generalize (evaluator limits.rounds limits.depth).stmt program.tree _ = r at ends ⊢
      generalize (evaluator limits.rounds limits.depth).stmt program.tree _ = r' at ends ⊢
      cases ends with
      | ok same stores => exact ⟨by rw [same.eq_of_still], stores⟩
      | error stores => exact ⟨by rw [stop_still], stores⟩

end Shift

namespace Prompt

variable {limits : Limits} {lines : List String} {p q : Prompt}

/-! ## What is printed -/

/-- The prompt without its debug log. -/
def quiet (p : Prompt) : Prompt := { p with log := false }

/-- What is printed for some lines, the debug log apart. -/
def printed (limits : Limits) (lines : List String) (p : Prompt) : List Output :=
  p.quiet.answers limits lines

theorem obey_quiet (name arg : String) :
    p.quiet.obey name arg = ((p.obey name arg).1, (p.obey name arg).2.quiet) := by
  rcases obey_cases name arg with toggled | renewed | listed | ⟨output, refused⟩
  · have same : p.quiet.traceback = p.traceback := rfl
    rw [toggled, toggled, setTraceback_eq, setTraceback_eq, same]
    cases switch? arg p.traceback <;> rfl
  · rw [renewed, renewed]
    rfl
  · rw [listed, listed]
    rfl
  · rw [refused, refused]

theorem evaluate_quiet (line : String) :
    ∃ text, (p.evaluate limits line).1 = { err := text } ++ (p.quiet.evaluate limits line).1 ∧
      (p.quiet.evaluate limits line).2 = (p.evaluate limits line).2.quiet := by
  refine ⟨((p.machine.run limits (complete line)).2.flush p.log).1.err, ?_, rfl⟩
  simp only [evaluate, Machine.flush, quiet, Bool.false_eq_true, if_false, Output.empty_append]

/-- The debug log comes first in an answer and has no other effect. -/
theorem answer_quiet (limits : Limits) (line : String) :
    ∃ text, (p.answer limits line).1 = { err := text } ++ (p.quiet.answer limits line).1 ∧
      (p.quiet.answer limits line).2 = (p.answer limits line).2.quiet := by
  rcases answer_cases limits line with skipped | ⟨name, arg, obeyed⟩ | ⟨src, evaluated⟩
  · rw [skipped, skipped]
    exact ⟨"", (Output.empty_append _).symm, rfl⟩
  · rw [obeyed, obeyed, obey_quiet]
    generalize p.obey name arg = r
    exact ⟨"", (Output.empty_append r.1).symm, rfl⟩
  · rw [evaluated, evaluated]
    exact evaluate_quiet src

theorem answers_printed (limits : Limits) (lines : List String) (p : Prompt) :
    ∃ logs : List String, logs.length = lines.length ∧ p.answers limits lines =
      logs.zipWith (fun text shown => { err := text } ++ shown) (p.printed limits lines) := by
  induction lines generalizing p with
  | nil => exact ⟨[], rfl, rfl⟩
  | cons line lines ih =>
    obtain ⟨logs, length, same⟩ := ih (p.answer limits line).2
    obtain ⟨text, here, next⟩ := p.answer_quiet limits line
    refine ⟨text :: logs, congrArg (· + 1) length, ?_⟩
    rw [answers_cons, here, same, printed, printed, answers_cons, next, List.zipWith_cons_cons]

/-- Prompts that differ in what cannot be seen: hidden names and the count of anonymous ones. -/
structure Alike (p q : Prompt) : Prop where
  stores : Shift.still.Stores p.machine.store q.machine.store
  traceback : q.traceback = p.traceback
  log : p.log = false ∧ q.log = false

theorem Alike.evaluate (h : Alike p q) (line : String) :
    (q.evaluate limits line).1 = (p.evaluate limits line).1 ∧
      Alike (p.evaluate limits line).2 (q.evaluate limits line).2 := by
  obtain ⟨same, stores⟩ := Shift.run_still h.stores limits (complete line)
  obtain ⟨off, off'⟩ := h.log
  simp only [Prompt.evaluate, Machine.flush, off, off', same, h.traceback]
  exact ⟨rfl, stores, rfl, rfl, rfl⟩

theorem Alike.setTraceback (h : Alike p q) (arg : String) :
    (q.setTraceback arg).1 = (p.setTraceback arg).1 ∧
      Alike (p.setTraceback arg).2 (q.setTraceback arg).2 := by
  rw [setTraceback_eq, setTraceback_eq, h.traceback]
  cases switch? arg p.traceback with
  | none => exact ⟨rfl, h⟩
  | some b => exact ⟨rfl, h.stores, rfl, h.log⟩

theorem Alike.obey (h : Alike p q) (name arg : String) :
    (q.obey name arg).1 = (p.obey name arg).1 ∧
      Alike (p.obey name arg).2 (q.obey name arg).2 := by
  rcases obey_cases name arg with toggled | renewed | listed | ⟨output, refused⟩
  · rw [toggled, toggled]
    exact h.setTraceback arg
  · rw [renewed, renewed]
    exact ⟨rfl, Shift.stores_still_fresh, h.traceback, h.log⟩
  · rw [listed, listed, bindingLines, h.stores.bindings_still]
    exact ⟨rfl, h⟩
  · rw [refused, refused]
    exact ⟨rfl, h⟩

theorem Alike.answer (h : Alike p q) (limits : Limits) (line : String) :
    (q.answer limits line).1 = (p.answer limits line).1 ∧
      Alike (p.answer limits line).2 (q.answer limits line).2 := by
  rcases answer_cases limits line with skipped | ⟨name, arg, obeyed⟩ | ⟨src, evaluated⟩
  · rw [skipped, skipped]
    exact ⟨rfl, h⟩
  · rw [obeyed, obeyed]
    exact h.obey name arg
  · rw [evaluated, evaluated]
    exact h.evaluate src

theorem Alike.answers (h : Alike p q) (lines : List String) :
    q.answers limits lines = p.answers limits lines := by
  induction lines generalizing p q with
  | nil => rfl
  | cons line lines ih =>
    obtain ⟨same, next⟩ := h.answer limits line
    rw [answers_cons, answers_cons, same, ih next]

/-- A line that replaces the store. -/
structure Resets (line : String) : Prop where
  command : isCommand (normalize line)
  word : word line = "/reset"

theorem Resets.answer {line : String} (h : Resets line) :
    (p.answer limits line).2 = { p with machine := p.machine.renew } := by
  rw [answer_command h.command, obey, h.word, if_neg (by decide), if_pos rfl]

/-- A whole session: the answers to its lines, and the exit status. -/
def session (limits : Limits) (lines : List String) (ending : End) (p : Prompt) :
    List Output × Nat :=
  (p.answers limits lines, ending.status)

/-- A session goes on after every line, on the global frame alone, whatever became of the line.
Idle lines can be left out: the answers to the others and the exit status stay the same. After a
line that resets the store, the answers are those of a new prompt with the same traceback setting to
the lines from there on, and what is printed does not depend on the count of anonymous names with
which that prompt begins. -/
theorem sessions_decompose (limits : Limits) (anonymous : Nat) (traceback log : Bool) :
    let p : Prompt := ⟨{ anonymous }, traceback, log⟩
    (∀ lines rest, (p.after limits lines).machine.store.depth = 1 ∧
      p.answers limits (lines ++ rest) =
        p.answers limits lines ++ (p.after limits lines).answers limits rest) ∧
    (∀ (script : List (String × Bool)) (ending : End),
      (∀ line, (line, false) ∈ script → Idle limits line) →
        let whole := p.session limits (script.map (·.1)) ending
        p.session limits (kept script) ending =
          (kept (whole.1.zip (script.map (·.2))), whole.2)) ∧
    ∀ lines reset rest, Resets reset →
      let q := p.after limits (lines ++ [reset])
      let new (count : Nat) : Prompt := ⟨{ anonymous := count }, q.traceback, log⟩
      q.answers limits rest = (new q.machine.anonymous).answers limits rest ∧
        ∀ count, q.printed limits rest = (new count).printed limits rest := by
  intro p
  have ready : p.Ready := ready_fresh anonymous traceback log
  refine ⟨fun lines rest => ?_, fun script ending idle => ?_, fun lines reset rest h => ?_⟩
  · exact ⟨(ready.after limits lines).depth, answers_append lines rest⟩
  · exact congrArg (·, ending.status) (answers_kept idle ready)
  · intro q new
    have logs : q.log = log := p.log_after
    have renewed : q.machine = { anonymous := q.machine.anonymous } := by
      have journal := (ready.after limits lines).journal
      simp only [q, after_append, after, h.answer, Machine.renew, journal]
    have same : new q.machine.anonymous = q := by
      simp only [new, ← renewed, ← logs]
    refine ⟨by rw [same], fun count => ?_⟩
    have alike : Alike (new count).quiet q.quiet := by
      refine ⟨?_, rfl, rfl, rfl⟩
      rw [← same]
      exact Shift.stores_still_fresh
    exact alike.answers rest

private def script : List (String × Bool) :=
  [("var a = true", true), ("", false), ("var = 2", false), ("/env", false),
    ("/py-traceback maybe", false), ("missing", true), ("/reset", true), ("a", true)]

private theorem idle_script : ∀ line, (line, false) ∈ script → Idle ⟨20, 5⟩ line := by
  intro line mem
  simp only [script, List.mem_cons, Prod.mk.injEq, reduceCtorEq, and_false, and_true, false_or,
    List.not_mem_nil, or_false] at mem
  rcases mem with rfl | rfl | rfl | rfl
  · exact .blank (by decide +kernel)
  · let cs := (complete (normalize "var = 2")).toList
    have failed : (Source.readProgram cs).toOption.isNone := by decide +kernel
    cases read : Source.readProgram cs with
    | error e => exact .unparsed (by decide +kernel) read
    | ok program =>
      rw [read] at failed
      cases failed
  · exact .command (by decide +kernel) (by decide +kernel) (by decide +kernel)
  · exact .unrecognised (by decide +kernel) (by decide +kernel) (by decide +kernel)
      (by decide +kernel)

/-- Four idle lines, a failure, and a reset that makes a new start. -/
theorem sessions_decompose_script :
    let limits : Limits := ⟨20, 5⟩
    let p : Prompt := {}
    let lines := kept script
    (∀ line, (line, false) ∈ script → Idle limits line) ∧ Resets "/reset" ∧
      lines = ["var a = true", "missing", "/reset", "a"] ∧
      p.answers limits lines =
        kept ((p.answers limits (script.map (·.1))).zip (script.map (·.2))) ∧
      p.answers limits lines = [{ out := "=> true\n" },
        { err := "Error: ReferenceError: missing is not defined (line 1, col 1)\n" },
        { out := "Environment reset.\n" },
        { err := "Error: ReferenceError: a is not defined (line 1, col 1)\n" }] ∧
      (p.after limits (["var a = true", "missing"] ++ ["/reset"])).printed limits ["a"] =
        p.printed limits ["a"] := by
  intro limits p lines
  obtain ⟨_, pruned, anew⟩ := sessions_decompose limits 0 false false
  have resets : Resets "/reset" := ⟨by decide +kernel, by decide +kernel⟩
  have session := pruned script .closed idle_script
  let q := p.after limits (["var a = true", "missing"] ++ ["/reset"])
  have settled : q.traceback = false := by decide +kernel
  have shown : q.printed limits ["a"] = printed limits ["a"] ⟨{}, q.traceback, false⟩ :=
    (anew ["var a = true", "missing"] "/reset" ["a"] resets).2 0
  rw [settled] at shown
  exact ⟨idle_script, resets, by decide +kernel, congrArg Prod.fst session, by decide +kernel,
    shown⟩

end Prompt

end Scriptlet
