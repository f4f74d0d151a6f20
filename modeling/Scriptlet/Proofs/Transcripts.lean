import Mathlib.Data.List.Basic
import Scriptlet.Prompt
import Scriptlet.ScriptFile
/-!
# Files and the prompt

A file that holds some lines does what the prompt does when the same lines are typed: up to the
first line that fails it shows the answers of the prompt, each below the line as the file echoes it,
and breaks off there on the machine of the prompt with the failure that the prompt reports.

The lines must be cut out of the file as they were put in, must be typed as they stand, and must not
be commands, which only the prompt knows.
-/

namespace Scriptlet

/-! ## The lines of a file -/

namespace Text

/-- Nothing in a text ends a line. -/
def Unbroken (cs : List Char) : Prop := ∀ c ∈ cs, isBoundary c = false

theorem unifyFeeds_of_not_mem {cs : List Char} (h : '\r' ∉ cs) : unifyFeeds cs = cs := by
  fun_induction unifyFeeds cs with
  | case1 rest ih => simp at h
  | case2 c rest _ ih =>
    simp only [List.mem_cons, not_or] at h
    rw [ih h.2, if_neg (Ne.symm h.1)]
  | case3 => rfl

theorem cutLines_unbroken {cs : List Char} (h : Unbroken cs) :
    cutLines cs = if cs = [] then [] else [cs] := by
  induction cs with
  | nil => rfl
  | cons c cs ih =>
    have rest := ih fun d hd => h d (List.mem_cons_of_mem _ hd)
    have here : isBoundary c = false := h c List.mem_cons_self
    rw [cutLines, List.foldr_cons, ← cutLines, rest]
    by_cases empty : cs = [] <;> simp [consLine, here, empty]

theorem cutLines_feed {cs : List Char} (h : Unbroken cs) (rest : List Char) :
    cutLines (cs ++ '\n' :: rest) = cs :: cutLines rest := by
  induction cs with
  | nil => rfl
  | cons c cs ih =>
    have tail := ih fun d hd => h d (List.mem_cons_of_mem _ hd)
    have here : isBoundary c = false := h c List.mem_cons_self
    rw [List.cons_append, cutLines, List.foldr_cons, ← cutLines, tail]
    simp [consLine, here]

/-- A final empty line is lost. -/
theorem cutLines_intercalate {ls : List (List Char)} (h : ∀ l ∈ ls, Unbroken l) :
    cutLines (['\n'].intercalate ls) = ls ∨ cutLines (['\n'].intercalate ls) ++ [[]] = ls := by
  induction ls with
  | nil => exact .inl rfl
  | cons l ls ih =>
    have here : Unbroken l := h l List.mem_cons_self
    cases ls with
    | nil =>
      rw [List.intercalate_singleton, cutLines_unbroken here]
      by_cases empty : l = [] <;> simp [empty]
    | cons l' ls =>
      rw [List.intercalate_cons_cons, List.append_assoc, List.singleton_append, cutLines_feed here]
      rcases ih fun k hk => h k (List.mem_cons_of_mem _ hk) with all | lost
      · exact .inl (congrArg _ all)
      · exact .inr (congrArg _ lost)

theorem not_mem_intercalate {ls : List (List Char)} (h : ∀ l ∈ ls, Unbroken l) :
    '\r' ∉ ['\n'].intercalate ls := by
  have absent : ∀ l ∈ ls, '\r' ∉ l := fun l hl hr => absurd (h l hl _ hr) (by decide)
  induction ls with
  | nil => simp
  | cons l ls ih =>
    cases ls with
    | nil => simpa using absent l List.mem_cons_self
    | cons l' ls =>
      rw [List.intercalate_cons_cons]
      have rest := ih (fun k hk => h k (List.mem_cons_of_mem _ hk))
        (fun k hk => absent k (List.mem_cons_of_mem _ hk))
      simp [absent l List.mem_cons_self, rest]

theorem lines_intercalate {ls : List String} (h : ∀ l ∈ ls, Unbroken l.toList) :
    lines ("\n".intercalate ls) = ls ∨ lines ("\n".intercalate ls) ++ [""] = ls := by
  have unbroken : ∀ l ∈ ls.map String.toList, Unbroken l := by simpa using h
  have back : (ls.map String.toList).map String.ofList = ls := by simp
  have text : ("\n".intercalate ls).toList = ['\n'].intercalate (ls.map String.toList) := by
    simp [String.toList_intercalate]
  rw [lines, text, unifyFeeds_of_not_mem (not_mem_intercalate unbroken)]
  rcases cutLines_intercalate unbroken with all | lost
  · rw [all]
    exact .inl back
  · right
    conv_rhs => rw [← back, ← lost]
    simp

end Text

/-! ## The lines of a prompt -/

namespace Output

theorem append_assoc (a b c : Output) : a ++ b ++ c = a ++ (b ++ c) :=
  congrArg₂ Output.mk (String.append_assoc ..) (String.append_assoc ..)

@[simp] theorem empty_append (a : Output) : ({} : Output) ++ a = a :=
  congrArg₂ Output.mk String.empty_append String.empty_append

@[simp] theorem append_empty (a : Output) : a ++ ({} : Output) = a :=
  congrArg₂ Output.mk String.append_empty String.append_empty

end Output

theorem complete_eq_empty {line : String} : complete line = "" ↔ Text.strip line = "" := by
  rw [complete]
  by_cases blank : Text.strip line = ""
  · simp [blank]
  · rw [if_neg blank]
    split <;> simp [blank]

namespace Prompt

variable {limits : Limits} {line : String} {lines : List String} {p : Prompt}

/-- The prompt after some lines. -/
def after (limits : Limits) : List String → Prompt → Prompt
  | [], p => p
  | line :: lines, p => after limits lines (p.answer limits line).2

theorem answers_cons : p.answers limits (line :: lines) =
    (p.answer limits line).1 :: (p.answer limits line).2.answers limits lines := by
  rw [answers]

@[simp] theorem after_append (before rest : List String) :
    after limits (before ++ rest) p = after limits rest (after limits before p) := by
  induction before generalizing p with
  | nil => rfl
  | cons line before ih => simp only [List.cons_append, after, ih]

@[simp] theorem answers_append (before rest : List String) :
    p.answers limits (before ++ rest) =
      p.answers limits before ++ (after limits before p).answers limits rest := by
  induction before generalizing p with
  | nil => rfl
  | cons line before ih => simp only [List.cons_append, answers_cons, after, ih]

/-- A line that fills a line of a file, is typed as it stands and is not a command. -/
structure Plain (line : String) : Prop where
  unbroken : Text.Unbroken line.toList
  seen : ∀ c ∈ line.toList, isInvisible c = false
  fragment : isCommand line = false

theorem plain_iff : Plain line ↔
    (line.toList.all fun c => !Text.isBoundary c && !isInvisible c) && !isCommand line := by
  simp only [Bool.and_eq_true, List.all_eq_true, Bool.not_eq_true']
  constructor
  · rintro ⟨unbroken, seen, fragment⟩
    exact ⟨fun c hc => ⟨unbroken c hc, seen c hc⟩, fragment⟩
  · rintro ⟨chars, fragment⟩
    exact ⟨fun c hc => (chars c hc).1, fun c hc => (chars c hc).2, fragment⟩

instance : Decidable (Plain line) := decidable_of_iff _ plain_iff.symm

theorem normalize_of_seen (h : ∀ c ∈ line.toList, isInvisible c = false) :
    normalize line = line := by
  have all : line.toList.filter (!isInvisible ·) = line.toList := by simpa using h
  rw [normalize, all, String.ofList_toList]

theorem Plain.answer (h : Plain line) :
    p.answer limits line = if complete line = "" then ({}, p) else p.evaluate limits line := by
  rw [Prompt.answer, normalize_of_seen h.seen]
  simp [complete_eq_empty, h.fragment]

theorem Plain.traceback (h : Plain line) : (p.answer limits line).2.traceback = p.traceback := by
  rw [h.answer]
  split <;> rfl

/-- What an argument sets announcing tracebacks to, if it is recognised. -/
def switch? (arg : String) (now : Bool) : Option Bool :=
  let word := Settings.toLower arg
  if ["on", "1", "true", "yes"].contains word then some true
  else if ["off", "0", "false", "no"].contains word then some false
  else if arg = "" then some !now
  else none

theorem setTraceback_eq (arg : String) :
    p.setTraceback arg = match switch? arg p.traceback with
      | none => (complain "Usage: /py-traceback [on|off]", p)
      | some b => (say ("Python traceback: " ++ if b then "on" else "off"),
        { p with traceback := b }) := rfl

@[simp] theorem setTraceback_log (arg : String) : (p.setTraceback arg).2.log = p.log := by
  rw [setTraceback_eq]
  cases switch? arg p.traceback <;> rfl

/-- What a command can do: set the traceback, replace the store, list the bindings, or complain. -/
theorem obey_cases (name arg : String) :
    (∀ p : Prompt, p.obey name arg = p.setTraceback arg) ∨
    (∀ p : Prompt, p.obey name arg =
      (say "Environment reset.", { p with machine := p.machine.renew })) ∨
    (∀ p : Prompt, p.obey name arg = (bindingLines p.machine, p)) ∨
    ∃ output, ∀ p : Prompt, p.obey name arg = (output, p) := by
  by_cases toggle : name = "/py-traceback"
  · exact .inl fun p => by rw [obey, if_pos toggle]
  · by_cases reset : name = "/reset"
    · exact .inr (.inl fun p => by rw [obey, if_neg toggle, if_pos reset])
    · by_cases listing : name = "/env"
      · exact .inr (.inr (.inl fun p => by
          rw [obey, if_neg toggle, if_neg reset, if_pos listing]))
      · exact .inr (.inr (.inr ⟨_, fun p => by
          rw [obey, if_neg toggle, if_neg reset, if_neg listing]⟩))

/-- The first word of a line. -/
def word (line : String) : String := (Text.cutWord (Text.strip (normalize line))).1

/-- What follows the first word of a line. -/
def argument (line : String) : String := (Text.cutWord (Text.strip (normalize line))).2

theorem answer_blank (h : Text.strip (normalize line) = "") :
    p.answer limits line = ({}, p) := by
  rw [answer, if_pos h]

theorem answer_command (h : isCommand (normalize line)) :
    p.answer limits line = p.obey (word line) (argument line) := by
  have present : Text.strip (normalize line) ≠ "" := by
    intro blank
    rw [isCommand, blank] at h
    exact absurd h (by decide)
  simp only [answer, if_neg present, if_pos h, word, argument]

theorem answer_fragment (present : Text.strip (normalize line) ≠ "")
    (h : isCommand (normalize line) = false) :
    p.answer limits line = p.evaluate limits (normalize line) := by
  simp only [answer, if_neg present, h, Bool.false_eq_true, if_false]

/-- What a line can be: blank, a command, or a fragment. -/
theorem answer_cases (limits : Limits) (line : String) :
    (∀ p : Prompt, p.answer limits line = ({}, p)) ∨
    (∃ name arg, ∀ p : Prompt, p.answer limits line = p.obey name arg) ∨
    ∃ src, ∀ p : Prompt, p.answer limits line = p.evaluate limits src := by
  by_cases blank : Text.strip (normalize line) = ""
  · exact .inl fun p => answer_blank blank
  · cases command : isCommand (normalize line) with
    | true => exact .inr (.inl ⟨_, _, fun p => answer_command command⟩)
    | false => exact .inr (.inr ⟨_, fun p => answer_fragment blank command⟩)

@[simp] theorem answer_log : (p.answer limits line).2.log = p.log := by
  rcases answer_cases limits line with skipped | ⟨name, arg, obeyed⟩ | ⟨src, evaluated⟩
  · rw [skipped]
  · rw [obeyed]
    rcases obey_cases name arg with toggled | renewed | listed | ⟨output, refused⟩
    · rw [toggled, setTraceback_log]
    · rw [renewed]
    · rw [listed]
    · rw [refused]
  · rw [evaluated]
    rfl

theorem log_after (p : Prompt) : (p.after limits lines).log = p.log := by
  induction lines generalizing p with
  | nil => rfl
  | cons line lines ih => rw [after, ih, answer_log]

theorem traceback_after (plain : ∀ line ∈ lines, Plain line) (p : Prompt) :
    (p.after limits lines).traceback = p.traceback := by
  induction lines generalizing p with
  | nil => rfl
  | cons line lines ih =>
    rw [after, ih fun l hl => plain l (List.mem_cons_of_mem _ hl)]
    exact (plain line List.mem_cons_self).traceback

/-! ## Which lines fail -/

/-- Why a line fails, if it does; a blank line is skipped. -/
def failure? (limits : Limits) (line : String) (p : Prompt) : Option Failure :=
  if complete line = "" then none
  else match (p.machine.run limits (complete line)).1 with
    | .ok _ => none
    | .error f => some f

/-- No line fails, each tried on what the lines before it leave. -/
def Succeed (limits : Limits) : List String → Prompt → Prop
  | [], _ => True
  | line :: lines, p =>
    p.failure? limits line = none ∧ Succeed limits lines (p.answer limits line).2

/-- Either no line fails or one is the first to fail. -/
theorem succeed_or_fails (limits : Limits) (lines : List String) (p : Prompt) :
    Succeed limits lines p ∨ ∃ before line rest f, lines = before ++ line :: rest ∧
      Succeed limits before p ∧ (after limits before p).failure? limits line = some f := by
  induction lines generalizing p with
  | nil => exact .inl trivial
  | cons line lines ih =>
    cases h : p.failure? limits line with
    | some f => exact .inr ⟨[], line, lines, f, rfl, trivial, h⟩
    | none =>
      rcases ih (p.answer limits line).2 with all | ⟨before, l, rest, f, rfl, succeed, fails⟩
      · exact .inl ⟨h, all⟩
      · exact .inr ⟨line :: before, l, rest, f, rfl, ⟨h, succeed⟩, fails⟩

end Prompt

/-! ## What a file shows -/

namespace ScriptFile

variable {limits : Limits} {log : Bool} {line : String} {lines : List String} {p : Prompt}

/-- What a file shows of a line before it is run. -/
def echo (line : String) : Output :=
  if complete line = "" then {} else { out := ">> " ++ complete line ++ "\n" }

/-- Answers to some lines, each below its line. -/
def transcript (lines : List String) (answers : List Output) : Output :=
  (lines.zipWith (fun line answer => echo line ++ answer) answers).foldr (· ++ ·) {}

theorem runLines_append_blank (limits : Limits) (log : Bool) (lines : List String) (m : Machine) :
    runLines limits log (lines ++ [""]) m = runLines limits log lines m := by
  induction lines generalizing m with
  | nil => rfl
  | cons line lines ih => simp only [List.cons_append, runLines, ih]

theorem runLines_cons_ok (plain : Prompt.Plain line) (lines : List String)
    (h : p.failure? limits line = none) :
    runLines limits p.log (line :: lines) p.machine =
      let next := (p.answer limits line).2
      let rest := runLines limits p.log lines next.machine
      { rest with output := echo line ++ (p.answer limits line).1 ++ rest.output } := by
  rw [runLines, plain.answer, echo]
  by_cases blank : complete line = ""
  · simp [blank]
  · simp only [Prompt.failure?, blank, if_false] at h ⊢
    cases ran : p.machine.run limits (complete line) with
    | mk result m =>
      cases result with
      | ok c => simp [Prompt.evaluate, ran, Output.append_assoc]
      | error f => simp [ran] at h

theorem runLines_cons_error {f : Failure} (plain : Prompt.Plain line) (lines : List String)
    (h : p.failure? limits line = some f) :
    ∃ logged, (p.answer limits line).1 = logged ++ f.report p.traceback ∧
      runLines limits p.log (line :: lines) p.machine =
        ⟨echo line ++ logged, some (.failed f), (p.answer limits line).2.machine⟩ := by
  rw [runLines, plain.answer, echo]
  by_cases blank : complete line = ""
  · simp [Prompt.failure?, blank] at h
  · simp only [Prompt.failure?, blank, if_false] at h ⊢
    cases ran : p.machine.run limits (complete line) with
    | mk result m =>
      cases result with
      | ok c => simp [ran] at h
      | error g =>
        obtain rfl : g = f := by simpa [ran] using h
        exact ⟨(m.flush p.log).1, by simp [Prompt.evaluate, ran], by simp [Prompt.evaluate, ran]⟩

/-- Lines that succeed are shown with the answers of the prompt, whatever comes after them. -/
theorem runLines_append (plain : ∀ line ∈ lines, Prompt.Plain line) (rest : List String)
    (h : Prompt.Succeed limits lines p) :
    runLines limits p.log (lines ++ rest) p.machine =
      let next := Prompt.after limits lines p
      let last := runLines limits p.log rest next.machine
      { last with output := transcript lines (p.answers limits lines) ++ last.output } := by
  induction lines generalizing p with
  | nil => simp [transcript, Prompt.after, Prompt.answers]
  | cons line lines ih =>
    have tail := ih (fun l hl => plain l (List.mem_cons_of_mem _ hl)) h.2
    rw [Prompt.answer_log] at tail
    rw [List.cons_append, runLines_cons_ok (plain line List.mem_cons_self) _ h.1]
    simp only [tail, Prompt.after, Prompt.answers, transcript, List.zipWith_cons_cons,
      List.foldr_cons, Output.append_assoc]

def heading (path : String) : Output := { out := "Reading from \"" ++ path ++ "\"\n" }

/-- A text is decoded from its own bytes. -/
theorem fromUTF8?_toUTF8 (s : String) : String.fromUTF8? s.toUTF8 = some s := by
  simp only [String.fromUTF8?, String.toUTF8_eq_toByteArray, dif_pos (String.isValidUTF8 _)]
  rfl

theorem run_intercalate (unbroken : ∀ line ∈ lines, Text.Unbroken line.toList) (path : String)
    (m : Machine) :
    run limits log path (.ok ("\n".intercalate lines).toUTF8) m =
      let r := runLines limits log lines m
      { r with output := heading path ++ r.output } := by
  have cut : runLines limits log (Text.lines ("\n".intercalate lines)) m =
      runLines limits log lines m := by
    rcases Text.lines_intercalate unbroken with all | lost
    · rw [all]
    · conv_rhs => rw [← lost]
      rw [runLines_append_blank]
  delta run heading
  simp only [fromUTF8?_toUTF8, cut]

/-- The run of a file, begun with some output, that does what the prompt does on some lines. -/
inductive Follows (limits : Limits) (lines : List String) (p : Prompt) (begun : Output) : Run → Prop
  /-- No line fails. -/
  | through (succeed : Prompt.Succeed limits lines p) :
    Follows limits lines p begun
      ⟨begun ++ transcript lines (p.answers limits lines), none, (p.after limits lines).machine⟩
  /-- The first line that fails ends the run, with the failure that the prompt reports; only the
  debug log of that line is shown. -/
  | broken {before line rest f logged} (cut : lines = before ++ line :: rest)
    (succeed : Prompt.Succeed limits before p)
    (fails : (p.after limits before).failure? limits line = some f)
    (reported : p.answers limits (before ++ [line]) =
      p.answers limits before ++ [logged ++ f.report p.traceback]) :
    Follows limits lines p begun
      ⟨begun ++ transcript before (p.answers limits before) ++ echo line ++ logged,
        some (.failed f), (p.after limits (before ++ [line])).machine⟩

/-- A file of plain lines follows the prompt. -/
theorem run_follows_prompt (plain : ∀ line ∈ lines, Prompt.Plain line) (p : Prompt)
    (path : String) :
    Follows limits lines p (heading path)
      (run limits p.log path (.ok ("\n".intercalate lines).toUTF8) p.machine) := by
  rw [run_intercalate fun line hl => (plain line hl).unbroken]
  rcases p.succeed_or_fails limits lines with succeed | ⟨before, line, rest, f, rfl, succeed, fails⟩
  · have shown := runLines_append plain [] succeed
    rw [List.append_nil] at shown
    simp only [shown, runLines, Output.append_empty]
    exact .through succeed
  · have plainBefore : ∀ l ∈ before, Prompt.Plain l := fun l hl => plain l (by simp [hl])
    have shown := runLines_append plainBefore (line :: rest) succeed
    obtain ⟨logged, reported, last⟩ := runLines_cons_error (plain line (by simp)) rest fails
    rw [Prompt.log_after] at last
    rw [Prompt.traceback_after plainBefore] at reported
    have told : p.answers limits (before ++ [line]) =
        p.answers limits before ++ [logged ++ f.report p.traceback] := by
      simp [Prompt.answers, reported]
    have machine : (p.after limits (before ++ [line])).machine =
        ((p.after limits before).answer limits line).2.machine := by
      simp [Prompt.after]
    simp only [shown, last, ← Output.append_assoc, ← machine]
    exact .broken rfl succeed fails told

private def typed : List String := ["var a = true", "", " a ", "missing", "a"]

/-- The fourth line fails, and the prompt goes on to the fifth. -/
theorem run_follows_prompt_typed :
    let limits : Limits := ⟨20, 5⟩
    let run := run limits false "s.js" (.ok ("\n".intercalate typed).toUTF8) .fresh
    Follows limits typed {} (heading "s.js") run ∧
      run.output = heading "s.js" ++
        { out := ">> var a = true;\n=> true\n>> a;\n=> true\n>> missing;\n" } ∧
      Prompt.answers limits typed {} = [{ out := "=> true\n" }, {}, { out := "=> true\n" },
        { err := "Error: ReferenceError: missing is not defined (line 1, col 1)\n" },
        { out := "=> true\n" }] := by
  intro limits run
  have plain : ∀ line ∈ typed, Prompt.Plain line := by decide +kernel
  have shown : run.output = heading "s.js" ++
      { out := ">> var a = true;\n=> true\n>> a;\n=> true\n>> missing;\n" } := by
    decide +kernel
  exact ⟨run_follows_prompt plain {} "s.js", shown, by decide +kernel⟩

end ScriptFile

end Scriptlet
