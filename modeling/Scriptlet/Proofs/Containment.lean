import Scriptlet.Proofs.Batches
import Scriptlet.Proofs.Guards
/-!
# How a run of files ends

A file can fail in three ways: it cannot be opened, its bytes are not UTF-8, or one of its lines
fails. The first ends the program with a message, and the last with status one and a report on the
error text; a line fails only as a program can, so no guard of the evaluator is ever reported. A
file that is not UTF-8 is the exception: nothing is reported of it.
-/

namespace Scriptlet

namespace ScriptFile

variable {limits : Limits} {log : Bool} {lines : List String} {path : String}
  {content : FileContent} {m : Machine} {t : Trouble}

/-- The file can be opened and its bytes are UTF-8. -/
def Readable (content : FileContent) : Prop :=
  ∃ bytes s, content = .ok bytes ∧ String.fromUTF8? bytes = some s

/-- The bytes of the file are not UTF-8. -/
def Garbled (content : FileContent) : Prop :=
  ∃ bytes, content = .ok bytes ∧ String.fromUTF8? bytes = none

/-- The troubles that a file with a given content can run into. -/
inductive Trouble.Befalls (content : FileContent) : Trouble → Prop
  | unopened {f} (h : content = .error f) : Befalls content (.unopened f)
  | undecodable (h : Garbled content) : Befalls content .undecodable
  | failed {f} (h : Readable content) (expected : f.IsExpected) : Befalls content (.failed f)

/-- Lines fail only as fragments do. -/
theorem runLines_sound (sound : m.store.Sound)
    (h : (runLines limits log lines m).trouble = some t) :
    ∃ f : Failure, f.IsExpected ∧ t = .failed f := by
  induction lines generalizing m with
  | nil => cases h
  | cons line lines ih =>
    rw [runLines] at h
    by_cases blank : complete line = ""
    · simp only [if_pos blank] at h
      exact ih sound h
    · obtain ⟨kept, expected⟩ := m.run_sound limits (complete line) sound
      simp only [if_neg blank] at h
      cases ended : (m.run limits (complete line)).1 with
      | error f =>
        simp only [ended] at h
        exact ⟨f, expected f ended, (Option.some.inj h).symm⟩
      | ok c =>
        have kept : ((m.run limits (complete line)).2.flush log).2.store.Sound := kept
        simp only [ended] at h
        exact ih kept h

theorem befalls_run (sound : m.store.Sound)
    (h : (run limits log path content m).trouble = some t) : t.Befalls content := by
  cases content with
  | error f =>
    obtain rfl := Option.some.inj h
    exact .unopened rfl
  | ok bytes =>
    simp only [run] at h
    cases decoded : String.fromUTF8? bytes with
    | none =>
      simp only [decoded] at h
      obtain rfl := Option.some.inj h
      exact .undecodable ⟨bytes, rfl, decoded⟩
    | some s =>
      simp only [decoded] at h
      obtain ⟨f, expected, rfl⟩ := runLines_sound sound h
      exact .failed ⟨bytes, s, rfl, decoded⟩ expected

theorem readable_of_run (h : (run limits log path content m).trouble = none) :
    Readable content := by
  cases content with
  | error f => cases h
  | ok bytes =>
    simp only [run] at h
    cases decoded : String.fromUTF8? bytes with
    | none =>
      simp only [decoded] at h
      cases h
    | some s => exact ⟨bytes, s, rfl, decoded⟩

end ScriptFile

namespace CommandLine

open ScriptFile (Readable Garbled Trouble)

variable {limits : Limits} {log traceback : Bool} {look : String → FileContent}
  {paths : List String}

/-- Either every file is run to its end, or one of them breaks off, which says how the run ends. -/
theorem runFiles_ends (limits : Limits) (log traceback : Bool) (look : String → FileContent)
    (paths : List String) (m : Machine) :
    ((runFiles limits log traceback look paths m).2 = .success ∧
        ∀ path ∈ paths, Readable (look path)) ∨
      ∃ path ∈ paths, ∃ t before, Trouble.Befalls (look path) t ∧
        runFiles limits log traceback look paths m =
          (before ++ (conclude traceback path t).1, (conclude traceback path t).2) := by
  induction paths generalizing m with
  | nil => exact .inl ⟨rfl, by simp⟩
  | cons path paths ih =>
    rw [runFiles_cons, runFile]
    cases ended : (ScriptFile.run limits log path (look path) m.renew).trouble with
    | some t =>
      refine .inr ⟨path, List.mem_cons_self, t, _, ?_, rfl⟩
      exact ScriptFile.befalls_run Store.fresh_sound ended
    | none =>
      have here := ScriptFile.readable_of_run ended
      rcases ih (ScriptFile.run limits log path (look path) m.renew).machine with
        ⟨success, others⟩ | ⟨path', mem, t, before, befalls, rest⟩
      · exact .inl ⟨success, List.forall_mem_cons.mpr ⟨here, others⟩⟩
      · refine .inr ⟨path', List.mem_cons_of_mem _ mem, t,
          (ScriptFile.run limits log path (look path) m.renew).output ++ before, befalls, ?_⟩
        simp only [rest, Output.append_assoc]

/-- The ends that are reported: none is needed, a message, or status one after an error text. -/
inductive Reported (traceback : Bool) (look : String → FileContent) (args : List String) :
    Output → Exit → Prop
  | success {output} (read : ∀ path ∈ args, isOption path = false → Readable (look path)) :
    Reported traceback look args output .success
  | refused {arg} (mem : arg ∈ args) (option : isOption arg) (unknown : arg ≠ debugFlag) :
    Reported traceback look args {} (refusal arg)
  | unopened {output path f} (mem : path ∈ args) (plain : isOption path = false)
    (unopened : look path = .error f) :
    Reported traceback look args output (.message ("Cannot open \"" ++ path ++ "\": " ++ f.reason))
  /-- A line is no program, or running it fails as a program can. -/
  | failed {before path} {f : Failure} (mem : path ∈ args) (plain : isOption path = false)
    (read : Readable (look path)) (expected : f.IsExpected) (ended : f ≠ .unfinished) :
    Reported traceback look args (before ++ f.report traceback) (.status 1)
  /-- A line that goes on for longer than the rounds that it is given. -/
  | unfinished {before path} (mem : path ∈ args) (plain : isOption path = false)
    (read : Readable (look path)) :
    Reported traceback look args (before ++ Failure.unfinished.report traceback) (.status 1)

/-- Whether a run that ends so is over without an error of its own. -/
def Exit.IsContained : Exit → Prop
  | success => True
  | message _ => True
  | status n => n = 1
  | undecodable => False

theorem Reported.contained {output : Output} {exit : Exit} {args : List String}
    (h : Reported traceback look args output exit) : exit.IsContained := by
  cases h with
  | success read => trivial
  | refused mem option unknown => trivial
  | unopened mem plain unopened => trivial
  | failed mem plain read expected ended => rfl
  | unfinished mem plain read => rfl

/-- What a trouble of a named file makes of the run is reported, or the file is not UTF-8. -/
theorem reported_conclude {args : List String} {path : String} {t : Trouble}
    (mem : path ∈ args) (plain : isOption path = false) (h : t.Befalls (look path))
    (before : Output) :
    Reported traceback look args (before ++ (conclude traceback path t).1)
        (conclude traceback path t).2 ∨
      (conclude traceback path t).2 = .undecodable ∧ Garbled (look path) := by
  cases h with
  | unopened unopened => exact .inl (.unopened mem plain unopened)
  | undecodable garbled => exact .inr ⟨rfl, garbled⟩
  | @failed f read expected =>
    refine .inl ?_
    by_cases ended : f = .unfinished
    · rw [ended]
      exact .unfinished mem plain read
    · exact .failed mem plain read expected ended

/-- A run that names a file ends, and its end is reported unless one of the files is not UTF-8. With
no such file no error escapes. -/
theorem named_files_end (limits : Limits) (env : Settings.Environment)
    (look : String → FileContent) (args : List String)
    (named : ∃ arg ∈ args, isOption arg = false) :
    ∃ output exit, start limits env look args = .ended output exit ∧
      (Reported (Settings.traceback env) look args output exit ∨
        exit = .undecodable ∧ ∃ path ∈ args, isOption path = false ∧ Garbled (look path)) ∧
      ((∀ path ∈ args, isOption path = false → ¬ Garbled (look path)) → exit.IsContained) := by
  suffices ends : ∃ output exit, start limits env look args = .ended output exit ∧
      (Reported (Settings.traceback env) look args output exit ∨
        exit = .undecodable ∧ ∃ path ∈ args, isOption path = false ∧ Garbled (look path)) by
    obtain ⟨output, exit, ended, reported | ⟨escaped, path, mem, plain, garbled⟩⟩ := ends
    · exact ⟨output, exit, ended, .inl reported, fun _ => reported.contained⟩
    · exact ⟨output, exit, ended, .inr ⟨escaped, path, mem, plain, garbled⟩,
        fun fine => absurd garbled (fine path mem plain)⟩
  by_cases unknown : ∃ arg ∈ args, isOption arg ∧ arg ≠ debugFlag
  · obtain ⟨arg, mem, option, unknown, refused⟩ := ofArgs_refused unknown
    exact ⟨{}, refusal arg, by rw [start, refused], .inl (.refused mem option unknown)⟩
  · have known : ∀ arg ∈ args, isOption arg → arg = debugFlag := by
      intro arg mem option
      by_contra other
      exact unknown ⟨arg, mem, option, other⟩
    have files := ofArgs_files named known
    generalize (if args.contains debugFlag then some LogLevel.debug else none) = level at files
    refine ⟨_, _, by rw [start, files], ?_⟩
    have kept : ∀ path, path ∈ args.filter (!isOption ·) ↔ path ∈ args ∧ isOption path = false := by
      simp
    rcases runFiles_ends limits (logging level env) (Settings.traceback env) look
        (args.filter (!isOption ·)) .fresh with
      ⟨success, read⟩ | ⟨path, mem, t, before, trouble, ran⟩
    · rw [success]
      exact .inl (.success fun path mem plain => read path ((kept path).mpr ⟨mem, plain⟩))
    · obtain ⟨mem, plain⟩ := (kept path).mp mem
      rw [ran]
      refine (reported_conclude mem plain trouble before).imp_right fun ended => ?_
      exact ⟨ended.1, path, mem, plain, ended.2⟩

private def drawer : String → FileContent
  | "a" => .ok "true".toUTF8
  | "b" => .ok "a.b".toUTF8
  | "c" => .ok ⟨#[0xff, 0x0a]⟩
  | _ => .error .missing

/-- A line that fails ends the run with status one, and a file that is not there with a message. -/
theorem named_files_end_drawer :
    let limits : Limits := ⟨30, 5⟩
    let env : Settings.Environment := fun _ => none
    let ends (args : List String) (exit : Exit) :=
      ∃ output, start limits env drawer args = .ended output exit ∧ exit.IsContained
    (∀ path ∈ ["a", "b", "d"], ¬ Garbled (drawer path)) ∧ ends ["a", "b"] (.status 1) ∧
      ends ["a", "d"] (.message "Cannot open \"d\": No such file or directory") := by
  intro limits env ends
  have fine : ∀ path ∈ ["a", "b", "d"], ¬ Garbled (drawer path) := by
    rintro path mem ⟨bytes, opened, garbled⟩
    simp only [List.mem_cons, List.not_mem_nil, or_false] at mem
    rcases mem with rfl | rfl | rfl
    · obtain rfl := Except.ok.inj opened
      exact absurd garbled (by decide +kernel)
    · obtain rfl := Except.ok.inj opened
      exact absurd garbled (by decide +kernel)
    · cases opened
  have failed : (start limits env drawer ["a", "b"]).exit? = some (.status 1) := by
    decide +kernel
  have unopened : (start limits env drawer ["a", "d"]).exit? =
      some (.message "Cannot open \"d\": No such file or directory") := by
    decide +kernel
  refine ⟨fine, ?_, ?_⟩
  · obtain ⟨output, exit, ended, -, contained⟩ :=
      named_files_end limits env drawer ["a", "b"] ⟨"a", by decide⟩
    rw [ended] at failed
    obtain rfl := Option.some.inj failed
    have among : ["a", "b"] ⊆ ["a", "b", "d"] := by simp
    exact ⟨output, ended, contained fun path mem _ => fine path (among mem)⟩
  · obtain ⟨output, exit, ended, -, contained⟩ :=
      named_files_end limits env drawer ["a", "d"] ⟨"a", by decide⟩
    rw [ended] at unopened
    obtain rfl := Option.some.inj unopened
    have among : ["a", "d"] ⊆ ["a", "b", "d"] := by simp
    exact ⟨output, ended, contained fun path mem _ => fine path (among mem)⟩

/-- A file that is not UTF-8 ends the program with an error of its own. -/
theorem undecodable_escapes :
    ¬ ∀ (limits : Limits) (env : Settings.Environment) (look : String → FileContent)
        (args : List String), (∃ arg ∈ args, isOption arg = false) →
        ∃ output exit, start limits env look args = .ended output exit ∧ exit.IsContained := by
  intro contained
  obtain ⟨output, exit, ended, reported⟩ :=
    contained .standard (fun _ => none) drawer ["c"] ⟨"c", by decide⟩
  have escaped : (start .standard (fun _ => none) drawer ["c"]).exit? = some .undecodable := by
    decide +kernel
  rw [ended] at escaped
  obtain rfl := Option.some.inj escaped
  exact reported

end CommandLine

end Scriptlet
