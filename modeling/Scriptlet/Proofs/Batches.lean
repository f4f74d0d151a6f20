import Scriptlet.CommandLine
import Scriptlet.Proofs.Sessions
/-!
# Files on one command line

Every file runs on a new store, and of the machine that the files before it leave only the count of
anonymous names goes on, which never reaches what is written while the log is off. So files named
together write what they write when each is named alone, up to the first that breaks off, and the
files after that one are not looked at.
-/

namespace Scriptlet

/-! ## One file after others -/

namespace ScriptFile

variable {limits : Limits} {lines : List String} {m m' : Machine}

/-- Without a log, a run shows of its machine what is visible in the store. -/
theorem runLines_still (limits : Limits) (lines : List String)
    (h : Shift.still.Stores m.store m'.store) :
    (runLines limits false lines m').output = (runLines limits false lines m).output ∧
      (runLines limits false lines m').trouble = (runLines limits false lines m).trouble := by
  induction lines generalizing m m' with
  | nil => exact ⟨rfl, rfl⟩
  | cons line lines ih =>
    rw [runLines, runLines]
    by_cases blank : complete line = ""
    · simpa only [if_pos blank] using ih h
    · obtain ⟨same, stores⟩ := Shift.run_still h limits (complete line)
      simp only [if_neg blank, same, Machine.flush, Machine.takeJournal]
      cases (m.run limits (complete line)).1 with
      | error f => exact ⟨rfl, rfl⟩
      | ok c =>
        let next (m : Machine) := ((m.run limits (complete line)).2.flush false).2
        have stores : Shift.still.Stores (next m).store (next m').store := stores
        obtain ⟨output, trouble⟩ := ih stores
        exact ⟨congrArg (HAppend.hAppend _) output, trouble⟩

/-- The log is all that a run adds to the error text. -/
theorem runLines_err : (runLines limits false lines m).output.err = "" := by
  induction lines generalizing m with
  | nil => rfl
  | cons line lines ih =>
    rw [runLines]
    by_cases blank : complete line = ""
    · simpa only [if_pos blank] using ih
    · simp only [if_neg blank]
      cases (m.run limits (complete line)).1 with
      | error f => rfl
      | ok c => exact ih

theorem run_still (limits : Limits) (path : String) (content : FileContent)
    (h : Shift.still.Stores m.store m'.store) :
    (run limits false path content m').output = (run limits false path content m).output ∧
      (run limits false path content m').trouble = (run limits false path content m).trouble := by
  cases content with
  | error f => exact ⟨rfl, rfl⟩
  | ok bytes =>
    simp only [run]
    cases String.fromUTF8? bytes with
    | none => exact ⟨rfl, rfl⟩
    | some s =>
      obtain ⟨output, trouble⟩ := runLines_still limits (Text.lines s) h
      exact ⟨congrArg (HAppend.hAppend _) output, trouble⟩

theorem run_err (path : String) (content : FileContent) :
    (run limits false path content m).output.err = "" := by
  cases content with
  | error f => rfl
  | ok bytes =>
    simp only [run]
    cases String.fromUTF8? bytes with
    | none => rfl
    | some s => exact runLines_err

end ScriptFile

namespace CommandLine

variable {limits : Limits} {traceback : Bool} {look look' : String → FileContent}
  {path : String} {paths : List String}

/-- What a file writes when nothing was run before it, and the exit if it breaks off. -/
def alone (limits : Limits) (traceback : Bool) (look : String → FileContent) (path : String) :
    Output × Option Exit :=
  let (output, exit, _) := runFile limits false traceback path (look path) .fresh
  (output, exit)

theorem alone_congr (limits : Limits) (traceback : Bool) (h : look' path = look path) :
    alone limits traceback look' path = alone limits traceback look path := by
  rw [alone, alone, h]

/-- What was run before a file does not matter to it. -/
theorem exists_runFile (limits : Limits) (traceback : Bool) (look : String → FileContent)
    (path : String) (m : Machine) :
    ∃ m', runFile limits false traceback path (look path) m =
      ((alone limits traceback look path).1, (alone limits traceback look path).2, m') := by
  have fresh : Shift.still.Stores Machine.fresh.renew.store m.renew.store :=
    Shift.stores_still_fresh
  obtain ⟨output, trouble⟩ := ScriptFile.run_still limits path (look path) fresh
  refine ⟨(ScriptFile.run limits false path (look path) m.renew).machine, ?_⟩
  simp only [alone, runFile, output, trouble]
  cases (ScriptFile.run limits false path (look path) Machine.fresh.renew).trouble <;> rfl

theorem conclude_ne_success (traceback : Bool) (path : String) (t : ScriptFile.Trouble) :
    (conclude traceback path t).2 ≠ .success := by
  cases t <;> simp [conclude]

theorem alone_ne_success : (alone limits traceback look path).2 ≠ some .success := by
  simp only [alone, runFile]
  cases (ScriptFile.run limits false path (look path) Machine.fresh.renew).trouble with
  | none => simp
  | some t => exact fun same => conclude_ne_success traceback path t (Option.some.inj same)

/-- Only a file that breaks off writes error text. -/
theorem alone_err (h : (alone limits traceback look path).2 = none) :
    (alone limits traceback look path).1.err = "" := by
  simp only [alone, runFile] at h ⊢
  cases stopped : (ScriptFile.run limits false path (look path) Machine.fresh.renew).trouble with
  | none => exact ScriptFile.run_err path (look path)
  | some t => simp [stopped] at h

/-! ## Many files -/

/-- What files write comes after what was written before them. -/
theorem filesBy_run (limits : Limits) (log traceback : Bool) (look : String → FileContent)
    (paths : List String) (m : Machine) (written : Output) :
    let files : StateM Output Exit :=
      filesBy (fun path => pure (look path)) (fun output => modify (· ++ output)) limits log
        traceback paths m
    let (output, exit) := runFiles limits log traceback look paths m
    files.run written = (exit, written ++ output) := by
  induction paths generalizing m written with
  | nil => exact congrArg (Exit.success, ·) (Output.append_empty written).symm
  | cons path paths ih =>
    simp only [runFiles, filesBy, pure_bind] at ih ⊢
    rcases runFile limits log traceback path (look path) m with ⟨output, _ | exit, next⟩
    · have here := ih next ({} ++ output)
      refine (ih next (written ++ output)).trans (Eq.symm ?_)
      refine (congrArg (fun r => (r.1, written ++ r.2)) here).trans ?_
      rw [Output.empty_append, Output.append_assoc]
    · exact congrArg (exit, written ++ ·) (Output.empty_append output).symm

theorem runFiles_cons (limits : Limits) (log traceback : Bool) (look : String → FileContent)
    (path : String) (paths : List String) (m : Machine) :
    runFiles limits log traceback look (path :: paths) m =
      match runFile limits log traceback path (look path) m with
      | (output, some exit, _) => (output, exit)
      | (output, none, m) =>
        let (rest, exit) := runFiles limits log traceback look paths m
        (output ++ rest, exit) := by
  rw [runFiles, filesBy, pure_bind]
  rcases runFile limits log traceback path (look path) m with ⟨output, _ | exit, next⟩
  · have rest := filesBy_run limits log traceback look paths next ({} ++ output)
    rw [Output.empty_append] at rest
    exact congrArg Prod.swap rest
  · exact congrArg (·, exit) (Output.empty_append output)

theorem runFiles_goesOn (h : (alone limits traceback look path).2 = none) (paths : List String)
    (m : Machine) :
    ∃ m', runFiles limits false traceback look (path :: paths) m =
      let (output, exit) := runFiles limits false traceback look paths m'
      ((alone limits traceback look path).1 ++ output, exit) := by
  obtain ⟨m', ran⟩ := exists_runFile limits traceback look path m
  exact ⟨m', by rw [runFiles_cons, ran, h]⟩

theorem runFiles_stops {exit : Exit} (h : (alone limits traceback look path).2 = some exit)
    (paths : List String) (m : Machine) :
    runFiles limits false traceback look (path :: paths) m =
      ((alone limits traceback look path).1, exit) := by
  obtain ⟨m', ran⟩ := exists_runFile limits traceback look path m
  rw [runFiles_cons, ran, h]

theorem runFiles_single (m : Machine) :
    runFiles limits false traceback look [path] m =
      ((alone limits traceback look path).1,
        (alone limits traceback look path).2.getD .success) := by
  cases ended : (alone limits traceback look path).2 with
  | none =>
    obtain ⟨m', ran⟩ := runFiles_goesOn ended [] m
    rw [ran]
    exact congrArg (·, Exit.success) (Output.append_empty _)
  | some exit => exact runFiles_stops ended [] m

/-- What some files write each, put together up to the last of them, which tells how they end. -/
def together (limits : Limits) (traceback : Bool) (look : String → FileContent)
    (done : List String) (last : String) : Output × Exit :=
  let final := alone limits traceback look last
  (⟨String.join ((done ++ [last]).map fun path => (alone limits traceback look path).1.out),
    final.1.err⟩, final.2.getD .success)

theorem together_nil (last : String) : together limits traceback look [] last =
    ((alone limits traceback look last).1, (alone limits traceback look last).2.getD .success) := by
  simp [together, String.join]

theorem together_cons (h : (alone limits traceback look path).2 = none) (done : List String)
    (last : String) : together limits traceback look (path :: done) last =
      let (output, exit) := together limits traceback look done last
      ((alone limits traceback look path).1 ++ output, exit) := by
  have joined (s : String) (l : List String) : String.join (s :: l) = s ++ String.join l := by
    simp
  refine congrArg (·, _) (congrArg₂ Output.mk ?_ ?_)
  · rw [List.cons_append, List.map_cons, joined]
  · rw [alone_err h]
    exact String.empty_append.symm

/-- Files are run up to the first that breaks off; the others are not looked at. -/
theorem runFiles_together (limits : Limits) (traceback : Bool) (look : String → FileContent)
    (named : paths ≠ []) :
    ∃ done last rest, paths = done ++ last :: rest ∧
      (∀ path ∈ done, (alone limits traceback look path).2 = none) ∧
      (rest = [] ∨ (alone limits traceback look last).2 ≠ none) ∧
      ∀ look' : String → FileContent, (∀ path ∈ done ++ [last], look' path = look path) → ∀ m,
        runFiles limits false traceback look' paths m =
          together limits traceback look done last := by
  induction paths with
  | nil => exact absurd rfl named
  | cons path paths ih =>
    by_cases final : paths = [] ∨ (alone limits traceback look path).2 ≠ none
    · refine ⟨[], path, paths, rfl, by simp, final, fun look' same m => ?_⟩
      rw [together_nil, ← alone_congr limits traceback (same path (by simp))]
      rw [← alone_congr limits traceback (same path (by simp))] at final
      rcases final with rfl | stops
      · exact runFiles_single m
      · obtain ⟨exit, stops⟩ := Option.ne_none_iff_exists'.mp stops
        rw [runFiles_stops stops, stops, Option.getD_some]
    · obtain ⟨more, goesOn⟩ := not_or.mp final
      rw [not_not] at goesOn
      obtain ⟨done, last, rest, rfl, succeed, stops, ran⟩ := ih more
      refine ⟨path :: done, last, rest, rfl, ?_, stops, fun look' same m => ?_⟩
      · exact List.forall_mem_cons.mpr ⟨goesOn, succeed⟩
      · obtain ⟨here, others⟩ := List.forall_mem_cons.mp same
        have first := alone_congr limits traceback here
        obtain ⟨m', all⟩ := runFiles_goesOn (first ▸ goesOn) (done ++ last :: rest) m
        rw [all, ran look' others m', together_cons goesOn, first]

/-! ## The program -/

namespace Course

/-- What is written before the program ends. -/
def output : Course → Output
  | prompt _ => {}
  | ended output _ => output

/-- How the program ends, unless it is the prompt that says so. -/
def exit? : Course → Option Exit
  | prompt _ => none
  | ended _ exit => some exit

end Course

/-- An option that there is not is refused, and no other argument is. -/
theorem ofArgs_refused {args : List String} (h : ∃ arg ∈ args, isOption arg ∧ arg ≠ debugFlag) :
    ∃ arg ∈ args, isOption arg ∧ arg ≠ debugFlag ∧ Request.ofArgs args = .refused arg := by
  obtain ⟨arg, mem, option, unknown⟩ := h
  have refused : (args.find? fun arg => isOption arg && arg != debugFlag).isSome := by
    rw [List.find?_isSome]
    exact ⟨arg, mem, by simp [option, unknown]⟩
  obtain ⟨arg, found⟩ := Option.isSome_iff_exists.mp refused
  have first := List.find?_some found
  rw [Bool.and_eq_true, bne_iff_ne] at first
  exact ⟨arg, List.mem_of_find?_eq_some found, first.1, first.2, by rw [Request.ofArgs, found]⟩

theorem ofArgs_files {args : List String} (named : ∃ arg ∈ args, isOption arg = false)
    (known : ∀ arg ∈ args, isOption arg → arg = debugFlag) :
    Request.ofArgs args = .files (if args.contains debugFlag then some .debug else none)
      (args.filter (!isOption ·)) := by
  have none : args.find? (fun arg => isOption arg && arg != debugFlag) = none := by
    rw [List.find?_eq_none]
    intro arg mem
    rw [Bool.and_eq_true, bne_iff_ne]
    exact fun h => h.2 (known arg mem h.1)
  obtain ⟨path, mem, plain⟩ := named
  have kept : path ∈ args.filter (!isOption ·) := List.mem_filter.mpr ⟨mem, by simp [plain]⟩
  simp only [Request.ofArgs, none]
  cases paths : args.filter (!isOption ·) with
  | nil => simp [paths] at kept
  | cons path paths => rfl

theorem ofArgs_paths (named : paths ≠ []) (plain : ∀ path ∈ paths, isOption path = false) :
    Request.ofArgs paths = .files none paths := by
  obtain ⟨path, mem⟩ := List.exists_mem_of_ne_nil paths named
  have quiet : paths.contains debugFlag = false := by
    rw [List.contains_eq_mem, decide_eq_false_iff_not]
    exact fun mem => absurd (plain debugFlag mem) (by decide)
  have all : paths.filter (!isOption ·) = paths := by
    rw [List.filter_eq_self]
    intro path mem
    simp [plain path mem]
  rw [ofArgs_files ⟨path, mem, plain path mem⟩, quiet, all]
  · rfl
  · intro path mem option
    simp [plain path mem] at option

theorem start_paths {env : Settings.Environment} (quiet : logging none env = false)
    (named : paths ≠ []) (plain : ∀ path ∈ paths, isOption path = false) :
    start limits env look paths =
      let (output, exit) := runFiles limits false (Settings.traceback env) look paths .fresh
      .ended output exit := by
  rw [start, ofArgs_paths named plain]
  simp only [quiet]

theorem start_path {env : Settings.Environment} (quiet : logging none env = false)
    (plain : isOption path = false) :
    start limits env look [path] =
      .ended (alone limits (Settings.traceback env) look path).1
        ((alone limits (Settings.traceback env) look path).2.getD .success) := by
  rw [start_paths quiet (List.cons_ne_nil _ _) (by simpa using plain), runFiles_single]

theorem getD_ne_success (h : (alone limits traceback look path).2 ≠ none) :
    (alone limits traceback look path).2.getD .success ≠ .success := by
  obtain ⟨exit, breaks⟩ := Option.ne_none_iff_exists'.mp h
  rw [breaks, Option.getD_some]
  rintro rfl
  exact alone_ne_success breaks

/-- Files named together write what each writes when it is named alone, up to the first that does
not end well, and end as that file does; what the files after it hold does not matter. An option
that there is not ends the program before anything is written, whatever the files hold. -/
theorem files_run_apart (limits : Limits) (env : Settings.Environment) :
    (∀ paths : List String, paths ≠ [] → (∀ path ∈ paths, isOption path = false) →
      logging none env = false → ∀ look,
        let course (path : String) := start limits env look [path]
        ∃ done last rest exit, paths = done ++ last :: rest ∧
          (∀ path ∈ done, (course path).exit? = some .success) ∧
          (course last).exit? = some exit ∧ (rest = [] ∨ exit ≠ .success) ∧
          ∀ look' : String → FileContent, (∀ path ∈ done ++ [last], look' path = look path) →
            start limits env look' paths =
              .ended ⟨String.join ((done ++ [last]).map fun path => (course path).output.out),
                (course last).output.err⟩ exit) ∧
    ∀ args : List String, (∃ arg ∈ args, isOption arg ∧ arg ≠ debugFlag) →
      ∃ arg ∈ args, isOption arg ∧ arg ≠ debugFlag ∧ ∀ look,
        start limits env look args = .ended {} (.message ("Unexpected argument: " ++ arg)) := by
  refine ⟨fun paths named plain quiet look => ?_, fun args ⟨arg, mem, option, unknown⟩ => ?_⟩
  · intro course
    let traceback := Settings.traceback env
    obtain ⟨done, last, rest, cut, succeed, stops, ran⟩ :=
      runFiles_together limits traceback look named
    have single : ∀ path ∈ done ++ [last], course path =
        .ended (alone limits traceback look path).1
          ((alone limits traceback look path).2.getD .success) := by
      intro path mem
      have run : path ∈ paths := by
        rw [cut, List.append_cons]
        exact List.mem_append_left rest mem
      exact start_path quiet (plain path run)
    have final := single last (List.mem_append_right done List.mem_cons_self)
    refine ⟨done, last, rest, (alone limits traceback look last).2.getD .success, cut,
      fun path mem => ?_, ?_, ?_, fun look' same => ?_⟩
    · rw [single path (List.mem_append_left _ mem), succeed path mem]
      rfl
    · rw [final]
      rfl
    · exact stops.imp_right getD_ne_success
    · have outputs : (done ++ [last]).map (fun path => (course path).output.out) =
          (done ++ [last]).map fun path => (alone limits traceback look path).1.out :=
        List.map_congr_left fun path mem => by rw [single path mem]; rfl
      rw [start_paths quiet named plain, ran look' same .fresh, outputs, final]
      rfl
  · obtain ⟨arg, mem, option, unknown, refused⟩ := ofArgs_refused ⟨arg, mem, option, unknown⟩
    refine ⟨arg, mem, option, unknown, fun look => ?_⟩
    rw [start, refused]
    rfl

private def shelf : String → FileContent
  | "a" => .ok "var f = function () \x7b return true; \x7d;\nf()".toUTF8
  | "b" => .ok "f".toUTF8
  | _ => .error .missing

/-- The function of the first file is not there in the second, and the third is never opened. -/
theorem files_run_apart_shelf :
    let limits : Limits := ⟨30, 5⟩
    let env : Settings.Environment := fun _ => none
    let course (path : String) := start limits env shelf [path]
    let out := "Reading from \"a\"\n>> var f = function () \x7b return true; \x7d;\n" ++
      "=> [function anonymous]\n>> f();\n=> true\nReading from \"b\"\n>> f;\n"
    let err := "Error: ReferenceError: f is not defined (line 1, col 1)\n"
    logging none env = false ∧ (course "a").exit? = some .success ∧
      (course "b").exit? = some (.status 1) ∧
      (course "a").output.out ++ (course "b").output.out = out ∧ (course "b").output.err = err ∧
      start limits env shelf ["a", "b", "c"] = .ended ⟨out, err⟩ (.status 1) ∧
      start limits env shelf ["a", "--debug", "-b"] =
        .ended {} (.message "Unexpected argument: -b") := by
  intro limits env course out err
  have quiet : logging none env = false := by decide
  have first : (course "a").exit? = some .success := by decide +kernel
  have second : (course "b").exit? = some (.status 1) := by decide +kernel
  have outputs : (course "a").output.out ++ (course "b").output.out = out := by decide +kernel
  have error : (course "b").output.err = err := by decide +kernel
  obtain ⟨apart, refused⟩ := files_run_apart limits env
  obtain ⟨done, last, rest, exit, cut, succeed, ends, stops, ran⟩ :=
    apart ["a", "b", "c"] (by decide) (by decide) quiet shelf
  have reached : done = ["a"] ∧ last = "b" := by
    rcases done with _ | ⟨x, _ | ⟨y, done⟩⟩
    · obtain ⟨rfl, rfl⟩ := List.cons.inj cut
      obtain rfl := Option.some.inj (first.symm.trans ends)
      simp at stops
    · obtain ⟨rfl, rfl, -⟩ := by simpa using cut
      exact ⟨rfl, rfl⟩
    · obtain ⟨rfl, rfl, -⟩ := by simpa using cut
      have both := second.symm.trans (succeed "b" (by simp))
      simp at both
  obtain ⟨rfl, rfl⟩ := reached
  obtain rfl := Option.some.inj (second.symm.trans ends)
  have joined : String.join [(course "a").output.out, (course "b").output.out] = out := by
    rw [← outputs]
    simp
  have together : start limits env shelf ["a", "b", "c"] = .ended ⟨out, err⟩ (.status 1) := by
    rw [ran shelf fun _ _ => rfl, ← joined, ← error]
    rfl
  obtain ⟨arg, mem, option, unknown, ended⟩ :=
    refused ["a", "--debug", "-b"] ⟨"-b", by decide⟩
  obtain rfl : arg = "-b" := by
    simp only [List.mem_cons, List.not_mem_nil, or_false] at mem
    rcases mem with rfl | rfl | rfl
    · exact absurd option (by decide)
    · exact absurd rfl unknown
    · rfl
  exact ⟨quiet, first, second, outputs, error, together, ended shelf⟩

end CommandLine

end Scriptlet
