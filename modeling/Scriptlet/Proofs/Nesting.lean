import Scriptlet.Proofs.Congruence
import Scriptlet.Proofs.Enclosure
import Scriptlet.Proofs.Scoping
/-!
# Frames are nested like the functions of the source

Code that lies in `n` function literals is evaluated in a frame that is enclosed in `n` others, the
outermost of which is the global one, however many calls are in progress. Each function literal
captures the frame in which it is evaluated, and each call of the function opens a frame inside of
the captured one, so that a call keeps the two counts equal, wherever it is made.

What a scope has captured is never changed. So the counts can all be read off the store in which a
session ends.
-/

namespace Scriptlet

/-! ## Code that knows where it lies -/

/-- The tree is code of the program `root` and lies there in `n` function literals. -/
inductive Tree.Inside (root : Tree) : Nat → Tree → Prop
  | root : Inside root 0 root
  | part {n label place children t} : Inside root n (.node label place children) →
      label ≠ .function → t ∈ children → Inside root n t
  | argument {n place function args t} : Inside root n (.node .call place [function, args]) →
      t ∈ args.children → Inside root n t
  | body {n place name params t} : Inside root n (.node .function place [name, params, t]) →
      Inside root (n + 1) t

/-- The tree is code of a fragment with such a source, in `n` function literals. -/
def Lies (sources : String → Prop) (n : Nat) (t : Tree) : Prop :=
  ∃ src p, sources src ∧ Source.readProgram src.toList = .ok p ∧ p.tree.Inside n t

/-- The tree lies in `n` function literals, and its evaluation begins and ends in a frame that is
enclosed in `n` others. -/
structure Belongs (sources : String → Prop) (n : Nat) (t : Tree) (m m' : Machine) : Prop where
  lies : Lies sources n t
  before : m.store.Enclosed m.store.top n
  after : m'.store.Enclosed m'.store.top n

/-- Code in `n` function literals is evaluated where it belongs, and a function literal there makes
a function of which `around` says so. -/
def lexical (sources : String → Prop) (around : Int → Nat) (n : Nat) : Law where
  expr t m
    | .ok d m' => Belongs sources n t m m' ∧
      (t.IsFunction → ∃ f, d.function = some f ∧ around f.scope = n)
    | .error _ m' => Belongs sources n t m m'
  stmt t m
    | .ok _ m' => Belongs sources n t m m'
    | .error _ m' => Belongs sources n t m m'

/-- The evaluator of code that lies in `n` function literals. So do the parts of the code, and the
body of a function lies in one literal more than the function. An evaluation in a frame where it
does not belong raises the alarm. -/
noncomputable def nestedEvaluator (sources : String → Prop) (around : Int → Nat) (alarm : Stop)
    (rounds : Nat) : Nat → Nat → Evaluator
  | 0, n => (lexical sources around n).police alarm .exhausted
  | depth + 1, n =>
    let inner := nestedEvaluator sources around alarm rounds depth
    let body := fun t m => (inner (around m.store.currentScope + 1)).stmt t m
    (lexical sources around n).police alarm
      { expr := fun t => Eval.located t.place? (Evaluator.exprStep ⟨(inner n).expr, body⟩ t)
        stmt := fun t => Eval.located t.place? ((inner n).stmtStep rounds t) }

/-- On this machine, all code that the evaluation of a fragment with this tree comes to is evaluated
where it belongs, so that no alarm is raised. -/
def Nests (sources : String → Prop) (around : Int → Nat) (limits : Limits) (t : Tree)
    (m : Machine) : Prop :=
  ∀ alarm, (nestedEvaluator sources around alarm limits.rounds limits.depth 0).stmt t m =
    (evaluator limits.rounds limits.depth).stmt t m

/-! ## What a session comes to -/

/-- The sources of a session and the store in which it ends. -/
structure Finish where
  sources : String → Prop
  store : Store
  wf : store.WellFormed
  rooted : store.Rooted

namespace Finish

variable (E : Finish) {n : Nat} {α β : Type} {P : Prop} {Q : α → Prop} {R : β → Prop}

def around : Int → Nat := E.store.around

/-- A function of the datum was made by a literal that lies in as many others as is told of it. -/
def Good (d : Datum) : Prop :=
  ∀ f, d.function = some f → ∃ place name params,
    Lies E.sources (E.around f.scope) (.node .function place [name, params, f.body])

/-- All functions in the frames were made by such literals. -/
def Sound (s : Store) : Prop := ∀ d, s.Contains d → E.Good d

/-- An action is taken in a frame that is enclosed in `n` others, and the session goes on from there
to its end. -/
structure Taken (n : Nat) (x : Eval α) (m : Machine) : Prop where
  wf : m.store.WellFormed
  level : m.store.Enclosed m.store.top n
  sound : E.Sound m.store
  leads : (x.after m).store.LeadsTo E.store

def Ends (Q : α → Prop) : EStateM.Result Stop Machine α → Prop
  | .ok a m => Q a ∧ E.Sound m.store
  | .error _ m => E.Sound m.store

/-- Given `P`, the action ends well wherever it is taken so, and can be replaced. -/
structure Replaces (n : Nat) (P : Prop) (Q : α → Prop) (x : Eval α) (y : Stop → Eval α) :
    Prop where
  tells : x.Tells
  taken : P → ∀ {m}, E.Taken n x m → E.Ends Q (x m) ∧ ∀ alarm, y alarm m = x m

variable {E}

theorem Ends.sound {x : Eval α} {m : Machine} (h : E.Ends Q (x m)) :
    E.Sound (x.after m).store := by
  simp only [Eval.after]
  generalize x m = r at h ⊢
  cases r with
  | ok a m' => exact h.2
  | error stop m' => exact h

theorem Ends.ending {x : Eval α} {m : Machine} (h : E.Ends Q (x m)) {a : α}
    (ended : x.ending m = .ok a) : Q a := by
  simp only [Eval.ending] at ended
  generalize x m = r at h ended
  cases r with
  | ok a' m' =>
    cases ended
    exact h.1
  | error stop m' => cases ended

/-- Only what is stored can be unsound. -/
theorem Sound.step {s s' : Store} {e : Event} (h : E.Sound s) (step : s.Step e s')
    (stored : ∀ name d scope, e = .alloc name d scope → E.Good d) : E.Sound s' := by
  intro d contains
  rcases step.contains contains with contains | ⟨name, scope, rfl⟩
  · exact h d contains
  · exact stored name d scope rfl

theorem good_plain (v : Value) : E.Good ⟨v, none⟩ := nofun

/-! ## Actions -/

theorem Replaces.imp {P' : Prop} {x : Eval α} {y : Stop → Eval α} (h : E.Replaces n P Q x y)
    (granted : P' → P) : E.Replaces n P' Q x y :=
  ⟨h.tells, fun p => h.taken (granted p)⟩

theorem replaces_pure {a : α} (h : P → Q a) : E.Replaces n P Q (pure a) fun _ => pure a :=
  ⟨.pure a, fun p _ taken => ⟨⟨h p, taken.sound⟩, fun _ => rfl⟩⟩

theorem replaces_throw (stop : Stop) : E.Replaces n P Q (throw stop) fun _ => throw stop :=
  ⟨.throw stop, fun _ _ taken => ⟨taken.sound, fun _ => rfl⟩⟩

theorem Replaces.bind {x : Eval α} {y : Stop → Eval α} {f : α → Eval β} {g : Stop → α → Eval β}
    (hx : E.Replaces n P Q x y)
    (hf : ∀ a, E.Replaces n (P ∧ Q a) R (f a) fun alarm => g alarm a) :
    E.Replaces n P R (x >>= f) fun alarm => y alarm >>= g alarm := by
  refine ⟨hx.tells.bind fun a => (hf a).tells, ?_⟩
  rintro p m ⟨wf, level, sound, leads⟩
  have told := hx.tells m
  have first := hx.taken p (m := m)
  simp only [Bind.bind, EStateM.bind]
  simp only [Eval.after, Bind.bind, EStateM.bind] at told leads
  cases h : x m with
  | ok a m₁ =>
    simp only [h] at told leads
    have leads₁ : m₁.store.LeadsTo E.store := ((hf a).tells m₁).leadsTo.trans leads
    obtain ⟨ends, same⟩ := first ⟨wf, level, sound, by simpa only [Eval.after, h] using leads₁⟩
    rw [h] at ends same
    have rest : E.Taken n (f a) m₁ := ⟨told.wellFormed wf, told.enclosed level, ends.2, leads⟩
    obtain ⟨ends', same'⟩ := (hf a).taken ⟨p, ends.1⟩ rest
    refine ⟨ends', fun alarm => ?_⟩
    rw [same alarm]
    exact same' alarm
  | error stop m₁ =>
    simp only [h] at leads
    obtain ⟨ends, same⟩ := first ⟨wf, level, sound, by simpa only [Eval.after, h] using leads⟩
    rw [h] at ends same
    refine ⟨ends, fun alarm => ?_⟩
    rw [same alarm]

theorem replaces_record {e : Event} (quiet : e.isQuiet) (still : ∀ s : Store, s.Step e s) :
    E.Replaces n P (fun _ => True) (Eval.record e) fun _ => Eval.record e :=
  ⟨Eval.tells_record quiet still, fun _ _ taken => ⟨⟨trivial, taken.sound⟩, fun _ => rfl⟩⟩

theorem replaces_alloc (name : String) (d : Datum) :
    E.Replaces n (E.Good d) (fun _ => True) (Eval.alloc name d) fun _ => Eval.alloc name d := by
  refine ⟨Eval.tells_alloc name d, fun good m taken => ⟨?_, fun _ => rfl⟩⟩
  simp only [Eval.alloc]
  cases h : m.store.alloc name d with
  | ok s =>
    refine ⟨trivial, taken.sound.step (.alloc h) fun name' d' scope same => ?_⟩
    cases same
    exact good
  | error f => exact taken.sound

theorem replaces_load? (name : String) :
    E.Replaces n P (fun found => ∀ d, found = some d → E.Good d) (Eval.load? name)
      fun _ => Eval.load? name := by
  refine ⟨Eval.tells_load? name, fun _ m taken => ⟨⟨?_, taken.sound⟩, fun _ => rfl⟩⟩
  intro d found
  exact taken.sound d (Store.contains_of_load? found)

/-- It is told of a function that it lies where its literal does. -/
theorem around_of_reserve {s s' : Store} {name : String} {d : Datum} (level : s.Enclosed s.top n)
    (done : s.reserve.2.alloc name d = .ok s') (leads : s'.LeadsTo E.store) :
    E.around (Int.ofNat s.scopeCount) = n := by
  have reserved : s.LeadsTo s' :=
    (Store.Step.reserve).leadsTo.trans (Store.Step.alloc done).leadsTo
  have level' := level.later (reserved.trans leads)
  obtain ⟨es, steps⟩ := leads
  exact Store.around_of_captured E.wf (steps.captured (Store.captured_of_reserve done)) level'

theorem replaces_makeFunction {place : Option Place} {name params body : Tree}
    (lies : Lies E.sources n (.node .function place [name, params, body])) :
    E.Replaces n P E.Good (makeFunction name params body) fun _ =>
      makeFunction name params body := by
  refine ⟨Eval.tells_makeFunction name params body, fun _ m taken => ⟨?_, fun _ => rfl⟩⟩
  have reserved : E.Sound m.store.reserve.2 := taken.sound.step .reserve (by simp)
  have leads := taken.leads
  simp only [Eval.after] at leads
  rcases makeFunction_eq name params body m with
    ⟨fault, _, failed⟩ | ⟨f, stored, s, anonymous, rfl, scope, done, made⟩
  · rw [failed]
    exact reserved
  · rw [made] at leads ⊢
    have good : E.Good ⟨.ref f.scope, some f⟩ := by
      rintro _ ⟨⟩
      rw [scope, around_of_reserve taken.level done leads]
      exact ⟨place, name, params, lies⟩
    refine ⟨good, reserved.step (.alloc done) fun name' d' scope' same => ?_⟩
    cases same
    exact good

/-- Code that lies in `n` function literals is evaluated. -/
def congruence (E : Finish) (n : Nat) : Congruence Stop where
  World := Unit
  later _ _ := True
  rel _ P Q := E.Replaces n P (Q ())
  permits := Lies E.sources n
  good _ := E.Good
  stores _ _ := True
  mono _ good := good
  part := by
    rintro label place children t ⟨src, p, given, read, inside⟩ other mem
    exact ⟨src, p, given, read, inside.part other mem⟩
  argument := by
    rintro place function args t ⟨src, p, given, read, inside⟩ mem
    exact ⟨src, p, given, read, inside.argument mem⟩
  target _ _ _ _ := trivial
  operand _ _ _ _ := trivial
  plain _ _ _ := good_plain _
  former _ _ _ := good_plain _
  imp := Replaces.imp
  pure := replaces_pure
  fail _ := replaces_throw _
  unfinished := replaces_throw _
  bind hx hf := hx.bind fun a => hf () a trivial
  alloc _ := replaces_alloc _ _
  load? := replaces_load?
  literal := replaces_makeFunction

/-! ## Calls -/

/-- Work in a new frame is replaced by what replaces it in a frame that is enclosed as those of the
scope are. -/
theorem replaces_scope {x : Eval α} {y : Stop → Eval α} {k : Except Stop α → Eval β} {id : Int}
    (hx : E.Replaces (E.around id + 1) P Q x y)
    (hk : ∀ ending, E.Replaces n (P ∧ ∀ a, ending = .ok a → Q a) R (k ending) fun _ => k ending) :
    E.Replaces n P R (do Eval.push id; let ending ← Eval.attempt x; Eval.pop false; k ending)
      fun alarm => (do
        Eval.push id
        let ending ← Eval.attempt (y alarm)
        Eval.pop false
        k ending) := by
  refine ⟨Eval.tells_scope hx.tells (fun ending => (hk ending).tells) id, ?_⟩
  rintro granted m ⟨wf, level, sound, leads⟩
  cases enter : m.store.push id with
  | error f =>
    simp only [Bind.bind, EStateM.bind, Eval.push, enter]
    exact ⟨sound, fun _ => trivial⟩
  | ok s =>
    have inside := hx.tells { m.record (.push id (some s.depth)) with store := s }
    obtain ⟨s', leave, whole⟩ := Eval.journaled_of_scope enter inside
    have last := hk (x.ending { m.record (.push id (some s.depth)) with store := s })
    have ended := Eval.scope_eq (k := k) enter leave
    simp only [Eval.after, ended] at leads
    have out : Store.Step _ (.pop false _) s' := .pop leave
    have leads₁ := out.leadsTo.trans ((last.tells _).leadsTo.trans leads)
    have worked : E.Taken (E.around id + 1) x
        { m.record (.push id (some s.depth)) with store := s } :=
      ⟨wf.push enter,
        Store.enclosed_of_push wf enter (inside.leadsTo.trans leads₁) E.wf E.rooted,
        sound.step (.push enter) (by simp), leads₁⟩
    obtain ⟨ends, same⟩ := hx.taken granted worked
    have left := last.taken ⟨granted, fun a => ends.ending⟩
      ⟨whole.wellFormed wf, whole.enclosed level, ends.sound.step out (by simp), leads⟩
    refine ⟨ended ▸ left.1, fun alarm => ?_⟩
    simp only [Bind.bind, EStateM.bind, Eval.push, enter, Eval.attempt, same alarm]

variable {inner : Evaluator} {inner' : Stop → Nat → Evaluator}

theorem replaces_callEnding {k : Nat} (ending : Except Stop Completion) :
    E.Replaces n (P ∧ ∀ c, ending = .ok c → (E.congruence k).Fine () c) E.Good
      (Evaluator.callEnding ending) fun _ => Evaluator.callEnding ending := by
  cases ending with
  | ok c =>
    apply replaces_pure
    rintro ⟨_, fine⟩
    cases returned : c.returned with
    | none => exact good_plain .undefined
    | some d => exact (fine c rfl).returned d returned
  | error stop =>
    cases stop with
    | tooDeep => exact replaces_throw _
    | _ => exact replaces_throw _

/-- A body is run in one function literal more than its function lies in. -/
theorem replaces_call (tells : inner.Tells)
    (hs : ∀ {k P t}, Lies E.sources k t →
      E.Replaces k P ((E.congruence k).Fine ()) (inner.stmt t) fun alarm => (inner' alarm k).stmt t)
    (expr : Stop → Tree → Eval Datum) (f : Closure) (args : List Datum) :
    E.Replaces n ((E.congruence n).Callable () f ∧ ∀ a ∈ args, E.Good a) E.Good (inner.call f args)
      fun alarm => Evaluator.call ⟨expr alarm, fun t m =>
        (inner' alarm (E.around m.store.currentScope + 1)).stmt t m⟩ f args := by
  let C := E.congruence (E.around f.scope + 1)
  have body : E.Replaces (E.around f.scope + 1) ((E.congruence n).Callable () f) (C.Fine ())
      (inner.stmt f.body) fun alarm m =>
        (inner' alarm (E.around m.store.currentScope + 1)).stmt f.body m := by
    refine ⟨tells.stmt f.body, ?_⟩
    rintro ⟨d, good, function⟩ m taken
    obtain ⟨place, name, params, src, p, given, read, inside⟩ := good f function
    have leads := (tells.stmt f.body m).leadsTo.trans taken.leads
    have here : E.around m.store.currentScope = E.around f.scope :=
      Store.around_currentScope taken.wf E.wf leads taken.level
    rw [here]
    exact (hs ⟨src, p, given, read, inside.body⟩).taken trivial taken
  simp only [Evaluator.call_eq]
  apply (replaces_record rfl fun _ => .call).bind
  intro _
  apply replaces_scope (Q := C.Fine ()) _ replaces_callEnding
  have bound : E.Replaces (E.around f.scope + 1) (∀ a ∈ args, E.Good a) (fun _ => True)
      (bindParams f.params args) fun _ => bindParams f.params args :=
    C.bindParams (w := ()) (fun _ _ _ => trivial) args
  apply (bound.imp fun h => h.1.2).bind
  intro _
  exact body.imp fun h => h.1.1.1

/-! ## Evaluators -/

theorem Ends.located {x : Eval α} {m : Machine} (h : E.Ends Q (x m)) (place : Option Place) :
    E.Ends Q (Eval.located place x m) := by
  simp only [Eval.located]
  generalize x m = r at h ⊢
  rcases r with ⟨a, m'⟩ | ⟨⟨f, _ | p⟩ | _ | _, m'⟩ <;> exact h

theorem Replaces.located {x : Eval α} {y : Stop → Eval α} (h : E.Replaces n P Q x y)
    (place : Option Place) :
    E.Replaces n P Q (Eval.located place x) fun alarm => Eval.located place (y alarm) := by
  refine ⟨h.tells.located place, ?_⟩
  rintro granted m ⟨wf, level, sound, leads⟩
  rw [Eval.after_located] at leads
  obtain ⟨ends, same⟩ := h.taken granted ⟨wf, level, sound, leads⟩
  refine ⟨ends.located place, fun alarm => ?_⟩
  simp only [Eval.located, same alarm]

/-- Where every ending is allowed, no alarm is raised. -/
theorem Replaces.policed {x : Eval α} {y : Stop → Eval α} (h : E.Replaces n P Q x y)
    {allowed : Machine → EStateM.Result Stop Machine α → Prop}
    (obeys : ∀ {m}, E.Taken n x m → allowed m (x m)) :
    E.Replaces n P Q x fun alarm => (y alarm).policed allowed alarm := by
  refine ⟨h.tells, fun granted m taken => ?_⟩
  obtain ⟨ends, same⟩ := h.taken granted taken
  refine ⟨ends, fun alarm => ?_⟩
  rw [Eval.policed, same alarm, if_pos (obeys taken)]

theorem lexical_stmt (rounds depth : Nat) {t : Tree} (lies : Lies E.sources n t) {m : Machine}
    (taken : E.Taken n ((evaluator rounds depth).stmt t) m) :
    (lexical E.sources E.around n).stmt t m ((evaluator rounds depth).stmt t m) := by
  have ended := ((evaluator_tells rounds depth).stmt t m).enclosed taken.level
  simp only [Eval.after] at ended
  generalize (evaluator rounds depth).stmt t m = r at ended ⊢
  cases r with
  | ok c m' => exact ⟨lies, taken.level, ended⟩
  | error stop m' => exact ⟨lies, taken.level, ended⟩

theorem lexical_expr (rounds depth : Nat) {t : Tree} (lies : Lies E.sources n t) {m : Machine}
    (taken : E.Taken n ((evaluator rounds depth).expr t) m) :
    (lexical E.sources E.around n).expr t m ((evaluator rounds depth).expr t m) := by
  have ended := ((evaluator_tells rounds depth).expr t m).enclosed taken.level
  have leads := taken.leads
  simp only [Eval.after] at ended leads
  cases h : (evaluator rounds depth).expr t m with
  | ok d m' =>
    simp only [h] at ended leads
    refine ⟨⟨lies, taken.level, ended⟩, fun function => ?_⟩
    obtain ⟨f, name, same, scope, done⟩ := expr_function function h
    refine ⟨f, congrArg Datum.function same, ?_⟩
    rw [scope]
    exact around_of_reserve taken.level done leads
  | error stop m' =>
    simp only [h] at ended
    exact ⟨lies, taken.level, ended⟩

/-- The evaluator that knows where code lies can replace the one that does not. -/
theorem replaces_evaluator (E : Finish) (rounds depth n : Nat) {P : Prop} {t : Tree}
    (lies : Lies E.sources n t) :
    (E.Replaces n P E.Good ((evaluator rounds depth).expr t) fun alarm =>
      (nestedEvaluator E.sources E.around alarm rounds depth n).expr t) ∧
    E.Replaces n P ((E.congruence n).Fine ()) ((evaluator rounds depth).stmt t) fun alarm =>
      (nestedEvaluator E.sources E.around alarm rounds depth n).stmt t := by
  -- A body that is called lies elsewhere than the call does, so `n` varies.
  induction depth generalizing n P t with
  | zero =>
    constructor
    · exact (replaces_throw .tooDeep).policed (lexical_expr rounds 0 lies)
    · exact (replaces_throw .tooDeep).policed (lexical_stmt rounds 0 lies)
  | succ depth ih =>
    constructor
    · apply Replaces.policed _ (lexical_expr rounds (depth + 1) lies)
      apply Replaces.located
      apply (E.congruence n).exprStep (w := ())
      · exact fun lies => (ih n lies).1
      · exact replaces_call (evaluator_tells rounds depth) (fun lies => (ih _ lies).2) _
      · exact lies
    · apply Replaces.policed _ (lexical_stmt rounds (depth + 1) lies)
      apply Replaces.located
      apply (E.congruence n).stmtStep (w := ())
      · exact fun lies => (ih n lies).2
      · exact fun lies => (ih n lies).1
      · exact lies

/-! ## Sessions -/

variable {m : Machine}

/-- A fragment is evaluated where it belongs, in the global frame. -/
theorem replaces_fragment (session : m.SessionOf E.sources) (sound : E.Sound m.store)
    {limits : Limits} {src : String} (given : E.sources src)
    (leads : (m.run limits src).2.store.LeadsTo E.store) {p : Source.Program}
    (read : Source.readProgram src.toList = .ok p) (shallow : p.nesting ≤ limits.depth) :
    E.Ends ((E.congruence 0).Fine ())
      ((evaluator limits.rounds limits.depth).stmt p.tree (m.record (.fragment src))) ∧
    Nests E.sources E.around limits p.tree (m.record (.fragment src)) := by
  have lies : Lies E.sources 0 p.tree := ⟨src, p, given, read, .root⟩
  apply (replaces_evaluator E limits.rounds limits.depth 0 lies).2.taken trivial
  refine ⟨session.session.wellFormed, session.session.enclosed, sound, ?_⟩
  simpa only [Machine.run, read, if_neg (Nat.not_lt.mpr shallow), Machine.exec,
    Eval.outcome_snd] using leads

/-- All functions that a session stores were made by literals of its fragments. -/
theorem sound_of_session (session : m.SessionOf E.sources) (leads : m.store.LeadsTo E.store) :
    E.Sound m.store := by
  induction session with
  | fresh anonymous => exact fun d contains => absurd contains Store.not_contains_fresh
  | @run m limits src given session ih =>
    have sound := ih ((Machine.journaled_run limits src m).leadsTo.trans leads)
    cases read : Source.readProgram src.toList with
    | error e =>
      simp only [Machine.run, read]
      exact sound
    | ok p =>
      by_cases shallow : p.nesting ≤ limits.depth
      · have ended := (replaces_fragment session sound given leads read shallow).1.sound
        simpa only [Machine.run, read, if_neg (Nat.not_lt.mpr shallow), Machine.exec,
          Eval.outcome_snd] using ended
      · simp only [Machine.run, read, if_pos (Nat.not_le.mp shallow)]
        exact sound

end Finish

/-- The chain of frames mirrors the nesting of functions in the source. All code of a session, at
every time, is evaluated in a frame that is enclosed in as many others as the code is in function
literals, up to the global frame, and so is the frame that a function of the store captured. -/
theorem nesting_mirrored {sources : String → Prop} {m : Machine} (session : m.SessionOf sources) :
    ∃ around : Int → Nat,
      (∀ (before : Machine) (limits : Limits) (src : String) (p : Source.Program),
        before.SessionOf sources → sources src → (before.run limits src).2.Leads m →
        Source.readProgram src.toList = .ok p → p.nesting ≤ limits.depth →
        Nests sources around limits p.tree (before.record (.fragment src))) ∧
      ∀ d f, m.store.Contains d → d.function = some f →
        ∃ (id parent : Nat) (place : Option Place) (name params : Tree), f.scope = id ∧
          Lies sources (around id) (.node .function place [name, params, f.body]) ∧
          m.store.captured[id]? = some (some parent) ∧ m.store.Enclosed parent (around id) := by
  let E : Finish := ⟨sources, m.store, session.session.wellFormed, session.session.rooted.2.2⟩
  refine ⟨E.around, ?_, ?_⟩
  · intro before limits src p earlier given later read shallow
    have leads : (before.run limits src).2.store.LeadsTo E.store := later.leadsTo
    have sound : E.Sound before.store := Finish.sound_of_session earlier
      ((Machine.journaled_run limits src before).leadsTo.trans leads)
    exact (Finish.replaces_fragment earlier sound given leads read shallow).2
  · intro d f contains function
    obtain ⟨id, parent, scope, captured, enclosed⟩ := session.session.captured contains function
    obtain ⟨place, name, params, lies⟩ :=
      Finish.sound_of_session (E := E) session (.refl _) d contains f function
    rw [scope] at enclosed lies
    exact ⟨id, parent, place, name, params, scope, lies, captured, enclosed⟩

/-- A function whose calls give functions, and one such call. -/
private def inward : String :=
  "function f(a) \x7b return function () \x7b return a; \x7d; \x7d var g = f(1);"

private def inwardRun : Machine := (Machine.fresh.run .standard inward).2

/-- The outer function lies in no other, and the one that the call gave lies in one. -/
theorem nesting_mirrored_inward : inwardRun.SessionOf (· = inward) ∧
    ∃ around : Int → Nat, around 1 = 0 ∧ around 2 = 1 ∧ ∀ p,
      Source.readProgram inward.toList = .ok p → p.nesting ≤ Limits.standard.depth →
      Nests (· = inward) around .standard p.tree (Machine.fresh.record (.fragment inward)) := by
  have session : inwardRun.SessionOf (· = inward) := .run .standard rfl (.fresh 0)
  obtain ⟨around, code, functions⟩ := nesting_mirrored session
  have told (name : String) {id : Int}
      (stored : ((inwardRun.store.load? name).bind (·.function)).map (·.scope) = some id) :
      around id = inwardRun.store.around id := by
    obtain ⟨f, found, rfl⟩ := Option.map_eq_some_iff.mp stored
    obtain ⟨d, loaded, function⟩ := Option.bind_eq_some_iff.mp found
    obtain ⟨id, parent, _, _, _, scope, _, captured, enclosed⟩ :=
      functions d f (Store.contains_of_load? loaded) function
    rw [scope]
    exact (Store.around_of_captured session.session.wellFormed captured enclosed).symm
  refine ⟨session, around, ?_, ?_, fun p read shallow => ?_⟩
  · rw [told "f" (by decide +kernel)]
    decide +kernel
  · rw [told "g" (by decide +kernel)]
    decide +kernel
  · exact code Machine.fresh .standard inward p (.fresh 0) rfl .refl read shallow

end Scriptlet
