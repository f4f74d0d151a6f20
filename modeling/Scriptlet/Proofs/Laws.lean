import Scriptlet.Proofs.Congruence
import Scriptlet.Proofs.Frames
/-!
# Laws of evaluation

A law says how the evaluation of a tree may end, depending on the machine that it starts on. It
governs an evaluation if not only this one ends as the law allows, but every evaluation nested in
it does: an evaluator that would stop with an alarm at the first one that does not, never does.

A discipline is what laws are proved from: an invariant of machines and data that every request to
the store keeps, so that every evaluation keeps it.
-/

namespace Scriptlet

/-! ## Laws -/

/-- The endings that an evaluation may have, given its tree and the machine that it starts on. -/
structure Law where
  expr : Tree → Machine → EStateM.Result Stop Machine Datum → Prop
  stmt : Tree → Machine → EStateM.Result Stop Machine Completion → Prop

open Classical in
/-- Stops with the alarm in place of an ending that is not allowed. -/
noncomputable def Eval.policed {α : Type} (allowed : Machine → EStateM.Result Stop Machine α → Prop)
    (alarm : Stop) (x : Eval α) : Eval α := fun m =>
  if allowed m (x m) then x m else .error alarm m

/-- Raises the alarm at each ending against the law. -/
noncomputable def Law.police (law : Law) (alarm : Stop) (e : Evaluator) : Evaluator where
  expr t := (e.expr t).policed (law.expr t) alarm
  stmt t := (e.stmt t).policed (law.stmt t) alarm

/-- The evaluator that raises the alarm as soon as an evaluation ends against the law, however
deeply it is nested. -/
noncomputable def policedEvaluator (law : Law) (alarm : Stop) (rounds : Nat) : Nat → Evaluator
  | 0 => law.police alarm .exhausted
  | depth + 1 => law.police alarm ((policedEvaluator law alarm rounds depth).deepen rounds)

/-- On this machine, evaluating the tree as an expression or as a statement raises no alarm, and so
comes to what it comes to when nobody watches. -/
structure Law.Governs (law : Law) (limits : Limits) (t : Tree) (m : Machine) : Prop where
  expr : ∀ alarm, (policedEvaluator law alarm limits.rounds limits.depth).expr t m =
    (evaluator limits.rounds limits.depth).expr t m
  stmt : ∀ alarm, (policedEvaluator law alarm limits.rounds limits.depth).stmt t m =
    (evaluator limits.rounds limits.depth).stmt t m

/-- An ending that raises no alarm, whichever it would be, is allowed. -/
theorem Eval.allowed_of_policed {α : Type}
    {allowed : Machine → EStateM.Result Stop Machine α → Prop} {x : Stop → Eval α}
    {r : EStateM.Result Stop Machine α} {m : Machine}
    (h : ∀ alarm, (x alarm).policed allowed alarm m = r) : allowed m r := by
  refine Classical.byContradiction fun against => ?_
  have alarmed (alarm : Stop) : r = .error alarm m := by
    have same := h alarm
    rw [policed] at same
    split at same
    · rename_i ending
      exact absurd (same ▸ ending) against
    · exact same.symm
  cases (alarmed .tooDeep).symm.trans (alarmed .unfinished)

/-- In particular the evaluation that is governed ends as the law allows. -/
theorem Law.Governs.ending {law : Law} {limits : Limits} {t : Tree} {m : Machine}
    (h : law.Governs limits t m) :
    law.expr t m ((evaluator limits.rounds limits.depth).expr t m) ∧
      law.stmt t m ((evaluator limits.rounds limits.depth).stmt t m) := by
  obtain ⟨depth, rounds⟩ := limits
  cases depth with
  | zero => exact ⟨Eval.allowed_of_policed h.expr, Eval.allowed_of_policed h.stmt⟩
  | succ depth => exact ⟨Eval.allowed_of_policed h.expr, Eval.allowed_of_policed h.stmt⟩

/-! ## Function literals -/

/-- A stop that does not come from the table of scopes. -/
def Stop.IsOrdinary : Stop → Prop
  | fault (.unknownScope _) _ => False
  | fault .globalScope _ => False
  | _ => True

theorem Stop.isOrdinary_of_isOwn {f : Fault} (h : f.IsOwn) : (fault f none).IsOrdinary := by
  cases f <;> trivial

/-- Names are read off a tree, and no machine is needed for it. -/
theorem paramNames_eq (t : Tree) : (∃ names, ∀ m, paramNames t m = .ok names m) ∨
    ∃ f, (Stop.fault f none).IsOrdinary ∧ ∀ m, paramNames t m = .error (.fault f none) m := by
  cases t with
  | missing => exact Or.inl ⟨[], fun _ => rfl⟩
  | token => exact Or.inr ⟨.malformedParams, trivial, fun _ => rfl⟩
  | node label place params =>
    simp only [paramNames]
    induction params with
    | nil => exact Or.inl ⟨[], fun _ => rfl⟩
    | cons p ps ih =>
      simp only [List.mapM_cons, Bind.bind, EStateM.bind, identifier]
      cases p.identifier? with
      | none => exact Or.inr ⟨.notIdentifier .parameter, trivial, fun _ => rfl⟩
      | some name =>
        rcases ih with ⟨names, read⟩ | ⟨f, ordinary, failed⟩
        · exact Or.inl ⟨name :: names, fun m => by simp [Pure.pure, EStateM.pure, read]⟩
        · exact Or.inr ⟨f, ordinary, fun m => by simp [Pure.pure, EStateM.pure, failed]⟩

/-- A function literal fails for its parameters, or stores a function under the reserved scope. -/
theorem makeFunction_eq (name params body : Tree) (m : Machine) :
    (∃ f, (Stop.fault f none).IsOrdinary ∧ makeFunction name params body m = .error (.fault f none)
      { m.record (.reserve m.store.scopeCount) with store := m.store.reserve.2 }) ∨
    ∃ f stored s anonymous, f.body = body ∧ f.scope = Int.ofNat m.store.scopeCount ∧
      m.store.reserve.2.alloc stored ⟨.ref f.scope, some f⟩ = .ok s ∧
      makeFunction name params body m = .ok ⟨.ref f.scope, some f⟩
        ⟨s, anonymous, .alloc stored ⟨.ref f.scope, some f⟩ (some s.currentScope) ::
          .reserve m.store.scopeCount :: m.journal⟩ := by
  let reserved : Machine :=
    { m.record (.reserve m.store.scopeCount) with store := m.store.reserve.2 }
  rcases paramNames_eq params with ⟨names, read⟩ | ⟨f, ordinary, failed⟩
  · let f : Closure := ⟨names, body, name.identifier?, Int.ofNat m.store.scopeCount⟩
    let d : Datum := ⟨.ref f.scope, some f⟩
    obtain ⟨stored, anonymous, named, same⟩ : ∃ stored anonymous, stored ≠ "" ∧
        makeFunction name params body m =
          (do Eval.alloc stored d; return d : Eval Datum) { reserved with anonymous } := by
      have unnamed : name.identifier? = none ∨ name.identifier? = some "" →
          makeFunction name params body m =
            (do Eval.allocAnonymous d; return d : Eval Datum) reserved := by
        rintro (found | found) <;>
        · simp only [makeFunction, Bind.bind, EStateM.bind, Eval.reserve, read, found, d, f]
          rfl
      cases found : name.identifier? with
      | none => exact ⟨_, _, Store.anonymousName_ne m.anonymous, unnamed (Or.inl found)⟩
      | some text =>
        by_cases empty : text = ""
        · exact ⟨_, _, Store.anonymousName_ne m.anonymous, unnamed (Or.inr (empty ▸ found))⟩
        · refine ⟨text, m.anonymous, empty, ?_⟩
          simp only [makeFunction, Bind.bind, EStateM.bind, Eval.reserve, read, found, d, f,
            if_neg empty]
          rfl
    obtain ⟨s, done⟩ : ∃ s, m.store.reserve.2.alloc stored d = .ok s := by
      simp [Store.alloc, named]
    refine Or.inr ⟨f, stored, s, anonymous, rfl, rfl, done, same.trans ?_⟩
    simp only [Bind.bind, EStateM.bind, Eval.alloc, reserved, done]
    rfl
  · refine Or.inl ⟨f, ordinary, ?_⟩
    simp only [makeFunction, Bind.bind, EStateM.bind, Eval.reserve, failed]
    rfl

/-! ## Disciplines -/

/-- What an entry of the journal is about is good: the datum that is stored, or the function whose
scope is entered. -/
def Event.IsAbout (good : Datum → Prop) : Event → Prop
  | alloc _ d _ => good d
  | push scope _ => ∃ d f, good d ∧ d.function = some f ∧ f.scope = scope
  | _ => True

/-- Machines on which an invariant holds, an order in which they follow each other, the data that
are good on a machine, and the trees that may be evaluated. -/
structure Discipline where
  holds : Machine → Prop
  later : Machine → Machine → Prop
  good : Machine → Datum → Prop
  permits : Tree → Prop
  refl : ∀ m, later m m
  trans : ∀ {m m₁ m'}, later m m₁ → later m₁ m' → later m m'
  mono : ∀ {m m' d}, later m m' → good m d → good m' d
  child : ∀ {label place children t}, permits (.node label place children) → t ∈ children →
    permits t
  body : ∀ {m d f}, good m d → d.function = some f → permits f.body
  /-- The scope of a good function can be entered. -/
  scope : ∀ {m d f}, holds m → good m d → d.function = some f →
    ∃ s, m.store.push f.scope = .ok s
  plain : ∀ m {v : Value}, (∀ tag, v ≠ .ref tag) → good m ⟨v, none⟩
  /-- The old value of a variable, where postfix operators are permitted. -/
  former : ∀ {m d label place target rest}, permits (.node label place (target :: rest)) →
    label = .postIncrement ∨ label = .postDecrement → good m d → good m ⟨d.value, none⟩
  load : ∀ {m name d}, holds m → m.store.load? name = some d → good m d
  /-- Every request keeps the invariant, as long as only good data are stored, and only scopes of
  good functions entered. -/
  step : ∀ {m m' e}, holds m → m.store.Step e m'.store → m'.journal = e :: m.journal →
    e.IsAbout (good m) → holds m' ∧ later m m'
  /-- A new function is stored under the scope that was reserved for it. -/
  literal : ∀ {m m' name f}, holds m → permits f.body → f.scope = Int.ofNat m.store.scopeCount →
    m.store.reserve.2.alloc name ⟨.ref f.scope, some f⟩ = .ok m'.store →
    m'.journal = .alloc name ⟨.ref f.scope, some f⟩ (some m'.store.currentScope) ::
      .reserve m.store.scopeCount :: m.journal →
    holds m' ∧ later m m' ∧ good m' ⟨.ref f.scope, some f⟩

namespace Discipline

variable (D : Discipline) {α β : Type}

/-- An ending of what started on `m`: the invariant holds, and there is a result of which `Q` holds,
or an ordinary stop. -/
def Ends (m : Machine) (Q : Machine → α → Prop) : EStateM.Result Stop Machine α → Prop
  | .ok a m' => D.holds m' ∧ D.later m m' ∧ Q m' a
  | .error stop m' => D.holds m' ∧ D.later m m' ∧ stop.IsOrdinary

/-- If the invariant holds on `m`, then from there `x` ends well and `y` does the same. -/
def Keeps (m : Machine) (x y : Eval α) (Q : Machine → α → Prop) : Prop :=
  D.holds m → D.Ends m Q (x m) ∧ y m = x m

variable {D} {m : Machine} {Q : Machine → α → Prop} {R : Machine → β → Prop}

theorem Ends.earlier {m₀ : Machine} {r : EStateM.Result Stop Machine α} (h : D.Ends m Q r)
    (before : D.later m₀ m) : D.Ends m₀ Q r := by
  cases r with
  | ok a m' => exact ⟨h.1, D.trans before h.2.1, h.2.2⟩
  | error stop m' => exact ⟨h.1, D.trans before h.2.1, h.2.2⟩

theorem Keeps.pure {a : α} (h : Q m a) : D.Keeps m (Pure.pure a : Eval α) (Pure.pure a) Q :=
  fun holds => ⟨⟨holds, D.refl m, h⟩, rfl⟩

theorem Keeps.throw {stop : Stop} (h : stop.IsOrdinary) :
    D.Keeps m (MonadExcept.throw stop : Eval α) (MonadExcept.throw stop) Q :=
  fun holds => ⟨⟨holds, D.refl m, h⟩, rfl⟩

theorem Keeps.bind {x y : Eval α} {f g : α → Eval β} (hx : D.Keeps m x y Q)
    (hf : ∀ m₁ a, D.later m m₁ → Q m₁ a → D.Keeps m₁ (f a) (g a) R) :
    D.Keeps m (x >>= f) (y >>= g) R := by
  intro holds
  obtain ⟨first, same⟩ := hx holds
  simp only [Bind.bind, EStateM.bind, same]
  cases h : x m with
  | ok a m₁ =>
    rw [h] at first
    obtain ⟨holds₁, later₁, ha⟩ := first
    obtain ⟨rest, same'⟩ := hf m₁ a later₁ ha holds₁
    exact ⟨rest.earlier later₁, same'⟩
  | error stop m₁ =>
    rw [h] at first
    exact ⟨first, rfl⟩

theorem Keeps.located {x y : Eval α} (h : D.Keeps m x y Q) (place : Option Place) :
    D.Keeps m (x.located place) (y.located place) Q := by
  intro holds
  obtain ⟨first, same⟩ := h holds
  rw [Eval.located, Eval.located, same]
  refine ⟨?_, rfl⟩
  cases r : x m with
  | ok a m₁ =>
    rw [r] at first
    exact first
  | error stop m₁ =>
    rw [r] at first
    obtain ⟨holds₁, later₁, ordinary⟩ := first
    rcases stop with ⟨f, _ | p⟩ | _ | _
    · refine ⟨holds₁, later₁, ?_⟩
      cases f <;> exact ordinary
    · exact ⟨holds₁, later₁, ordinary⟩
    · exact ⟨holds₁, later₁, ordinary⟩
    · exact ⟨holds₁, later₁, ordinary⟩

/-- Where every ending that keeps the discipline is allowed, no alarm is raised. -/
theorem Keeps.policed {x y : Eval α} (h : D.Keeps m x y Q)
    {allowed : Machine → EStateM.Result Stop Machine α → Prop}
    (obeys : D.holds m → D.Ends m Q (x m) → allowed m (x m)) (alarm : Stop) :
    D.Keeps m x (y.policed allowed alarm) Q := by
  intro holds
  obtain ⟨ends, same⟩ := h holds
  refine ⟨ends, ?_⟩
  rw [Eval.policed, same, if_pos (obeys holds ends)]

/-! ### Requests to the store -/

/-- The machine behind a request, which is an entry of the journal and a step of the store. -/
theorem request {s : Store} {e : Event} (holds : D.holds m) (step : m.store.Step e s)
    (about : e.IsAbout (D.good m)) :
    D.holds { m.record e with store := s } ∧ D.later m { m.record e with store := s } :=
  D.step holds step rfl about

/-- The machine behind an entry that leaves the store as it is. -/
theorem recorded {e : Event} (holds : D.holds m) (step : m.store.Step e m.store)
    (about : e.IsAbout (D.good m)) :
    D.holds (m.record e) ∧ D.later m (m.record e) :=
  D.step holds step rfl about

theorem keeps_record {e : Event} (still : ∀ s : Store, s.Step e s)
    (about : e.IsAbout (D.good m)) :
    D.Keeps m (Eval.record e) (Eval.record e) (fun _ _ => True) := by
  intro holds
  obtain ⟨holds', later⟩ := recorded holds (still m.store) about
  exact ⟨⟨holds', later, trivial⟩, rfl⟩

theorem keeps_alloc (name : String) {d : Datum} (good : D.good m d) :
    D.Keeps m (Eval.alloc name d) (Eval.alloc name d) (fun _ _ => True) := by
  intro holds
  refine ⟨?_, rfl⟩
  rw [Eval.alloc]
  cases done : m.store.alloc name d with
  | ok s =>
    obtain ⟨holds', later⟩ := request (e := .alloc name d (some s.currentScope)) holds
      (.alloc done) good
    exact ⟨holds', later, trivial⟩
  | error f =>
    obtain ⟨holds', later⟩ := recorded (e := .alloc name d none) holds (.allocRefused done) good
    refine ⟨holds', later, ?_⟩
    rw [Store.alloc] at done
    split at done
    · cases done
      trivial
    · cases done

theorem keeps_load? (name : String) :
    D.Keeps m (Eval.load? name) (Eval.load? name)
      (fun m found => ∀ d, found = some d → D.good m d) := by
  intro holds
  obtain ⟨holds', later⟩ := recorded (e := .load name) holds .load trivial
  exact ⟨⟨holds', later, fun d found => D.load holds' found⟩, rfl⟩

theorem keeps_makeFunction (name params : Tree) {body : Tree} (permitted : D.permits body) :
    D.Keeps m (makeFunction name params body) (makeFunction name params body) D.good := by
  intro holds
  refine ⟨?_, rfl⟩
  rcases makeFunction_eq name params body m with ⟨f, ordinary, failed⟩ |
    ⟨f, stored, s, anonymous, rfl, scope, done, made⟩
  · obtain ⟨holds₁, later₁⟩ := request (e := .reserve m.store.scopeCount) holds .reserve
      trivial
    rw [failed]
    exact ⟨holds₁, later₁, ordinary⟩
  · rw [made]
    exact D.literal holds permitted scope done rfl

/-- Keeping a discipline, as a relation whose worlds are the machines. -/
def congruence (D : Discipline) : Congruence Unit where
  World := Machine
  later := D.later
  rel m P Q x y := P → D.Keeps m x (y ()) Q
  permits := D.permits
  good := D.good
  stores _ _ := True
  mono := D.mono
  part permitted _ mem := D.child permitted mem
  argument := by
    intro place function args t permitted mem
    have list : D.permits args := D.child permitted (by simp)
    cases args with
    | node => exact D.child list mem
    | _ => cases mem
  target _ _ _ _ := trivial
  operand _ _ _ _ := trivial
  plain := D.plain
  former := D.former
  imp h granted p := h (granted p)
  pure h p := .pure (h p)
  fail own _ := .throw (Stop.isOrdinary_of_isOwn own)
  unfinished _ := .throw trivial
  bind hx hf p := (hx p).bind fun m₁ a later ha => hf m₁ a later ⟨p, ha⟩
  alloc _ := keeps_alloc _
  load? name _ := keeps_load? name
  literal permitted _ := keeps_makeFunction _ _ (D.child permitted (by simp))

/-- What a statement may come to. -/
abbrev Fine (D : Discipline) : Machine → Completion → Prop := D.congruence.Fine

/-- What may be called. -/
abbrev Callable (D : Discipline) : Machine → Closure → Prop := D.congruence.Callable

/-- Work in the scope of a good function: the scope can be entered, and left again since the journal
tells all that happens in between. -/
theorem keeps_scope {x y : Eval α} (tells : x.Tells) {f : Closure} (hf : D.Callable m f)
    (hx : ∀ m₁, D.later m m₁ → D.Keeps m₁ x y Q) {k k' : Except Stop α → Eval β}
    (hok : ∀ m₁ m₂ a, D.later m₁ m₂ → Q m₁ a → D.Keeps m₂ (k (.ok a)) (k' (.ok a)) R)
    (herr : ∀ m₁ stop, stop.IsOrdinary → D.Keeps m₁ (k (.error stop)) (k' (.error stop)) R) :
    D.Keeps m (do Eval.push f.scope; let ending ← Eval.attempt x; Eval.pop false; k ending)
      (do Eval.push f.scope; let ending ← Eval.attempt y; Eval.pop false; k' ending) R := by
  intro holds
  obtain ⟨d, good, function⟩ := hf
  obtain ⟨s, enter⟩ := D.scope holds good function
  obtain ⟨holds₁, later₁⟩ := request holds (.push enter) ⟨d, f, good, function, rfl⟩
  obtain ⟨work, same⟩ := hx _ later₁ holds₁
  obtain ⟨s', leave, _⟩ := Eval.journaled_of_scope enter (tells _)
  have left {m₂ : Machine} (holds₂ : D.holds m₂) (leave : m₂.store.pop = .ok s') :=
    request (e := .pop false (some (m₂.store.currentScope, s'.depth))) holds₂ (.pop leave) trivial
  simp only [Eval.after] at leave
  simp only [Bind.bind, EStateM.bind, Eval.push, enter, Eval.attempt, same, Eval.pop]
  cases h : x { m.record (.push f.scope (some s.depth)) with store := s } with
  | ok a m₂ =>
    simp only [h] at work leave
    obtain ⟨holds₂, later₂, ha⟩ := work
    obtain ⟨holds₃, later₃⟩ := left holds₂ leave
    simp only [leave]
    obtain ⟨rest, same'⟩ := hok m₂ _ a later₃ ha holds₃
    exact ⟨rest.earlier (D.trans (D.trans later₁ later₂) later₃), same'⟩
  | error stop m₂ =>
    simp only [h] at work leave
    obtain ⟨holds₂, later₂, ordinary⟩ := work
    obtain ⟨holds₃, later₃⟩ := left holds₂ leave
    simp only [leave]
    obtain ⟨rest, same'⟩ := herr _ stop ordinary holds₃
    exact ⟨rest.earlier (D.trans (D.trans later₁ later₂) later₃), same'⟩

/-! ### Evaluators -/

/-- On the permitted trees, `inner` keeps the discipline and `inner'` does the same. -/
structure Evaluators (D : Discipline) (inner inner' : Evaluator) : Prop where
  expr : ∀ {t}, D.permits t → ∀ m, D.Keeps m (inner.expr t) (inner'.expr t) D.good
  stmt : ∀ {t}, D.permits t → ∀ m, D.Keeps m (inner.stmt t) (inner'.stmt t) D.Fine

variable {inner inner' : Evaluator}

namespace Evaluators

theorem call (h : D.Evaluators inner inner') (tells : inner.Tells) {f : Closure}
    (hf : D.Callable m f) {args : List Datum} (ha : ∀ a ∈ args, D.good m a) :
    D.Keeps m (inner.call f args) (inner'.call f args) D.good := by
  obtain ⟨d, good, function⟩ := hf
  refine (keeps_record (fun _ => .call) trivial).bind fun m₁ _ later₁ _ => ?_
  have body (m₂ : Machine) (later₂ : D.later m₁ m₂) :
      D.Keeps m₂ (do bindParams f.params args; inner.stmt f.body)
        (do bindParams f.params args; inner'.stmt f.body) D.Fine := by
    have bound : D.Keeps m₂ (bindParams f.params args) (bindParams f.params args)
        (fun _ _ => True) :=
      D.congruence.bindParams (fun _ _ _ => trivial) args fun a mem =>
        D.mono later₂ (D.mono later₁ (ha a mem))
    exact bound.bind fun m₃ _ _ _ => h.stmt (D.body good function) m₃
  refine keeps_scope ((Eval.tells_bindParams f.params args).bind fun _ => tells.stmt f.body)
    ⟨d, D.mono later₁ good, function⟩ body ?_ ?_
  · intro m₂ m₃ c later₃ fine
    refine .pure ?_
    cases returned : c.returned with
    | none => exact D.congruence.good_undefined m₃
    | some d => exact D.mono later₃ (fine.returned d returned)
  · intro m₂ stop ordinary
    cases stop with
    | tooDeep => exact .throw trivial
    | fault f place => exact .throw ordinary
    | unfinished => exact .throw trivial

theorem deepen (h : D.Evaluators inner inner') (tells : inner.Tells) (rounds : Nat) :
    D.Evaluators (inner.deepen rounds) (inner'.deepen rounds) := by
  have expr {m P t} (ht : D.permits t) : D.congruence.rel m P D.good (inner.expr t) fun _ =>
      inner'.expr t := fun _ => h.expr ht m
  have stmt {m P t} (ht : D.permits t) : D.congruence.rel m P D.Fine (inner.stmt t) fun _ =>
      inner'.stmt t := fun _ => h.stmt ht m
  have call {m} (f : Closure) (args : List Datum) : D.congruence.rel m
      (D.Callable m f ∧ ∀ a ∈ args, D.good m a) D.good (inner.call f args) fun _ =>
        inner'.call f args := fun granted => h.call tells granted.1 granted.2
  constructor
  · intro t ht m
    have step : D.congruence.rel m True D.good (inner.exprStep t) fun _ => inner'.exprStep t :=
      Congruence.exprStep expr call ht
    exact Keeps.located (step trivial) t.place?
  · intro t ht m
    have step : D.congruence.rel m True D.Fine (inner.stmtStep rounds t) fun _ =>
        inner'.stmtStep rounds t := Congruence.stmtStep stmt expr rounds ht
    exact Keeps.located (step trivial) t.place?

end Evaluators

/-! ### Laws that hold -/

/-- Every ending that keeps the discipline is one that the law allows. -/
structure Obeys (D : Discipline) (law : Law) : Prop where
  expr : ∀ {rounds depth t m}, D.permits t → D.holds m →
    D.Ends m D.good ((evaluator rounds depth).expr t m) →
    law.expr t m ((evaluator rounds depth).expr t m)
  stmt : ∀ {rounds depth t m}, D.permits t → D.holds m →
    D.Ends m D.Fine ((evaluator rounds depth).stmt t m) →
    law.stmt t m ((evaluator rounds depth).stmt t m)

theorem evaluators_refl (D : Discipline) (rounds depth : Nat) :
    D.Evaluators (evaluator rounds depth) (evaluator rounds depth) := by
  induction depth with
  | zero => exact ⟨fun _ _ => .throw trivial, fun _ _ => .throw trivial⟩
  | succ depth ih => exact ih.deepen (evaluator_tells rounds depth) rounds

theorem Obeys.policed {law : Law} (h : D.Obeys law) {inner' : Evaluator} {rounds depth : Nat}
    (same : D.Evaluators (evaluator rounds depth) inner') (alarm : Stop) :
    D.Evaluators (evaluator rounds depth) (law.police alarm inner') := by
  constructor
  · intro t ht m
    exact (same.expr ht m).policed (h.expr ht) alarm
  · intro t ht m
    exact (same.stmt ht m).policed (h.stmt ht) alarm

theorem Obeys.policedEvaluator {law : Law} (h : D.Obeys law) (alarm : Stop) (rounds depth : Nat) :
    D.Evaluators (evaluator rounds depth) (policedEvaluator law alarm rounds depth) := by
  induction depth with
  | zero => exact h.policed (evaluators_refl D rounds 0) alarm
  | succ depth ih =>
    have deeper : D.Evaluators (evaluator rounds (depth + 1)) _ :=
      ih.deepen (evaluator_tells rounds depth) rounds
    exact h.policed deeper alarm

/-- A law that a discipline obeys governs every evaluation that starts on a machine where the
invariant holds. -/
theorem Obeys.governs {law : Law} (h : D.Obeys law) (limits : Limits) {t : Tree}
    (ht : D.permits t) (holds : D.holds m) : law.Governs limits t m := by
  constructor
  · intro alarm
    exact ((h.policedEvaluator alarm _ _).expr ht m holds).2
  · intro alarm
    exact ((h.policedEvaluator alarm _ _).stmt ht m holds).2

/-- A fragment keeps the invariant, and what it comes to is good. -/
theorem run (limits : Limits) {src : String} (holds : D.holds m)
    (permitted : ∀ p, Source.readProgram src.toList = .ok p → D.permits p.tree) :
    D.holds (m.run limits src).2 ∧ D.later m (m.run limits src).2 ∧
      ∀ c, (m.run limits src).1 = .ok c → D.Fine (m.run limits src).2 c := by
  obtain ⟨holds₁, later₁⟩ := recorded (e := .fragment src) holds .fragment trivial
  rw [Machine.run]
  cases read : Source.readProgram src.toList with
  | error e =>
    obtain ⟨holds₂, later₂⟩ := recorded (e := .rejected e) holds₁ .rejected trivial
    refine ⟨holds₂, D.trans later₁ later₂, fun c same => ?_⟩
    cases same
  | ok p =>
    dsimp only
    split
    · refine ⟨holds₁, later₁, fun c same => ?_⟩
      cases same
    · have ends := ((evaluators_refl D limits.rounds limits.depth).stmt (permitted p read) _
        holds₁).1
      rw [Machine.exec, Eval.outcome]
      split
      · rename_i ended
        rw [ended] at ends
        refine ⟨ends.1, D.trans later₁ ends.2.1, fun c hc => ?_⟩
        cases hc
        exact ends.2.2
      · rename_i ended
        rw [ended] at ends
        refine ⟨ends.1, D.trans later₁ ends.2.1, fun c hc => ?_⟩
        cases hc

end Discipline

end Scriptlet
