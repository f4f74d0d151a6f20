import Scriptlet.Proofs.Congruence
import Scriptlet.Proofs.Frames
import Scriptlet.Proofs.Joining
/-!
# Running out of depth

Evaluation steps may nest only so deep. A run that never comes to this limit is the same run under
every wider one. A run that does come to it stops there: all that is still done is to leave the
scopes that have been entered, and to say that a limit was hit.

Where a run comes to the limit is shown by an evaluator that does stop dead there, without leaving
a scope.
-/

namespace Scriptlet

variable {α β : Type}

/-- An action ended at a limit. -/
def LimitHit : EStateM.Result Stop Machine α → Prop
  | .ok _ _ => False
  | .error s _ => s.failure.HitsLimit

/-- A fault that says that a limit is hit. -/
inductive Fault.IsLimit : Fault → Prop
  | calls : IsLimit .callsTooDeep
  | nesting : IsLimit .nestingTooDeep

theorem Fault.IsOwn.not_isLimit {f : Fault} (h : f.IsOwn) : ¬f.IsLimit := by
  rintro (_ | _)
  · exact h
  · exact h

theorem isLimit_of_hitsLimit {f : Fault} {p : Option Place}
    (h : (Stop.fault f p).failure.HitsLimit) : f.IsLimit := by
  cases h with
  | nesting => exact .nesting
  | calls => exact .calls

/-- A call whose body has come to a limit ends at one. -/
theorem limitHit_callEnding {s : Stop} (h : s.failure.HitsLimit) (m : Machine) :
    LimitHit (Evaluator.callEnding (.error s) m) := by
  cases s with
  | tooDeep => exact .calls
  | _ => exact h

theorem WithinLimits.not_limitHit {x : Eval Completion} {m : Machine}
    (h : WithinLimits (x.outcome m).1) : ¬LimitHit (x m) := by
  intro hit
  simp only [Eval.outcome] at h
  generalize x m = r at h hit
  cases r with
  | ok c n => exact hit
  | error s n => exact h _ rfl hit

theorem WithinLimits.of_not_limitHit {x : Eval Completion} {m : Machine} (h : ¬LimitHit (x m)) :
    WithinLimits (x.outcome m).1 := by
  intro f failed hits
  simp only [Eval.outcome] at failed
  generalize x m = r at failed h
  cases r with
  | ok c n => cases failed
  | error s n =>
    cases failed
    exact h hits

/-! ## The same unless excused -/

section

variable {E : Stop → Prop} {x y : Eval α}

/-- An action stopped for one of these reasons. -/
def StoppedBy (E : Stop → Prop) : EStateM.Result Stop Machine α → Prop
  | .ok _ _ => False
  | .error s _ => E s

/-- The action stops for one of these reasons, or the other one is the same. -/
def SameUnless (E : Stop → Prop) (x y : Eval α) : Prop := ∀ m, StoppedBy E (x m) ∨ y m = x m

theorem StoppedBy.imp {E' : Stop → Prop} {r : EStateM.Result Stop Machine α}
    (h : ∀ s, E s → E' s) (stopped : StoppedBy E r) : StoppedBy E' r := by
  cases r with
  | ok a n => exact stopped
  | error s n => exact h s stopped

theorem SameUnless.refl (x : Eval α) : SameUnless E x x := fun _ => .inr rfl

theorem SameUnless.trans {z : Eval α} (first : SameUnless E x y) (second : SameUnless E y z) :
    SameUnless E x z := by
  intro m
  rcases first m with stopped | same
  · exact .inl stopped
  · rw [← same]
    exact second m

theorem SameUnless.imp {E' : Stop → Prop} (h : ∀ s, E s → E' s) (same : SameUnless E x y) :
    SameUnless E' x y := fun m => (same m).imp_left (StoppedBy.imp h)

theorem SameUnless.bind {f g : α → Eval β} (hx : SameUnless E x y)
    (hf : ∀ a, SameUnless E (f a) (g a)) : SameUnless E (x >>= f) (y >>= g) := by
  intro m
  have first := hx m
  simp only [Bind.bind, EStateM.bind]
  rcases first with stopped | same
  · generalize x m = r at stopped ⊢
    cases r with
    | ok a n => exact stopped.elim
    | error s n => exact .inl stopped
  · rw [same]
    cases x m with
    | ok a n => exact hf a n
    | error s n => exact .inr rfl

theorem SameUnless.located (anywhere : ∀ f, E (.fault f none) → ∀ p, E (.fault f p))
    (h : SameUnless E x y) (place : Option Place) :
    SameUnless E (Eval.located place x) (Eval.located place y) := by
  intro m
  rcases h m with stopped | same
  · refine .inl ?_
    simp only [Eval.located]
    generalize x m = r at stopped ⊢
    rcases r with _ | ⟨⟨f, _ | p⟩ | _ | _, n⟩
    · exact stopped.elim
    · exact anywhere f stopped place
    · exact stopped
    · exact stopped
    · exact stopped
  · exact .inr (by simp only [Eval.located, same])

/-- A scope can always be left, so a call hands on why its body stops. -/
theorem SameUnless.call {inner inner' : Evaluator}
    (handed : ∀ s m, E s → StoppedBy E (Evaluator.callEnding (.error s) m)) (tells : inner.Tells)
    (hs : ∀ t, SameUnless E (inner.stmt t) (inner'.stmt t)) (f : Closure) (args : List Datum) :
    SameUnless E (inner.call f args) (inner'.call f args) := by
  simp only [Evaluator.call_eq]
  apply SameUnless.bind (.refl _)
  intro _ m
  have body : SameUnless E (do bindParams f.params args; inner.stmt f.body)
      (do bindParams f.params args; inner'.stmt f.body) :=
    .bind (.refl _) fun _ => hs f.body
  have told : Eval.Tells (do bindParams f.params args; inner.stmt f.body) :=
    (Eval.tells_bindParams f.params args).bind fun _ => tells.stmt f.body
  generalize (do bindParams f.params args; inner.stmt f.body) = x at body told ⊢
  generalize (do bindParams f.params args; inner'.stmt f.body) = y at body ⊢
  cases enter : m.store.push f.scope with
  | error fault => exact .inr (by simp only [Bind.bind, EStateM.bind, Eval.push, enter])
  | ok s =>
    let entered : Machine := { m.record (.push f.scope (some s.depth)) with store := s }
    rcases body entered with stopped | same
    · obtain ⟨s', leave, _⟩ := Eval.journaled_of_scope enter (told entered)
      refine .inl ?_
      rw [Eval.scope_eq enter leave]
      obtain ⟨stop, n, ended⟩ : ∃ stop n, x entered = .error stop n := by
        cases ended : x entered with
        | ok a n =>
          rw [ended] at stopped
          exact stopped.elim
        | error stop n => exact ⟨stop, n, rfl⟩
      rw [ended] at stopped
      simp only [Eval.ending, show x { m.record (.push f.scope (some s.depth)) with store := s } =
        .error stop n from ended]
      exact handed stop _ stopped
    · refine .inr ?_
      simp only [Bind.bind, EStateM.bind, Eval.push, enter, Eval.attempt,
        show y { m.record (.push f.scope (some s.depth)) with store := s } = _ from same, entered]

end

/-! ## Wider limits -/

/-- The action ends at a limit, or the other one is the same. -/
def Outlasts (x y : Eval α) : Prop := ∀ m, LimitHit (x m) ∨ y m = x m

theorem Outlasts.bind {x y : Eval α} {f g : α → Eval β} (hx : Outlasts x y)
    (hf : ∀ a, Outlasts (f a) (g a)) : Outlasts (x >>= f) (y >>= g) :=
  SameUnless.bind hx hf

theorem Outlasts.located {x y : Eval α} (h : Outlasts x y) (place : Option Place) :
    Outlasts (Eval.located place x) (Eval.located place y) :=
  SameUnless.located (fun _ hit _ => Stop.hitsLimit_fault _ hit) h place

/-- Limits are outlasted, whatever the trees and the data are. -/
def outlasting : Uniform Unit where
  rel x y := Outlasts x (y ())
  pure _ _ := .inr rfl
  fail _ _ := .inr rfl
  unfinished _ := .inr rfl
  bind := .bind
  alloc _ _ _ := .inr rfl
  count _ := .inr rfl
  load? _ _ := .inr rfl
  reserve _ := .inr rfl

variable {inner inner' : Evaluator}

theorem outlasts_call (tells : inner.Tells) (hs : ∀ t, Outlasts (inner.stmt t) (inner'.stmt t))
    (f : Closure) (args : List Datum) : Outlasts (inner.call f args) (inner'.call f args) :=
  SameUnless.call (fun _ m hit => limitHit_callEnding hit m) tells hs f args

/-- What does not come to the one limit is the same under a wider one. -/
theorem outlasts_of_le (rounds : Nat) {depth depth' : Nat} (le : depth ≤ depth') (t : Tree) :
    Outlasts ((evaluator rounds depth).expr t) ((evaluator rounds depth').expr t) ∧
      Outlasts ((evaluator rounds depth).stmt t) ((evaluator rounds depth').stmt t) := by
  induction depth generalizing depth' t with
  | zero => exact ⟨fun _ => .inl .nesting, fun _ => .inl .nesting⟩
  | succ depth ih =>
    obtain ⟨more, rfl⟩ := Nat.exists_eq_add_of_le le
    rw [Nat.add_right_comm]
    have nested (t : Tree) := ih (Nat.le_add_right depth more) t
    have expr (t : Tree) : outlasting.rel ((evaluator rounds depth).expr t) fun _ =>
        (evaluator rounds (depth + more)).expr t := (nested t).1
    have stmt (t : Tree) : outlasting.rel ((evaluator rounds depth).stmt t) fun _ =>
        (evaluator rounds (depth + more)).stmt t := (nested t).2
    have call := outlasts_call (evaluator_tells rounds depth) stmt
    constructor
    · exact Outlasts.located (outlasting.exprStep expr call t) t.place?
    · exact Outlasts.located (outlasting.stmtStep expr stmt rounds t) t.place?

/-! ## Stopping at the limit -/

/-- Scopes are left, and nothing else is done. -/
inductive Machine.Unwinds (n : Machine) : Machine → Prop
  | here : Unwinds n n
  | leave {m : Machine} {store : Store} : Unwinds n m → m.store.pop = .ok store →
      Unwinds n { m.record (.pop false (some (m.store.currentScope, store.depth))) with store }

/-- What an evaluation does at the limit: it ends, or it stops dead. -/
inductive Manner
  | ending | halting

/-- The result of an action or why it stopped, as a result, unless the evaluation stops dead. -/
def Manner.attempt : Manner → Eval α → Eval (Except Stop α)
  | .ending, x => Eval.attempt x
  | .halting, x => fun m =>
    match x m with
    | .ok a m => .ok (.ok a) m
    | .error .tooDeep m => .error .tooDeep m
    | .error e m => .ok (.error e) m

namespace Evaluator

/-- Runs a function; an evaluation that stops dead does not leave its scope. -/
def callBy (inner : Evaluator) (manner : Manner) (f : Closure) (args : List Datum) :
    Eval Datum := do
  Eval.record (.call f args.length)
  Eval.push f.scope
  let ending ← manner.attempt do
    bindParams f.params args
    inner.stmt f.body
  Eval.pop false
  callEnding ending

def applicationBy (inner : Evaluator) (manner : Manner) (function args : Tree) : Eval Datum := do
  let d ← inner.expr function
  let values ← args.children.mapM inner.expr
  let f ← callee function d
  inner.callBy manner f values

/-- An expression. Only calls attempt something. -/
def exprStepBy (inner : Evaluator) (manner : Manner) : Tree → Eval Datum
  | .node .call _ children => two .call children (inner.applicationBy manner)
  | t => inner.exprStep t

end Evaluator

/-- Enters something into the journal for a step. -/
def Eval.note (notes : Tree → List Event) (t : Tree) : Eval Unit :=
  modify fun m => { m with journal := notes t ++ m.journal }

/-- The evaluator, with every step noted before it is taken. -/
def notedEvaluator (notes : Tree → List Event) (manner : Manner) (rounds : Nat) : Nat → Evaluator
  | 0 => .exhausted
  | depth + 1 =>
    let inner := notedEvaluator notes manner rounds depth
    { expr := fun t => Eval.located t.place? do
        Eval.note notes t
        inner.exprStepBy manner t
      stmt := fun t => Eval.located t.place? do
        Eval.note notes t
        inner.stmtStep rounds t }

theorem exprStepBy_of_ne_call (inner : Evaluator) (manner : Manner) {t : Tree}
    (noCall : ∀ place children, t ≠ .node .call place children) :
    inner.exprStepBy manner t = inner.exprStep t := by
  cases t with
  | node label place children =>
    cases label with
    | call => exact absurd rfl (noCall place children)
    | _ => rfl
  | _ => rfl

/-- An evaluation that does not stop dead is none but that of the evaluator. -/
theorem notedEvaluator_ending (rounds depth : Nat) :
    notedEvaluator (fun _ => []) .ending rounds depth = evaluator rounds depth := by
  have step (inner : Evaluator) (t : Tree) : inner.exprStepBy .ending t = inner.exprStep t := by
    by_cases isCall : ∃ place children, t = .node .call place children
    · obtain ⟨place, children, rfl⟩ := isCall
      have call : inner.callBy .ending = inner.call := by
        funext f args
        rfl
      have application : inner.applicationBy .ending = inner.application := by
        funext function args
        simp only [Evaluator.applicationBy, call, Evaluator.application]
      simp only [Evaluator.exprStepBy, application, Evaluator.exprStep]
    · exact exprStepBy_of_ne_call inner .ending fun place children same =>
        isCall ⟨place, children, same⟩
  induction depth with
  | zero => rfl
  | succ depth ih =>
    simp only [notedEvaluator, ih, step]
    rfl

/-- Machines that hold the same, whatever their journals say. -/
structure Twins (m m' : Machine) : Prop where
  store : m.store = m'.store
  anonymous : m.anonymous = m'.anonymous

/-- How an action ends, how it does so noted, and how it does if it stops dead at the limit. -/
inductive Endings : EStateM.Result Stop Machine α → EStateM.Result Stop Machine α →
    EStateM.Result Stop Machine α → Prop
  | ok {a m m'} : Twins m m' → Endings (.ok a m) (.ok a m') (.ok a m')
  | error {s m m'} : Twins m m' → ¬s.failure.HitsLimit →
      Endings (.error s m) (.error s m') (.error s m')
  | halted {s m m' n} : Twins m m' → (s.failure.HitsLimit → n.Unwinds m') →
      Endings (.error s m) (.error s m') (.error .tooDeep n)

/-- An action and the two that take its place where steps are noted. -/
def Noted (x : Eval α) (y : Manner → Eval α) : Prop :=
  ∀ m m', Twins m m' → Endings (x m) (y .ending m') (y .halting m')

theorem Twins.record {m m' : Machine} (h : Twins m m') (e : Event) :
    Twins (m.record e) (m'.record e) := ⟨h.store, h.anonymous⟩

theorem Noted.bind {x : Eval α} {y : Manner → Eval α} {f : α → Eval β} {g : Manner → α → Eval β}
    (hx : Noted x y) (hf : ∀ a, Noted (f a) fun i => g i a) :
    Noted (x >>= f) fun i => y i >>= g i := by
  intro m m' same
  have first := hx m m' same
  simp only [Bind.bind, EStateM.bind]
  generalize x m = r at first ⊢
  generalize y .ending m' = r₁ at first ⊢
  generalize y .halting m' = r₂ at first ⊢
  cases first with
  | ok same => exact hf _ _ _ same
  | error same own => exact .error same own
  | halted same unwinds => exact .halted same unwinds

theorem Noted.located {x : Eval α} {y : Manner → Eval α} (h : Noted x y) (place : Option Place) :
    Noted (Eval.located place x) fun i => Eval.located place (y i) := by
  intro m m' same
  have ended := h m m' same
  simp only [Eval.located]
  generalize x m = r at ended ⊢
  generalize y .ending m' = r₁ at ended ⊢
  generalize y .halting m' = r₂ at ended ⊢
  cases ended with
  | ok same => exact .ok same
  | @error s _ _ same own =>
    rcases s with ⟨f, _ | p⟩ | _ | _
    · exact .error same (mt (Stop.hitsLimit_fault none) own)
    · exact .error same own
    · exact .error same own
    · exact .error same own
  | @halted s _ _ _ same unwinds =>
    rcases s with ⟨f, _ | p⟩ | _ | _
    · exact .halted same fun hits => unwinds (Stop.hitsLimit_fault none hits)
    · exact .halted same unwinds
    · exact .halted same unwinds
    · exact .halted same unwinds

theorem noted_pure (a : α) : Noted (pure a) fun _ => pure a := fun _ _ same => .ok same

theorem noted_fail {f : Fault} (own : f.IsOwn) :
    Noted (Eval.fail f : Eval α) fun _ => Eval.fail f :=
  fun _ _ same => .error same (mt isLimit_of_hitsLimit own.not_isLimit)

theorem noted_record (e : Event) : Noted (Eval.record e) fun _ => Eval.record e :=
  fun _ _ same => .ok (same.record e)

theorem noted_alloc (name : String) (d : Datum) :
    Noted (Eval.alloc name d) fun _ => Eval.alloc name d := by
  intro m m' same
  simp only [Eval.alloc, Store.alloc, same.store]
  split
  · exact .ok ⟨rfl, same.anonymous⟩
  · rename_i refused
    split at refused <;> cases refused
    exact .error ⟨same.store, same.anonymous⟩ (mt isLimit_of_hitsLimit (by rintro ⟨⟩))

theorem noted_count : Noted Eval.count fun _ => Eval.count := by
  rintro ⟨store, anonymous, journal⟩ ⟨_, _, journal'⟩ ⟨rfl, rfl⟩
  exact .ok ⟨rfl, rfl⟩

theorem noted_load? (name : String) : Noted (Eval.load? name) fun _ => Eval.load? name := by
  rintro ⟨store, anonymous, journal⟩ ⟨_, _, journal'⟩ ⟨rfl, rfl⟩
  exact .ok ⟨rfl, rfl⟩

theorem noted_push (id : Int) : Noted (Eval.push id) fun _ => Eval.push id := by
  intro m m' same
  simp only [Eval.push, Store.push, same.store]
  split
  · exact .ok ⟨rfl, same.anonymous⟩
  · rename_i refused
    split at refused <;> cases refused
    exact .error ⟨same.store, same.anonymous⟩ (mt isLimit_of_hitsLimit (by rintro ⟨⟩))

theorem noted_reserve : Noted Eval.reserve fun _ => Eval.reserve := by
  intro m m' same
  simp only [Eval.reserve, same.store]
  exact .ok ⟨rfl, same.anonymous⟩

/-- Steps may be noted, whatever the trees and the data are. -/
def noting : Uniform Manner where
  rel := Noted
  pure := noted_pure
  fail := noted_fail
  unfinished _ _ same := .error same nofun
  bind := .bind
  alloc := noted_alloc
  count := noted_count
  load? := noted_load?
  reserve := noted_reserve

theorem Store.not_isLimit_of_pop {s : Store} {f : Fault} (h : s.pop = .error f) : ¬f.IsLimit := by
  simp only [Store.pop] at h
  split at h <;> cases h
  rintro ⟨⟩

theorem noted_pop (retain : Bool) : Noted (Eval.pop retain) fun _ => Eval.pop retain := by
  intro m m' same
  simp only [Eval.pop, same.store]
  cases left : m'.store.pop with
  | ok store => exact .ok ⟨rfl, same.anonymous⟩
  | error f =>
    have own : ¬f.IsLimit := Store.not_isLimit_of_pop left
    exact .error ⟨same.store, same.anonymous⟩ (mt isLimit_of_hitsLimit own)

theorem noted_callEnding {ended : Except Stop Completion}
    (own : ∀ s, ended = .error s → ¬s.failure.HitsLimit) :
    Noted (Evaluator.callEnding ended) fun _ => Evaluator.callEnding ended := by
  intro m m' same
  rcases ended with (_ | _ | _) | c
  · exact .error same (own _ rfl)
  · exact absurd .nesting (own _ rfl)
  · exact .error same (own _ rfl)
  · exact .ok same

/-- The scopes that the limit was hit in are left. -/
theorem halted_leaving {s : Stop} {m m' n : Machine} (same : Twins m m')
    (unwinds : s.failure.HitsLimit → n.Unwinds m') :
    Endings ((do Eval.pop false; Evaluator.callEnding (.error s) : Eval Datum) m)
      ((do Eval.pop false; Evaluator.callEnding (.error s) : Eval Datum) m')
      (.error .tooDeep n) := by
  simp only [Bind.bind, EStateM.bind, Eval.pop, same.store]
  cases left : m'.store.pop with
  | error f =>
    have own : ¬f.IsLimit := Store.not_isLimit_of_pop left
    exact .halted ⟨same.store, same.anonymous⟩ fun hits => absurd (isLimit_of_hitsLimit hits) own
  | ok store =>
    cases s with
    | tooDeep => exact .halted ⟨rfl, same.anonymous⟩ fun _ => .leave (unwinds .nesting) left
    | _ => exact .halted ⟨rfl, same.anonymous⟩ fun hits => .leave (unwinds hits) left

/-- A scope is left after the limit as it is otherwise, unless the evaluation stops dead. -/
theorem noted_leaving {x : Eval Completion} {y : Manner → Eval Completion} (h : Noted x y) :
    Noted (do let ending ← Eval.attempt x; Eval.pop false; Evaluator.callEnding ending)
      fun manner => (do
        let ending ← manner.attempt (y manner)
        Eval.pop false
        Evaluator.callEnding ending) := by
  intro m m' same
  have worked := h m m' same
  have left {ended : Except Stop Completion} (own : ∀ s, ended = .error s → ¬s.failure.HitsLimit) :=
    (noted_pop false).bind fun _ => noted_callEnding own
  simp only [Bind.bind, EStateM.bind, Eval.attempt, Manner.attempt] at left ⊢
  generalize x m = r at worked ⊢
  generalize y .ending m' = r₁ at worked ⊢
  generalize y .halting m' = r₂ at worked ⊢
  cases worked with
  | ok same => exact left (by simp) _ _ same
  | @error s _ _ same own =>
    cases s with
    | tooDeep => exact absurd .nesting own
    | _ => exact left (by rintro _ ⟨⟩; exact own) _ _ same
  | halted same unwinds => exact halted_leaving same unwinds

variable {noted : Manner → Evaluator}

theorem noted_call (hs : ∀ t, Noted (inner.stmt t) fun manner => (noted manner).stmt t)
    (f : Closure) (args : List Datum) :
    Noted (inner.call f args) fun manner => (noted manner).callBy manner f args := by
  apply (noted_record _).bind
  intro _
  apply (noted_push _).bind
  intro _
  have bound : Noted (bindParams f.params args) fun _ => bindParams f.params args :=
    noting.bindParams f.params args
  exact noted_leaving (bound.bind fun _ => hs f.body)

section

variable (he : ∀ t, noting.rel (inner.expr t) fun manner => (noted manner).expr t)
  (hs : ∀ t, noting.rel (inner.stmt t) fun manner => (noted manner).stmt t)
include he hs

theorem noted_application (function args : Tree) :
    noting.rel (inner.application function args) fun manner =>
      (noted manner).applicationBy manner function args := by
  apply noting.bind (he function)
  intro d
  apply noting.bind (noting.mapM he args.children)
  intro values
  apply noting.bind (noting.callee function d)
  exact fun f => noted_call hs f values

theorem noted_exprStep (t : Tree) :
    noting.rel (inner.exprStep t) fun manner => (noted manner).exprStepBy manner t := by
  by_cases isCall : ∃ place children, t = .node .call place children
  · obtain ⟨place, children, rfl⟩ := isCall
    exact noting.two (noted_application he hs)
  · have noCall : ∀ place children, t ≠ .node .call place children :=
      fun place children same => isCall ⟨place, children, same⟩
    simp only [exprStepBy_of_ne_call _ _ noCall]
    exact noting.plainStep he noCall

end

/-- However steps are noted, the evaluation ends alike, and stops dead where it comes to a limit. -/
theorem evaluator_noted (notes : Tree → List Event) (rounds depth : Nat) (t : Tree) :
    (Noted ((evaluator rounds depth).expr t) fun manner =>
      (notedEvaluator notes manner rounds depth).expr t) ∧
    Noted ((evaluator rounds depth).stmt t) fun manner =>
      (notedEvaluator notes manner rounds depth).stmt t := by
  induction depth generalizing t with
  | zero =>
    exact ⟨fun _ _ same => .halted same fun _ => .here, fun _ _ same => .halted same fun _ => .here⟩
  | succ depth ih =>
    have located {β : Type} {x : Eval β} {y : Manner → Eval β} (h : noting.rel x y) :
        Noted (Eval.located t.place? x) fun manner =>
          Eval.located t.place? (do Eval.note notes t; y manner) := by
      refine Noted.located (fun m m' same => ?_) t.place?
      exact h m { m' with journal := notes t ++ m'.journal } ⟨same.store, same.anonymous⟩
    have expr (t : Tree) : noting.rel ((evaluator rounds depth).expr t) fun manner =>
        (notedEvaluator notes manner rounds depth).expr t := (ih t).1
    have stmt (t : Tree) : noting.rel ((evaluator rounds depth).stmt t) fun manner =>
        (notedEvaluator notes manner rounds depth).stmt t := (ih t).2
    exact ⟨located (noted_exprStep expr stmt t), located (noting.stmtStep expr stmt rounds t)⟩

/-! ## Fragments -/

/-- What does not come to a limit is the same under any wider one. -/
theorem run_of_le {src : String} {m : Machine} {depth depth' rounds : Nat} (le : depth ≤ depth')
    (within : WithinLimits (m.run ⟨depth, rounds⟩ src).1) :
    m.run ⟨depth', rounds⟩ src = m.run ⟨depth, rounds⟩ src := by
  cases read : Source.readProgram src.toList with
  | error e => simp only [Machine.run, read]
  | ok p =>
    have fits : p.nesting ≤ depth := within.nesting_le read
    have narrow : m.run ⟨depth, rounds⟩ src = _ := Machine.run_eq read fits m
    have wide : m.run ⟨depth', rounds⟩ src = _ := Machine.run_eq read (Nat.le_trans fits le) m
    rw [narrow] at within
    rw [narrow, wide]
    rcases (outlasts_of_le rounds le p.tree).2 (m.record (.fragment src)) with hit | same
    · exact absurd hit within.not_limitHit
    · simp only [Eval.outcome, same]

/-- What comes to a limit is left at once, whatever is noted. -/
theorem exec_unwinds {depth rounds : Nat} {t : Tree} {m : Machine} {f : Failure}
    (failed : (m.exec ⟨depth, rounds⟩ t).1 = .error f) (hits : f.HitsLimit)
    (notes : Tree → List Event) : ∃ stop final last,
      (notedEvaluator notes .ending rounds depth).stmt t m = .error stop final ∧
      stop.failure = f ∧ Twins (m.exec ⟨depth, rounds⟩ t).2 final ∧
      (notedEvaluator notes .halting rounds depth).stmt t m = .error .tooDeep last ∧
      last.Unwinds final := by
  have ended : Endings ((evaluator rounds depth).stmt t m)
      ((notedEvaluator notes .ending rounds depth).stmt t m)
      ((notedEvaluator notes .halting rounds depth).stmt t m) :=
    (evaluator_noted notes rounds depth t).2 m m ⟨rfl, rfl⟩
  simp only [Machine.exec, Eval.outcome] at failed ⊢
  generalize (evaluator rounds depth).stmt t m = r at failed ended ⊢
  generalize (notedEvaluator notes .ending rounds depth).stmt t m = r₁ at ended ⊢
  generalize (notedEvaluator notes .halting rounds depth).stmt t m = r₂ at ended ⊢
  cases ended with
  | ok => cases failed
  | error same own =>
    cases failed
    exact absurd hits own
  | halted same unwinds =>
    cases failed
    exact ⟨_, _, _, rfl, rfl, same, rfl, unwinds hits⟩

/-- What does not come to a limit is the same under any wider one. What does come to one, in an
evaluation step, stops there: nothing is done any more, whatever is noted of steps, but to leave the
scopes that were entered, and the stack is as it was. -/
theorem limit_only_stops (src : String) (m : Machine) {depth depth' : Nat} (le : depth ≤ depth')
    (rounds : Nat) :
    let run := m.run ⟨depth, rounds⟩ src
    (WithinLimits run.1 → m.run ⟨depth', rounds⟩ src = run) ∧
    ∀ f, run.1 = .error f → f.HitsLimit →
      run.2.store.stack = m.store.stack ∧
      ∃ p, Source.readProgram src.toList = .ok p ∧
        (depth < p.nesting ∧ run.2 = m.record (.fragment src) ∨
          ∀ notes, ∃ stop final last,
            (notedEvaluator notes .ending rounds depth).stmt p.tree (m.record (.fragment src)) =
              .error stop final ∧
            stop.failure = f ∧ Twins run.2 final ∧
            (notedEvaluator notes .halting rounds depth).stmt p.tree (m.record (.fragment src)) =
              .error .tooDeep last ∧
            last.Unwinds final) := by
  intro run
  constructor
  · exact run_of_le le
  · intro f failed hits
    refine ⟨(Machine.journaled_run _ src m).stackKept.stack, ?_⟩
    cases read : Source.readProgram src.toList with
    | error e =>
      simp only [run, Machine.run, read] at failed
      cases failed
      cases hits
    | ok p =>
      refine ⟨p, rfl, ?_⟩
      rcases Nat.lt_or_ge depth p.nesting with deep | fits
      · exact .inl ⟨deep, by simp only [run, Machine.run, read, if_pos deep]⟩
      · have narrow : run = _ := Machine.run_eq read fits m
        rw [narrow] at failed ⊢
        exact .inr fun notes => exec_unwinds failed hits notes

private def hitsLimit : Except Failure Completion → Bool
  | .error (.runtime .callsTooDeep _) | .error (.runtime .nestingTooDeep _) => true
  | _ => false

private def runaway : String := "var n; function f() \x7b f(); n = true; \x7d f();"

private def calling : String := "function f() \x7b return true; \x7d f();"

/-- A runaway recursion comes to the limit, and one call does not. -/
theorem limit_only_stops_recursion :
    (∃ f, (Machine.fresh.run ⟨12, 5⟩ runaway).1 = .error f ∧ f.HitsLimit ∧
      (Machine.fresh.run ⟨12, 5⟩ runaway).2.store.stack = Machine.fresh.store.stack) ∧
    WithinLimits (Machine.fresh.run ⟨12, 5⟩ calling).1 ∧
      Machine.fresh.run ⟨1000, 5⟩ calling = Machine.fresh.run ⟨12, 5⟩ calling := by
  have stopped : hitsLimit (Machine.fresh.run ⟨12, 5⟩ runaway).1 = true := by decide +kernel
  have ended : (Machine.fresh.run ⟨12, 5⟩ calling).1.toOption.any (fun _ => true) = true := by
    decide +kernel
  have within : WithinLimits (Machine.fresh.run ⟨12, 5⟩ calling).1 := by
    intro f failed
    rw [failed] at ended
    cases ended
  have le : 12 ≤ 1000 := by decide
  refine ⟨?_, within, (limit_only_stops calling .fresh le 5).1 within⟩
  obtain ⟨f, failed, hits⟩ :
      ∃ f, (Machine.fresh.run ⟨12, 5⟩ runaway).1 = .error f ∧ f.HitsLimit := by
    generalize (Machine.fresh.run ⟨12, 5⟩ runaway).1 = r at stopped
    unfold hitsLimit at stopped
    split at stopped
    · exact ⟨_, rfl, .calls⟩
    · exact ⟨_, rfl, .nesting⟩
    · cases stopped
  exact ⟨f, failed, hits, ((limit_only_stops runaway .fresh le 5).2 f failed hits).1⟩

end Scriptlet
