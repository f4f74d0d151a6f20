import Scriptlet.Proofs.Joining
/-!
# Runs on heaps with different bodies

Two heaps are alike if they differ only in the bodies of the functions they hold, and these are
related. Two actions agree if on such heaps they end alike: with the same values or the same fault,
wherever that is located, and on heaps that are alike again. An action that hits a limit agrees with
any other.
-/

namespace Scriptlet

/-- Only a list is run in another way where it is the end of a list. -/
theorem Evaluator.last_of_label {inner : Evaluator} {label : Label} (other : label ≠ .seq)
    (place : Option Place) (children : List Tree) :
    inner.last (.node label place children) = inner.stmt (.node label place children) := by
  cases label <;> first | rfl | exact absurd rfl other

namespace Bodies

section

variable (R : Tree → Tree → Prop)

/-- Heaps that are alike. Nothing is said of the journals. -/
structure Heaps (m m' : Machine) : Prop where
  frames : ∀ i : Nat, Option.Rel (Frames R) m.store.frames[i]? m'.store.frames[i]?
  captured : m.store.captured = m'.store.captured
  top : m.store.top = m'.store.top
  below : m.store.below = m'.store.below
  anonymous : m.anonymous = m'.anonymous

/-- Reasons to stop that differ in the location at most. -/
inductive Stops : Stop → Stop → Prop
  | fault {f p p'} : Stops (.fault f p) (.fault f p')
  | tooDeep : Stops .tooDeep .tooDeep
  | unfinished : Stops .unfinished .unfinished

variable {α β γ δ : Type}

/-- Two runs end alike. If the first one hits a limit, nothing is asked of the second. -/
inductive Ends (Q : α → β → Prop) :
    EStateM.Result Stop Machine α → EStateM.Result Stop Machine β → Prop
  | ok {a b m m'} : Q a b → Heaps R m m' → Ends Q (.ok a m) (.ok b m')
  | error {s s' m m'} : Stops s s' → Heaps R m m' → Ends Q (.error s m) (.error s' m')
  | excused {s m r} : s.failure.HitsLimit → Ends Q (.error s m) r

def Agree (Q : α → β → Prop) (x : Eval α) (y : Eval β) : Prop :=
  ∀ m m', Heaps R m m' → Ends R Q (x m) (y m')

end

variable {R S : Tree → Tree → Prop} {α β γ δ : Type}

/-! ## Other relations between bodies -/

theorem Heaps.imp (weaker : ∀ t t', R t t' → S t t') {m m' : Machine} (h : Heaps R m m') :
    Heaps S m m' where
  frames i := rel_imp (fun _ _ same => same.imp weaker) (h.frames i)
  captured := h.captured
  top := h.top
  below := h.below
  anonymous := h.anonymous

theorem Heaps.trans {T : Tree → Tree → Prop} (chain : ∀ t u v, R t u → S u v → T t v)
    {m m' m'' : Machine} (h : Heaps R m m') (h' : Heaps S m' m'') : Heaps T m m'' where
  frames i := rel_trans (fun _ _ _ f f' => f.trans chain f') (h.frames i) (h'.frames i)
  captured := h.captured.trans h'.captured
  top := h.top.trans h'.top
  below := h.below.trans h'.below
  anonymous := h.anonymous.trans h'.anonymous

/-- A heap is like itself if its bodies are related to themselves. -/
theorem Heaps.refl {m : Machine} (h : ∀ (i : Nat) frame, m.store.frames[i]? = some frame →
    ∀ slot ∈ frame.slots, ∀ f, slot.2.function = some f → R f.body f.body) : Heaps R m m where
  frames i := rel_refl fun frame found => .refl (h i frame found)
  captured := rfl
  top := rfl
  below := rfl
  anonymous := rfl

/-- Only the store and the count of anonymous names matter. -/
theorem Heaps.congr {m n n' : Machine} (h : Heaps R m n) (store : n'.store = n.store)
    (anonymous : n'.anonymous = n.anonymous) : Heaps R m n' := by
  obtain ⟨frames, captured, top, below, count⟩ := h
  rw [← store] at frames captured top below
  exact ⟨frames, captured, top, below, count.trans anonymous.symm⟩

/-! ## Stores -/

namespace Heaps

variable {m m' : Machine}

theorem load? (h : Heaps R m m') (name : String) :
    Option.Rel (Data R) (m.store.load? name) (m'.store.load? name) :=
  load?_of_corresponds h.frames h.top name

/-- The journals do not matter. -/
theorem record (h : Heaps R m m') (e e' : Event) : Heaps R (m.record e) (m'.record e') :=
  ⟨h.frames, h.captured, h.top, h.below, h.anonymous⟩

theorem put {d d' : Datum} (h : Heaps R m m') (name : String) (hd : Data R d d') :
    Heaps R
      { m with store := { m.store with
        frames := m.store.frames.modify m.store.top fun f =>
          { f with slots := f.slots.put name d } } }
      { m' with store := { m'.store with
        frames := m'.store.frames.modify m'.store.top fun f =>
          { f with slots := f.slots.put name d' } } } := by
  refine { h with frames := ?_ }
  rw [← h.top]
  exact Corresponds.modify h.frames strictMono_id m.store.top fun _ _ same => same.put name hd

/-- A scope is entered in both stores or in neither. -/
theorem enter (h : Heaps R m m') (id : Int) :
    (∃ f, m.store.push id = .error f ∧ m'.store.push id = .error f) ∨
    ∃ s s', m.store.push id = .ok s ∧ m'.store.push id = .ok s' ∧
      Heaps R { m with store := s } { m' with store := s' } := by
  have scope : m'.store.scope? id = m.store.scope? id := by
    cases id <;> simp [Store.scope?, h.captured]
  simp only [Store.push, scope]
  cases m.store.scope? id with
  | none => exact .inl ⟨_, rfl, rfl⟩
  | some parent =>
    have size : m.store.frames.size = m'.store.frames.size := Corresponds.size h.frames
    refine .inr ⟨_, _, rfl, rfl, ⟨?_, h.captured, size, ?_, h.anonymous⟩⟩
    · exact Corresponds.push h.frames strictMono_id size.symm ⟨rfl, rfl, .nil⟩
    · dsimp only
      rw [h.top, h.below]

/-- A scope is left in both stores or in neither. -/
theorem leave (h : Heaps R m m') :
    (∃ f, m.store.pop = .error f ∧ m'.store.pop = .error f) ∨
    ∃ s s', m.store.pop = .ok s ∧ m'.store.pop = .ok s' ∧
      Heaps R { m with store := s } { m' with store := s' } := by
  simp only [Store.pop, ← h.below]
  cases m.store.below with
  | nil => exact .inl ⟨_, rfl, rfl⟩
  | cons t ts => exact .inr ⟨_, _, rfl, rfl, ⟨h.frames, h.captured, rfl, rfl, h.anonymous⟩⟩

end Heaps

/-! ## Actions -/

theorem Agree.pure {Q : α → β → Prop} {a : α} {b : β} (h : Q a b) :
    Agree R Q (Pure.pure a) (Pure.pure b) := fun _ _ heaps => .ok h heaps

theorem Agree.throw {Q : α → β → Prop} {s s' : Stop} (h : Stops s s') :
    Agree R Q (MonadExcept.throw s) (MonadExcept.throw s') := fun _ _ heaps => .error h heaps

theorem Agree.fail {Q : α → β → Prop} (f : Fault) : Agree R Q (Eval.fail f) (Eval.fail f) :=
  .throw .fault

/-- Without a level left, an action hits a limit at once. -/
theorem Agree.tooDeep {Q : α → β → Prop} (y : Eval β) :
    Agree R Q (MonadExcept.throw Stop.tooDeep) y := fun _ _ _ => .excused .nesting

theorem Agree.bind {Q : α → β → Prop} {T : γ → δ → Prop} {x : Eval α} {y : Eval β} {f : α → Eval γ}
    {g : β → Eval δ} (h : Agree R Q x y) (hf : ∀ a b, Q a b → Agree R T (f a) (g b)) :
    Agree R T (x >>= f) (y >>= g) := by
  intro m m' heaps
  have first := h m m' heaps
  simp only [Bind.bind, EStateM.bind]
  generalize x m = r at first ⊢
  generalize y m' = r' at first ⊢
  cases first with
  | ok same heaps => exact hf _ _ same _ _ heaps
  | error same heaps => exact .error same heaps
  | excused limit => exact .excused limit

theorem located_none (x : Eval α) : x.located none = x := by
  funext m
  rw [Eval.located]
  rcases x m with _ | ⟨⟨_, _ | _⟩ | _ | _, _⟩ <;> rfl

theorem located_cases (place : Option Place) (x : Eval α) (m : Machine) :
    (∃ a n, x m = .ok a n ∧ x.located place m = .ok a n) ∨
    ∃ s s' n, x m = .error s n ∧ x.located place m = .error s' n ∧ Stops s s' := by
  rw [Eval.located]
  rcases x m with ⟨a, n⟩ | ⟨s, n⟩
  · exact .inl ⟨a, n, rfl, rfl⟩
  · refine .inr ?_
    rcases s with ⟨f, _ | p⟩ | _ | _
    · exact ⟨_, _, n, rfl, rfl, .fault⟩
    · exact ⟨_, _, n, rfl, rfl, .fault⟩
    · exact ⟨_, _, n, rfl, rfl, .tooDeep⟩
    · exact ⟨_, _, n, rfl, rfl, .unfinished⟩

theorem Stops.trans {s s' s'' : Stop} (h : Stops s s') (h' : Stops s' s'') : Stops s s'' := by
  cases h with
  | fault =>
    cases h'
    exact .fault
  | tooDeep => exact h'
  | unfinished => exact h'

theorem Stops.symm {s s' : Stop} (h : Stops s s') : Stops s' s := by
  cases h with
  | fault => exact .fault
  | tooDeep => exact .tooDeep
  | unfinished => exact .unfinished

theorem Stops.hitsLimit {s s' : Stop} (h : Stops s s') (limit : s.failure.HitsLimit) :
    s'.failure.HitsLimit := by
  cases h with
  | fault => exact Stop.hitsLimit_fault _ limit
  | tooDeep => exact limit
  | unfinished => exact limit

/-- The trees around two actions locate their faults, each in its own place. -/
theorem Agree.located {Q : α → β → Prop} {x : Eval α} {y : Eval β} (h : Agree R Q x y)
    (place place' : Option Place) : Agree R Q (x.located place) (y.located place') := by
  intro m m' heaps
  have inside := h m m' heaps
  rcases located_cases place x m with ⟨a, n, hx, hx'⟩ | ⟨s, t, n, hx, hx', same⟩ <;>
    rcases located_cases place' y m' with ⟨b, n', hy, hy'⟩ | ⟨s', t', n', hy, hy', same'⟩ <;>
    rw [hx, hy] at inside <;> rw [hx', hy']
  · exact inside
  · cases inside
  · cases inside with
    | excused limit => exact .excused (same.hitsLimit limit)
  · cases inside with
    | error stops heaps => exact .error ((same.symm.trans stops).trans same') heaps
    | excused limit => exact .excused (same.hitsLimit limit)

theorem Agree.locatedLeft {Q : α → β → Prop} {x : Eval α} {y : Eval β} (h : Agree R Q x y)
    (place : Option Place) : Agree R Q (x.located place) y := by
  have both := h.located place none
  rwa [located_none] at both

theorem Agree.locatedRight {Q : α → β → Prop} {x : Eval α} {y : Eval β} (h : Agree R Q x y)
    (place : Option Place) : Agree R Q x (y.located place) := by
  have both := h.located none place
  rwa [located_none] at both

/-- Behind two actions that agree, another one may be put that does the same as the second. -/
theorem Agree.trans {x y z : Eval Completion} (h : Agree R (Completions R) x y)
    (h' : Agree Eq (Completions Eq) y z) : Agree R (Completions R) x z := by
  have chain (t u v : Tree) (first : R t u) (second : u = v) : R t v := second ▸ first
  intro m m' heaps
  have first := h m m' heaps
  have second := h' m' m' (.refl fun _ _ _ _ _ _ _ => rfl)
  generalize x m = r at first ⊢
  generalize y m' = r' at first second
  generalize z m' = r'' at second ⊢
  cases first with
  | ok same heaps =>
    cases second with
    | ok same' heaps' => exact .ok (same.trans chain same') (heaps.trans chain heaps')
  | error stops heaps =>
    cases second with
    | error stops' heaps' => exact .error (stops.trans stops') (heaps.trans chain heaps')
    | excused limit => exact .excused (stops.symm.hitsLimit limit)
  | excused limit => exact .excused limit

/-! ## Requests to the store -/

theorem agree_alloc (name : String) {d d' : Datum} (h : Data R d d') :
    Agree R (fun _ _ => True) (Eval.alloc name d) (Eval.alloc name d') := by
  intro m m' heaps
  by_cases empty : name = ""
  · simp only [Eval.alloc, Store.alloc, if_pos empty]
    exact .error .fault (heaps.record _ _)
  · simp only [Eval.alloc, Store.alloc, if_neg empty]
    exact .ok trivial ((heaps.put name h).record _ _)

theorem agree_count : Agree R Eq Eval.count Eval.count := by
  intro m m' heaps
  exact .ok heaps.anonymous { heaps with anonymous := congrArg (· + 1) heaps.anonymous }

theorem agree_allocAnonymous {d d' : Datum} (h : Data R d d') :
    Agree R (fun _ _ => True) (Eval.allocAnonymous d) (Eval.allocAnonymous d') := by
  refine agree_count.bind fun n n' same => ?_
  rw [same]
  exact agree_alloc _ h

theorem agree_load? (name : String) :
    Agree R (Option.Rel (Data R)) (Eval.load? name) (Eval.load? name) :=
  fun _ _ heaps => .ok (heaps.load? name) (heaps.record _ _)

theorem agree_reserve : Agree R Eq Eval.reserve Eval.reserve := by
  intro m m' heaps
  refine .ok (congrArg Array.size heaps.captured) ?_
  refine ⟨heaps.frames, ?_, heaps.top, heaps.below, heaps.anonymous⟩
  simp only [heaps.captured, heaps.top]

/-- Endings of what ran in a scope. -/
inductive Endings (Q : α → β → Prop) : Except Stop α → Except Stop β → Prop
  | ok {a b} : Q a b → Endings Q (.ok a) (.ok b)
  | error {s s'} : Stops s s' → Endings Q (.error s) (.error s')

/-- Work in a scope that is left on every ending. -/
theorem agree_scope {Q : α → β → Prop} {T : γ → δ → Prop} {x : Eval α} {y : Eval β}
    {k : Except Stop α → Eval γ} {k' : Except Stop β → Eval δ} (h : Agree R Q x y) (tells : x.Tells)
    (hk : ∀ e e', Endings Q e e' → Agree R T (k e) (k' e'))
    (limit : ∀ s, s.failure.HitsLimit → ∃ s', s'.failure.HitsLimit ∧ k (.error s) = throw s')
    (id : Int) :
    Agree R T (do Eval.push id; let e ← Eval.attempt x; Eval.pop false; k e)
      (do Eval.push id; let e ← Eval.attempt y; Eval.pop false; k' e) := by
  intro m m' heaps
  rcases heaps.enter id with ⟨f, refused, refused'⟩ | ⟨s, s', enter, enter', inside⟩
  · simp only [Bind.bind, EStateM.bind, Eval.push, refused, refused']
    exact .error .fault (heaps.record _ _)
  · have work : Ends R Q (x { m.record (.push id (some s.depth)) with store := s })
        (y { m'.record (.push id (some s'.depth)) with store := s' }) :=
      h _ _ (inside.record _ _)
    have told := Eval.journaled_of_scope enter (tells _)
    simp only [Bind.bind, EStateM.bind, Eval.push, enter, enter', Eval.attempt]
    simp only [Eval.after] at told
    generalize x { m.record (.push id (some s.depth)) with store := s } = r at work told ⊢
    generalize y { m'.record (.push id (some s'.depth)) with store := s' } = r' at work ⊢
    have left {n n' : Machine} (worked : Heaps R n n') {e : Except Stop α} {e' : Except Stop β}
        (same : Endings Q e e') :
        Ends R T ((do Eval.pop false; k e) n) ((do Eval.pop false; k' e') n') := by
      simp only [Bind.bind, EStateM.bind, Eval.pop]
      rcases worked.leave with ⟨f, refused, refused'⟩ | ⟨s, s', leave, leave', left⟩
      · rw [refused, refused']
        exact .error .fault (worked.record _ _)
      · rw [leave, leave']
        exact hk _ _ same _ _ (left.record _ _)
    cases work with
    | ok same worked => exact left worked (.ok same)
    | error same worked => exact left worked (.error same)
    | @excused stop n _ hit =>
      -- The first run has a scope to leave, so that it still ends with the limit that it hit.
      obtain ⟨s', leave, _⟩ := told
      obtain ⟨stop', hit', ended⟩ := limit stop hit
      simp only [Eval.pop, leave, ended]
      exact .excused hit'

/-- Actions that agree are made up of such. -/
def parallel (R : Tree → Tree → Prop) : Parallel where
  rel := Agree R
  data := Data R
  functions := Closures R
  bodies := R
  scopes := Eq
  names _ := True
  truth same := congrArg Value.truth same.value
  toNumber same := congrArg Value.toNumber same.value
  function same := same.function
  plain _ := data_of_value _
  former same := same.bare
  made := by
    rintro n _ body body' params name rfl same
    exact ⟨rfl, .some ⟨rfl, same, rfl, rfl⟩⟩
  pure := .pure
  fail _ := .fail _
  unfinished := .throw .unfinished
  bind := .bind
  alloc name := agree_alloc name
  allocAnonymous := agree_allocAnonymous
  load? _ := agree_load? _
  reserve := agree_reserve

theorem Agree.andThen {x x' y y' : Eval Completion} (hx : Agree R (Completions R) x x')
    (hy : Agree R (Completions R) y y') :
    Agree R (Completions R) (Evaluator.andThen x y) (Evaluator.andThen x' y') :=
  (parallel R).andThen hx hy

/-! ## The same tree with more depth -/

theorem heaps_of_shallow {o : Comparison.Origin} {m m' : Machine}
    (h : Comparison.shallow.Machines o m m') (stack : o.stack = o.stack') : Heaps Eq m m' := by
  have store := Comparison.Machines.store_eq h stack
  exact (Heaps.refl fun _ _ _ _ _ _ _ => rfl).congr store.symm h.anonymous.symm

theorem shallow_of_heaps {m m' : Machine} (h : Heaps Eq m m') : SameFrames m m' :=
  ⟨eq_of_corresponds h.frames, h.captured, h.anonymous⟩

theorem Agree.of_shallow {Q : α → β → Prop} {x : Eval α} {y : Eval β}
    (h : Comparison.shallow.Agree Q x y) : Agree Eq Q x y := by
  intro m m' heaps
  have stack : m.store.stack = m'.store.stack := by
    rw [Store.stack, Store.stack, heaps.top, heaps.below]
  have ends := h _ m m' (congrArg List.head? stack)
    (Comparison.Machines.of_sameFrames (fun _ => rfl) (shallow_of_heaps heaps))
  generalize x m = r at ends ⊢
  generalize y m' = r' at ends ⊢
  cases ends with
  | ok same machines => exact .ok same (heaps_of_shallow machines stack)
  | error same machines =>
    refine .error ?_ (heaps_of_shallow machines stack)
    cases same with
    | fault => exact .fault
    | tooDeep => exact .tooDeep
    | unfinished => exact .unfinished
  | excused limit => exact .excused limit

section

variable {rounds depth depth' : Nat} (le : depth ≤ depth') (t : Tree)
include le

theorem deeper_expr : Agree Eq (Data Eq) ((evaluator rounds depth).expr t)
    ((evaluator rounds depth').expr t) :=
  .of_shallow ((Comparison.evaluators_of_le Failure.HitsLimit.nesting rounds le).expr rfl)

theorem deeper_stmt : Agree Eq (Completions Eq) ((evaluator rounds depth).stmt t)
    ((evaluator rounds depth').stmt t) :=
  .of_shallow ((Comparison.evaluators_of_le Failure.HitsLimit.nesting rounds le).stmt rfl)

theorem deeper_last : Agree Eq (Completions Eq) ((evaluator rounds depth).last t)
    ((evaluator rounds depth').last t) :=
  .of_shallow ((Comparison.evaluators_of_le Failure.HitsLimit.nesting rounds le).last rfl)

end

/-! ## What runs come to -/

/-- Outcomes that are the same but for bodies of functions and locations of faults. -/
inductive Outcomes (R : Tree → Tree → Prop) :
    Except Failure Completion → Except Failure Completion → Prop
  | ok {e e'} : Completions R e e' → Outcomes R (.ok e) (.ok e')
  | runtime {f p p'} : Outcomes R (.error (.runtime f p)) (.error (.runtime f p'))
  | unfinished : Outcomes R (.error .unfinished) (.error .unfinished)

theorem Outcomes.imp {o o' : Except Failure Completion} (weaker : ∀ t t', R t t' → S t t')
    (h : Outcomes R o o') : Outcomes S o o' := by
  cases h with
  | ok same => exact .ok (same.imp weaker)
  | runtime => exact .runtime
  | unfinished => exact .unfinished

theorem Outcomes.trans {T : Tree → Tree → Prop} {o o' o'' : Except Failure Completion}
    (chain : ∀ t u v, R t u → S u v → T t v) (h : Outcomes R o o') (h' : Outcomes S o' o'') :
    Outcomes T o o'' := by
  cases h with
  | ok same =>
    cases h' with
    | ok same' => exact .ok (same.trans chain same')
  | runtime =>
    cases h'
    exact .runtime
  | unfinished =>
    cases h'
    exact .unfinished

theorem Outcomes.within {o o' : Except Failure Completion} (h : Outcomes R o o')
    (within : WithinLimits o) : WithinLimits o' := by
  intro f stopped limit
  cases h with
  | ok => cases stopped
  | @runtime fault p p' =>
    cases stopped
    exact within (.runtime fault p) rfl (by cases limit <;> constructor)
  | unfinished =>
    cases stopped
    cases limit

/-- Runs that come to the same. -/
structure Results (R : Tree → Tree → Prop) (r r' : Except Failure Completion × Machine) : Prop where
  outcome : Outcomes R r.1 r'.1
  heap : Heaps R r.2 r'.2

theorem Agree.results {x y : Eval Completion} {m m' : Machine} (h : Agree R (Completions R) x y)
    (start : Heaps R m m') (within : WithinLimits (x.outcome m).1) :
    Results R (x.outcome m) (y.outcome m') := by
  have ends := h m m' start
  simp only [Eval.outcome] at within ⊢
  generalize x m = r at ends within ⊢
  generalize y m' = r' at ends ⊢
  cases ends with
  | ok same heaps => exact ⟨.ok same, heaps⟩
  | error same heaps =>
    cases same with
    | fault => exact ⟨.runtime, heaps⟩
    | tooDeep => exact ⟨.runtime, heaps⟩
    | unfinished => exact ⟨.unfinished, heaps⟩
  | excused limit => exact absurd limit (within _ rfl)

end Bodies

end Scriptlet
