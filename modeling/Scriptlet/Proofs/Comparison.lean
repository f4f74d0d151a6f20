import Scriptlet.Proofs.Conduct
import Scriptlet.Proofs.Parallel
/-!
# Two runs compared

Two evaluators run trees that differ only where no step looks, on machines whose stores differ only
in their stacks below the innermost frame and in what stored functions run. A `Comparison` says
which trees and which places of faults are taken for one another, and which endings of the first run
excuse it. Every step of the two runs then ends alike: with the same values, or the same fault, and
after the same requests to the store.
-/

namespace Scriptlet

structure Comparison where
  tree : Tree → Tree → Prop
  place : Option Place → Option Place → Prop
  excused : Stop → Prop
  alike : ∀ {t t' : Tree}, tree t t' → t.Alike tree t'
  placeless : place none none
  /-- A fault without a place gets the one of the tree around it. -/
  outer : ∀ {t t' : Tree} {p p' : Option Place}, tree t t' → place p p' →
    place (p <|> t.place?) (p' <|> t'.place?)
  excused_fault : ∀ {f p} (q : Option Place), excused (.fault f p) → excused (.fault f q)
  excused_call : excused .tooDeep → excused (.fault .callsTooDeep none)

namespace Comparison

/-! ## What is taken for one another -/

section

variable (c : Comparison)

abbrev Closures : Closure → Closure → Prop := Bodies.Closures c.tree

abbrev Data : Datum → Datum → Prop := Bodies.Data c.tree

abbrev Completions : Completion → Completion → Prop := Bodies.Completions c.tree

abbrev Frames : Frame → Frame → Prop := Bodies.Frames c.tree

inductive Stops : Stop → Stop → Prop
  | fault {f p p'} : c.place p p' → Stops (.fault f p) (.fault f p')
  | tooDeep : Stops .tooDeep .tooDeep
  | unfinished : Stops .unfinished .unfinished

/-- Entries of one request. Of the depths they record nothing is said. -/
inductive Entries : Event → Event → Prop
  | alloc {name d d' scope} : c.Data d d' → Entries (.alloc name d scope) (.alloc name d' scope)
  | load {name} : Entries (.load name) (.load name)
  | push {id depth depth'} : Entries (.push id (some depth)) (.push id (some depth'))
  | pushRefused {id} : Entries (.push id none) (.push id none)
  | pop {retain scope depth depth'} :
      Entries (.pop retain (some (scope, depth))) (.pop retain (some (scope, depth')))
  | reserve {scope} : Entries (.reserve scope) (.reserve scope)
  | call {f f' args} : c.Closures f f' → Entries (.call f args) (.call f' args)

/-- The journals and the stacks from which two runs set out. -/
structure Origin where
  journal : List Event
  journal' : List Event
  stack : List Nat
  stack' : List Nat

/-- Machines that two runs have come to. -/
structure Machines (o : Origin) (m m' : Machine) : Prop where
  frames : ∀ i : Nat, Option.Rel c.Frames m.store.frames[i]? m'.store.frames[i]?
  captured : m.store.captured = m'.store.captured
  anonymous : m.anonymous = m'.anonymous
  journal : ∃ es es', List.Forall₂ c.Entries es es' ∧ m.journal = es ++ o.journal ∧
    m'.journal = es' ++ o.journal'
  stack : m.store.stack = o.stack
  stack' : m'.store.stack = o.stack'

variable {α β γ δ : Type}

/-- Two runs end alike. If the first one is excused, nothing is asked of the second. -/
inductive Ends (o : Origin) (Q : α → β → Prop) :
    EStateM.Result Stop Machine α → EStateM.Result Stop Machine β → Prop
  | ok {a b m m'} : Q a b → c.Machines o m m' → Ends o Q (.ok a m) (.ok b m')
  | error {s s' m m'} : c.Stops s s' → c.Machines o m m' → Ends o Q (.error s m) (.error s' m')
  | excused {s m r} : c.excused s → m.store.stack = o.stack → Ends o Q (.error s m) r

/-- With one frame innermost, two actions end alike. -/
def Agree (Q : α → β → Prop) (x : Eval α) (y : Eval β) : Prop :=
  ∀ o m m', o.stack.head? = o.stack'.head? → c.Machines o m m' → c.Ends o Q (x m) (y m')

end

variable {c : Comparison} {o : Origin} {α β γ δ : Type}

/-! ## Stores -/

theorem Machines.size {m m' : Machine} (h : c.Machines o m m') :
    m.store.frames.size = m'.store.frames.size := Corresponds.size h.frames

theorem Machines.top {m m' : Machine} (h : c.Machines o m m')
    (level : o.stack.head? = o.stack'.head?) : m.store.top = m'.store.top := by
  rw [← h.stack, ← h.stack'] at level
  exact Option.some.inj level

theorem Machines.currentScope {m m' : Machine} (h : c.Machines o m m')
    (level : o.stack.head? = o.stack'.head?) : m.store.currentScope = m'.store.currentScope := by
  have innermost := h.frames m.store.top
  rw [Store.currentScope, Store.currentScope, ← h.top level]
  generalize m.store.frames[m.store.top]? = f at innermost ⊢
  generalize m'.store.frames[m.store.top]? = f' at innermost ⊢
  cases innermost with
  | none => rfl
  | some same => exact same.scope

theorem Machines.load? {m m' : Machine} (h : c.Machines o m m')
    (level : o.stack.head? = o.stack'.head?) (name : String) :
    Option.Rel c.Data (m.store.load? name) (m'.store.load? name) :=
  Bodies.load?_of_corresponds h.frames (h.top level) name

/-- An entry of one request made on both machines. -/
theorem Machines.record {m m' : Machine} {e e' : Event} (h : c.Machines o m m')
    (he : c.Entries e e') : c.Machines o (m.record e) (m'.record e') := by
  obtain ⟨es, es', entries, journal, journal'⟩ := h.journal
  refine { h with journal := ⟨e :: es, e' :: es', .cons he entries, ?_, ?_⟩ }
  · simp [Machine.record, journal]
  · simp [Machine.record, journal']

/-- The store after a datum was stored in the innermost frame. -/
theorem Machines.put {m m' : Machine} {d d' : Datum} (h : c.Machines o m m')
    (level : o.stack.head? = o.stack'.head?) (name : String) (hd : c.Data d d') :
    c.Machines o
      { m with store := { m.store with
        frames := m.store.frames.modify m.store.top fun f =>
          { f with slots := f.slots.put name d } } }
      { m' with store := { m'.store with
        frames := m'.store.frames.modify m'.store.top fun f =>
          { f with slots := f.slots.put name d' } } } := by
  refine { h with frames := ?_ }
  rw [← h.top level]
  exact Corresponds.modify h.frames strictMono_id m.store.top fun _ _ same => same.put name hd

/-! ## Actions -/

theorem Agree.pure {Q : α → β → Prop} {a : α} {b : β} (h : Q a b) :
    c.Agree Q (Pure.pure a) (Pure.pure b) := fun _ _ _ _ machines => .ok h machines

theorem Agree.throw {Q : α → β → Prop} {s s' : Stop} (h : c.Stops s s') :
    c.Agree Q (MonadExcept.throw s) (MonadExcept.throw s') :=
  fun _ _ _ _ machines => .error h machines

theorem Agree.fail {Q : α → β → Prop} (f : Fault) : c.Agree Q (Eval.fail f) (Eval.fail f) :=
  .throw (.fault c.placeless)

theorem Agree.bind {Q : α → β → Prop} {R : γ → δ → Prop} {x : Eval α} {y : Eval β} {f : α → Eval γ}
    {g : β → Eval δ} (h : c.Agree Q x y) (hf : ∀ a b, Q a b → c.Agree R (f a) (g b)) :
    c.Agree R (x >>= f) (y >>= g) := by
  intro o m m' level machines
  have first := h o m m' level machines
  simp only [Bind.bind, EStateM.bind]
  generalize x m = r at first ⊢
  generalize y m' = r' at first ⊢
  cases first with
  | ok same machines => exact hf _ _ same o _ _ level machines
  | error same machines => exact .error same machines
  | excused ex stack => exact .excused ex stack

/-- What the tree around an action adds to a fault. -/
theorem Agree.located {Q : α → β → Prop} {x : Eval α} {y : Eval β} {t t' : Tree}
    (h : c.Agree Q x y) (ht : c.tree t t') :
    c.Agree Q (Eval.located t.place? x) (Eval.located t'.place? y) := by
  intro o m m' level machines
  have inside := h o m m' level machines
  simp only [Eval.located]
  generalize x m = r at inside ⊢
  generalize y m' = r' at inside ⊢
  cases inside with
  | ok same machines => exact .ok same machines
  | error same machines =>
    cases same with
    | @fault f p p' places =>
      have outer := c.outer ht places
      cases p <;> cases p' <;> exact .error (.fault outer) machines
    | tooDeep => exact .error .tooDeep machines
    | unfinished => exact .error .unfinished machines
  | @excused s m r ex stack =>
    rcases s with ⟨f, _ | p⟩ | _ | _
    · exact .excused (c.excused_fault _ ex) stack
    · exact .excused ex stack
    · exact .excused ex stack
    · exact .excused ex stack

/-! ## Requests to the store -/

theorem agree_alloc (name : String) {d d' : Datum} (h : c.Data d d') :
    c.Agree (fun _ _ => True) (Eval.alloc name d) (Eval.alloc name d') := by
  intro o m m' level machines
  by_cases empty : name = ""
  · simp only [Eval.alloc, Store.alloc, if_pos empty]
    exact .error (.fault c.placeless) (machines.record (.alloc h))
  · simp only [Eval.alloc, Store.alloc, if_neg empty]
    have stored := machines.put level name h
    have scope := stored.currentScope level
    refine .ok trivial (stored.record ?_)
    rw [scope]
    exact .alloc h

/-- The next anonymous name is taken. -/
theorem agree_count : c.Agree Eq Eval.count Eval.count := by
  intro o m m' level machines
  have counted : c.Machines o { m with anonymous := m.anonymous + 1 }
      { m' with anonymous := m'.anonymous + 1 } :=
    { machines with anonymous := congrArg (· + 1) machines.anonymous }
  exact .ok machines.anonymous counted

theorem agree_allocAnonymous {d d' : Datum} (h : c.Data d d') :
    c.Agree (fun _ _ => True) (Eval.allocAnonymous d) (Eval.allocAnonymous d') := by
  refine agree_count.bind fun n n' same => ?_
  rw [same]
  exact agree_alloc _ h

theorem agree_load? (name : String) :
    c.Agree (Option.Rel c.Data) (Eval.load? name) (Eval.load? name) := by
  intro o m m' level machines
  exact .ok (machines.load? level name) (machines.record .load)

theorem agree_reserve : c.Agree Eq Eval.reserve Eval.reserve := by
  intro o m m' level machines
  have reserved : c.Machines o { m with store := m.store.reserve.2 }
      { m' with store := m'.store.reserve.2 } := by
    refine { machines with captured := ?_ }
    simp [Store.reserve, machines.captured, machines.top level]
  have scope : m.store.captured.size = m'.store.captured.size :=
    congrArg Array.size machines.captured
  refine .ok scope (reserved.record ?_)
  rw [scope]
  exact .reserve

/-! ## Scopes -/

/-- The origin of what runs in a new frame. -/
def Origin.entered (o : Origin) (top : Nat) : Origin :=
  { o with stack := top :: o.stack, stack' := top :: o.stack' }

/-- A new frame is entered in both stores, whatever the innermost one was. -/
theorem Machines.enter {m m' : Machine} (h : c.Machines o m m') (id : Int) :
    (∃ f, m.store.push id = .error f ∧ m'.store.push id = .error f) ∨
    ∃ s s', m.store.push id = .ok s ∧ m'.store.push id = .ok s' ∧
      c.Machines (o.entered m.store.frames.size)
        { m.record (.push id (some s.depth)) with store := s }
        { m'.record (.push id (some s'.depth)) with store := s' } := by
  have scope : m'.store.scope? id = m.store.scope? id := by
    cases id <;> simp [Store.scope?, h.captured]
  simp only [Store.push, scope]
  cases m.store.scope? id with
  | none => exact Or.inl ⟨_, rfl, rfl⟩
  | some parent =>
    refine Or.inr ⟨_, _, rfl, rfl, ?_⟩
    have entered : c.Machines (o.entered m.store.frames.size)
        { m with store := { m.store with
          frames := m.store.frames.push ⟨id.toNat, parent, []⟩
          top := m.store.frames.size
          below := m.store.top :: m.store.below } }
        { m' with store := { m'.store with
          frames := m'.store.frames.push ⟨id.toNat, parent, []⟩
          top := m'.store.frames.size
          below := m'.store.top :: m'.store.below } } := by
      refine { h with frames := ?_, stack := ?_, stack' := ?_ }
      · exact Corresponds.push h.frames strictMono_id h.size.symm ⟨rfl, rfl, .nil⟩
      · exact congrArg _ h.stack
      · rw [← h.size]
        exact congrArg _ h.stack'
    exact entered.record .push

/-- A frame is left in a store whose stack lies below it. -/
theorem pop_of_stack {s : Store} {top : Nat} {stack : List Nat} (h : s.stack = top :: stack)
    (live : stack ≠ []) : ∃ s', s.pop = .ok s' ∧ s'.stack = stack ∧
      s'.frames = s.frames ∧ s'.captured = s.captured := by
  obtain ⟨_, below⟩ := List.cons.inj h
  cases stack with
  | nil => exact absurd rfl live
  | cons t ts => exact ⟨{ s with top := t, below := ts }, by rw [Store.pop, below], rfl, rfl, rfl⟩

/-- The frame is left in both stores, and each has its own stack back. -/
theorem Machines.leave {m m' : Machine} {top : Nat} (h : c.Machines (o.entered top) m m')
    (live : o.stack ≠ []) (live' : o.stack' ≠ []) :
    ∃ s s', m.store.pop = .ok s ∧ m'.store.pop = .ok s' ∧
      c.Machines o
        { m.record (.pop false (some (m.store.currentScope, s.depth))) with store := s }
        { m'.record (.pop false (some (m'.store.currentScope, s'.depth))) with store := s' } := by
  obtain ⟨s, leave, stack, frames, captured⟩ := pop_of_stack h.stack live
  obtain ⟨s', leave', stack', frames', captured'⟩ := pop_of_stack h.stack' live'
  have left : c.Machines o { m with store := s } { m' with store := s' } := by
    refine ⟨?_, ?_, h.anonymous, h.journal, stack, stack'⟩
    · rw [frames, frames']
      exact h.frames
    · rw [captured, captured']
      exact h.captured
  refine ⟨s, s', leave, leave', left.record ?_⟩
  rw [h.currentScope rfl]
  exact .pop

/-- Endings of what ran in a scope. -/
inductive Endings (Q : α → β → Prop) : Except Stop α → Except Stop β → Prop
  | ok {a b} : Q a b → Endings Q (.ok a) (.ok b)
  | error {s s'} : c.Stops s s' → Endings Q (.error s) (.error s')

/-- Work in a new frame does not depend on the frame from which it is entered, if what follows does
not either. -/
theorem ends_scope {Q : α → β → Prop} {R : γ → δ → Prop} {x : Eval α} {y : Eval β}
    {k : Except Stop α → Eval γ} {k' : Except Stop β → Eval δ} (h : c.Agree Q x y)
    (hk : ∀ e e' m m', Endings (c := c) Q e e' → c.Machines o m m' →
      c.Ends o R (k e m) (k' e' m'))
    (excused : ∀ s, c.excused s → ∃ s', c.excused s' ∧ ∀ m, k (.error s) m = .error s' m) (id : Int)
    {m m' : Machine} (machines : c.Machines o m m') :
    c.Ends o R ((do Eval.push id; let e ← Eval.attempt x; Eval.pop false; k e) m)
      ((do Eval.push id; let e ← Eval.attempt y; Eval.pop false; k' e) m') := by
  have live : o.stack ≠ [] := machines.stack ▸ List.cons_ne_nil _ _
  have live' : o.stack' ≠ [] := machines.stack' ▸ List.cons_ne_nil _ _
  rcases machines.enter id with ⟨f, refused, refused'⟩ | ⟨s, s', enter, enter', inside⟩
  · simp only [Bind.bind, EStateM.bind, Eval.push, refused, refused']
    exact .error (.fault c.placeless) (machines.record .pushRefused)
  · have work := h _ _ _ rfl inside
    simp only [Bind.bind, EStateM.bind, Eval.push, enter, enter', Eval.attempt]
    generalize x { m.record (.push id (some s.depth)) with store := s } = r at work ⊢
    generalize y { m'.record (.push id (some s'.depth)) with store := s' } = r' at work ⊢
    cases work with
    | ok same worked =>
      obtain ⟨_, _, leave, leave', left⟩ := worked.leave live live'
      simp only [Eval.pop, leave, leave']
      exact hk _ _ _ _ (.ok same) left
    | error same worked =>
      obtain ⟨_, _, leave, leave', left⟩ := worked.leave live live'
      simp only [Eval.pop, leave, leave']
      exact hk _ _ _ _ (.error same) left
    | excused ex stack =>
      obtain ⟨_, leave, stack', _⟩ := pop_of_stack stack live
      obtain ⟨s', ex', ended⟩ := excused _ ex
      simp only [Eval.pop, leave]
      rw [ended]
      exact .excused ex' stack'

/-- Actions that agree are made up of such. -/
def parallel (c : Comparison) : Parallel where
  rel := c.Agree
  data := c.Data
  functions := c.Closures
  bodies := c.tree
  scopes := Eq
  names _ := True
  truth same := congrArg Value.truth same.value
  toNumber same := congrArg Value.toNumber same.value
  function same := same.function
  plain _ := Bodies.data_of_value _
  former same := same.bare
  made := by
    rintro n _ body body' params name rfl same
    exact ⟨rfl, .some ⟨rfl, same, rfl, rfl⟩⟩
  pure := .pure
  fail _ := .fail _
  unfinished := .throw .unfinished
  bind := .bind
  alloc name := agree_alloc name
  allocAnonymous := agree_allocAnonymous
  load? _ := agree_load? _
  reserve := agree_reserve

theorem trees (c : Comparison) : c.parallel.Trees c.tree := ⟨c.alike, id, fun _ _ _ => trivial⟩

/-! ## Evaluators -/

/-- Evaluators whose runs of related trees end alike. -/
structure Evaluators (c : Comparison) (inner inner' : Evaluator) : Prop where
  expr : ∀ {t t'}, c.tree t t' → c.Agree c.Data (inner.expr t) (inner'.expr t')
  stmt : ∀ {t t'}, c.tree t t' → c.Agree c.Completions (inner.stmt t) (inner'.stmt t')

variable {inner inner' : Evaluator}

/-- A call ends alike whatever the frames are from which it is made. -/
theorem Evaluators.ends_call (h : c.Evaluators inner inner') {f f' : Closure}
    {args args' : List Datum} (hf : c.Closures f f') (ha : List.Forall₂ c.Data args args')
    {m m' : Machine} (machines : c.Machines o m m') :
    c.Ends o c.Data (inner.call f args m) (inner'.call f' args' m') := by
  have body : c.Agree c.Completions (do bindParams f.params args; inner.stmt f.body)
      (do bindParams f'.params args'; inner'.stmt f'.body) := by
    rw [hf.params]
    exact Agree.bind (c.parallel.bindParams f'.params ha) fun _ _ _ => h.stmt hf.body
  have entry : c.Entries (.call f args.length) (.call f' args'.length) := by
    rw [ha.length_eq]
    exact .call hf
  rw [Evaluator.call_eq, Evaluator.call_eq, ← hf.scope]
  refine ends_scope body ?_ ?_ f.scope (machines.record entry)
  · intro e e' m m' ending machines
    cases ending with
    | ok same => exact .ok (same.result Bodies.data_undefined) machines
    | error same =>
      cases same with
      | tooDeep => exact .error (.fault c.placeless) machines
      | fault places => exact .error (.fault places) machines
      | unfinished => exact .error .unfinished machines
  · intro stop ex
    cases stop with
    | tooDeep => exact ⟨_, c.excused_call ex, fun _ => rfl⟩
    | fault => exact ⟨_, ex, fun _ => rfl⟩
    | unfinished => exact ⟨_, ex, fun _ => rfl⟩

theorem Evaluators.call (h : c.Evaluators inner inner') {f f' : Closure} {args args' : List Datum}
    (hf : c.Closures f f') (ha : List.Forall₂ c.Data args args') :
    c.Agree c.Data (inner.call f args) (inner'.call f' args') :=
  fun _ _ _ _ machines => h.ends_call hf ha machines

theorem Evaluators.exprStep (h : c.Evaluators inner inner') {t t' : Tree} (ht : c.tree t t') :
    c.Agree c.Data (inner.exprStep t) (inner'.exprStep t') :=
  c.trees.exprStep h.expr h.call ht

theorem Evaluators.stmtStep (h : c.Evaluators inner inner') (rounds : Nat) {t t' : Tree}
    (ht : c.tree t t') :
    c.Agree c.Completions (inner.stmtStep rounds t) (inner'.stmtStep rounds t') :=
  c.trees.stmtStep h.expr h.stmt rounds ht

theorem Evaluators.deepen (h : c.Evaluators inner inner') (rounds : Nat) :
    c.Evaluators (inner.deepen rounds) (inner'.deepen rounds) :=
  ⟨fun ht => (h.exprStep ht).located ht, fun ht => (h.stmtStep rounds ht).located ht⟩

/-- Without a level left, the first run is excused. -/
theorem evaluators_exhausted (tooDeep : c.excused .tooDeep) (inner' : Evaluator) :
    c.Evaluators .exhausted inner' :=
  ⟨fun _ _ _ _ _ machines => .excused tooDeep machines.stack,
    fun _ _ _ _ _ machines => .excused tooDeep machines.stack⟩

/-- With the same limits, runs of related trees end alike. -/
theorem evaluators_refl (c : Comparison) (rounds depth : Nat) :
    c.Evaluators (evaluator rounds depth) (evaluator rounds depth) := by
  induction depth with
  | zero => exact ⟨fun _ => .throw .tooDeep, fun _ => .throw .tooDeep⟩
  | succ depth ih => exact ih.deepen rounds

/-- With more depth too, if the first run may find its own too small. -/
theorem evaluators_of_le (tooDeep : c.excused .tooDeep) (rounds : Nat) {depth depth' : Nat}
    (le : depth ≤ depth') : c.Evaluators (evaluator rounds depth) (evaluator rounds depth') := by
  induction depth generalizing depth' with
  | zero => exact evaluators_exhausted tooDeep _
  | succ depth ih =>
    obtain ⟨more, rfl⟩ := Nat.exists_eq_add_of_le le
    rw [Nat.add_right_comm]
    exact (ih (Nat.le_add_right depth more)).deepen rounds

end Comparison

/-! ## Runs of the same trees -/

/-- Machines that hold the same: only their stacks and their journals may differ. -/
structure SameFrames (m m' : Machine) : Prop where
  frames : m.store.frames = m'.store.frames
  captured : m.store.captured = m'.store.captured
  anonymous : m.anonymous = m'.anonymous

namespace Comparison

section

variable {c : Comparison} (hr : ∀ t, c.tree t t)
include hr

/-- Where both runs set out. -/
theorem Machines.of_sameFrames {m m' : Machine} (h : SameFrames m m') :
    c.Machines ⟨m.journal, m'.journal, m.store.stack, m'.store.stack⟩ m m' := by
  refine ⟨fun i => ?_, h.captured, h.anonymous, ⟨[], [], .nil, rfl, rfl⟩, rfl, rfl⟩
  rw [h.frames]
  cases m'.store.frames[i]? with
  | none => exact .none
  | some f => exact .some (.refl fun _ _ _ _ => hr _)

end

/-- Both runs are of the same trees. -/
def equal (excused : Stop → Prop)
    (fault : ∀ {f p} (q : Option Place), excused (.fault f p) → excused (.fault f q))
    (call : excused .tooDeep → excused (.fault .callsTooDeep none)) : Comparison where
  tree := Eq
  place := Eq
  excused := excused
  alike same := same ▸ .refl (fun _ => rfl) _
  placeless := rfl
  outer := by
    rintro t _ p _ rfl rfl
    rfl
  excused_fault := fault
  excused_call := call

section

variable {excused : Stop → Prop}
  {fault : ∀ {f p} (q : Option Place), excused (.fault f p) → excused (.fault f q)}
  {call : excused .tooDeep → excused (.fault .callsTooDeep none)}

theorem Stops.eq {s s' : Stop} (h : (equal excused fault call).Stops s s') : s = s' := by
  cases h with
  | fault same => rw [show _ = _ from same]
  | _ => rfl

theorem Machines.sameFrames {o : Origin} {m m' : Machine}
    (h : (equal excused fault call).Machines o m m') : SameFrames m m' :=
  ⟨Bodies.eq_of_corresponds h.frames, h.captured, h.anonymous⟩

end

end Comparison

end Scriptlet
