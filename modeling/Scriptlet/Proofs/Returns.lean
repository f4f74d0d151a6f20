import Scriptlet.Proofs.Comparison
/-!
# A return is a jump

The evaluator threads what a statement returns through everything around the statement. Here is the
same language with a `return` that jumps: it abandons all that remains up to the nearest call, and
no other statement knows of it. Both run alike, step by step, also for one who watches every step.
-/

namespace Scriptlet

/-- Why a statement is abandoned. -/
inductive Jump
  | stop (s : Stop)
  | returned (d : Datum)

abbrev Escape := EStateM Jump Machine

namespace Escape

variable {α : Type}

/-- Expressions and requests never jump out of a function. -/
def lift (x : Eval α) : Escape α := fun m =>
  match x m with
  | .ok a m => .ok a m
  | .error s m => .error (.stop s) m

instance : MonadLift Eval Escape := ⟨lift⟩

def attempt (x : Escape α) : Eval (Except Jump α) := fun m =>
  match x m with
  | .ok a m => .ok (.ok a) m
  | .error j m => .ok (.error j) m

def located (place : Option Place) (x : Escape α) : Escape α := fun m =>
  match x m with
  | .error (.stop (.fault f none)) m => .error (.stop (.fault f place)) m
  | r => r

end Escape

/-! ## The language with jumps -/

/-- Runs expressions and statements; a statement gives its datum unless it is abandoned. -/
structure Jumper where
  expr : Tree → Eval Datum
  stmt : Tree → Escape Datum

namespace Jumper

open Eval

/-- Runs a function. Here a return ends. -/
def call (inner : Jumper) (f : Closure) (args : List Datum) : Eval Datum := do
  record (.call f args.length)
  push f.scope
  let ending ← Escape.attempt do
    bindParams f.params args
    inner.stmt f.body
  pop false
  match ending with
  | .ok _ => return .undefined
  | .error (.returned d) => return d
  | .error (.stop .tooDeep) => fail .callsTooDeep
  | .error (.stop stop) => throw stop

def application (inner : Jumper) (function args : Tree) : Eval Datum := do
  let d ← inner.expr function
  let values ← args.children.mapM inner.expr
  let f ← callee function d
  inner.call f values

/-- An expression. Only calls run statements. -/
def exprStep (inner : Jumper) : Tree → Eval Datum
  | .node .call _ children => two .call children inner.application
  | t => Evaluator.exprStep ⟨inner.expr, Evaluator.exhausted.stmt⟩ t

def store (inner : Jumper) (role : IdentifierRole) (target value : Tree) : Escape Datum := do
  let name ← identifier role target
  let d ← inner.expr value
  alloc name d
  return d

def test (inner : Jumper) (e : Tree) : Eval Bool := do
  let d ← inner.expr e
  return d.value.truth

def branch (inner : Jumper) (condition body other : Tree) : Escape Datum := do
  if ← inner.test condition then inner.stmt body
  else match other with
    | .missing => return .undefined
    | other => inner.stmt other

def loop (inner : Jumper) (condition body : Tree) : Nat → Escape Datum
  | 0 => throw (.stop .unfinished)
  | rounds + 1 => do
    if ← inner.test condition then
      let _ ← inner.stmt body
      inner.loop condition body rounds
    else return .undefined

def sequence (inner : Jumper) (first : Tree) : Tree → Escape Datum
  | .node .seq _ [next, rest] => do
    let _ ← inner.stmt first
    inner.sequence next rest
  | .node .seq _ _ => do
    let _ ← inner.stmt first
    (fail (.malformedNode Label.seq.name) : Eval Datum)
  | last => do
    let _ ← inner.stmt first
    inner.stmt last

/-- What is wrong with a tree that is no statement. -/
def misfit : Tree → Fault
  | .node label _ _ =>
    if label ∈ [.decl, .assign, .bareExpr, .conditional, .loop, .ret, .seq] then
      .malformedNode label.name
    else .unsupported label.name
  | t => .notStatement t.kindName

/-- A statement. -/
def stmtStep (inner : Jumper) (rounds : Nat) : Tree → Escape Datum
  | .node .decl _ [target, value] => inner.store .declaration target value
  | .node .assign _ [target, value] => inner.store .target target value
  | .node .bareExpr _ (e :: _) => inner.expr e
  | .node .empty _ _ => return .undefined
  | .node .conditional _ [condition, body, other] => inner.branch condition body other
  | .node .loop _ [condition, body] => inner.loop condition body rounds
  | .node .ret _ [e] => do
    let d ← inner.expr e
    throw (.returned d)
  | .node .seq _ [first, rest] => inner.sequence first rest
  | t => (fail (misfit t) : Eval Datum)

end Jumper

/-- The language with jumps, with the limits of an evaluator. Every step is shown to `watch` before
it is taken. -/
def jumper (watch : Tree → Eval Unit) (rounds : Nat) : Nat → Jumper
  | 0 => ⟨fun _ => throw .tooDeep, fun _ => throw (.stop .tooDeep)⟩
  | depth + 1 =>
    let inner := jumper watch rounds depth
    { expr := fun t => Eval.located t.place? do
        watch t
        inner.exprStep t
      stmt := fun t => Escape.located t.place? do
        watch t
        inner.stmtStep rounds t }

/-- The evaluator, with every step shown to `watch` before it is taken. -/
def watchedEvaluator (watch : Tree → Eval Unit) (rounds : Nat) : Nat → Evaluator
  | 0 => .exhausted
  | depth + 1 =>
    let inner := watchedEvaluator watch rounds depth
    { expr := fun t => Eval.located t.place? do
        watch t
        inner.exprStep t
      stmt := fun t => Eval.located t.place? do
        watch t
        inner.stmtStep rounds t }

theorem watchedEvaluator_unwatched (rounds depth : Nat) :
    watchedEvaluator (fun _ => pure ()) rounds depth = evaluator rounds depth := by
  induction depth with
  | zero => rfl
  | succ depth ih =>
    rw [watchedEvaluator, evaluator, ih]
    rfl

/-! ## Both compared -/

/-- A statement that threads what it returns ends like one that jumps. -/
inductive Threads :
    EStateM.Result Stop Machine Completion → EStateM.Result Jump Machine Datum → Prop
  | ended {d m} : Threads (.ok ⟨d, none⟩ m) (.ok d m)
  /-- Of the datum of a statement that returns nothing is said. -/
  | returned {d d' m} : Threads (.ok ⟨d', some d⟩ m) (.error (.returned d) m)
  | stopped {s m} : Threads (.error s m) (.error (.stop s) m)

/-- An evaluator whose statements thread what they return, and the same language with jumps. -/
structure Evaluator.Follows (inner : Evaluator) (jumper : Jumper) : Prop where
  expr : inner.expr = jumper.expr
  stmt : ∀ t m, Threads (inner.stmt t m) (jumper.stmt t m)

variable {α : Type}

theorem threads_throw (s : Stop) (m : Machine) :
    Threads ((throw s : Eval Completion) m) ((throw (.stop s) : Escape Datum) m) := .stopped

theorem threads_fail (f : Fault) (m : Machine) :
    Threads (Eval.fail f m) (Escape.lift (Eval.fail f) m) := .stopped

theorem threads_pure (d : Datum) (m : Machine) :
    Threads ((pure ⟨d, none⟩ : Eval Completion) m) ((pure d : Escape Datum) m) := .ended

/-- Something that cannot return comes first. -/
theorem threads_lift (x : Eval α) {f : α → Eval Completion} {g : α → Escape Datum}
    (h : ∀ a m, Threads (f a m) (g a m)) (m : Machine) :
    Threads ((x >>= f) m) ((Escape.lift x >>= g) m) := by
  simp only [Bind.bind, EStateM.bind, Escape.lift]
  cases x m with
  | ok a m => exact h a m
  | error s m => exact .stopped

/-- A statement comes first. What follows it hands on what it returns. -/
theorem threads_stmt {x : Eval Completion} {y : Escape Datum} {m : Machine}
    (h : Threads (x m) (y m)) {f : Completion → Eval Completion} {g : Datum → Escape Datum}
    (handsOn : ∀ d d' m, ∃ d'', f ⟨d', some d⟩ m = .ok ⟨d'', some d⟩ m)
    (next : ∀ d m, Threads (f ⟨d, none⟩ m) (g d m)) :
    Threads ((x >>= f) m) ((y >>= g) m) := by
  simp only [Bind.bind, EStateM.bind]
  generalize x m = r at h ⊢
  generalize y m = r' at h ⊢
  cases h with
  | ended => exact next _ _
  | @returned d d' m =>
    obtain ⟨d'', same⟩ := handsOn d d' m
    simp only [same]
    exact .returned
  | stopped => exact .stopped

theorem threads_located {x : Eval Completion} {y : Escape Datum} {m : Machine}
    (h : Threads (x m) (y m)) (place : Option Place) :
    Threads (Eval.located place x m) (Escape.located place y m) := by
  simp only [Eval.located, Escape.located]
  generalize x m = r at h ⊢
  generalize y m = r' at h ⊢
  cases h with
  | ended => exact .ended
  | returned => exact .returned
  | @stopped s m => rcases s with ⟨f, _ | p⟩ | _ | _ <;> exact .stopped

/-- Where a return ends. -/
theorem threads_attempt {x : Eval Completion} {y : Escape Datum} (h : ∀ m, Threads (x m) (y m))
    {k : Except Stop Completion → Eval α} {k' : Except Jump Datum → Eval α}
    (ended : ∀ d, k (.ok ⟨d, none⟩) = k' (.ok d))
    (returned : ∀ d d', k (.ok ⟨d', some d⟩) = k' (.error (.returned d)))
    (stopped : ∀ s, k (.error s) = k' (.error (.stop s))) :
    (Eval.attempt x >>= k) = (Escape.attempt y >>= k') := by
  funext m
  have here := h m
  simp only [Bind.bind, EStateM.bind, Eval.attempt, Escape.attempt]
  generalize x m = r at here ⊢
  generalize y m = r' at here ⊢
  cases here with
  | ended => exact congrFun (ended _) _
  | returned => exact congrFun (returned _ _) _
  | stopped => exact congrFun (stopped _) _

namespace Evaluator

variable {inner : Evaluator} {jumper : Jumper}

theorem Follows.call (h : inner.Follows jumper) (f : Closure) (args : List Datum) :
    inner.call f args = jumper.call f args := by
  have body : ∀ m, Threads ((do bindParams f.params args; inner.stmt f.body) m)
      ((do bindParams f.params args; jumper.stmt f.body : Escape Datum) m) :=
    threads_lift _ fun _ => h.stmt f.body
  rw [call_eq, Jumper.call]
  refine congrArg (Eval.record _ >>= ·) (funext fun _ => ?_)
  refine congrArg (Eval.push _ >>= ·) (funext fun _ => ?_)
  refine threads_attempt body (fun _ => rfl) (fun _ _ => rfl) fun s => ?_
  cases s <;> rfl

theorem Follows.application (h : inner.Follows jumper) (function args : Tree) :
    inner.application function args = jumper.application function args := by
  rw [Evaluator.application, Jumper.application, h.expr, funext fun f => funext (h.call f)]

/-- Expressions other than calls are the same whatever statements do. -/
theorem exprStep_of_expr {inner' : Evaluator} (h : inner.expr = inner'.expr) {t : Tree}
    (noCall : ∀ place children, t ≠ .node .call place children) :
    inner.exprStep t = inner'.exprStep t := by
  obtain ⟨expr, stmt⟩ := inner
  obtain ⟨expr', stmt'⟩ := inner'
  obtain rfl : expr = expr' := h
  cases t with
  | node label place children =>
    cases label with
    | call => exact absurd rfl (noCall place children)
    | _ => rfl
  | _ => rfl

theorem Follows.exprStep (h : inner.Follows jumper) (t : Tree) :
    inner.exprStep t = jumper.exprStep t := by
  have other (noCall : ∀ place children, t ≠ .node .call place children) :
      inner.exprStep t = Evaluator.exprStep ⟨jumper.expr, exhausted.stmt⟩ t :=
    exprStep_of_expr h.expr noCall
  cases t with
  | node label place children =>
    cases label with
    | call =>
      have same : inner.application = jumper.application :=
        funext fun function => funext (h.application function)
      rw [Evaluator.exprStep, Jumper.exprStep, same]
    | _ => exact other (by simp)
  | _ => exact other (by simp)

theorem Follows.store (h : inner.Follows jumper) (role : IdentifierRole) (target value : Tree)
    (m : Machine) :
    Threads (inner.store role target value m) (jumper.store role target value m) := by
  rw [Evaluator.store, Jumper.store, h.expr]
  refine threads_lift _ (fun name => threads_lift _ fun d => ?_) m
  exact threads_lift _ fun _ => threads_pure d

theorem Follows.test (h : inner.Follows jumper) (e : Tree) : inner.test e = jumper.test e := by
  rw [Evaluator.test, Jumper.test, h.expr]

theorem Follows.branch (h : inner.Follows jumper) (condition body other : Tree) (m : Machine) :
    Threads (inner.branch condition body other m) (jumper.branch condition body other m) := by
  have otherwise : ∀ m, Threads
      ((match other with
        | .missing => return .undefined
        | other => inner.stmt other : Eval Completion) m)
      ((match other with
        | .missing => return .undefined
        | other => jumper.stmt other : Escape Datum) m) := by
    intro m
    cases other with
    | missing => exact .ended
    | _ => exact h.stmt _ m
  unfold Evaluator.branch Jumper.branch
  rw [h.test]
  refine threads_lift _ (fun yes m => ?_) m
  cases yes with
  | true => exact h.stmt body m
  | false => exact otherwise m

theorem Follows.loop (h : inner.Follows jumper) (condition body : Tree) (rounds : Nat)
    (m : Machine) :
    Threads (repeatWhile (inner.test condition) (inner.stmt body) rounds m)
      (jumper.loop condition body rounds m) := by
  induction rounds generalizing m with
  | zero => exact threads_throw .unfinished m
  | succ rounds ih =>
    rw [repeatWhile, Jumper.loop, ← h.test]
    refine threads_lift _ (fun yes m => ?_) m
    cases yes with
    | true => exact threads_stmt (h.stmt body m) (fun d _ m => ⟨.undefined, rfl⟩) fun _ m => ih m
    | false => exact .ended

/-- One statement of a list, and what follows. -/
theorem Follows.stmtThen (h : inner.Follows jumper) (t : Tree) {rest : Eval Completion}
    {rest' : Escape Datum} (hr : ∀ m, Threads (rest m) (rest' m)) (m : Machine) :
    Threads
      ((do
        let c ← inner.stmt t
        if c.returned.isSome then return c else rest) m)
      ((do
        let _ ← jumper.stmt t
        rest') m) :=
  threads_stmt (h.stmt t m) (fun _ d' _ => ⟨d', rfl⟩) fun _ m => hr m

theorem Follows.sequence (h : inner.Follows jumper) (first rest : Tree) (m : Machine) :
    Threads (inner.sequence first rest m) (jumper.sequence first rest m) := by
  fun_induction Evaluator.sequence inner first rest generalizing m with
  | case1 first _ next rest ih => exact h.stmtThen first ih m
  | case2 first place children malformed =>
    rw [Jumper.sequence]
    · exact h.stmtThen first (threads_fail _) m
    · exact malformed
  | case3 first last notList noSeq =>
    rw [Jumper.sequence]
    · exact h.stmtThen first (h.stmt last) m
    · exact notList
    · exact noSeq

theorem Follows.bare (h : inner.Follows jumper) (e : Tree) (m : Machine) :
    Threads (inner.bare e m) (Escape.lift (jumper.expr e) m) := by
  rw [Evaluator.bare, h.expr]
  simp only [Bind.bind, EStateM.bind, Escape.lift]
  cases jumper.expr e m with
  | ok d m => exact .ended
  | error s m => exact .stopped

theorem Follows.returning (h : inner.Follows jumper) (e : Tree) (m : Machine) :
    Threads (inner.returning e m)
      ((do let d ← jumper.expr e; throw (.returned d) : Escape Datum) m) := by
  rw [Evaluator.returning, h.expr]
  exact threads_lift _ (fun _ _ => .returned) m

theorem Follows.stmtStep (h : inner.Follows jumper) (rounds : Nat) (t : Tree) (m : Machine) :
    Threads (inner.stmtStep rounds t m) (jumper.stmtStep rounds t m) := by
  cases t with
  | node label place children =>
    -- A node with too few or too many children fails on both sides.
    cases label with
    | decl | assign =>
      rcases children with _ | ⟨a, _ | ⟨b, _ | _⟩⟩ <;>
        first | exact threads_fail _ m | exact h.store _ a b m
    | bareExpr =>
      rcases children with _ | ⟨e, _⟩
      · exact threads_fail _ m
      · exact h.bare e m
    | empty => exact .ended
    | conditional =>
      rcases children with _ | ⟨a, _ | ⟨b, _ | ⟨c, _ | _⟩⟩⟩ <;>
        first | exact threads_fail _ m | exact h.branch a b c m
    | loop =>
      rcases children with _ | ⟨a, _ | ⟨b, _ | _⟩⟩ <;>
        first | exact threads_fail _ m | exact h.loop a b rounds m
    | ret =>
      rcases children with _ | ⟨e, _ | _⟩ <;>
        first | exact threads_fail _ m | exact h.returning e m
    | seq =>
      rcases children with _ | ⟨a, _ | ⟨b, _ | _⟩⟩ <;>
        first | exact threads_fail _ m | exact h.sequence a b m
    | _ => exact threads_fail _ m
  | _ => exact threads_fail _ m

end Evaluator

theorem watchedEvaluator_follows (watch : Tree → Eval Unit) (rounds depth : Nat) :
    (watchedEvaluator watch rounds depth).Follows (jumper watch rounds depth) := by
  induction depth with
  | zero => exact ⟨rfl, fun _ _ => .stopped⟩
  | succ depth ih =>
    constructor
    · funext t
      simp only [watchedEvaluator, jumper, ih.exprStep]
    · intro t m
      refine threads_located ?_ t.place?
      exact threads_lift (watch t) (fun _ => ih.stmtStep rounds t) m

/-- Threading what is returned is the same as jumping. However deep an evaluation may go, a
statement ends, stops or returns in both, with the same datum and the same machine, and an
expression has the same outcome; that nothing is run any more once a return was reached shows in
what `watch` is shown. -/
theorem threading_is_jumping (watch : Tree → Eval Unit) (rounds depth : Nat) :
    (∀ t m, Threads ((watchedEvaluator watch rounds depth).stmt t m)
      ((jumper watch rounds depth).stmt t m)) ∧
    (watchedEvaluator watch rounds depth).expr = (jumper watch rounds depth).expr ∧
    watchedEvaluator (fun _ => pure ()) rounds depth = evaluator rounds depth :=
  ⟨(watchedEvaluator_follows watch rounds depth).stmt,
    (watchedEvaluator_follows watch rounds depth).expr, watchedEvaluator_unwatched rounds depth⟩

end Scriptlet
