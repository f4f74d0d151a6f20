import Scriptlet.Proofs.Congruence
import Scriptlet.Proofs.Laws
import Scriptlet.Proofs.Parallel
/-!
# Where a fault is

Evaluations are in progress inside one another, each of one tree: the parts of an expression, the
statements around it, the call that runs them, and whatever is around that call. A fault is placed
at the innermost of these trees that has a place, and stays there on its way out.

To say which trees are in progress when a fault is raised, an evaluation may be given its place by a
function that knows all of them. The evaluator itself is the one in which each evaluation has the
place of its own tree.
-/

namespace Scriptlet

/-- The evaluator in which `place` gives each evaluation its place, from the trees in progress, the
innermost one first. `around` are those in progress already. -/
def placingEvaluator (place : List Tree → Option Place) (rounds : Nat) :
    Nat → List Tree → Evaluator
  | 0, _ => .exhausted
  | depth + 1, around =>
    { expr := fun t => Eval.located (place (t :: around))
        ((placingEvaluator place rounds depth (t :: around)).exprStep t)
      stmt := fun t => Eval.located (place (t :: around))
        ((placingEvaluator place rounds depth (t :: around)).stmtStep rounds t) }

/-- The place of the innermost tree that is given one, if `around` are in progress around them. -/
def innermost (place : List Tree → Option Place) (around : List Tree) : List Tree → Option Place
  | [] => none
  | t :: ts => place (t :: ts ++ around) <|> innermost place around ts

theorem innermost_append_singleton (place : List Tree → Option Place) (around ts : List Tree)
    (t : Tree) : innermost place around (ts ++ [t]) =
      (innermost place (t :: around) ts <|> place (t :: around)) := by
  induction ts with
  | nil => simp [innermost]
  | cons u us ih => simp [innermost, ih, Option.or_assoc]

namespace Blame

variable {α β : Type} {around : List Tree}

/-- An ending, and the endings that there would be with other places. A fault was raised while the
trees of a trail were in progress within `around`, and is at the innermost of them. -/
def Blamed (around : List Tree) (trails : List Tree → Prop) (r : EStateM.Result Stop Machine α)
    (placing : (List Tree → Option Place) → EStateM.Result Stop Machine α) : Prop :=
  match r with
  | .error (.fault f p) m => ∃ trail, trails trail ∧ p = trail.findSome? Tree.place? ∧
      ∀ place, placing place = .error (.fault f (innermost place around trail)) m
  | r => ∀ place, placing place = r

/-! ## Steps -/

/-- What a step does may raise a fault by itself, or hand one on. -/
def Within (around : List Tree) (x : Eval α) (y : (List Tree → Option Place) → Eval α) : Prop :=
  ∀ m, Blamed around (fun _ => True) (x m) fun place => y place m

/-- A fault that is raised here has no place yet. -/
theorem blamed_fault (f : Fault) (m : Machine) :
    Blamed around (fun _ => True) (.error (.fault f none) m : EStateM.Result Stop Machine α)
      fun _ => .error (.fault f none) m :=
  ⟨[], trivial, rfl, fun _ => rfl⟩

theorem Within.bind {x : Eval α} {y : (List Tree → Option Place) → Eval α} {f : α → Eval β}
    {g : (List Tree → Option Place) → α → Eval β} (hx : Within around x y)
    (hf : ∀ a, Within around (f a) fun place => g place a) :
    Within around (x >>= f) fun place => y place >>= g place := by
  intro m
  have first := hx m
  simp only [Bind.bind, EStateM.bind]
  cases h : x m with
  | ok a m' =>
    rw [h] at first
    simp only [show ∀ place, y place m = .ok a m' from first]
    exact hf a m'
  | error stop m' =>
    rw [h] at first
    cases stop with
    | fault f p =>
      obtain ⟨trail, _, own, same⟩ := first
      exact ⟨trail, trivial, own, fun place => by simp only [same]⟩
    | tooDeep | unfinished =>
      exact fun place => by simp only [show ∀ place, y place m = _ from first]

theorem within_record (e : Event) : Within around (Eval.record e) fun _ => Eval.record e :=
  fun _ _ => rfl

theorem within_alloc (name : String) (d : Datum) :
    Within around (Eval.alloc name d) fun _ => Eval.alloc name d := by
  intro m
  simp only [Eval.alloc]
  cases m.store.alloc name d with
  | ok s => exact fun _ => rfl
  | error f => exact blamed_fault f _

theorem within_push (id : Int) : Within around (Eval.push id) fun _ => Eval.push id := by
  intro m
  simp only [Eval.push]
  cases m.store.push id with
  | ok s => exact fun _ => rfl
  | error f => exact blamed_fault f _

theorem within_pop (retain : Bool) : Within around (Eval.pop retain) fun _ => Eval.pop retain := by
  intro m
  simp only [Eval.pop]
  cases m.store.pop with
  | ok s => exact fun _ => rfl
  | error f => exact blamed_fault f _

/-- Trails are kept, whatever the trees and the data are. -/
def uniform (around : List Tree) : Uniform (List Tree → Option Place) where
  rel := Within around
  pure _ _ _ := rfl
  fail _ := blamed_fault _
  unfinished _ _ := rfl
  bind := .bind
  alloc := within_alloc
  count _ _ := rfl
  load? _ _ _ := rfl
  reserve _ _ := rfl

/-! ## Calls -/

/-- The end of a call hands on the fault of the body that it ran, and gives it no place. -/
theorem within_leaving {x : Eval Completion} {y : (List Tree → Option Place) → Eval Completion}
    (hx : Within around x y) :
    Within around
      (do let ending ← Eval.attempt x; Eval.pop false; Evaluator.callEnding ending)
      fun place => (do
        let ending ← Eval.attempt (y place)
        Eval.pop false
        Evaluator.callEnding ending) := by
  intro m
  have worked := hx m
  have left (m' : Machine) {ending : Eval Datum}
      {ending' : (List Tree → Option Place) → Eval Datum} (h : Within around ending ending') :
      Blamed around (fun _ => True) ((Eval.pop false >>= fun _ => ending) m')
        fun place => (Eval.pop false >>= fun _ => ending' place) m' :=
    ((within_pop false).bind fun _ => h) m'
  simp only [Bind.bind, EStateM.bind, Eval.attempt] at left ⊢
  cases h : x m with
  | ok c m' =>
    rw [h] at worked
    simp only [show ∀ place, y place m = .ok c m' from worked]
    exact left m' fun _ _ => rfl
  | error stop m' =>
    rw [h] at worked
    cases stop with
    | fault f p =>
      obtain ⟨trail, _, own, same⟩ := worked
      simp only [same]
      exact left m' fun _ => ⟨trail, trivial, own, fun _ => rfl⟩
    | tooDeep =>
      simp only [show ∀ place, y place m = .error .tooDeep m' from worked]
      exact left m' fun m => blamed_fault .callsTooDeep m
    | unfinished =>
      simp only [show ∀ place, y place m = .error .unfinished m' from worked]
      exact left m' fun _ _ => rfl

variable {inner : Evaluator} {inner' : (List Tree → Option Place) → Evaluator}

theorem within_call (hs : ∀ t, Within around (inner.stmt t) fun place => (inner' place).stmt t)
    (f : Closure) (args : List Datum) :
    Within around (inner.call f args) fun place => (inner' place).call f args := by
  simp only [Evaluator.call_eq]
  apply (within_record _).bind
  intro _
  apply (within_push _).bind
  intro _
  apply within_leaving
  exact (uniform around).bind ((uniform around).bindParams f.params args) fun _ => hs f.body

/-! ## Evaluations -/

/-- The evaluation of a tree is in progress until its fault leaves it. -/
def Evaluation (around : List Tree) (t : Tree) (x : Eval α)
    (y : (List Tree → Option Place) → Eval α) : Prop :=
  ∀ m, Blamed around (fun trail => trail.getLast? = some t) (x m) fun place => y place m

theorem Evaluation.within {t : Tree} {x : Eval α} {y : (List Tree → Option Place) → Eval α}
    (h : Evaluation around t x y) : Within around x y := by
  intro m
  have ended := h m
  generalize x m = r at ended ⊢
  rcases r with ⟨a, m'⟩ | ⟨⟨f, p⟩ | _ | _, m'⟩
  · exact ended
  · obtain ⟨trail, _, own, same⟩ := ended
    exact ⟨trail, trivial, own, same⟩
  · exact ended
  · exact ended

theorem located_fault (place : Option Place) {x : Eval α} {f : Fault} {p : Option Place}
    {m m' : Machine} (h : x m = .error (.fault f p) m') :
    Eval.located place x m = .error (.fault f (p <|> place)) m' := by
  simp only [Eval.located, h]
  cases p <;> rfl

/-- A fault that leaves an evaluation gets the place of its tree if it has none. -/
theorem Within.located {t : Tree} {x : Eval α} {y : (List Tree → Option Place) → Eval α}
    (h : Within (t :: around) x y) :
    Evaluation around t (Eval.located t.place? x) fun place =>
      Eval.located (place (t :: around)) (y place) := by
  intro m
  have ended := h m
  cases hx : x m with
  | ok a m' =>
    rw [hx] at ended
    simp only [Eval.located, hx, show ∀ place, y place m = .ok a m' from ended]
    exact fun _ => rfl
  | error stop m' =>
    rw [hx] at ended
    cases stop with
    | fault f p =>
      obtain ⟨trail, _, rfl, same⟩ := ended
      rw [located_fault _ hx]
      refine ⟨trail ++ [t], by simp, by simp, fun place => ?_⟩
      rw [innermost_append_singleton]
      exact located_fault (place (t :: around)) (same place)
    | tooDeep =>
      simp only [Eval.located, hx, show ∀ place, y place m = .error .tooDeep m' from ended]
      exact fun _ => rfl
    | unfinished =>
      simp only [Eval.located, hx, show ∀ place, y place m = .error .unfinished m' from ended]
      exact fun _ => rfl

/-- Nested evaluations have more trees around them. -/
theorem evaluation (rounds depth : Nat) (around : List Tree) (t : Tree) :
    (Evaluation around t ((evaluator rounds depth).expr t) fun place =>
      (placingEvaluator place rounds depth around).expr t) ∧
    Evaluation around t ((evaluator rounds depth).stmt t) fun place =>
      (placingEvaluator place rounds depth around).stmt t := by
  induction depth generalizing around t with
  | zero => exact ⟨fun _ _ => rfl, fun _ _ => rfl⟩
  | succ depth ih =>
    let U := uniform (t :: around)
    have expr (u : Tree) : U.rel ((evaluator rounds depth).expr u) fun place =>
        (placingEvaluator place rounds depth (t :: around)).expr u := (ih (t :: around) u).1.within
    have stmt (u : Tree) : U.rel ((evaluator rounds depth).stmt u) fun place =>
        (placingEvaluator place rounds depth (t :: around)).stmt u := (ih (t :: around) u).2.within
    constructor
    · exact Within.located (U.exprStep expr (within_call stmt) t)
    · exact Within.located (U.stmtStep expr stmt rounds t)

end Blame

/-- The evaluator is the one that gives each evaluation the place of its own tree. -/
theorem placingEvaluator_own (rounds depth : Nat) (around : List Tree) :
    placingEvaluator (fun trees => trees.head?.bind Tree.place?) rounds depth around =
      evaluator rounds depth := by
  induction depth generalizing around with
  | zero => rfl
  | succ depth ih =>
    simp only [placingEvaluator, ih]
    rfl

/-- The fault was raised while the trees of the trail were in progress, the innermost one first. -/
structure RaisedWithin {α : Type} (trail : List Tree) (f : Fault) (p : Option Place) (m : Machine)
    (placing : (List Tree → Option Place) → EStateM.Result Stop Machine α) : Prop where
  /-- If every evaluation marks the faults that it raises with the trees in progress, this one bears
  the mark of the trail. -/
  marked : ∀ mark : List Tree → Place,
    placing (fun trees => some (mark trees)) = .error (.fault f (some (mark trail))) m
  /-- It is at the innermost tree that has a place. -/
  place : p = trail.findSome? Tree.place?
  /-- Whatever places the evaluations in progress have, none of them takes it from the place that
  one further in gave it. -/
  kept : ∀ place, placing place = .error (.fault f (innermost place [] trail)) m

theorem Blame.Evaluation.raisedWithin {α : Type} {t : Tree} {x : Eval α}
    {y : (List Tree → Option Place) → Eval α} (h : Evaluation [] t x y) {f : Fault}
    {p : Option Place} {m m' : Machine} (failed : x m = .error (.fault f p) m') :
    ∃ trail, trail.getLast? = some t ∧ RaisedWithin trail f p m' fun place => y place m := by
  have blamed := h m
  rw [failed] at blamed
  obtain ⟨trail, last, own, same⟩ := blamed
  refine ⟨trail, last, ?_, own, same⟩
  intro mark
  cases trail with
  | nil => cases last
  | cons u us =>
    have here := same fun trees => some (mark trees)
    simpa [innermost] using here

/-- A fault is at the innermost of the trees in progress when it was raised that has a place, and
has no place if none of them has one. -/
theorem faults_at_innermost (rounds depth : Nat) (t : Tree) (m : Machine) :
    placingEvaluator (fun trees => trees.head?.bind Tree.place?) rounds depth [] =
      evaluator rounds depth ∧
    (∀ f p m', (evaluator rounds depth).expr t m = .error (.fault f p) m' →
      ∃ trail, trail.getLast? = some t ∧ RaisedWithin trail f p m' fun place =>
        (placingEvaluator place rounds depth []).expr t m) ∧
    ∀ f p m', (evaluator rounds depth).stmt t m = .error (.fault f p) m' →
      ∃ trail, trail.getLast? = some t ∧ RaisedWithin trail f p m' fun place =>
        (placingEvaluator place rounds depth []).stmt t m := by
  obtain ⟨expr, stmt⟩ := Blame.evaluation rounds depth [] t
  refine ⟨placingEvaluator_own rounds depth [], ?_, ?_⟩
  · intro f p m' failed
    exact expr.raisedWithin failed
  · intro f p m' failed
    exact stmt.raisedWithin failed

end Scriptlet
