import Scriptlet.Fragment
import Scriptlet.Proofs.Congruence
import Scriptlet.Proofs.History
/-!
# Evaluation is what its journal says

Whatever an action of the evaluator does to the store stands in the journal, and its scopes are
balanced (`Journaled`). The primitive actions have this property, the ways to combine them keep it,
and a call has it as a whole, since it leaves the scope that it enters on every ending of the body.
Nothing is assumed of the trees, the store or the limits.
-/

namespace Scriptlet

/-- From `m` to `m'` the journal grows by a balanced history of the store. -/
def Journaled (m m' : Machine) : Prop :=
  ∃ es, m'.journal = es.reverse ++ m.journal ∧ m.store.Steps es m'.store ∧ Balanced es

theorem Journaled.refl (m : Machine) : Journaled m m := ⟨[], rfl, .refl, .nil⟩

theorem Journaled.trans {m m₁ m' : Machine} (h : Journaled m m₁) (h' : Journaled m₁ m') :
    Journaled m m' := by
  obtain ⟨es, journal, steps, balanced⟩ := h
  obtain ⟨fs, journal', steps', balanced'⟩ := h'
  exact ⟨es ++ fs, by simp [journal, journal'], steps.append steps', balanced.append balanced'⟩

/-- An entry that is a step of the store by itself. -/
theorem Journaled.of_step {m m' : Machine} {e : Event} (h : m.store.Step e m'.store)
    (he : e.isQuiet) (journal : m'.journal = e :: m.journal) : Journaled m m' :=
  ⟨[e], journal, h.single, .quiet he .nil⟩

namespace Eval

variable {α β : Type}

/-- The machine that an action leaves behind. -/
def after (x : Eval α) (m : Machine) : Machine :=
  match x m with
  | .ok _ m => m
  | .error _ m => m

theorem outcome_snd (x : Eval α) (m : Machine) : (x.outcome m).2 = x.after m := by
  rw [outcome, after]
  cases x m <;> rfl

/-- An action whose effect on the store stands in the journal, however it ends. -/
def Tells (x : Eval α) : Prop := ∀ m, Journaled m (x.after m)

theorem Tells.pure (a : α) : Tells (Pure.pure a : Eval α) := fun m => .refl m

theorem Tells.throw (stop : Stop) : Tells (MonadExcept.throw stop : Eval α) := fun m => .refl m

theorem Tells.fail (f : Fault) : Tells (Eval.fail f : Eval α) := .throw _

theorem Tells.bind {x : Eval α} {f : α → Eval β} (hx : Tells x) (hf : ∀ a, Tells (f a)) :
    Tells (x >>= f) := by
  intro m
  have first := hx m
  simp only [after, Bind.bind, EStateM.bind] at first ⊢
  cases h : x m with
  | ok a m₁ =>
    rw [h] at first
    exact first.trans (hf a m₁)
  | error stop m₁ =>
    rw [h] at first
    exact first

theorem after_located (place : Option Place) (x : Eval α) (m : Machine) :
    (x.located place).after m = x.after m := by
  simp only [after, located]
  rcases x m with ⟨a, m'⟩ | ⟨stop, m'⟩
  · rfl
  · rcases stop with ⟨f, _ | p⟩ | _ | _ <;> rfl

theorem eq_ok_of_located {place : Option Place} {x : Eval α} {m m' : Machine} {a : α}
    (h : x.located place m = .ok a m') : x m = .ok a m' := by
  rw [located] at h
  split at h
  · cases h
  · exact h

theorem Tells.located {x : Eval α} (hx : Tells x) (place : Option Place) :
    Tells (x.located place) := by
  intro m
  rw [after_located]
  exact hx m

/-! ## Requests to the store -/

theorem tells_record {e : Event} (he : e.isQuiet) (still : ∀ s : Store, s.Step e s) :
    Tells (record e) := by
  intro m
  exact .of_step (still m.store) he rfl

theorem tells_alloc (name : String) (d : Datum) : Tells (alloc name d) := by
  intro m
  simp only [after, alloc]
  cases h : m.store.alloc name d with
  | ok s => exact .of_step (.alloc h) rfl rfl
  | error f => exact .of_step (.allocRefused h) rfl rfl

theorem tells_count : Tells count := fun _ => ⟨[], rfl, .refl, .nil⟩

theorem tells_load? (name : String) : Tells (load? name) := by
  intro m
  exact .of_step (e := .load name) .load rfl rfl

theorem tells_reserve : Tells reserve := by
  intro m
  exact .of_step .reserve rfl rfl

/-- A frame that was entered can be left after any work that the journal tells. -/
theorem journaled_of_scope {m m₂ : Machine} {id : Int} {s : Store} (enter : m.store.push id = .ok s)
    (inside : Journaled { m.record (.push id (some s.depth)) with store := s } m₂) :
    ∃ s', m₂.store.pop = .ok s' ∧ Journaled m
      { m₂.record (.pop false (some (m₂.store.currentScope, s'.depth))) with store := s' } := by
  obtain ⟨es, journal, steps, balanced⟩ := inside
  have stack := (steps.confined balanced).stack
  obtain ⟨_, _, rfl⟩ := Store.push_eq_ok enter
  have below : m₂.store.below = m.store.top :: m.store.below := (List.cons.inj stack).2
  obtain ⟨s', leave⟩ : ∃ s', m₂.store.pop = .ok s' := by simp [Store.pop, below]
  refine ⟨s', leave, _, ?_, .next (.push enter) (steps.append (Store.Step.pop leave).single),
    .scope balanced .nil⟩
  simp [Machine.record, journal]

/-- Work in a scope that is left on every ending. -/
theorem tells_scope {x : Eval α} (hx : Tells x) {k : Except Stop α → Eval β}
    (hk : ∀ ending, Tells (k ending)) (id : Int) :
    Tells (do push id; let ending ← attempt x; pop false; k ending) := by
  intro m
  cases enter : m.store.push id with
  | error f =>
    have refused : Journaled m (m.record (.push id none)) := .of_step (.pushRefused enter) rfl rfl
    simpa [after, bind, EStateM.bind, push, enter] using refused
  | ok s =>
    have inside := hx { m.record (.push id (some s.depth)) with store := s }
    obtain ⟨s', leave, scope⟩ := journaled_of_scope enter inside
    simp only [after] at inside leave scope
    simp only [after, bind, EStateM.bind, push, enter, attempt, pop]
    cases h : x { m.record (.push id (some s.depth)) with store := s } with
    | ok a m₂ =>
      simp only [h] at leave scope
      simp only [leave]
      exact scope.trans (hk (.ok a) _)
    | error stop m₂ =>
      simp only [h] at leave scope
      simp only [leave]
      exact scope.trans (hk (.error stop) _)

end Eval

/-! ## Evaluations -/

/-- Actions whose effects stand in the journal. -/
def telling : Uniform Unit where
  rel x _ := x.Tells
  pure := .pure
  fail _ := .fail _
  unfinished := .throw _
  bind := .bind
  alloc := Eval.tells_alloc
  count := Eval.tells_count
  load? := Eval.tells_load?
  reserve := Eval.tells_reserve

theorem Eval.tells_bindParams (params : List String) (args : List Datum) :
    (bindParams params args).Tells :=
  telling.bindParams params args

theorem Eval.tells_makeFunction (name params body : Tree) :
    (makeFunction name params body).Tells :=
  telling.makeFunction name params body

/-- An evaluator all of whose effects stand in the journal. -/
structure Evaluator.Tells (inner : Evaluator) : Prop where
  expr : ∀ t, (inner.expr t).Tells
  stmt : ∀ t, (inner.stmt t).Tells

theorem Evaluator.Tells.call {inner : Evaluator} (h : inner.Tells) (f : Closure)
    (args : List Datum) : (inner.call f args).Tells := by
  refine (Eval.tells_record rfl fun _ => .call).bind fun _ => ?_
  refine Eval.tells_scope ((Eval.tells_bindParams f.params args).bind fun _ => h.stmt f.body) ?_
    f.scope
  intro ending
  cases ending with
  | ok c => exact .pure _
  | error stop =>
    cases stop with
    | tooDeep => exact .fail _
    | _ => exact .throw _

/-- Every evaluation, at any depth and of any tree, does to the store what the journal says. -/
theorem evaluator_tells (rounds depth : Nat) : (evaluator rounds depth).Tells := by
  induction depth with
  | zero => exact ⟨fun _ => .throw _, fun _ => .throw _⟩
  | succ depth ih =>
    have expr (t : Tree) : telling.rel ((evaluator rounds depth).expr t) fun _ =>
        (evaluator rounds depth).expr t := ih.expr t
    constructor
    · exact fun t => Eval.Tells.located (telling.exprStep expr ih.call t) t.place?
    · exact fun t => Eval.Tells.located (telling.stmtStep expr ih.stmt rounds t) t.place?

end Scriptlet
