import Scriptlet.Proofs.Conduct
/-!
# What evaluation does to frames

Evaluation gives the stack back as it found it, writes into the innermost frame alone, and never
touches a frame that has left the stack. All three follow from the journal of the evaluation, which
is a balanced history of the store.
-/

namespace Scriptlet

/-- The stack is given back, and what was entered in between was left again: at every moment the
first stack was at the bottom, under frames that are new. -/
structure StackKept (m m' : Machine) : Prop where
  stack : m'.store.stack = m.store.stack
  history : ∃ es, m'.journal = es.reverse ++ m.journal ∧ m.store.Steps es m'.store ∧ Balanced es ∧
    ∀ fs s, fs <+: es → m.store.Steps fs s → m.store.Above s

theorem Journaled.stackKept {m m' : Machine} (h : Journaled m m') : StackKept m m' := by
  obtain ⟨es, journal, steps, balanced⟩ := h
  exact ⟨(steps.confined balanced).stack, es, journal, steps, balanced,
    fun _ _ before h => h.above balanced before⟩

theorem Journaled.confined {m m' : Machine} (h : Journaled m m') : m.store.Confined m'.store := by
  obtain ⟨_, _, steps, balanced⟩ := h
  exact steps.confined balanced

namespace Machine

theorem journaled_exec (limits : Limits) (t : Tree) (m : Machine) :
    Journaled m (m.exec limits t).2 := by
  rw [exec]
  rw [Eval.outcome_snd]
  exact (evaluator_tells limits.rounds limits.depth).stmt t m

theorem journaled_eval (limits : Limits) (t : Tree) (m : Machine) :
    Journaled m (m.eval limits t).2 := by
  rw [eval]
  rw [Eval.outcome_snd]
  exact (evaluator_tells limits.rounds limits.depth).expr t m

theorem journaled_run (limits : Limits) (src : String) (m : Machine) :
    Journaled m (m.run limits src).2 := by
  have begun : Journaled m (m.record (.fragment src)) := .of_step .fragment rfl rfl
  simp only [run]
  split
  · exact begun.trans (.of_step .rejected rfl rfl)
  · split
    · exact begun
    · exact begun.trans (journaled_exec limits _ _)

/-- Machines on which fragments were run one after another, whether or not they failed, from a fresh
store on; anonymous names may have been given before. -/
inductive Session : Machine → Prop
  | fresh (anonymous : Nat) : Session { anonymous }
  | run {m : Machine} (limits : Limits) (src : String) : Session m → Session (m.run limits src).2

/-- All that happens to the store in a session stands in the journal. -/
theorem Session.history {m : Machine} (h : m.Session) :
    Store.fresh.Steps m.journal.reverse m.store := by
  induction h with
  | fresh => exact .refl
  | @run m limits src _ ih =>
    obtain ⟨es, journal, steps, _⟩ := journaled_run limits src m
    rw [journal, List.reverse_append, List.reverse_reverse]
    exact ih.append steps

theorem Session.wellFormed {m : Machine} (h : m.Session) : m.store.WellFormed :=
  h.history.wellFormed Store.fresh_wellFormed

end Machine

/-- Every evaluation, however it ends, gives the stack back. -/
theorem evaluation_keeps_stack (limits : Limits) (t : Tree) (m : Machine) :
    StackKept m (m.exec limits t).2 ∧ StackKept m (m.eval limits t).2 :=
  ⟨(m.journaled_exec limits t).stackKept, (m.journaled_eval limits t).stackKept⟩

/-- Every evaluation writes into the innermost frame alone. In a session a frame that has left the
stack is never modified again, and closures read it as it was left. -/
theorem writes_confined {m : Machine} (session : m.Session) :
    (∀ (limits : Limits) (t : Tree) (n : Machine),
      n.store.Confined (n.exec limits t).2.store ∧ n.store.Confined (n.eval limits t).2.store) ∧
    Store.fresh.Steps m.journal.reverse m.store ∧
    ∀ es₁ es₂ s₁ s₂, es₁ ++ es₂ <+: m.journal.reverse → Store.fresh.Steps es₁ s₁ →
      s₁.Steps es₂ s₂ → s₁.LeftBehind s₂ := by
  refine ⟨fun limits t n => ?_, session.history, fun es₁ es₂ s₁ s₂ _ h₁ h₂ => ?_⟩
  · exact ⟨(n.journaled_exec limits t).confined, (n.journaled_eval limits t).confined⟩
  · exact h₂.leftBehind (h₁.wellFormed Store.fresh_wellFormed)

/-- A function that hands out a closure over its parameter, and a call of it. -/
private def keeping : Machine :=
  (Machine.fresh.run .standard
    "function f(a) \x7b return function () \x7b return a; \x7d; \x7d var g = f(1);").2

/-- A global name like the parameter, and a call of the closure. -/
private def reading : Machine := (keeping.run .standard "a = 2; var b = g();").2

/-- The frame of the first call has left the stack and is captured by the closure's scope; the
second fragment leaves it behind. -/
theorem writes_confined_reading :
    reading.Session ∧ keeping.store.LeftBehind reading.store ∧
      keeping.store.captured[2]? = some (some 1) ∧ 1 < keeping.store.frames.size ∧
      1 ∉ keeping.store.stack ∧ reading.store.frames.size = 3 := by
  have first : keeping.Session := .run .standard _ (.fresh 0)
  have second : reading.Session := .run .standard _ first
  obtain ⟨es, journal, steps, _⟩ := keeping.journaled_run .standard "a = 2; var b = g();"
  obtain ⟨_, _, left⟩ := writes_confined second
  have all : keeping.journal.reverse ++ es = reading.journal.reverse := by
    rw [reading, journal, List.reverse_append, List.reverse_reverse]
  refine ⟨second, left _ es _ _ (all ▸ List.prefix_refl _) first.history steps, ?_⟩
  decide +kernel

end Scriptlet
