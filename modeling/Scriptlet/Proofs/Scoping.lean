import Scriptlet.Proofs.Comparison
/-!
# Scoping is lexical

A call enters a new frame whose parent is the one that the function captured. From there on nothing
leads to the frames from which the call is made, so that two machines which differ in their stacks
alone run it in the same way.
-/

namespace Scriptlet

/-- How an action ends. -/
def Eval.ending {α : Type} (x : Eval α) (m : Machine) : Except Stop α :=
  match x m with
  | .ok a _ => .ok a
  | .error stop _ => .error stop

/-- What is done in a new frame, and what comes of it. -/
theorem Eval.scope_eq {α β : Type} {x : Eval α} {k : Except Stop α → Eval β} {id : Int}
    {m : Machine} {s s' : Store} (enter : m.store.push id = .ok s) :
    let entered := { m.record (.push id (some s.depth)) with store := s }
    let m₂ := x.after entered
    m₂.store.pop = .ok s' →
    (do Eval.push id; let ending ← Eval.attempt x; Eval.pop false; k ending : Eval β) m =
      k (x.ending entered)
        { m₂.record (.pop false (some (m₂.store.currentScope, s'.depth))) with store := s' } := by
  intro entered m₂ leave
  simp only [Bind.bind, EStateM.bind, Eval.push, enter, Eval.attempt, Eval.pop, Eval.ending, m₂,
    entered, Eval.after] at leave ⊢
  cases h : x { m.record (.push id (some s.depth)) with store := s } with
  | ok a m₂ =>
    simp only [h] at leave
    simp only [leave]
  | error stop m₂ =>
    simp only [h] at leave
    simp only [leave]

/-- An entry without the depths, which only tell how high the stack is. -/
def Event.request : Event → Event
  | push id depth => push id (depth.map fun _ => 0)
  | pop retain left => pop retain (left.map fun (scope, _) => (scope, 0))
  | e => e

namespace Comparison

/-- Two runs of one tree, neither of which is excused. -/
def lockstep : Comparison := equal (fun _ => False) (fun _ never => never) fun never => never

section

variable {excused : Stop → Prop}
  {fault : ∀ {f p} (q : Option Place), excused (.fault f p) → excused (.fault f q)}
  {call : excused .tooDeep → excused (.fault .callsTooDeep none)}

theorem Entries.request {e e' : Event} (h : (equal excused fault call).Entries e e') :
    e.request = e'.request := by
  cases h with
  | alloc same => rw [same.eq]
  | call same => rw [same.eq]
  | _ => rfl

theorem Entries.requests {es es' : List Event}
    (h : List.Forall₂ (equal excused fault call).Entries es es') :
    es.map Event.request = es'.map Event.request := by
  induction h with
  | nil => rfl
  | cons same _ ih => rw [List.map_cons, List.map_cons, same.request, ih]

end

end Comparison

open Comparison

/-- A call does not depend on where it is made from: it ends in the same way, makes the same
requests in the same order, and adds the same frames and scopes, whatever the stack is, and it gives
the stack back. -/
theorem call_independent_of_caller {m m' : Machine} (h : SameFrames m m') (rounds depth : Nat)
    (f : Closure) (args : List Datum) :
    let call := (evaluator rounds depth).call f args
    call.ending m = call.ending m' ∧ SameFrames (call.after m) (call.after m') ∧
      (∃ es es', (call.after m).journal = es ++ m.journal ∧
        (call.after m').journal = es' ++ m'.journal ∧
        es.map Event.request = es'.map Event.request) ∧
      (call.after m).store.stack = m.store.stack ∧
      (call.after m').store.stack = m'.store.stack := by
  intro call
  have closure : lockstep.Closures f f := ⟨rfl, rfl, rfl, rfl⟩
  have data : List.Forall₂ lockstep.Data args args :=
    List.forall₂_same.mpr fun _ _ => .refl fun _ _ => rfl
  have ends : lockstep.Ends _ lockstep.Data (call m) (call m') :=
    (evaluators_refl lockstep rounds depth).ends_call closure data
      (.of_sameFrames (fun _ => rfl) h)
  have conclude {n n' : Machine}
      (machines : lockstep.Machines ⟨m.journal, m'.journal, m.store.stack, m'.store.stack⟩ n n') :
      SameFrames n n' ∧ (∃ es es', n.journal = es ++ m.journal ∧ n'.journal = es' ++ m'.journal ∧
        es.map Event.request = es'.map Event.request) ∧
      n.store.stack = m.store.stack ∧ n'.store.stack = m'.store.stack := by
    obtain ⟨es, es', entries, journal, journal'⟩ := machines.journal
    exact ⟨machines.sameFrames, ⟨es, es', journal, journal', Entries.requests entries⟩,
      machines.stack, machines.stack'⟩
  simp only [Eval.ending, Eval.after]
  generalize call m = r at ends ⊢
  generalize call m' = r' at ends ⊢
  cases ends with
  | ok same machines => exact ⟨congrArg _ same.eq, conclude machines⟩
  | error same machines => exact ⟨congrArg _ same.eq, conclude machines⟩
  | excused never => exact never.elim

/-- A function that hands out a closure over its variable, which hides a global one. -/
private def shadowed : Machine :=
  (Machine.fresh.run .standard
    "var x = true; function f() \x7b var x = null; return function () \x7b return x; \x7d; \x7d
     var g = f();").2

/-- The same machine while `f` is running. -/
private def shadowedInside : Machine :=
  { shadowed with store := { shadowed.store with top := 1, below := [0] } }

/-- The name means something else where the call is made, but not in the call. -/
theorem call_independent_of_caller_shadowed :
    (shadowed.store.load? "x").map (·.value) = some (.bool true) ∧
      (shadowedInside.store.load? "x").map (·.value) = some .null ∧
      ∃ g, (shadowed.store.load? "g").bind (·.function) = some g ∧
        ((evaluator 10 10).call g []).ending shadowed =
          ((evaluator 10 10).call g []).ending shadowedInside := by
  have same : SameFrames shadowed shadowedInside := ⟨rfl, rfl, rfl⟩
  have found : ((shadowed.store.load? "g").bind (·.function)).isSome := by decide +kernel
  obtain ⟨g, hg⟩ := Option.isSome_iff_exists.mp found
  refine ⟨by decide +kernel, by decide +kernel, g, hg, ?_⟩
  exact (call_independent_of_caller same 10 10 g []).1

end Scriptlet
