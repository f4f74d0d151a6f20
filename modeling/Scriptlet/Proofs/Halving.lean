import Scriptlet.Proofs.Unrolling
/-!
# A list run by halves

A list is walked from the left, and all of its statements are run one level below it. Run by halves
instead, its first statement comes first, and then, unless that one returns, the rest as a statement
of its own, one level further in. Where the parts of the list have the place of the whole, both come
to the same, as far as neither comes to the limit.
-/

namespace Scriptlet

open Evaluator (andThen)

/-- A statement list, of two statements or more. -/
def Tree.IsList (t : Tree) : Prop := ∃ place children, t = .node .seq place children

/-- Runs a statement; of a list the first statement, and then, unless that one returns, the rest of
the list as a statement of its own. -/
def byHalves (rounds : Nat) : Nat → Tree → Eval Completion
  | depth + 1, .node .seq place [first, rest] =>
    Eval.located place
      (andThen ((evaluator rounds depth).stmt first) (byHalves rounds depth rest))
  | depth, t => (evaluator rounds depth).stmt t

/-! ## What is run of a list -/

/-- From `m` on the statements are run one after another, and none of them returns or fails. -/
inductive RunsThrough (run : Tree → Eval Completion) : List Tree → Machine → Machine → Prop
  | nil {m} : RunsThrough run [] m m
  | cons {t ts c m m' n} : run t m = .ok c m' → c.returned = none → RunsThrough run ts m' n →
      RunsThrough run (t :: ts) m n

/-- A statement returned or failed. -/
def Breaks : EStateM.Result Stop Machine Completion → Prop
  | .ok c _ => c.returned.isSome
  | .error _ _ => True

/-- The statements are run from the left, up to the first that returns or fails, and the end of that
one is the end of all. -/
def RunsUpTo (run : Tree → Eval Completion) (ts : List Tree) (m : Machine)
    (r : EStateM.Result Stop Machine Completion) : Prop :=
  ∃ before last after n, ts = before ++ last :: after ∧ RunsThrough run before m n ∧
    (after = [] ∨ Breaks (run last n)) ∧ r = run last n

section

variable {run : Tree → Eval Completion} {t : Tree} {ts : List Tree} {m n : Machine}
  {r : EStateM.Result Stop Machine Completion}

theorem RunsUpTo.single : RunsUpTo run [t] m (run t m) :=
  ⟨[], t, [], m, rfl, .nil, .inl rfl, rfl⟩

theorem RunsUpTo.breaks (ended : run t m = r) (h : Breaks r) : RunsUpTo run (t :: ts) m r :=
  ⟨[], t, ts, m, rfl, .nil, .inr (ended ▸ h), ended.symm⟩

theorem RunsUpTo.cons {c : Completion} (ended : run t m = .ok c n) (goesOn : c.returned = none)
    (h : RunsUpTo run ts n r) : RunsUpTo run (t :: ts) m r := by
  obtain ⟨before, last, after, n', rfl, through, stops, same⟩ := h
  exact ⟨t :: before, last, after, n', rfl, .cons ended goesOn through, stops, same⟩

end

namespace Evaluator

variable {inner : Evaluator}

theorem list_runsUpTo {ts : List Tree} (some : ts ≠ []) (m : Machine) :
    RunsUpTo inner.stmt ts m (inner.list inner.stmt ts m) := by
  induction ts generalizing m with
  | nil => exact absurd rfl some
  | cons t ts ih =>
    cases ts with
    | nil => exact .single
    | cons t' ts =>
      have rest := ih (List.cons_ne_nil t' ts)
      simp only [list, andThen, Bind.bind, EStateM.bind]
      cases ended : inner.stmt t m with
      | error s n => exact .breaks ended trivial
      | ok c n =>
        obtain ⟨datum, _ | d⟩ := c
        · exact .cons ended rfl (rest n)
        · exact .breaks ended rfl

/-- Only the last statement is run in the way of the last one. -/
theorem list_congr {final final' : Tree → Eval Completion} {ts : List Tree}
    (same : ∀ t ∈ ts.getLast?, final t = final' t) :
    inner.list final ts = inner.list final' ts := by
  induction ts with
  | nil => rfl
  | cons t ts ih =>
    cases ts with
    | nil => exact same t rfl
    | cons t' ts => exact congrArg (andThen (inner.stmt t)) (ih same)

theorem last_of_not_isList {t : Tree} (single : ¬t.IsList) : inner.last t = inner.stmt t := by
  cases t with
  | node label place children =>
    exact last_of_label (fun list => single ⟨place, children, list ▸ rfl⟩) place children
  | _ => rfl

theorem stmtStep_sequence {first : Tree} {rest : List Tree} (some : rest ≠ [])
    (single : ∀ t ∈ rest.getLast?, ¬t.IsList) (place : Option Place) (rounds : Nat) :
    inner.stmtStep rounds (.sequence place (first :: rest)) =
      inner.list inner.stmt (first :: rest) := by
  obtain ⟨t, ts, rfl⟩ := List.exists_cons_of_ne_nil some
  have walked : inner.last (.sequence place (t :: ts)) = inner.list inner.stmt (t :: ts) := by
    rw [last_sequence inner place some]
    exact list_congr fun t ht => last_of_not_isList (single t ht)
  exact (inner.sequence_eq first _).trans (congrArg (andThen (inner.stmt first)) walked)

end Evaluator

/-! ## Both ways compared -/

namespace Eval

/-- A place that is given to a list is given to the rest of it. -/
theorem located_andThen (place : Option Place) (x y : Eval Completion) :
    located place (andThen x (located place y)) = located place (andThen x y) := by
  have after (e : Completion) :
      located place (if e.returned.isSome then return e else located place y) =
        located place (if e.returned.isSome then return e else y) := by
    split
    · rfl
    · exact located_located place y
  calc located place (andThen x (located place y))
    _ = located place (x >>= fun e =>
          located place (if e.returned.isSome then return e else located place y)) :=
        (located_bind place x _).symm
    _ = located place (x >>= fun e =>
          located place (if e.returned.isSome then return e else y)) := by
        simp only [after]
    _ = located place (andThen x y) := located_bind place x _

end Eval

theorem Outlasts.andThen {x x' y y' : Eval Completion} (hx : Outlasts x x') (hy : Outlasts y y') :
    Outlasts (andThen x y) (andThen x' y') := by
  refine .bind hx fun e => ?_
  split
  · exact fun _ => .inr rfl
  · exact hy

section

variable {place : Option Place} {rounds depth depth' : Nat}

theorem byHalves_of_not_isList {t : Tree} (single : ¬t.IsList) :
    byHalves rounds depth t = (evaluator rounds depth).stmt t := by
  rw [byHalves]
  rintro n place first rest - rfl
  exact single ⟨place, _, rfl⟩

/-- A place that is given to a list is given to the rest of it, in whichever way it is run. -/
theorem located_list (inner : Evaluator) (t t' : Tree) (ts : List Tree) :
    Eval.located place (inner.list inner.stmt (t :: t' :: ts)) = Eval.located place
      (andThen (inner.stmt t) (Eval.located place (inner.list inner.stmt (t' :: ts)))) :=
  (Eval.located_andThen place _ _).symm

theorem located_byHalves (t t' : Tree) (ts : List Tree) :
    Eval.located place (byHalves rounds (depth + 1) (.sequence place (t :: t' :: ts))) =
      Eval.located place (andThen ((evaluator rounds depth).stmt t)
        (Eval.located place (byHalves rounds depth (.sequence place (t' :: ts))))) :=
  (Eval.located_located place _).trans (Eval.located_andThen place _ _).symm

/-- A list that is run by halves gives its place to what has none. -/
theorem byHalves_located (t t' : Tree) (ts : List Tree) :
    Eval.located place (byHalves rounds depth (.sequence place (t :: t' :: ts))) =
      byHalves rounds depth (.sequence place (t :: t' :: ts)) := by
  cases depth with
  | zero => rfl
  | succ depth => exact Eval.located_located place _

variable {ts : List Tree} (some : ts ≠ []) (single : ∀ t ∈ ts.getLast?, ¬t.IsList)
  (place rounds)
include some single

/-- By halves, each statement lies further in than the one before it. -/
theorem byHalves_outlasts (le : depth ≤ depth') :
    Outlasts (Eval.located place (byHalves rounds depth (.sequence place ts)))
      (Eval.located place
        ((evaluator rounds depth').list (evaluator rounds depth').stmt ts)) := by
  induction ts generalizing depth with
  | nil => exact absurd rfl some
  | cons t ts ih =>
    have first {depth : Nat} (le : depth ≤ depth') := (outlasts_of_le rounds le t).2
    cases ts with
    | nil =>
      rw [Tree.sequence, byHalves_of_not_isList (single t rfl)]
      exact (first le).located place
    | cons t' ts =>
      cases depth with
      | zero => exact fun _ => .inl .nesting
      | succ depth =>
        have rest := ih (List.cons_ne_nil t' ts) single (Nat.le_of_succ_le le)
        rw [located_byHalves, located_list]
        exact ((first (Nat.le_of_succ_le le)).andThen rest).located place

theorem outlasts_byHalves (depth : Nat) : Outlasts
    (Eval.located place ((evaluator rounds depth).list (evaluator rounds depth).stmt ts))
    (Eval.located place (byHalves rounds (depth + ts.length) (.sequence place ts))) := by
  induction ts with
  | nil => exact absurd rfl some
  | cons t ts ih =>
    have first {depth' : Nat} (le : depth ≤ depth') := (outlasts_of_le rounds le t).2
    cases ts with
    | nil =>
      rw [Tree.sequence, byHalves_of_not_isList (single t rfl)]
      exact (first (Nat.le_add_right depth _)).located place
    | cons t' ts =>
      have rest := ih (List.cons_ne_nil t' ts) single
      rw [List.length_cons, ← Nat.add_assoc, located_byHalves, located_list]
      exact ((first (Nat.le_add_right depth _)).andThen rest).located place

end

/-! ## Both come to the same -/

section

variable {place : Option Place} {first : Tree} {rest : List Tree} (some : rest ≠ [])
  (single : ∀ t ∈ rest.getLast?, ¬t.IsList) {rounds depth depth' : Nat} {m : Machine}
include some

theorem byHalves_located_of_some (depth : Nat) :
    Eval.located place (byHalves rounds depth (.sequence place (first :: rest))) =
      byHalves rounds depth (.sequence place (first :: rest)) := by
  obtain ⟨t, ts, rfl⟩ := List.exists_cons_of_ne_nil some
  exact byHalves_located first t ts

include single

theorem single_of_rest : ∀ t ∈ (first :: rest).getLast?, ¬t.IsList := by
  rwa [List.getLast?_cons_of_ne_nil some]

theorem stmt_walked (rounds depth : Nat) :
    (evaluator rounds (depth + 1)).stmt (.sequence place (first :: rest)) = Eval.located place
      ((evaluator rounds depth).list (evaluator rounds depth).stmt (first :: rest)) := by
  rw [← Evaluator.stmtStep_sequence some single place rounds]
  obtain ⟨t, ts, rfl⟩ := List.exists_cons_of_ne_nil some
  rfl

theorem byHalves_eq
    (within : ¬LimitHit ((evaluator rounds depth).stmt (.sequence place (first :: rest)) m))
    (within' : ¬LimitHit (byHalves rounds depth' (.sequence place (first :: rest)) m)) :
    byHalves rounds depth' (.sequence place (first :: rest)) m =
      (evaluator rounds depth).stmt (.sequence place (first :: rest)) m := by
  have last : ∀ t ∈ (first :: rest).getLast?, ¬t.IsList := single_of_rest some single
  have halves := byHalves_outlasts place rounds (List.cons_ne_nil _ _) last
    (Nat.le_max_right depth depth') m
  rw [byHalves_located_of_some some, ← stmt_walked some single] at halves
  have wider : depth ≤ max depth depth' + 1 := Nat.le_succ_of_le (Nat.le_max_left depth depth')
  have walked := (outlasts_of_le rounds wider (.sequence place (first :: rest))).2 m
  exact (halves.resolve_left within').symm.trans (walked.resolve_left within)

/-- Each statement but the last needs one level more for those behind it. -/
theorem byHalves_eq_of_deep
    (within : ¬LimitHit ((evaluator rounds depth).stmt (.sequence place (first :: rest)) m)) :
    byHalves rounds (depth + rest.length) (.sequence place (first :: rest)) m =
      (evaluator rounds depth).stmt (.sequence place (first :: rest)) m := by
  cases depth with
  | zero => exact absurd .nesting within
  | succ depth =>
    have last : ∀ t ∈ (first :: rest).getLast?, ¬t.IsList := single_of_rest some single
    have walked := outlasts_byHalves place rounds (List.cons_ne_nil _ _) last depth m
    rw [byHalves_located_of_some some, ← stmt_walked some single, List.length_cons,
      Nat.add_comm rest.length, ← Nat.add_assoc] at walked
    exact walked.resolve_left within

end

theorem WithinLimits.of_isOk {r : Except Failure Completion} (h : r.isOk = true) :
    WithinLimits r := by
  intro f failed
  rw [failed] at h
  cases h

/-- As long as neither comes to the limit, a list whose parts have its place comes to the same when
it is run by halves, and it does not come to the limit by halves where there is a level more for
each of its statements. What is run of it is its statements from the left, up to the first that
returns or fails, however the evaluator runs them. The last statement is no list, for the statements
of that would be those of the whole. -/
theorem lists_run_by_halves (place : Option Place) (first : Tree) {rest : List Tree}
    (some : rest ≠ []) (single : ∀ t ∈ rest.getLast?, ¬t.IsList) :
    let t := Tree.sequence place (first :: rest)
    (∀ rounds depth depth' m, WithinLimits (m.exec ⟨depth, rounds⟩ t).1 →
      WithinLimits ((byHalves rounds depth' t).outcome m).1 →
      (byHalves rounds depth' t).outcome m = m.exec ⟨depth, rounds⟩ t) ∧
    (∀ rounds depth m, WithinLimits (m.exec ⟨depth, rounds⟩ t).1 →
      (byHalves rounds (depth + rest.length) t).outcome m = m.exec ⟨depth, rounds⟩ t) ∧
    ∀ (inner : Evaluator) rounds m,
      RunsUpTo inner.stmt (first :: rest) m (inner.stmtStep rounds t m) := by
  intro t
  refine ⟨fun rounds depth depth' m within within' => ?_, fun rounds depth m within => ?_,
    fun inner rounds m => ?_⟩
  · have same := byHalves_eq some single within.not_limitHit within'.not_limitHit
    simp only [Eval.outcome, Machine.exec, t, same]
  · have same := byHalves_eq_of_deep some single within.not_limitHit
    simp only [Eval.outcome, Machine.exec, t, same]
  · rw [Evaluator.stmtStep_sequence some single]
    exact Evaluator.list_runsUpTo (List.cons_ne_nil first rest) m

/-- A return in a list of its own, in front of a name that nothing was stored under. -/
theorem lists_run_by_halves_returning :
    let nothing := Tree.node .bareExpr none [.token .nullWord "null" none]
    let inward := Tree.sequence (some ⟨1, 3⟩)
      [nothing, .node .ret none [.token .trueWord "true" none]]
    let unknown := Tree.node .bareExpr none [.token .identifier "x" none]
    let t := Tree.sequence (some ⟨1, 1⟩) [nothing, inward, unknown]
    [inward, unknown] ≠ [] ∧ (∀ t ∈ [inward, unknown].getLast?, ¬t.IsList) ∧
    WithinLimits (Machine.fresh.exec ⟨4, 0⟩ t).1 ∧
    WithinLimits ((byHalves 0 5 t).outcome .fresh).1 ∧
    (byHalves 0 5 t).outcome .fresh = Machine.fresh.exec ⟨4, 0⟩ t ∧
    (Machine.fresh.exec ⟨4, 0⟩ t).1.toOption.any (·.returned.isSome) = true := by
  intro nothing inward unknown t
  have single : ∀ t ∈ [inward, unknown].getLast?, ¬t.IsList := by
    rintro _ ⟨⟩ ⟨_, _, same⟩
    cases same
  have within : WithinLimits (Machine.fresh.exec ⟨4, 0⟩ t).1 := .of_isOk (by decide +kernel)
  have within' : WithinLimits ((byHalves 0 5 t).outcome .fresh).1 := .of_isOk (by decide +kernel)
  obtain ⟨same, -, -⟩ := lists_run_by_halves (some ⟨1, 1⟩) nothing (List.cons_ne_nil _ _) single
  exact ⟨List.cons_ne_nil _ _, single, within, within', same 0 4 5 .fresh within within',
    by decide +kernel⟩

end Scriptlet
