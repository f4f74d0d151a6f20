import Scriptlet.Proofs.Scoping
import Scriptlet.Proofs.Stacking
/-!
# One text and two

A text is run with another one below it. It comes to the same as running the one and then the other,
if the first one ends without a return, and otherwise to what the first one comes to. What the
second text leaves behind differs in its places, which lie further down in the joined text.

In a joined text every statement of the first one is nested one level deeper than by itself, and so
is the second text as a whole. So the runs are compared as far as no limit is hit.
-/

namespace Scriptlet

/-! ## Statement lists -/

namespace Evaluator

/-- Statements one after another, given how to run the last one. -/
def list (inner : Evaluator) (final : Tree → Eval Completion) : List Tree → Eval Completion
  | [] => pure .undefined
  | [t] => final t
  | t :: ts => andThen (inner.stmt t) (inner.list final ts)

variable (inner : Evaluator) {final : Tree → Eval Completion}

theorem last_sequence (place : Option Place) {ts : List Tree} (some : ts ≠ []) :
    inner.last (.sequence place ts) = inner.list inner.last ts := by
  induction ts with
  | nil => exact absurd rfl some
  | cons t ts ih =>
    cases ts with
    | nil => rfl
    | cons t' ts =>
      have rest := ih (List.cons_ne_nil _ _)
      exact (inner.sequence_eq t _).trans (congrArg (andThen (inner.stmt t)) rest)

theorem andThen_assoc (x y z : Eval Completion) :
    andThen (andThen x y) z = andThen x (andThen y z) := by
  funext m
  simp only [andThen, bind_assoc]
  refine congrFun (bind_congr fun e => ?_) m
  by_cases returns : e.returned.isSome <;> simp [returns]

theorem list_append {ps qs : List Tree} (some : ps ≠ []) (some' : qs ≠ []) :
    inner.list final (ps ++ qs) = andThen (inner.list inner.stmt ps) (inner.list final qs) := by
  induction ps with
  | nil => exact absurd rfl some
  | cons p ps ih =>
    obtain ⟨q, qs, rfl⟩ := List.exists_cons_of_ne_nil some'
    cases ps with
    | nil => rfl
    | cons p' ps =>
      have rest := ih (List.cons_ne_nil _ _)
      simp only [List.cons_append, list, andThen_assoc] at rest ⊢
      rw [rest]

end Evaluator

open Evaluator

/-! ## Faults have places -/

namespace Eval

/-- No fault with which the action may stop lacks a place. -/
def Placed {α : Type} (x : Eval α) : Prop :=
  ∀ m f n, x m ≠ .error (.fault f none) n

variable {α : Type}

theorem Placed.located_eq {x : Eval α} (h : x.Placed) (place : Option Place) :
    located place x = x := by
  funext m
  rw [located]
  split
  · rename_i f n stopped
    exact absurd stopped (h m f n)
  · rfl

theorem placed_located (place : Place) (x : Eval α) : Placed (located (some place) x) := by
  intro m f n
  rw [located]
  split
  · simp
  · rename_i other
    exact other f n

theorem Placed.andThen {x y : Eval Completion} (hx : x.Placed) (hy : y.Placed) :
    Placed (Evaluator.andThen x y) := by
  intro m f n
  simp only [Evaluator.andThen, Bind.bind, EStateM.bind]
  cases first : x m with
  | ok e m' =>
    by_cases returns : e.returned.isSome
    · simp [returns, Pure.pure, EStateM.pure]
    · simpa [returns] using hy m' f n
  | error stop m' =>
    have stopped := hx m f n
    rwa [first] at stopped

end Eval

/-- A statement that has a place, and so have the statements of the lists that it is made of. -/
inductive Tree.Spine : Tree → Prop
  | single {label place children} : label ≠ .seq → Spine (.node label (some place) children)
  | seq {place first rest} : Spine first → Spine rest →
      Spine (.node .seq (some place) [first, rest])

theorem Tree.Spine.place? {t : Tree} (h : t.Spine) : ∃ place, t.place? = some place := by
  cases h <;> exact ⟨_, rfl⟩

theorem Tree.spine_sequence (place : Place) {ts : List Tree} (h : ∀ t ∈ ts, t.Spine) :
    (Tree.sequence (some place) ts).Spine := by
  induction ts with
  | nil => exact .single (by decide)
  | cons t ts ih =>
    obtain ⟨first, rest⟩ := List.forall_mem_cons.mp h
    cases ts with
    | nil => exact first
    | cons => exact .seq first (ih rest)

namespace Source

mutual

theorem Stmt.spine : (s : Stmt) → s.lower.tree.Spine
  | .declare .. | .declareBare .. | .assign .. | .ifOnly .. | .ifElse .. | .while .. | .return ..
  | .returnBare .. | .function .. | .expr .. | .empty .. => .single (by decide)
  | .block (.mk start body) => Tree.spine_sequence start (spine_body body)

theorem spine_body : (ss : List Stmt) → ∀ t ∈ (lowerBody ss).map (·.tree), t.Spine
  | [] => by simp [lowerBody]
  | s :: ss => by
    rw [lowerBody, List.map_cons]
    exact List.forall_mem_cons.mpr ⟨s.spine, spine_body ss⟩

end

theorem Program.spine {p : Program} (some : p ≠ []) : p.tree.Spine := by
  obtain ⟨s, ss, rfl⟩ := List.exists_cons_of_ne_nil some
  exact Tree.spine_sequence s.lower.start (spine_body (s :: ss))

end Source

section

variable {rounds depth : Nat} {t : Tree}

theorem placed_stmt (h : t.Spine) : ((evaluator rounds depth).stmt t).Placed := by
  obtain ⟨place, some⟩ := h.place?
  cases depth with
  | zero =>
    intro m f n stopped
    have stopped : EStateM.Result.error Stop.tooDeep m = .error (.fault f none) n := stopped
    cases stopped
  | succ depth =>
    simp only [evaluator, deepen, some]
    exact Eval.placed_located place _

theorem placed_last (h : t.Spine) : ((evaluator rounds depth).last t).Placed := by
  induction h with
  | @single label place children other =>
    have same : (evaluator rounds depth).last (.node label (some place) children) =
        (evaluator rounds depth).stmt (.node label (some place) children) := by
      cases label <;> first | rfl | exact absurd rfl other
    rw [same]
    exact placed_stmt (.single other)
  | seq first _ _ ih =>
    rw [last, sequence_eq]
    exact (placed_stmt first).andThen ih

/-- A list by itself is run like the end of a list one level further in. -/
theorem stmt_seq {place : Option Place} {first rest : Tree}
    (h : (Tree.node .seq place [first, rest]).Spine) :
    (evaluator rounds (depth + 1)).stmt (.node .seq place [first, rest]) =
      (evaluator rounds depth).last (.node .seq place [first, rest]) :=
  (placed_last h).located_eq place

theorem stmt_sequence (place : Place) {ts : List Tree} (h : ∀ t ∈ ts, t.Spine)
    (more : 1 < ts.length) :
    (evaluator rounds (depth + 1)).stmt (.sequence (some place) ts) =
      (evaluator rounds depth).list (evaluator rounds depth).last ts := by
  have spine := Tree.spine_sequence place h
  rw [← last_sequence _ (some place) (List.ne_nil_of_length_pos (Nat.lt_of_succ_lt more))]
  match ts with
  | _ :: _ :: _ => exact stmt_seq spine

end

/-! ## Texts that end alike -/

/-- The outcome of a fragment for which the depth did not suffice. -/
inductive Failure.HitsLimit : Failure → Prop
  | nesting {place} : HitsLimit (.runtime .nestingTooDeep place)
  | calls {place} : HitsLimit (.runtime .callsTooDeep place)

theorem Stop.hitsLimit_fault {f : Fault} {p : Option Place} (q : Option Place)
    (h : (fault f p).failure.HitsLimit) : (fault f q).failure.HitsLimit := by
  cases h with
  | nesting => exact .nesting
  | calls => exact .calls

/-- Calls that nest too deeply hit a limit, whatever was too deep before. -/
theorem Stop.hitsLimit_calls (_ : tooDeep.failure.HitsLimit) :
    (fault .callsTooDeep none).failure.HitsLimit := .calls

/-- A tree and all that is nested in it. -/
inductive Tree.Part (whole : Tree) : Tree → Prop
  | whole : Part whole whole
  | child {label place children t} : Part whole (.node label place children) → t ∈ children →
      Part whole t

namespace Comparison

/-- Both runs are of the same trees, the first one perhaps with too little depth. -/
def shallow : Comparison :=
  equal (·.failure.HitsLimit) Stop.hitsLimit_fault Stop.hitsLimit_calls

/-- In the first run, parts of the tree `whole` may have been moved. What the heap held before has
stayed in its place. -/
def moved (f : Place → Place) (whole : Tree) : Comparison where
  tree t t' := t = t' ∨ whole.Part t' ∧ t = t'.move f
  place p p' := p = p' ∨ ∃ t', whole.Part t' ∧ p' = t'.place? ∧ p = p'.map f
  excused := (·.failure.HitsLimit)
  alike := by
    rintro t t' (rfl | ⟨part, rfl⟩)
    · exact .refl (fun _ => .inl rfl) t
    · cases t' with
      | missing => simpa using .missing
      | token => simpa using .token
      | node label place children =>
        rw [Tree.move_node]
        refine .node (List.forall₂_map_left_iff.mpr (List.forall₂_same.mpr fun t ht => ?_))
        exact .inr ⟨.child part ht, rfl⟩
  placeless := .inl rfl
  outer := by
    intro t t' p p' trees places
    have around : t.place? = t'.place? ∨
        ∃ u, whole.Part u ∧ t'.place? = u.place? ∧ t.place? = t'.place?.map f := by
      rcases trees with rfl | ⟨part, rfl⟩
      · exact .inl rfl
      · exact .inr ⟨t', part, rfl, Tree.place?_move f t'⟩
    rcases places with rfl | ⟨u, part, inside, rfl⟩
    · cases p with
      | none => exact around
      | some => exact .inl rfl
    · cases p' with
      | none => exact around
      | some => exact .inr ⟨u, part, inside, rfl⟩
  excused_fault := Stop.hitsLimit_fault
  excused_call := Stop.hitsLimit_calls

variable {c : Comparison} {inner inner' : Evaluator} {rounds depth : Nat} {t t' : Tree}

theorem Evaluators.last (h : c.Evaluators inner inner') (ht : c.tree t t') :
    c.Agree c.Completions (inner.last t) (inner'.last t') :=
  c.trees.last h.stmt ht

section

variable (tooDeep : c.excused .tooDeep)
include tooDeep

/-- At the end of a list a statement is run as by itself, with one level less. -/
theorem agree_last_stmt (spine : t'.Spine) (ht : c.tree t t') :
    c.Agree c.Completions ((evaluator rounds depth).last t)
      ((evaluator rounds (depth + 1)).stmt t') := by
  have run := (evaluators_of_le tooDeep rounds (Nat.le_succ depth)).stmt ht
  cases spine with
  | seq first rest =>
    rw [stmt_seq (.seq first rest)]
    exact (evaluators_refl c rounds depth).last ht
  | @single label _ _ other =>
    cases c.alike ht with
    | node => cases label <;> first | exact run | exact absurd rfl other

/-- In the middle of a list too it is run as at the end. -/
theorem agree_stmt_last (ht : c.tree t t) (spine : t.Spine) :
    c.Agree c.Completions ((evaluator rounds depth).stmt t) ((evaluator rounds depth).last t) := by
  cases depth with
  -- Without a level left, only the first of the two is certain to stop.
  | zero => exact fun _ _ _ _ machines => .excused tooDeep machines.stack
  | succ depth =>
    cases spine with
    | seq first rest =>
      rw [stmt_seq (.seq first rest)]
      exact (evaluators_of_le tooDeep rounds (Nat.le_succ depth)).last ht
    | @single label _ _ other =>
      have run := (evaluators_refl c rounds (depth + 1)).stmt ht
      cases label <;> first | exact run | exact absurd rfl other

theorem agree_list (hr : ∀ t, c.tree t t) {ts : List Tree} (spines : ∀ t ∈ ts, t.Spine) :
    c.Agree c.Completions ((evaluator rounds depth).list (evaluator rounds depth).stmt ts)
      ((evaluator rounds depth).list (evaluator rounds depth).last ts) := by
  induction ts with
  | nil => exact .pure Bodies.completions_undefined
  | cons t ts ih =>
    obtain ⟨spine, spines⟩ := List.forall_mem_cons.mp spines
    cases ts with
    | nil => exact agree_stmt_last tooDeep (hr t) spine
    | cons => exact c.parallel.andThen ((evaluators_refl c rounds depth).stmt (hr t)) (ih spines)

end

end Comparison

/-! ## The joined program -/

open Source Comparison

theorem Source.lowerBody_append (above below : List Stmt) :
    lowerBody (above ++ below) = lowerBody above ++ lowerBody below := by
  rw [lowerBody_eq_map, List.map_append, ← lowerBody_eq_map, ← lowerBody_eq_map]

theorem Source.Program.nesting_append (above below : Program) :
    Program.nesting (above ++ below) = max above.nesting below.nesting := by
  induction above with
  | nil => simp [Program.nesting, nestingOfBody]
  | cons s ss ih =>
    simp only [Program.nesting, List.cons_append, nestingOfBody] at ih ⊢
    rw [ih, Nat.max_assoc]

/-- The trees of a program's statements. -/
def Source.Program.statements (p : Program) : List Tree := (lowerBody p).map (·.tree)

namespace Source.Program

theorem statements_append (above below : Program) :
    statements (above ++ below) = above.statements ++ below.statements := by
  rw [statements, lowerBody_append, List.map_append]
  rfl

theorem statements_ne_nil {p : Program} (some : p ≠ []) : p.statements ≠ [] := by
  obtain ⟨s, ss, rfl⟩ := List.exists_cons_of_ne_nil some
  exact List.cons_ne_nil _ _

end Source.Program

variable {rounds depth : Nat}

/-- A program of several statements is run like a list of them one level further in. -/
theorem stmt_tree {p : Program} (more : 1 < p.length) :
    (evaluator rounds (depth + 1)).stmt p.tree =
      (evaluator rounds depth).list (evaluator rounds depth).last p.statements := by
  obtain ⟨s, ss, rfl⟩ := List.exists_cons_of_length_pos (Nat.zero_lt_of_lt more)
  exact stmt_sequence s.lower.start (spine_body _) (by simpa [lowerBody_eq_map] using more)

/-- A program by itself is run like the statements of a longer one. -/
theorem agree_above (above : Program) :
    shallow.Agree shallow.Completions
      ((evaluator rounds depth).list (evaluator rounds depth).stmt above.statements)
      ((evaluator rounds (depth + 1)).stmt above.tree) := by
  match above with
  | [] => exact fun _ _ _ _ machines => .ok Bodies.completions_undefined machines
  | [s] => exact (evaluators_of_le Failure.HitsLimit.nesting rounds (Nat.le_succ depth)).stmt rfl
  | s :: s' :: ss =>
    rw [stmt_tree (by simp)]
    exact agree_list Failure.HitsLimit.nesting (fun _ => rfl) (spine_body _)

/-- A program below another one runs like its own tree, unless the other one returns. -/
theorem stmt_joined {above below : Program} (some : above ≠ []) (some' : below ≠ []) :
    (evaluator rounds (depth + 1)).stmt (Program.tree (above ++ below)) =
      andThen ((evaluator rounds depth).list (evaluator rounds depth).stmt above.statements)
        ((evaluator rounds depth).last below.tree) := by
  have more : 1 < (above ++ below).length := by
    have one := List.length_pos_iff.mpr some
    have another := List.length_pos_iff.mpr some'
    rw [List.length_append]
    omega
  rw [stmt_tree more, Program.statements_append,
    list_append _ (Program.statements_ne_nil some) (Program.statements_ne_nil some'),
    ← last_sequence _ (placeOfAll (lowerBody below)) (Program.statements_ne_nil some')]
  rfl

/-- What follows the first program in the joined one runs like the second by itself. -/
theorem agree_below (f : Place → Place) (above : Program) {below : Program} (some : below ≠ []) :
    ∃ rest, (evaluator rounds (depth + 1)).stmt
          (Program.tree (above ++ below.map (Stmt.move f))) =
        andThen ((evaluator rounds depth).list (evaluator rounds depth).stmt above.statements)
          rest ∧
      (moved f below.tree).Agree (moved f below.tree).Completions rest
        ((evaluator rounds (depth + 1)).stmt below.tree) := by
  have trees : (moved f below.tree).tree (Program.tree (below.map (Stmt.move f))) below.tree :=
    .inr ⟨.whole, below.tree_move f⟩
  by_cases none : above = []
  · subst none
    exact ⟨_, rfl, (evaluators_refl _ rounds (depth + 1)).stmt trees⟩
  · refine ⟨_, stmt_joined none (by simpa using some), ?_⟩
    exact agree_last_stmt Failure.HitsLimit.nesting (Program.spine some) trees

/-! ## Running the joined text -/

/-- The limits did not keep a fragment from its outcome. -/
def WithinLimits (outcome : Except Failure Completion) : Prop :=
  ∀ f, outcome = .error f → ¬f.HitsLimit

namespace Comparison

/-- Outcomes that are taken for one another. -/
inductive Outcomes (c : Comparison) :
    Except Failure Completion → Except Failure Completion → Prop
  | ok {e e'} : c.Completions e e' → Outcomes c (.ok e) (.ok e')
  | runtime {f p p'} : c.place p p' → Outcomes c (.error (.runtime f p)) (.error (.runtime f p'))
  | unfinished : Outcomes c (.error .unfinished) (.error .unfinished)

/-- Heaps that are taken for one another. -/
structure Heaps (c : Comparison) (m m' : Machine) : Prop where
  frames : ∀ i : Nat, Option.Rel c.Frames m.store.frames[i]? m'.store.frames[i]?
  captured : m.store.captured = m'.store.captured
  stack : m.store.stack = m'.store.stack
  anonymous : m.anonymous = m'.anonymous

variable {c : Comparison} {o : Origin} {x y : Eval Completion} {m m' : Machine}

theorem Stops.outcomes {s s' : Stop} (h : c.Stops s s') :
    c.Outcomes (.error s.failure) (.error s'.failure) := by
  cases h with
  | fault places => exact .runtime places
  | tooDeep => exact .runtime c.placeless
  | unfinished => exact .unfinished

theorem Ends.outcomes (h : c.Ends o c.Completions (x m) (y m'))
    (limits : ∀ s, c.excused s → s.failure.HitsLimit) (within : WithinLimits (x.outcome m).1) :
    c.Outcomes (x.outcome m).1 (y.outcome m').1 ∧
      c.Machines o (x.outcome m).2 (y.outcome m').2 := by
  simp only [Eval.outcome] at within ⊢
  generalize x m = r at h within ⊢
  generalize y m' = r' at h ⊢
  cases h with
  | ok same machines => exact ⟨.ok same, machines⟩
  | error same machines => exact ⟨same.outcomes, machines⟩
  | excused ex => exact absurd (limits _ ex) (within _ rfl)

theorem Machines.heaps (h : c.Machines o m m') (same : o.stack = o.stack') : c.Heaps m m' :=
  ⟨h.frames, h.captured, by rw [h.stack, h.stack', same], h.anonymous⟩

section

variable {excused : Stop → Prop}
  {fault : ∀ {f p} (q : Option Place), excused (.fault f p) → excused (.fault f q)}
  {call : excused .tooDeep → excused (.fault .callsTooDeep none)}

theorem Outcomes.eq {r r' : Except Failure Completion}
    (h : (equal excused fault call).Outcomes r r') : r = r' := by
  cases h with
  | ok same => rw [same.eq]
  | runtime same => rw [show _ = _ from same]
  | unfinished => rfl

theorem Machines.store_eq (h : (equal excused fault call).Machines o m m')
    (same : o.stack = o.stack') : m.store = m'.store := by
  have frames := h.sameFrames.frames
  have captured := h.captured
  have stack : m.store.stack = m'.store.stack := by rw [h.stack, h.stack', same]
  obtain ⟨⟨frames, captured, top, below⟩, anonymous, journal⟩ := m
  obtain ⟨⟨frames', captured', top', below'⟩, anonymous', journal'⟩ := m'
  obtain ⟨rfl, rfl⟩ := List.cons.inj stack
  subst frames captured
  rfl

end

end Comparison

theorem outcome_andThen (x y : Eval Completion) (m : Machine) :
    (andThen x y).outcome m = match x.outcome m with
      | (.ok e, n) => if e.returned.isSome then (.ok e, n) else y.outcome n
      | (.error f, n) => (.error f, n) := by
  simp only [Eval.outcome, andThen, Bind.bind, EStateM.bind]
  cases x m with
  | ok e n => by_cases returns : e.returned.isSome <;> simp [returns, Pure.pure, EStateM.pure]
  | error => rfl

theorem WithinLimits.andThen {x y : Eval Completion} {m : Machine}
    (h : WithinLimits ((andThen x y).outcome m).1) : WithinLimits (x.outcome m).1 := by
  intro f stopped
  refine h f ?_
  rw [outcome_andThen]
  generalize x.outcome m = r at stopped ⊢
  obtain ⟨r, n⟩ := r
  cases stopped
  rfl

section

variable {c : Comparison} {o : Origin} {x x' y y' : Eval Completion} {m m' : Machine}
  (front : shallow.Agree shallow.Completions x x') (start : shallow.Machines o m m')
  (level : o.stack = o.stack') (within : WithinLimits ((andThen x y).outcome m).1)
include front start level within

/-- Up to the second text, the joined run comes to what the first text comes to by itself. -/
theorem outcome_front : (x.outcome m).1 = (x'.outcome m').1 ∧
    shallow.Machines o (x.outcome m).2 (x'.outcome m').2 := by
  have ends := front o m m' (congrArg List.head? level) start
  obtain ⟨outcomes, machines⟩ := ends.outcomes (fun _ hits => hits) within.andThen
  exact ⟨Outcomes.eq outcomes, machines⟩

theorem outcome_stops (stops : ∀ e, (x'.outcome m').1 = .ok e → e.returned ≠ none) :
    ((andThen x y).outcome m).1 = (x'.outcome m').1 ∧
      shallow.Machines o ((andThen x y).outcome m).2 (x'.outcome m').2 := by
  obtain ⟨same, machines⟩ := outcome_front front start level within
  rw [← same] at stops ⊢
  suffices h : (andThen x y).outcome m = x.outcome m by
    rw [h]
    exact ⟨rfl, machines⟩
  rw [outcome_andThen]
  generalize x.outcome m = r at stops ⊢
  obtain ⟨_ | e, n⟩ := r
  · rfl
  · exact if_pos (Option.isSome_iff_ne_none.mpr (stops e rfl))

theorem outcome_goesOn (rest : c.Agree c.Completions y y') (hr : ∀ t, c.tree t t)
    (limits : ∀ s, c.excused s → s.failure.HitsLimit) {e : Completion}
    (ended : (x'.outcome m').1 = .ok e) (goesOn : e.returned = none) (event : Event) :
    let second := y'.outcome ((x'.outcome m').2.record event)
    c.Outcomes ((andThen x y).outcome m).1 second.1 ∧
      c.Heaps ((andThen x y).outcome m).2 second.2 := by
  intro second
  obtain ⟨same, machines⟩ := outcome_front front start level within
  have continued : (andThen x y).outcome m = y.outcome (x.outcome m).2 := by
    rw [outcome_andThen]
    generalize x.outcome m = r at same
    obtain ⟨r, n⟩ := r
    obtain rfl : r = .ok e := same.trans ended
    exact if_neg (by simp [goesOn])
  rw [continued] at within ⊢
  have frames : SameFrames (x.outcome m).2 ((x'.outcome m').2.record event) := by
    obtain ⟨frames, captured, anonymous⟩ := Machines.sameFrames machines
    exact ⟨frames, captured, anonymous⟩
  have stack : (x.outcome m).2.store.stack = (x'.outcome m').2.store.stack := by
    rw [machines.stack, machines.stack', level]
  have ends := rest _ _ _ (congrArg List.head? stack) (Machines.of_sameFrames hr frames)
  obtain ⟨outcomes, machines⟩ := ends.outcomes limits within
  exact ⟨outcomes, machines.heaps stack⟩

end

section

variable {limits : Limits} {src : String} {p : Program}

theorem Machine.run_eq (read : readProgram src.toList = .ok p) (fits : p.nesting ≤ limits.depth)
    (m : Machine) : m.run limits src =
      ((evaluator limits.rounds limits.depth).stmt p.tree).outcome (m.record (.fragment src)) := by
  simp only [Machine.run, read, if_neg (Nat.not_lt.mpr fits)]
  rfl

theorem WithinLimits.nesting_le {m : Machine} (h : WithinLimits (m.run limits src).1)
    (read : readProgram src.toList = .ok p) : p.nesting ≤ limits.depth := by
  refine Nat.le_of_not_lt fun deep => h (.runtime .nestingTooDeep none) ?_ .nesting
  simp only [Machine.run, read, if_pos deep]

theorem WithinLimits.depth_pos {m : Machine} (h : WithinLimits (m.run limits src).1)
    (read : readProgram src.toList = .ok p) : 0 < limits.depth := by
  have fits := h.nesting_le read
  rw [Machine.run_eq read fits] at h
  refine Nat.pos_of_ne_zero fun none => h (Stop.failure .tooDeep) ?_ .nesting
  rw [none]
  rfl

end

/-- Below a text that ends without a return, another text comes to what it comes to after the first
one, and leaves the same heap, up to its places. After a return or an error nothing of it is run. -/
theorem run_joined {p q : String} {above below : Program}
    (hp : readProgram p.toList = .ok above) (hq : readProgram q.toList = .ok below)
    (some : below ≠ []) (afresh : BeginsAfresh q.toList) (limits : Limits) (m : Machine) :
    let down := Place.down (Place.height p.toList)
    let whole := m.run limits (p ++ "\n" ++ q)
    let first := m.run limits p
    readProgram (p ++ "\n" ++ q).toList = .ok (above ++ below.map (Stmt.move down)) ∧
    (WithinLimits whole.1 →
      (∀ e, first.1 = .ok e → e.returned = none →
        let second := first.2.run limits q
        (moved down below.tree).Outcomes whole.1 second.1 ∧
          (moved down below.tree).Heaps whole.2 second.2) ∧
      ((∀ e, first.1 = .ok e → e.returned ≠ none) →
        whole.1 = first.1 ∧ whole.2.store = first.2.store ∧
          whole.2.anonymous = first.2.anonymous ∧
          ∃ es es', whole.2.journal = es ++ .fragment (p ++ "\n" ++ q) :: m.journal ∧
            first.2.journal = es' ++ .fragment p :: m.journal ∧
            es.map Event.request = es'.map Event.request)) := by
  intro down whole first
  have accepted : readProgram (p ++ "\n" ++ q).toList =
      .ok (above ++ below.map (Stmt.move down)) := by
    have joined := readProgram_below hp hq some afresh
    simpa [String.toList_append] using joined
  refine ⟨accepted, fun within => ?_⟩
  -- Neither text nests deeper than the joined one, so neither is refused for its nesting.
  have nesting := within.nesting_le accepted
  have depth := within.depth_pos accepted
  rw [Program.nesting_append, Program.nesting_move] at nesting
  have wholeRun : whole = _ := Machine.run_eq accepted (within.nesting_le accepted) m
  have firstRun : first = _ := Machine.run_eq hp (Nat.le_trans (Nat.le_max_left _ _) nesting) m
  have secondRun (n : Machine) : n.run limits q = _ :=
    Machine.run_eq hq (Nat.le_trans (Nat.le_max_right _ _) nesting) n
  -- One level is spent on the joined list, and the rest of the depth is left to its statements.
  obtain ⟨depth, same⟩ := Nat.exists_eq_add_of_lt depth
  obtain ⟨rest, apart, behind⟩ := agree_below down above some
  rw [same, Nat.zero_add] at wholeRun firstRun secondRun
  rw [apart] at wholeRun
  rw [wholeRun] at within ⊢
  rw [firstRun]
  have start : shallow.Machines _ (m.record (.fragment (p ++ "\n" ++ q)))
      (m.record (.fragment p)) := Machines.of_sameFrames (fun _ => rfl) ⟨rfl, rfl, rfl⟩
  constructor
  · intro e ended goesOn
    rw [secondRun]
    exact outcome_goesOn (agree_above above) start rfl within behind (fun _ => .inl rfl)
      (fun _ h => h) ended goesOn _
  · intro stops
    obtain ⟨outcomes, machines⟩ := outcome_stops (agree_above above) start rfl within stops
    obtain ⟨es, es', entries, journal, journal'⟩ := machines.journal
    exact ⟨outcomes, Machines.store_eq machines rfl, machines.anonymous, es, es', journal, journal',
      Entries.requests entries⟩

private def upper : String := "function f() \x7b return g; \x7d // var"

private def lower : String := "\x7b var g = f; \x7d f();"

private theorem ok_of_any {ε α : Type} {r : Except ε α} {good : α → Bool}
    (h : r.toOption.any good = true) : ∃ a, r = .ok a ∧ good a = true := by
  cases r with
  | error => cases h
  | ok a => exact ⟨a, rfl, h⟩

/-- A comment ends with the first text, and a function of it sees what the second one declares. -/
theorem run_joined_function : ∃ above below, readProgram upper.toList = .ok above ∧
    readProgram lower.toList = .ok below ∧ below ≠ [] ∧ BeginsAfresh lower.toList ∧
    let limits : Limits := ⟨10, 10⟩
    let down := Place.down (Place.height upper.toList)
    let whole := Machine.fresh.run limits (upper ++ "\n" ++ lower)
    let first := Machine.fresh.run limits upper
    let second := first.2.run limits lower
    WithinLimits whole.1 ∧ (∃ e, first.1 = .ok e ∧ e.returned = none) ∧
      (moved down below.tree).Outcomes whole.1 second.1 ∧
      (moved down below.tree).Heaps whole.2 second.2 := by
  have hp : (readProgram upper.toList).toOption.any (fun _ => true) = true := by decide +kernel
  have hq : (readProgram lower.toList).toOption.any (fun p => !p.isEmpty) = true := by
    decide +kernel
  have afresh : BeginsAfresh lower.toList := by decide +kernel
  have ended : (Machine.fresh.run ⟨10, 10⟩ upper).1.toOption.any (·.returned.isNone) = true := by
    decide +kernel
  have whole : (Machine.fresh.run ⟨10, 10⟩ (upper ++ "\n" ++ lower)).1.toOption.any
      (fun _ => true) = true := by decide +kernel
  obtain ⟨above, hp, _⟩ := ok_of_any hp
  obtain ⟨below, hq, some⟩ := ok_of_any hq
  obtain ⟨e, ended, goesOn⟩ := ok_of_any ended
  obtain ⟨e', whole, _⟩ := ok_of_any whole
  have some : below ≠ [] := by simpa using some
  have goesOn : e.returned = none := by simpa using goesOn
  have within : WithinLimits (Machine.fresh.run ⟨10, 10⟩ (upper ++ "\n" ++ lower)).1 := by
    intro f stopped
    rw [whole] at stopped
    cases stopped
  obtain ⟨_, joined⟩ := run_joined hp hq some afresh ⟨10, 10⟩ .fresh
  exact ⟨above, below, hp, hq, some, afresh, within, ⟨e, ended, goesOn⟩,
    (joined within).1 e ended goesOn⟩

end Scriptlet
