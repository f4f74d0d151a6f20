import Scriptlet.Proofs.Bracketing
import Scriptlet.Proofs.Exhaustion
/-!
# A loop unrolled

A loop is a conditional whose branch is the body of the loop and then the loop. Both come to the
same, except that a body that returns gives its list a datum, and the loop none.

The unrolled loop nests deeper and goes round once less. So its runs are compared with those of the
loop under other limits: a run that comes to its end, without coming to the limit, is the same under
any wider limits and with any more rounds.
-/

namespace Scriptlet

variable {α β : Type}

/-! ## Once around -/

/-- Runs a loop once around, and then the rest of it. -/
def goRound (test : Eval Bool) (body rest : Eval Completion) : Eval Completion := do
  if ← test then
    let c ← body
    if c.returned.isSome then return ⟨.undefined, c.returned⟩
    rest
  else return .undefined

theorem repeatWhile_succ (test : Eval Bool) (body : Eval Completion) (rounds : Nat) :
    repeatWhile test body (rounds + 1) = goRound test body (repeatWhile test body rounds) := rfl

section

variable {E : Stop → Prop} {test test' : Eval Bool} {body body' rest rest' : Eval Completion}

theorem SameUnless.goRound (ht : SameUnless E test test') (hb : SameUnless E body body')
    (hr : SameUnless E rest rest') :
    SameUnless E (goRound test body rest) (goRound test' body' rest') := by
  refine .bind ht fun again => ?_
  cases again with
  | false => exact .refl _
  | true =>
    refine .bind hb fun c => ?_
    cases c.returned with
    | some d => exact .refl _
    | none => exact hr

/-- A loop that does not run out of rounds is the same with more of them. -/
theorem SameUnless.repeatWhile (out : E .unfinished) (ht : SameUnless E test test')
    (hb : SameUnless E body body') {rounds rounds' : Nat} (le : rounds ≤ rounds') :
    SameUnless E (repeatWhile test body rounds) (repeatWhile test' body' rounds') := by
  induction rounds generalizing rounds' with
  | zero => exact fun _ => .inl out
  | succ rounds ih =>
    obtain ⟨more, rfl⟩ := Nat.exists_eq_add_of_le le
    rw [Nat.add_right_comm, repeatWhile_succ, repeatWhile_succ]
    exact .goRound ht hb (ih (Nat.le_add_right rounds more))

end

/-! ## More rounds -/

/-- The action runs out of rounds, or the other one is the same. -/
def Outruns (x y : Eval α) : Prop := SameUnless (· = .unfinished) x y

/-- Rounds are outrun, whatever the trees and the data are. -/
def outrunning : Uniform Unit where
  rel x y := Outruns x (y ())
  pure _ := .refl _
  fail _ := .refl _
  unfinished := .refl _
  bind := .bind
  alloc _ _ := .refl _
  count := .refl _
  load? _ := .refl _
  reserve := .refl _

/-- Only a loop looks at the rounds. -/
theorem stmtStep_of_ne_loop (inner : Evaluator) (rounds rounds' : Nat) {t : Tree}
    (noLoop : ∀ place children, t ≠ .node .loop place children) :
    inner.stmtStep rounds t = inner.stmtStep rounds' t := by
  cases t with
  | node label place children =>
    cases label with
    | loop => exact absurd rfl (noLoop place children)
    | _ => rfl
  | _ => rfl

/-- What does not run out of rounds is the same with more of them. -/
theorem outruns_of_le {rounds rounds' : Nat} (le : rounds ≤ rounds') (depth : Nat) (t : Tree) :
    Outruns ((evaluator rounds depth).expr t) ((evaluator rounds' depth).expr t) ∧
      Outruns ((evaluator rounds depth).stmt t) ((evaluator rounds' depth).stmt t) := by
  have anywhere : ∀ f, Stop.fault f none = .unfinished → ∀ p, Stop.fault f p = .unfinished := nofun
  induction depth generalizing t with
  | zero => exact ⟨.refl _, .refl _⟩
  | succ depth ih =>
    have expr (t : Tree) : outrunning.rel ((evaluator rounds depth).expr t) fun _ =>
        (evaluator rounds' depth).expr t := (ih t).1
    have stmt (t : Tree) : outrunning.rel ((evaluator rounds depth).stmt t) fun _ =>
        (evaluator rounds' depth).stmt t := (ih t).2
    have call (f : Closure) (args : List Datum) : Outruns ((evaluator rounds depth).call f args)
        ((evaluator rounds' depth).call f args) := by
      refine SameUnless.call ?_ (evaluator_tells rounds depth) stmt f args
      rintro _ m rfl
      rfl
    have goes (c b : Tree) : outrunning.rel
        (repeatWhile ((evaluator rounds depth).test c) ((evaluator rounds depth).stmt b) rounds)
        fun _ => repeatWhile ((evaluator rounds' depth).test c)
          ((evaluator rounds' depth).stmt b) rounds' :=
      .repeatWhile (E := (· = .unfinished)) rfl (outrunning.test expr c) (stmt b) le
    have step : Outruns ((evaluator rounds depth).stmtStep rounds t)
        ((evaluator rounds' depth).stmtStep rounds' t) := by
      by_cases isLoop : ∃ place children, t = .node .loop place children
      · obtain ⟨place, children, rfl⟩ := isLoop
        exact outrunning.two goes
      · rw [stmtStep_of_ne_loop _ rounds' rounds fun place children same =>
          isLoop ⟨place, children, same⟩]
        exact outrunning.stmtStep expr stmt rounds t
    constructor
    · exact SameUnless.located anywhere (outrunning.exprStep expr call t) t.place?
    · exact SameUnless.located anywhere step t.place?

/-! ## Settled runs -/

/-- The evaluation ran out of rounds or came to the limit. -/
def Failure.Unsettled (f : Failure) : Prop := f = .unfinished ∨ f.HitsLimit

/-- The action ends as it does by itself. -/
def Settles (x : Eval α) (m : Machine) : Prop := ¬StoppedBy (·.failure.Unsettled) (x m)

/-- An action that settles ends like the other one. -/
def Prolongs (x y : Eval α) : Prop := SameUnless (·.failure.Unsettled) x y

theorem Prolongs.eq {x y : Eval α} {m : Machine} (h : Prolongs x y) (settles : Settles x m) :
    y m = x m := (h m).resolve_left settles

theorem Failure.Unsettled.anywhere (f : Fault) (h : (Stop.fault f none).failure.Unsettled)
    (p : Option Place) : (Stop.fault f p).failure.Unsettled :=
  .inr (Stop.hitsLimit_fault p (h.resolve_left nofun))

/-- A settled run is the same under wider limits and with more rounds. -/
theorem prolongs_of_le {rounds rounds' depth depth' : Nat} (le : rounds ≤ rounds')
    (le' : depth ≤ depth') (t : Tree) :
    Prolongs ((evaluator rounds depth).expr t) ((evaluator rounds' depth').expr t) ∧
      Prolongs ((evaluator rounds depth).stmt t) ((evaluator rounds' depth').stmt t) := by
  have deeper := outlasts_of_le rounds le' t
  have longer := outruns_of_le le depth' t
  have hits (s : Stop) (h : s.failure.HitsLimit) : s.failure.Unsettled := .inr h
  have ends (s : Stop) (h : s = .unfinished) : s.failure.Unsettled := .inl (h ▸ rfl)
  exact ⟨.trans (.imp hits deeper.1) (.imp ends longer.1),
    .trans (.imp hits deeper.2) (.imp ends longer.2)⟩

/-! ## What returns says nothing else -/

/-- A completion that returns keeps what it returns and has no datum besides. -/
def Completion.hushed (e : Completion) : Completion :=
  if e.returned.isSome then ⟨.undefined, e.returned⟩ else e

namespace Eval

/-- The action without the datum of what returns. -/
def hushed (x : Eval Completion) : Eval Completion := do
  let e ← x
  return e.hushed

theorem exists_of_bind {x : Eval α} {f : α → Eval β} {m n : Machine} {b : β}
    (h : (x >>= f) m = .ok b n) : ∃ a m', x m = .ok a m' ∧ f a m' = .ok b n := by
  simp only [Bind.bind, EStateM.bind] at h
  cases first : x m with
  | ok a m' =>
    rw [first] at h
    exact ⟨a, m', rfl, h⟩
  | error s m' =>
    rw [first] at h
    cases h

theorem located_located (place : Option Place) (x : Eval α) :
    located place (located place x) = located place x := by
  funext m
  simp only [located]
  rcases x m with _ | ⟨⟨f, _ | p⟩ | _ | _, n⟩ <;> cases place <;> rfl

/-- A place that is given to all is given to what comes second. -/
theorem located_bind (place : Option Place) (x : Eval α) (f : α → Eval β) :
    located place (x >>= fun a => located place (f a)) = located place (x >>= f) := by
  funext m
  simp only [located, Bind.bind, EStateM.bind]
  cases x m with
  | ok a n => exact congrFun (located_located place (f a)) n
  | error s n => rfl

theorem hushed_located (place : Option Place) (x : Eval Completion) :
    hushed (located place x) = located place x.hushed := by
  funext m
  simp only [hushed, located, Bind.bind, EStateM.bind]
  rcases x m with _ | ⟨⟨f, _ | p⟩ | _ | _, n⟩ <;> rfl

theorem hushed_eq_ok {x : Eval Completion} {m n : Machine} {e : Completion} (h : x m = .ok e n) :
    x.hushed m = .ok e.hushed n := by
  simp only [hushed, Bind.bind, EStateM.bind, h]
  rfl

theorem hushed_eq_error {x : Eval Completion} {m n : Machine} {s : Stop}
    (h : x m = .error s n) : x.hushed m = .error s n := by
  simp only [hushed, Bind.bind, EStateM.bind, h]

theorem hushed_bind (x : Eval α) (f : α → Eval Completion) :
    hushed (x >>= f) = x >>= fun a => hushed (f a) := bind_assoc x f _

theorem hushed_repeatWhile (test : Eval Bool) (body : Eval Completion) (rounds : Nat) :
    hushed (repeatWhile test body rounds) = repeatWhile test body rounds := by
  induction rounds with
  | zero => rfl
  | succ rounds ih =>
    rw [repeatWhile_succ, goRound, hushed_bind]
    refine bind_congr fun again => ?_
    cases again with
    | false => rfl
    | true =>
      refine (hushed_bind body _).trans (bind_congr fun c => ?_)
      cases c.returned with
      | some d => rfl
      | none => exact ih

/-- One round as a conditional, whose branch is a list and lies at the same place. -/
theorem hushed_round (place : Option Place) (test : Eval Bool) (body : Eval Completion)
    {rest : Eval Completion} (quiet : rest.hushed = rest) :
    hushed (located place do
      if ← test then located place (Evaluator.andThen body (located place rest))
      else return .undefined) = located place (goRound test body rest) := by
  let onward (c : Completion) : Eval Completion :=
    if c.returned.isSome then return ⟨.undefined, c.returned⟩ else rest
  have list : hushed (Evaluator.andThen body (located place rest)) =
      body >>= fun c => located place (onward c) := by
    refine (hushed_bind body _).trans (bind_congr fun c => ?_)
    obtain ⟨datum, _ | d⟩ := c
    · exact (hushed_located place rest).trans (congrArg (located place) quiet)
    · rfl
  have branch (again : Bool) : located place (hushed
      (if again then located place (Evaluator.andThen body (located place rest))
        else return .undefined)) =
      located place (if again then body >>= onward else return .undefined) := by
    cases again with
    | false => rfl
    | true =>
      simp only [if_true]
      rw [hushed_located, located_located, list, located_bind]
  calc hushed (located place (test >>= fun again =>
        if again then located place (Evaluator.andThen body (located place rest))
        else return .undefined))
    _ = located place (test >>= fun again => located place (hushed
          (if again then located place (Evaluator.andThen body (located place rest))
            else return .undefined))) := by rw [hushed_located, hushed_bind, located_bind]
    _ = located place (test >>= fun again => located place
          (if again then body >>= onward else return .undefined)) := by simp only [branch]
    _ = located place (goRound test body rest) := located_bind place test _

end Eval

theorem Prolongs.hushed {x y : Eval Completion} (h : Prolongs x y) :
    Prolongs x.hushed y.hushed := .bind h fun _ => .refl _

/-! ## The loop and the unrolled loop -/

namespace Tree

def looped (place : Option Place) (condition body : Tree) : Tree :=
  .node .loop place [condition, body]

/-- The body of a loop, if the condition holds, and then the loop; all of it at the place of the
loop. -/
def unrolled (place : Option Place) (condition body : Tree) : Tree :=
  .node .conditional place
    [condition, .node .seq place [body, looped place condition body], .missing]

end Tree

open Scriptlet.Tree (looped unrolled)

section

variable (place : Option Place) (c b : Tree) (rounds depth : Nat)

theorem stmt_looped :
    (evaluator rounds (depth + 1)).stmt (looped place c b) = Eval.located place
      (repeatWhile ((evaluator rounds depth).test c) ((evaluator rounds depth).stmt b) rounds) :=
  rfl

theorem stmt_unrolled :
    ((evaluator rounds (depth + 3)).stmt (unrolled place c b)).hushed = Eval.located place
      (goRound ((evaluator rounds (depth + 2)).test c) ((evaluator rounds (depth + 1)).stmt b)
        (repeatWhile ((evaluator rounds depth).test c) ((evaluator rounds depth).stmt b)
          rounds)) := by
  have list : (evaluator rounds (depth + 2)).stmt (.node .seq place [b, looped place c b]) =
      Eval.located place (Evaluator.andThen ((evaluator rounds (depth + 1)).stmt b)
        (Eval.located place (repeatWhile ((evaluator rounds depth).test c)
          ((evaluator rounds depth).stmt b) rounds))) :=
    congrArg (Eval.located place) (Evaluator.sequence_eq _ b (looped place c b))
  rw [← Eval.hushed_round place _ _ (Eval.hushed_repeatWhile _ _ rounds), ← list]
  rfl

theorem prolongs_test {rounds rounds' depth depth' : Nat} (le : rounds ≤ rounds')
    (le' : depth ≤ depth') :
    Prolongs ((evaluator rounds depth).test c) ((evaluator rounds' depth').test c) :=
  .bind (prolongs_of_le le le' c).1 fun _ => .refl _

/-- A loop that settles ends like the unrolled one, whose list lies two levels deeper. The loop in
that list has a round more than it needs. -/
theorem prolongs_unrolled : Prolongs ((evaluator rounds depth).stmt (looped place c b))
    ((evaluator (rounds + 1) (depth + 3)).stmt (unrolled place c b)).hushed := by
  refine .trans (prolongs_of_le (Nat.le_succ rounds) (Nat.le_succ depth) _).2 ?_
  rw [stmt_looped, stmt_unrolled, repeatWhile_succ]
  refine SameUnless.located Failure.Unsettled.anywhere (.goRound ?_ ?_ ?_) place
  · exact prolongs_test c (Nat.le_refl _) (Nat.le_add_right depth 2)
  · exact (prolongs_of_le (Nat.le_refl _) (Nat.le_succ depth) b).2
  · exact .repeatWhile (.inl rfl) (.refl _) (.refl _) (Nat.le_succ rounds)

/-- An unrolled loop that settles ends like the loop, which needs one round more. -/
theorem prolongs_looped :
    Prolongs ((evaluator rounds depth).stmt (unrolled place c b)).hushed
      ((evaluator (rounds + 1) (depth + 3)).stmt (looped place c b)) := by
  have deeper := (prolongs_of_le (Nat.le_refl rounds) (Nat.le_add_right depth 3)
    (unrolled place c b)).2
  have longer := Nat.le_succ rounds
  refine .trans deeper.hushed ?_
  rw [stmt_unrolled, stmt_looped, repeatWhile_succ]
  refine SameUnless.located Failure.Unsettled.anywhere (.goRound ?_ ?_ ?_) place
  · exact prolongs_test c longer (Nat.le_refl _)
  · exact (prolongs_of_le longer (Nat.le_succ _) b).2
  · refine .repeatWhile (.inl rfl) ?_ ?_ (Nat.le_refl _)
    · exact prolongs_test c longer (Nat.le_add_right depth 2)
    · exact (prolongs_of_le longer (Nat.le_add_right depth 2) b).2

theorem datum_repeatWhile {test : Eval Bool} {body : Eval Completion} {rounds : Nat}
    {m n : Machine} {e : Completion} (ended : repeatWhile test body rounds m = .ok e n) :
    e.datum = .undefined := by
  induction rounds generalizing m with
  | zero => cases ended
  | succ rounds ih =>
    obtain ⟨again, _, -, ended⟩ := Eval.exists_of_bind ended
    cases again with
    | false =>
      cases ended
      rfl
    | true =>
      obtain ⟨⟨_, _ | _⟩, _, -, ended⟩ := Eval.exists_of_bind ended
      · exact ih ended
      · cases ended
        rfl

/-- No loop has a datum. -/
theorem datum_looped {m n : Machine} {e : Completion}
    (ended : (evaluator rounds depth).stmt (looped place c b) m = .ok e n) :
    e.datum = .undefined := by
  cases depth with
  | zero => cases ended
  | succ depth =>
    rw [stmt_looped] at ended
    exact datum_repeatWhile (Eval.eq_ok_of_located ended)

end

/-! ## Both come to the same -/

/-- The statement comes to an end, and does not go round for ever. -/
def Machine.Ends (m : Machine) (depth : Nat) (t : Tree)
    (r : Except Failure Completion × Machine) : Prop :=
  ∃ rounds, m.exec ⟨depth, rounds⟩ t = r ∧ r.1 ≠ .error .unfinished

/-- The same return, the same failure, or no return and nothing else either. -/
inductive SameEnd : Except Failure Completion → Except Failure Completion → Prop
  | normal : SameEnd (.ok .undefined) (.ok .undefined)
  | returning {d d' v} : SameEnd (.ok ⟨d, some v⟩) (.ok ⟨d', some v⟩)
  | failed {f} : SameEnd (.error f) (.error f)

section

variable {m : Machine} {t : Tree} {rounds rounds' depth depth' : Nat} {x y : Eval Completion}

theorem settles_iff : Settles x m ↔ ∀ f, (x.outcome m).1 = .error f → ¬f.Unsettled := by
  simp only [Settles, Eval.outcome]
  cases x m with
  | ok e n => exact ⟨fun _ _ failed => (by cases failed), fun _ => id⟩
  | error s n => exact ⟨fun h _ failed => Except.error.inj failed ▸ h, fun h => h _ rfl⟩

/-- What comes to an end within the limits settles. -/
theorem settles_of_within (within : WithinLimits (x.outcome m).1)
    (ends : (x.outcome m).1 ≠ .error .unfinished) : Settles x m := by
  refine settles_iff.mpr fun f failed => ?_
  rintro (rfl | hits)
  · exact ends failed
  · exact within f failed hits

theorem settles_of_isOk (h : (x.outcome m).1.isOk = true) : Settles x m := by
  refine settles_iff.mpr fun f failed => ?_
  rw [failed] at h
  cases h

/-- What settles under some limit comes to an end under any limit that it stays within. -/
theorem ends_of_settles (within : ∀ rounds, WithinLimits (m.exec ⟨depth, rounds⟩ t).1)
    (settles : Settles ((evaluator rounds depth').stmt t) m) : ∃ r, m.Ends depth t r := by
  have deepest := ((outlasts_of_le rounds (Nat.le_max_left depth depth') t).2 m).resolve_left
    (within rounds).not_limitHit
  have same := (prolongs_of_le (Nat.le_refl rounds) (Nat.le_max_right depth depth') t).2.eq settles
  rw [Settles, ← same, deepest] at settles
  exact ⟨_, rounds, rfl, fun unfinished => settles_iff.mp settles _ unfinished (.inl rfl)⟩

/-- Whether the limit is hit does not depend on the rounds. -/
theorem within_of_settles (settles : Settles ((evaluator rounds depth).stmt t) m)
    (rounds' : Nat) : WithinLimits (m.exec ⟨depth, rounds'⟩ t).1 := by
  refine .of_not_limitHit fun hit => ?_
  have most := (prolongs_of_le (Nat.le_max_left rounds rounds') (Nat.le_refl depth) t).2.eq settles
  rcases (outruns_of_le (Nat.le_max_right rounds rounds') depth t).2 m with unfinished | same
  · generalize (evaluator rounds' depth).stmt t m = r at hit unfinished
    cases r with
    | ok e n => exact hit
    | error s n =>
      obtain rfl : s = .unfinished := unfinished
      cases hit
  · rw [Settles, ← most, same] at settles
    exact settles (StoppedBy.imp (fun _ => .inr) hit)

theorem settles_hushed : Settles x.hushed m ↔ Settles x m := by
  simp only [Settles]
  cases ended : x m with
  | ok e n =>
    rw [Eval.hushed_eq_ok ended]
    exact Iff.rfl
  | error s n => rw [Eval.hushed_eq_error ended]

/-- Two trees that settle end alike, whatever their limits are. -/
theorem looped_eq_unrolled (place : Option Place) (c b : Tree)
    (settles : Settles ((evaluator rounds depth).stmt (looped place c b)) m)
    (settles' : Settles ((evaluator rounds' depth').stmt (unrolled place c b)) m) :
    (evaluator rounds depth).stmt (looped place c b) m =
      ((evaluator rounds' depth').stmt (unrolled place c b)).hushed m := by
  have once := (prolongs_unrolled place c b rounds depth).eq settles
  rw [Settles, ← once] at settles
  have wider := (prolongs_of_le (Nat.le_max_left (rounds + 1) rounds')
    (Nat.le_max_left (depth + 3) depth') (unrolled place c b)).2.hushed.eq settles
  have wider' := (prolongs_of_le (Nat.le_max_right (rounds + 1) rounds')
    (Nat.le_max_right (depth + 3) depth') (unrolled place c b)).2.hushed.eq
      (settles_hushed.mpr settles')
  exact once.symm.trans (wider.symm.trans wider')

theorem sameEnd_of_hushed (same : x m = y.hushed m)
    (quiet : ∀ e n, x m = .ok e n → e.datum = .undefined) :
    SameEnd (x.outcome m).1 (y.outcome m).1 ∧ (y.outcome m).2 = (x.outcome m).2 := by
  cases ended : y m with
  | error s n =>
    rw [Eval.hushed_eq_error ended] at same
    simp only [Eval.outcome, same, ended]
    exact ⟨.failed, trivial⟩
  | ok e n =>
    rw [Eval.hushed_eq_ok ended] at same
    have datum := quiet _ _ same
    simp only [Eval.outcome, same, ended]
    obtain ⟨d, _ | v⟩ := e
    · obtain rfl : d = .undefined := datum
      exact ⟨.normal, trivial⟩
    · exact ⟨.returning, trivial⟩

end

/-- As long as neither comes to the limit, a loop comes to its end exactly if the unrolled loop
does, and then both leave the same machine behind and end alike. -/
theorem loops_unroll (place : Option Place) (c b : Tree) {m : Machine} {depth depth' : Nat}
    (within : ∀ rounds, WithinLimits (m.exec ⟨depth, rounds⟩ (looped place c b)).1)
    (within' : ∀ rounds, WithinLimits (m.exec ⟨depth', rounds⟩ (unrolled place c b)).1) :
    ((∃ r, m.Ends depth (looped place c b) r) ↔ ∃ r, m.Ends depth' (unrolled place c b) r) ∧
    ∀ r r', m.Ends depth (looped place c b) r → m.Ends depth' (unrolled place c b) r' →
      SameEnd r.1 r'.1 ∧ r'.2 = r.2 := by
  refine ⟨⟨?_, ?_⟩, ?_⟩
  · rintro ⟨_, rounds, rfl, ends⟩
    have settles := settles_of_within (within rounds) ends
    have once := (prolongs_unrolled place c b rounds depth).eq settles
    rw [Settles, ← once] at settles
    exact ends_of_settles within' (settles_hushed.mp settles)
  · rintro ⟨_, rounds, rfl, ends⟩
    have settles := settles_hushed.mpr (settles_of_within (within' rounds) ends)
    have whole := (prolongs_looped place c b rounds depth').eq settles
    rw [Settles, ← whole] at settles
    exact ends_of_settles within settles
  · rintro _ _ ⟨rounds, rfl, ends⟩ ⟨rounds', rfl, ends'⟩
    have same := looped_eq_unrolled place c b (settles_of_within (within rounds) ends)
      (settles_of_within (within' rounds') ends')
    exact sameEnd_of_hushed same fun _ _ => datum_looped place c b rounds depth

/-- A loop that is gone round once. -/
theorem loops_unroll_once :
    let m : Machine := { store := ⟨#[⟨0, none, [("x", ⟨.bool true, none⟩)]⟩], #[none], 0, []⟩ }
    let c : Tree := .token .identifier "x" (some ⟨1, 8⟩)
    let b : Tree := .node .assign (some ⟨1, 11⟩)
      [.token .identifier "x" (some ⟨1, 11⟩), .token .falseWord "false" (some ⟨1, 15⟩)]
    (∀ rounds, WithinLimits (m.exec ⟨3, rounds⟩ (looped (some ⟨1, 1⟩) c b)).1) ∧
    (∀ rounds, WithinLimits (m.exec ⟨5, rounds⟩ (unrolled (some ⟨1, 1⟩) c b)).1) ∧
    ∃ r r', m.Ends 3 (looped (some ⟨1, 1⟩) c b) r ∧ m.Ends 5 (unrolled (some ⟨1, 1⟩) c b) r' ∧
      SameEnd r.1 r'.1 ∧ r'.2 = r.2 := by
  intro m c b
  have settles : Settles ((evaluator 2 3).stmt (looped (some ⟨1, 1⟩) c b)) m :=
    settles_of_isOk (by decide +kernel)
  have settles' : Settles ((evaluator 1 5).stmt (unrolled (some ⟨1, 1⟩) c b)) m :=
    settles_of_isOk (by decide +kernel)
  have within := within_of_settles settles
  have within' := within_of_settles settles'
  obtain ⟨same, alike⟩ := loops_unroll (some ⟨1, 1⟩) c b within within'
  obtain ⟨r, ends⟩ := ends_of_settles within settles
  obtain ⟨r', ends'⟩ := same.mp ⟨r, ends⟩
  exact ⟨within, within', r, r', ends, ends', alike r r' ends ends'⟩

end Scriptlet
