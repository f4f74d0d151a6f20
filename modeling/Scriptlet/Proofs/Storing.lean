import Scriptlet.Proofs.Replacement
/-!
# Three ways to store

A declaration and an assignment store alike, and so does a prefix increment that is a statement of
its own: it is an assignment of the sum.
-/

namespace Scriptlet

open Evaluator Bodies

/-- The tree of `x = x + 1;`, with any places. -/
def Tree.Increments (x : String) (t : Tree) : Prop :=
  ∃ p q r s v w, t = .node .assign p [.token .identifier x q,
    .node .add r [.token .identifier x s, .token .plus "+" v, .token .number "1" w]]

/-- Statements that store the same under the same name. -/
inductive Restores : Tree → Tree → Prop
  | assigned {p p' x q e} : Restores (.node .decl p [.token .identifier x q, e])
      (.node .assign p' [.token .identifier x q, e])
  | declared {p p' x q e} : Restores (.node .assign p [.token .identifier x q, e])
      (.node .decl p' [.token .identifier x q, e])
  | added {p q x r t} : t.Increments x →
      Restores (.node .bareExpr p [.node .preIncrement q [.token .identifier x r]]) t
  | incremented {p q x r t} : t.Increments x →
      Restores t (.node .bareExpr p [.node .preIncrement q [.token .identifier x r]])

theorem Restores.symm {t t' : Tree} (h : Restores t t') : Restores t' t := by
  cases h with
  | assigned => exact .declared
  | declared => exact .assigned
  | added h => exact .incremented h
  | incremented h => exact .added h

theorem Restores.isStmt {t t' : Tree} (h : Restores t t') (ht : t.IsStmt) : t'.IsStmt := by
  cases h with
  | assigned =>
    cases ht with
    | store _ target value => exact .store (.inr rfl) target value
  | declared =>
    cases ht with
    | store _ target value => exact .store (.inl rfl) target value
  | @added _ q x r _ h =>
    obtain ⟨_, _, _, _, _, _, rfl⟩ := h
    have name : x ≠ "" := by
      cases ht with
      | bareExpr e =>
        cases e with
        | name hn => exact hn.elim
        | update _ operand => exact operand.identifier? rfl
        | signed hl => simp at hl
        | unsupported hl => simp at hl
    exact .store (.inr rfl) name (.arithmetic (.inl rfl) rfl (.name name) (.literal rfl))
  | incremented h =>
    obtain ⟨_, _, _, _, _, _, rfl⟩ := h
    cases ht with
    | store _ target => exact .bareExpr (.update (by decide) (.name target))

/-! ## One store -/

/-- Adds one to a variable, in one go. -/
def increment (x : String) : Eval Completion := do
  let old ← lookUp x
  let new : Datum := ⟨.number (old.value.toNumber + 1), none⟩
  Eval.alloc x new
  return ⟨new, none⟩

section

variable {rounds depth depth' : Nat} {x : String}

theorem agree_store {label label' : Label} (hl : label = .decl ∨ label = .assign)
    (hl' : label' = .decl ∨ label' = .assign) (p p' q : Option Place) (e : Tree) :
    Agree Eq (Completions Eq)
      ((evaluator rounds depth).stmt (.node label p [.token .identifier x q, e]))
      ((evaluator rounds (depth + 1)).stmt (.node label' p' [.token .identifier x q, e])) := by
  cases depth with
  | zero => exact .tooDeep _
  | succ depth =>
    have stored (role role' : IdentifierRole) : Agree Eq (Completions Eq)
        ((evaluator rounds depth).store role (.token .identifier x q) e)
        ((evaluator rounds (depth + 1)).store role' (.token .identifier x q) e) :=
      -- The name is there, so that no message says what it is the name of.
      (deeper_expr (Nat.le_succ depth) e).bind fun _ _ same => (agree_alloc x same).bind
        fun _ _ _ => .pure (.of_datum same)
    rcases hl with rfl | rfl <;> rcases hl' with rfl | rfl <;> exact (stored _ _).located p p'

theorem agree_preIncrement (p p' q q' r r' : Option Place) : Agree Eq (Completions Eq)
    ((evaluator rounds (depth + 2)).stmt
      (.node .bareExpr p [.node .preIncrement q [.token .identifier x r]]))
    ((evaluator rounds (depth' + 2)).stmt
      (.node .bareExpr p' [.node .preIncrement q' [.token .identifier x r']])) := by
  have updated : Agree Eq (Data Eq) ((update false 1 (.token .identifier x r)).located q)
      ((update false 1 (.token .identifier x r')).located q') :=
    Agree.located ((parallel Eq).update false 1 rfl rfl fun _ _ => trivial) q q'
  exact (updated.bind fun _ _ same => .pure (.of_datum same)).located p p'

theorem preIncrement_eq_increment (rounds depth : Nat) : (evaluator rounds (depth + 2)).stmt
      (.node .bareExpr none [.node .preIncrement none [.token .identifier x none]]) =
    increment x := by
  have steps : (evaluator rounds (depth + 2)).stmt
        (.node .bareExpr none [.node .preIncrement none [.token .identifier x none]]) =
      (do
        let d ← (update false 1 (.token .identifier x none)).located none
        return ⟨d, none⟩ : Eval Completion).located none := rfl
  rw [steps, located_none, located_none]
  simp only [increment, update, Tree.identifier?, bind_assoc, pure_bind]
  rfl

theorem one_spelled : Number.ofText "1".toList = 1 := by decide +kernel

theorem expr_sum (r s v w : Option Place) : (evaluator rounds (depth + 2)).expr
      (.node .add r [.token .identifier x s, .token .plus "+" v, .token .number "1" w]) =
    ((lookUp x).located s >>= fun old =>
      pure ⟨.number (old.value.toNumber + 1), none⟩).located r := by
  rw [← one_spelled]
  rfl

theorem agree_sum {t t' : Tree} (ht : t.Increments x) (ht' : t'.Increments x) :
    Agree Eq (Completions Eq) ((evaluator rounds (depth + 3)).stmt t)
      ((evaluator rounds (depth' + 3)).stmt t') := by
  obtain ⟨p, q, r, s, v, w, rfl⟩ := ht
  obtain ⟨p', q', r', s', v', w', rfl⟩ := ht'
  have summed : Agree Eq (Data Eq)
      ((evaluator rounds (depth + 2)).expr
        (.node .add r [.token .identifier x s, .token .plus "+" v, .token .number "1" w]))
      ((evaluator rounds (depth' + 2)).expr
        (.node .add r' [.token .identifier x s', .token .plus "+" v', .token .number "1" w'])) := by
    rw [expr_sum, expr_sum]
    have found : Agree Eq (Data Eq) (lookUp x) (lookUp x) := (parallel Eq).lookUp trivial
    exact ((found.located s s').bind fun _ _ same =>
      .pure (same.eq ▸ data_of_value _)).located r r'
  exact (summed.bind fun _ _ same => (agree_alloc x same).bind fun _ _ _ =>
    .pure (.of_datum same)).located p p'

theorem sum_eq_increment (rounds depth : Nat) : (evaluator rounds (depth + 3)).stmt
      (.node .assign none [.token .identifier x none, .node .add none
        [.token .identifier x none, .token .plus "+" none, .token .number "1" none]]) =
    increment x := by
  have steps : (evaluator rounds (depth + 3)).stmt
        (.node .assign none [.token .identifier x none, .node .add none
          [.token .identifier x none, .token .plus "+" none, .token .number "1" none]]) =
      (do
        let d ← (evaluator rounds (depth + 2)).expr (.node .add none
          [.token .identifier x none, .token .plus "+" none, .token .number "1" none])
        Eval.alloc x d
        return ⟨d, none⟩ : Eval Completion).located none := rfl
  rw [steps, expr_sum, located_none, located_none, located_none]
  simp only [increment, bind_assoc, pure_bind]

variable {t : Tree} (ht : t.Increments x) (p q r : Option Place)
include ht

theorem agree_preIncrement_sum : Agree Eq (Completions Eq)
    ((evaluator rounds (depth + 2)).stmt
      (.node .bareExpr p [.node .preIncrement q [.token .identifier x r]]))
    ((evaluator rounds (depth + 3)).stmt t) := by
  have first : Agree Eq (Completions Eq)
      ((evaluator rounds (depth + 2)).stmt
        (.node .bareExpr p [.node .preIncrement q [.token .identifier x r]]))
      (increment x) := by
    rw [← preIncrement_eq_increment rounds depth]
    exact agree_preIncrement p none q none r none
  have second : Agree Eq (Completions Eq) (increment x)
      ((evaluator rounds (depth + 3)).stmt t) := by
    rw [← sum_eq_increment rounds depth]
    exact agree_sum ⟨_, _, _, _, _, _, rfl⟩ ht
  exact first.trans second

theorem agree_sum_preIncrement : Agree Eq (Completions Eq)
    ((evaluator rounds (depth + 3)).stmt t)
    ((evaluator rounds (depth + 4)).stmt
      (.node .bareExpr p [.node .preIncrement q [.token .identifier x r]])) := by
  have first : Agree Eq (Completions Eq) ((evaluator rounds (depth + 3)).stmt t) (increment x) := by
    rw [← sum_eq_increment rounds depth]
    exact agree_sum ht ⟨_, _, _, _, _, _, rfl⟩
  have second : Agree Eq (Completions Eq) (increment x)
      ((evaluator rounds (depth + 4)).stmt
        (.node .bareExpr p [.node .preIncrement q [.token .identifier x r]])) := by
    rw [← preIncrement_eq_increment rounds depth]
    exact agree_preIncrement none p none q none r
  exact first.trans second

end

theorem Restores.stmt_agrees {t t' : Tree} (h : Restores t t') (rounds depth : Nat) :
    Agree Eq (Completions Eq) ((evaluator rounds depth).stmt t)
      ((evaluator rounds (depth + 1)).stmt t') := by
  cases h with
  | assigned => exact agree_store (.inl rfl) (.inr rfl) _ _ _ _
  | declared => exact agree_store (.inr rfl) (.inl rfl) _ _ _ _
  | added h =>
    match depth with
    -- With so little depth the first run does not get as far as the name.
    | 0 => exact .tooDeep _
    | 1 => exact fun _ _ _ => .excused .nesting
    | depth + 2 => exact agree_preIncrement_sum h _ _ _
  | incremented h =>
    match depth with
    | 0 => exact .tooDeep _
    | 1 | 2 =>
      obtain ⟨_, _, _, _, _, _, rfl⟩ := h
      exact fun _ _ _ => .excused .nesting
    | depth + 3 => exact agree_sum_preIncrement h _ _ _

theorem Restores.single {t t' : Tree} (h : Restores t t') : ∃ label place children,
    t = .node label place children ∧ label ∈ [.decl, .assign, .bareExpr] := by
  cases h with
  | assigned => exact ⟨_, _, _, rfl, by decide⟩
  | declared => exact ⟨_, _, _, rfl, by decide⟩
  | added => exact ⟨_, _, _, rfl, by decide⟩
  | incremented h =>
    obtain ⟨_, _, _, _, _, _, rfl⟩ := h
    exact ⟨_, _, _, rfl, by decide⟩

theorem Restores.last_agrees {t t' : Tree} (h : Restores t t') (rounds depth : Nat) :
    Agree Eq (Completions Eq) ((evaluator rounds depth).last t)
      ((evaluator rounds (depth + 1)).last t') := by
  have run := h.stmt_agrees rounds depth
  have plain {u u' : Tree} (h : Restores u u') (inner : Evaluator) :
      inner.last u = inner.stmt u := by
    obtain ⟨label, _, _, rfl, other⟩ := h.single
    exact last_of_label (by rintro rfl; simp at other) _ _
  rwa [plain h, plain h.symm]

/-- A store may be written in any of the three ways. -/
def restoring : Rule where
  rel := Restores
  symm := Restores.symm
  label h := by
    obtain ⟨label, place, children, same, mem⟩ := h.single
    exact ⟨label, place, children, same, List.mem_append_left [Label.seq] mem⟩
  shape := Restores.isStmt
  stmt_agrees := Restores.stmt_agrees
  last_agrees := Restores.last_agrees

/-- Whichever stores of a program are written in another way, the ones in bodies of functions too,
it comes to the same, on any heap that programs left. -/
theorem stores_alike {src : String} {t t' : Tree} (parsed : Source.parse src = .ok t)
    (restored : Relation.ReflTransGen (Tree.Replaced Restores) t t') {m : Machine}
    (session : m.Session) :
    Interchangeable (Relation.ReflTransGen (Tree.Replaced Restores)) m t t' := by
  have reaches : restoring.Reaches t t' := restored
  exact reaches.interchangeable parsed session

private def declaredThenIncremented : Tree → Bool
  | .node .seq _ [.node .decl _ [.token .identifier _ _, _],
      .node .bareExpr _ [.node .preIncrement _ [.token .identifier _ _]]] => true
  | _ => false

/-- A declaration and an increment, both replaced. -/
theorem stores_alike_declared : ∃ o p q s u v x e y t,
    Source.parse "var x=1;++x;" = .ok (.node .seq o [.node .decl p [.token .identifier x q, e],
      .node .bareExpr s [.node .preIncrement u [.token .identifier y v]]]) ∧ t.Increments y ∧
    Interchangeable (Relation.ReflTransGen (Tree.Replaced Restores)) .fresh
      (.node .seq o [.node .decl p [.token .identifier x q, e],
        .node .bareExpr s [.node .preIncrement u [.token .identifier y v]]])
      (.node .seq o [.node .assign p [.token .identifier x q, e], t]) := by
  have shape : (Source.parse "var x=1;++x;").toOption.any declaredThenIncremented = true := by
    decide +kernel
  cases parsed : Source.parse "var x=1;++x;" with
  | error => simp [parsed, Except.toOption] at shape
  | ok t =>
    simp only [parsed, Except.toOption, Option.any_some] at shape
    rw [declaredThenIncremented.eq_def] at shape
    split at shape
    · rename_i o p x q e s u y v
      have increments : (Tree.node .assign s [.token .identifier y v, .node .add s
          [.token .identifier y v, .token .plus "+" v, .token .number "1" v]]).Increments y :=
        ⟨_, _, _, _, _, _, rfl⟩
      refine ⟨o, p, q, s, u, v, x, e, y, _, rfl, increments, ?_⟩
      exact stores_alike parsed (.single (.node (.cons (.part .assigned)
        (.cons (.part (.added increments)) .nil)))) (.fresh 0)
    · cases shape

end Scriptlet
