import Scriptlet.Proofs.Replacement
/-!
# Braces

Braces around statements group a list. Where the list is regrouped, the statements are still run one
after another, until one of them returns or fails; only their depths differ, by one level.
-/

namespace Scriptlet

open Evaluator Bodies

/-- A list of three, with the first two of them in braces or the last two. Where a list stands is
left open. -/
inductive Regroups : Tree → Tree → Prop
  | moved {p p' a b} : Regroups (.node .seq p [a, b]) (.node .seq p' [a, b])
  | inward {p q p' q' a b c} : Regroups
      (.node .seq p [.node .seq q [a, b], c]) (.node .seq p' [a, .node .seq q' [b, c]])
  | outward {p q p' q' a b c} : Regroups
      (.node .seq p [a, .node .seq q [b, c]]) (.node .seq p' [.node .seq q' [a, b], c])

theorem Regroups.symm {t t' : Tree} (h : Regroups t t') : Regroups t' t := by
  cases h with
  | moved => exact .moved
  | inward => exact .outward
  | outward => exact .inward

theorem Regroups.isStmt {t t' : Tree} (h : Regroups t t') (ht : t.IsStmt) : t'.IsStmt := by
  cases h with
  | moved =>
    cases ht with
    | seq ha hb => exact .seq ha hb
    | store hl => simp at hl
  | inward =>
    cases ht with
    | seq group hc =>
      cases group with
      | seq ha hb => exact .seq ha (.seq hb hc)
      | store hl => simp at hl
    | store hl => simp at hl
  | outward =>
    cases ht with
    | seq ha group =>
      cases group with
      | seq hb hc => exact .seq (.seq ha hb) hc
      | store hl => simp at hl
    | store hl => simp at hl

section

variable {rounds depth : Nat}

/-- A list by itself is run like the end of a list one level further in. -/
theorem stmt_list (place : Option Place) (children : List Tree) :
    (evaluator rounds (depth + 1)).stmt (.node .seq place children) =
      ((evaluator rounds depth).last (.node .seq place children)).located place := by
  rcases children with _ | ⟨_, _ | ⟨_, _ | _⟩⟩ <;> rfl

theorem last_pair (place : Option Place) (a b : Tree) :
    (evaluator rounds depth).last (.node .seq place [a, b]) =
      andThen ((evaluator rounds depth).stmt a) ((evaluator rounds depth).last b) :=
  sequence_eq _ a b

/-- Where a list stands does not matter. -/
theorem agree_stmt_last (t : Tree) : Agree Eq (Completions Eq) ((evaluator rounds depth).stmt t)
    ((evaluator rounds depth).last t) := by
  cases depth with
  | zero => exact .tooDeep _
  | succ depth =>
    have same : Agree Eq (Completions Eq) ((evaluator rounds (depth + 1)).stmt t)
        ((evaluator rounds (depth + 1)).stmt t) := deeper_stmt (Nat.le_refl _) t
    cases t with
    | node label place children =>
      by_cases list : label = .seq
      · subst list
        rw [stmt_list]
        exact (deeper_last (Nat.le_succ depth) _).locatedLeft place
      · rwa [last_of_label list]
    | _ => exact same

theorem agree_last_stmt (t : Tree) : Agree Eq (Completions Eq) ((evaluator rounds depth).last t)
    ((evaluator rounds (depth + 1)).stmt t) := by
  have deeper : Agree Eq (Completions Eq) ((evaluator rounds depth).stmt t)
      ((evaluator rounds (depth + 1)).stmt t) := deeper_stmt (Nat.le_succ depth) t
  cases t with
  | node label place children =>
    by_cases list : label = .seq
    · subst list
      rw [stmt_list]
      exact (deeper_last (Nat.le_refl depth) _).locatedRight place
    · rwa [last_of_label list]
  | _ => exact deeper

variable (p p' q q' : Option Place) (a b c : Tree)

theorem agree_inward : Agree Eq (Completions Eq)
    ((evaluator rounds depth).last (.node .seq p [.node .seq q [a, b], c]))
    ((evaluator rounds (depth + 1)).last (.node .seq p' [a, .node .seq q' [b, c]])) := by
  rw [last_pair, last_pair, last_pair, ← andThen_assoc]
  refine .andThen ?_ (deeper_last (Nat.le_succ depth) c)
  cases depth with
  | zero => exact .tooDeep _
  | succ depth =>
    rw [stmt_list, last_pair]
    refine (Agree.andThen ?_ ?_).locatedLeft q
    · exact deeper_stmt (by omega) a
    · exact (agree_last_stmt b).trans (deeper_stmt (Nat.le_succ _) b)

theorem agree_outward : Agree Eq (Completions Eq)
    ((evaluator rounds depth).last (.node .seq p [a, .node .seq q [b, c]]))
    ((evaluator rounds (depth + 1)).last (.node .seq p' [.node .seq q' [a, b], c])) := by
  rw [last_pair, last_pair, last_pair, ← andThen_assoc]
  refine .andThen ?_ (deeper_last (Nat.le_succ depth) c)
  rw [stmt_list, last_pair]
  refine .locatedRight (.andThen ?_ ?_) q'
  · exact deeper_stmt (Nat.le_refl depth) a
  · exact agree_stmt_last b

end

theorem Regroups.last_agrees {t t' : Tree} (h : Regroups t t') (rounds depth : Nat) :
    Agree Eq (Completions Eq) ((evaluator rounds depth).last t)
      ((evaluator rounds (depth + 1)).last t') := by
  cases h with
  | moved =>
    rw [last_pair, last_pair]
    exact (deeper_stmt (Nat.le_succ depth) _).andThen (deeper_last (Nat.le_succ depth) _)
  | inward => exact agree_inward _ _ _ _ _ _ _
  | outward => exact agree_outward _ _ _ _ _ _ _

theorem Regroups.lists {t t' : Tree} (h : Regroups t t') : ∃ place children place' children',
    t = .node .seq place children ∧ t' = .node .seq place' children' := by
  cases h <;> exact ⟨_, _, _, _, rfl, rfl⟩

theorem Regroups.stmt_agrees {t t' : Tree} (h : Regroups t t') (rounds depth : Nat) :
    Agree Eq (Completions Eq) ((evaluator rounds depth).stmt t)
      ((evaluator rounds (depth + 1)).stmt t') := by
  cases depth with
  | zero => exact .tooDeep _
  | succ depth =>
    have list := h.last_agrees rounds depth
    obtain ⟨_, _, _, _, rfl, rfl⟩ := h.lists
    rw [stmt_list, stmt_list]
    exact list.located _ _

/-- Any list may be regrouped. -/
def regrouping : Rule where
  rel := Regroups
  symm := Regroups.symm
  label h := by
    obtain ⟨place, children, _, _, same, _⟩ := h.lists
    exact ⟨.seq, place, children, same, by decide⟩
  shape := Regroups.isStmt
  stmt_agrees := Regroups.stmt_agrees
  last_agrees := Regroups.last_agrees

/-! ## Braces around a run -/

namespace Tree

open Relation

theorem reaches_rest {place : Option Place} {first rest rest' : Tree}
    (h : ReflTransGen (Replaced Regroups) rest rest') :
    ReflTransGen (Replaced Regroups) (.node .seq place [first, rest])
      (.node .seq place [first, rest']) := by
  induction h with
  | refl => exact .refl
  | tail _ step ih => exact ih.tail (.node (.cons (.refl first) (.cons step .nil)))

/-- The statements of a list in braces are those of the list around it. -/
theorem reaches_group (place inner : Option Place) (ys : List Tree) {z : Tree} {zs : List Tree}
    (some : ys ≠ []) : ReflTransGen (Replaced Regroups)
      (sequence place (sequence inner ys :: z :: zs)) (sequence place (ys ++ z :: zs)) := by
  induction ys with
  | nil => exact absurd rfl some
  | cons y ys ih =>
    cases ys with
    | nil => exact .refl
    | cons y' ys =>
      have first : Replaced Regroups
          (.node .seq place
            [.node .seq inner [y, sequence inner (y' :: ys)], sequence place (z :: zs)])
          (.node .seq place
            [y, .node .seq place [sequence inner (y' :: ys), sequence place (z :: zs)]]) :=
        .part .inward
      exact .head first (reaches_rest (ih (List.cons_ne_nil _ _)))

theorem reaches_moved (place inner : Option Place) (ys : List Tree) (some : ys ≠ []) :
    ReflTransGen (Replaced Regroups) (sequence inner ys) (sequence place ys) := by
  induction ys with
  | nil => exact absurd rfl some
  | cons y ys ih =>
    cases ys with
    | nil => exact .refl
    | cons y' ys => exact .head (.part .moved) (reaches_rest (ih (List.cons_ne_nil _ _)))

/-- Braces around some of the statements of a list are a regrouping. -/
theorem reaches_braces (place inner : Option Place) (xs ys zs : List Tree) (some : ys ≠ []) :
    ReflTransGen (Replaced Regroups) (sequence place (xs ++ sequence inner ys :: zs))
      (sequence place (xs ++ (ys ++ zs))) := by
  induction xs with
  | nil =>
    cases zs with
    | nil =>
      rw [List.append_nil]
      exact reaches_moved place inner ys some
    | cons z zs => exact reaches_group place inner ys some
  | cons x xs ih =>
    obtain ⟨u, us, hu⟩ := List.exists_cons_of_ne_nil
      (show xs ++ sequence inner ys :: zs ≠ [] by simp)
    obtain ⟨v, vs, hv⟩ := List.exists_cons_of_ne_nil (show xs ++ (ys ++ zs) ≠ [] by simp [some])
    rw [List.cons_append, List.cons_append]
    rw [hu, hv] at ih ⊢
    exact reaches_rest ih

end Tree

/-- However the lists in a program are regrouped, the ones in bodies of functions too, it comes to
the same, on any heap that programs left. -/
theorem braces_mean_nothing {src : String} {t t' : Tree} (parsed : Source.parse src = .ok t)
    (regrouped : Relation.ReflTransGen (Tree.Replaced Regroups) t t') {m : Machine}
    (session : m.Session) :
    Interchangeable (Relation.ReflTransGen (Tree.Replaced Regroups)) m t t' := by
  have reaches : regrouping.Reaches t t' := regrouped
  exact reaches.interchangeable parsed session

private def leftNested : Tree → Bool
  | .node .seq _ [.node .seq _ [_, _], _] => true
  | _ => false

/-- Two statements in braces in front of a third one. -/
theorem braces_mean_nothing_front : ∃ p q a b c,
    Source.parse "\x7ba;b;\x7dc;" = .ok (.node .seq p [.node .seq q [a, b], c]) ∧
      Interchangeable (Relation.ReflTransGen (Tree.Replaced Regroups)) .fresh
        (.node .seq p [.node .seq q [a, b], c]) (.node .seq p [a, .node .seq p [b, c]]) := by
  have shape : (Source.parse "\x7ba;b;\x7dc;").toOption.any leftNested = true := by decide +kernel
  cases parsed : Source.parse "\x7ba;b;\x7dc;" with
  | error => simp [parsed, Except.toOption] at shape
  | ok t =>
    simp only [parsed, Except.toOption, Option.any_some] at shape
    unfold leftNested at shape
    split at shape
    · exact ⟨_, _, _, _, _, rfl,
        braces_mean_nothing parsed (.single (.part .inward)) (.fresh 0)⟩
    · cases shape

end Scriptlet
