import Mathlib.Logic.Relation
import Scriptlet.Proofs.Guards
import Scriptlet.Proofs.Likeness
/-!
# Replacing statements

A rule says which statements may be put for which. If such a statement always does the same as the
one it is put for, perhaps with one more level of depth, then so does every program in which the
rule was applied, wherever and however often: in bodies of functions too, which are kept on the heap
and run later.
-/

namespace Scriptlet

/-! ## Trees in which parts are replaced -/

namespace Tree

/-- Some parts of a tree, none inside another, are replaced. -/
inductive Replaced (rel : Tree → Tree → Prop) : Tree → Tree → Prop
  | part {t t'} : rel t t' → Replaced rel t t'
  | missing : Replaced rel missing missing
  | token {kind text place} : Replaced rel (token kind text place) (token kind text place)
  | node {label place children children'} : List.Forall₂ (Replaced rel) children children' →
      Replaced rel (node label place children) (node label place children')

variable {rel : Tree → Tree → Prop}

mutual

theorem Replaced.refl : (t : Tree) → Replaced rel t t
  | .missing => .missing
  | .token .. => .token
  | .node _ _ children => .node (replaced_refl children)

theorem replaced_refl : (ts : List Tree) → List.Forall₂ (Replaced rel) ts ts
  | [] => .nil
  | t :: ts => .cons (.refl t) (replaced_refl ts)

end

mutual

theorem Replaced.symm (symm : ∀ {t t'}, rel t t' → rel t' t) :
    (t : Tree) → {t' : Tree} → Replaced rel t t' → Replaced rel t' t
  | _, _, .part h => .part (symm h)
  | .missing, _, .missing => .missing
  | .token .., _, .token => .token
  | .node _ _ children, _, .node h => .node (replaced_symm symm children h)

theorem replaced_symm (symm : ∀ {t t'}, rel t t' → rel t' t) :
    (ts : List Tree) → {ts' : List Tree} → List.Forall₂ (Replaced rel) ts ts' →
      List.Forall₂ (Replaced rel) ts' ts
  | [], _, .nil => .nil
  | t :: ts, _, .cons h hs => .cons (.symm symm t h) (replaced_symm symm ts hs)

end

end Tree

/-- Which statements may be put for which. -/
structure Rule where
  rel : Tree → Tree → Prop
  symm : ∀ {t t'}, rel t t' → rel t' t
  label : ∀ {t t'}, rel t t' → ∃ label place children, t = .node label place children ∧
    label ∈ [.decl, .assign, .bareExpr, .seq]
  shape : ∀ {t t'}, rel t t' → t.IsStmt → t'.IsStmt
  /-- It does the same, by itself and as the end of a list. -/
  stmt_agrees : ∀ {t t'}, rel t t' → ∀ rounds depth, Bodies.Agree Eq (Bodies.Completions Eq)
    ((evaluator rounds depth).stmt t) ((evaluator rounds (depth + 1)).stmt t')
  last_agrees : ∀ {t t'}, rel t t' → ∀ rounds depth, Bodies.Agree Eq (Bodies.Completions Eq)
    ((evaluator rounds depth).last t) ((evaluator rounds (depth + 1)).last t')

namespace Rule

open Scriptlet.Tree Bodies Evaluator

variable {rule : Rule}

/-! ## Where nothing is replaced -/

theorem missing {t' : Tree} (h : Replaced rule.rel .missing t') : t' = .missing := by
  cases h with
  | part here =>
    obtain ⟨_, _, _, same, _⟩ := rule.label here
    cases same
  | missing => rfl

theorem token {kind : TokenKind} {text : String} {place : Option Place} {t' : Tree}
    (h : Replaced rule.rel (.token kind text place) t') : t' = .token kind text place := by
  cases h with
  | part here =>
    obtain ⟨_, _, _, same, _⟩ := rule.label here
    cases same
  | token => rfl

/-- Nothing but statements is replaced. -/
theorem node {label : Label} {place : Option Place} {children : List Tree} {t' : Tree}
    (h : Replaced rule.rel (.node label place children) t')
    (other : label ∉ [.decl, .assign, .bareExpr, .seq] := by decide) :
    ∃ children', t' = .node label place children' ∧
      List.Forall₂ (Replaced rule.rel) children children' := by
  cases h with
  | part here =>
    obtain ⟨_, _, _, same, statement⟩ := rule.label here
    cases same
    exact absurd statement other
  | node inside => exact ⟨_, rfl, inside⟩

theorem name {t t' : Tree} (h : Replaced rule.rel t t') (name : t.IsName) : t' = t := by
  cases t with
  | token => exact token h
  | _ => exact name.elim

theorem names {ts ts' : List Tree} (h : List.Forall₂ (Replaced rule.rel) ts ts')
    (names : ∀ t ∈ ts, t.IsName) : ts' = ts := by
  induction h with
  | nil => rfl
  | cons same _ ih =>
    obtain ⟨first, rest⟩ := List.forall_mem_cons.mp names
    rw [name same first, ih rest]

section

variable {R : Tree → Tree → Prop} {a b c : Tree} {as ts : List Tree}

theorem related_one (h : List.Forall₂ R [a] ts) : ∃ a', ts = [a'] ∧ R a a' := by
  rcases h with _ | ⟨ha, _ | _⟩
  exact ⟨_, rfl, ha⟩

theorem related_two (h : List.Forall₂ R [a, b] ts) : ∃ a' b', ts = [a', b'] ∧ R a a' ∧ R b b' := by
  rcases h with _ | ⟨ha, _ | ⟨hb, _ | _⟩⟩
  exact ⟨_, _, rfl, ha, hb⟩

theorem related_mem (h : List.Forall₂ R as ts) {a' : Tree} (mem : a' ∈ ts) : ∃ a ∈ as, R a a' := by
  induction h with
  | nil => cases mem
  | cons same _ ih =>
    rcases List.mem_cons.mp mem with rfl | mem
    · exact ⟨_, List.mem_cons_self, same⟩
    · obtain ⟨a, mem, related⟩ := ih mem
      exact ⟨a, List.mem_cons_of_mem _ mem, related⟩

theorem related_three (h : List.Forall₂ R [a, b, c] ts) :
    ∃ a' b' c', ts = [a', b', c'] ∧ R a a' ∧ R b b' ∧ R c c' := by
  rcases h with _ | ⟨ha, _ | ⟨hb, _ | ⟨hc, _ | _⟩⟩⟩
  exact ⟨_, _, _, rfl, ha, hb, hc⟩

end

/-! ## Shapes -/

-- By the size of the tree, as the arguments of a call are taken out of a list.
mutual

theorem isExpr_replaced : {t t' : Tree} → t.IsExpr → Replaced rule.rel t t' → t'.IsExpr
  | _, _, .literal hk, r => token r ▸ .literal hk
  | _, _, .name hn, r => name r hn ▸ .name hn
  | _, _, .arithmetic hl hop left right, r => by
    obtain ⟨_, rfl, inside⟩ := node r (by rcases hl with rfl | rfl <;> decide)
    obtain ⟨_, _, _, rfl, l, op, r⟩ := related_three inside
    exact token op ▸ .arithmetic hl hop (isExpr_replaced left l) (isExpr_replaced right r)
  | _, _, .comparison hop left right, r => by
    obtain ⟨_, rfl, inside⟩ := node r
    obtain ⟨_, _, _, rfl, l, op, r⟩ := related_three inside
    exact token op ▸ .comparison hop (isExpr_replaced left l) (isExpr_replaced right r)
  | _, _, .logical hl left right, r => by
    obtain ⟨_, rfl, inside⟩ := node r (by rcases hl with rfl | rfl <;> decide)
    obtain ⟨_, _, rfl, l, r⟩ := related_two inside
    exact .logical hl (isExpr_replaced left l) (isExpr_replaced right r)
  | _, _, .signed hl operand, r => by
    obtain ⟨_, rfl, inside⟩ := node r (by rcases hl with rfl | rfl <;> decide)
    obtain ⟨_, rfl, e⟩ := related_one inside
    exact .signed hl (isExpr_replaced operand e)
  | _, _, .update hl operand, r => by
    obtain ⟨_, rfl, inside⟩ := node r (by
      simp only [List.mem_cons, List.not_mem_nil, or_false] at hl
      rcases hl with rfl | rfl | rfl | rfl <;> decide)
    obtain ⟨_, rfl, e⟩ := related_one inside
    exact .update hl (isExpr_replaced operand e)
  | _, _, .function hn hp body, r => by
    obtain ⟨_, rfl, inside⟩ := node r
    obtain ⟨_, _, _, rfl, n, ps, b⟩ := related_three inside
    obtain ⟨_, rfl, params⟩ := node ps
    obtain rfl := names params hp
    refine .function ?_ hp (isStmt_replaced body b)
    rcases hn with rfl | hn
    · exact .inl (missing n)
    · exact .inr (name n hn ▸ hn)
  | _, _, .call function args, r => by
    obtain ⟨_, rfl, inside⟩ := node r
    obtain ⟨_, _, rfl, f, as⟩ := related_two inside
    obtain ⟨_, rfl, values⟩ := node as
    refine .call (isExpr_replaced function f) fun a' mem => ?_
    obtain ⟨a, mem, same⟩ := related_mem values mem
    exact isExpr_replaced (args a mem) same
  | _, _, .unsupported hl, r => by
    obtain ⟨_, rfl, _⟩ := node r (by rcases hl with rfl | rfl <;> decide)
    exact .unsupported hl
termination_by t => sizeOf t

theorem isStmt_replaced : {t t' : Tree} → t.IsStmt → Replaced rule.rel t t' → t'.IsStmt
  | _, _, h, .part here => rule.shape here h
  | _, _, .empty, .node .nil => .empty
  | _, _, .seq first rest, .node inside => by
    obtain ⟨_, _, rfl, f, r⟩ := related_two inside
    exact .seq (isStmt_replaced first f) (isStmt_replaced rest r)
  | _, _, .store hl target value, .node inside => by
    obtain ⟨_, _, rfl, x, e⟩ := related_two inside
    exact .store hl (name x target ▸ target) (isExpr_replaced value e)
  | _, _, .bareExpr value, .node inside => by
    obtain ⟨_, rfl, e⟩ := related_one inside
    exact .bareExpr (isExpr_replaced value e)
  | _, _, .ifOnly test body, .node inside => by
    obtain ⟨_, _, _, rfl, c, b, o⟩ := related_three inside
    exact missing o ▸ .ifOnly (isExpr_replaced test c) (isStmt_replaced body b)
  | _, _, .ifElse test body other, .node inside => by
    obtain ⟨_, _, _, rfl, c, b, o⟩ := related_three inside
    exact .ifElse (isExpr_replaced test c) (isStmt_replaced body b) (isStmt_replaced other o)
  | _, _, .loop test body, .node inside => by
    obtain ⟨_, _, rfl, c, b⟩ := related_two inside
    exact .loop (isExpr_replaced test c) (isStmt_replaced body b)
  | _, _, .ret value, .node inside => by
    obtain ⟨_, rfl, e⟩ := related_one inside
    exact .ret (isExpr_replaced value e)
termination_by t => sizeOf t

end

/-! ## Evaluators -/

/-- Statements that are put for one another, as bodies of functions. -/
def Stmts (rule : Rule) (t t' : Tree) : Prop := t.IsStmt ∧ Replaced rule.rel t t'

/-- The second evaluator does with what is put for a tree what the first one does with the tree. -/
structure Follows (rule : Rule) (inner inner' : Evaluator) : Prop where
  tells : inner.Tells
  expr : ∀ {t t'}, t.IsExpr → Replaced rule.rel t t' →
    Agree rule.Stmts (Data rule.Stmts) (inner.expr t) (inner'.expr t')
  stmt : ∀ {t t'}, t.IsStmt → Replaced rule.rel t t' →
    Agree rule.Stmts (Completions rule.Stmts) (inner.stmt t) (inner'.stmt t')
  last : ∀ {t t'}, t.IsStmt → Replaced rule.rel t t' →
    Agree rule.Stmts (Completions rule.Stmts) (inner.last t) (inner'.last t')

/-- An expression that spells a name is not replaced, nor is the kind of any other. -/
theorem expr_head {t t' : Tree} (ht : t.IsExpr) (r : Replaced rule.rel t t') :
    t.identifier? = t'.identifier? ∧ t.kindName = t'.kindName := by
  cases t with
  | missing =>
    rw [missing r]
    exact ⟨rfl, rfl⟩
  | token =>
    rw [token r]
    exact ⟨rfl, rfl⟩
  | node label place children =>
    have other : label ∉ [.decl, .assign, .bareExpr, .seq] := by
      intro statement
      simp only [List.mem_cons, List.not_mem_nil, or_false] at statement
      rcases statement with rfl | rfl | rfl | rfl <;> rcases ht <;> simp_all [Tree.IsName]
    obtain ⟨_, rfl, _⟩ := node r other
    exact ⟨rfl, rfl⟩

namespace Follows

variable {inner inner' : Evaluator} (h : rule.Follows inner inner')
include h

theorem call {f f' : Closure} {args args' : List Datum} (hf : Closures rule.Stmts f f')
    (ha : List.Forall₂ (Data rule.Stmts) args args') :
    Agree rule.Stmts (Data rule.Stmts) (inner.call f args) (inner'.call f' args') := by
  have body : Agree rule.Stmts (Completions rule.Stmts)
      (do bindParams f.params args; inner.stmt f.body)
      (do bindParams f'.params args'; inner'.stmt f'.body) := by
    rw [hf.params]
    exact Agree.bind ((parallel rule.Stmts).bindParams f'.params ha) fun _ _ _ =>
      h.stmt hf.body.1 hf.body.2
  have tells : (do bindParams f.params args; inner.stmt f.body).Tells :=
    (Eval.tells_bindParams f.params args).bind fun _ => h.tells.stmt f.body
  rw [Evaluator.call_eq, Evaluator.call_eq, ← hf.scope]
  have recorded : Agree rule.Stmts (fun _ _ => True) (Eval.record (.call f args.length))
      (Eval.record (.call f' args'.length)) := fun _ _ heaps => .ok trivial (heaps.record _ _)
  refine recorded.bind fun _ _ _ => agree_scope body tells ?_ ?_ f.scope
  · intro e e' ending
    cases ending with
    | ok same => exact .pure (same.result data_undefined)
    | error same =>
      cases same with
      | tooDeep => exact .fail _
      | fault => exact .throw .fault
      | unfinished => exact .throw .unfinished
  · intro stop limit
    cases stop with
    | tooDeep => exact ⟨.fault .callsTooDeep none, .calls, rfl⟩
    | fault => exact ⟨_, limit, rfl⟩
    | unfinished => exact ⟨_, limit, rfl⟩

theorem operation {γ : Type} {find : String → Option (Float → Float → γ)}
    {unknown : String → Fault} (own : ∀ op, (unknown op).IsOwn) {result : γ → Value}
    (plain : ∀ c tag, result c ≠ .ref tag) {left left' right right' : Tree} (hl : left.IsExpr)
    (rl : Replaced rule.rel left left') (hr : right.IsExpr)
    (rr : Replaced rule.rel right right') (op : Tree) :
    Agree rule.Stmts (Data rule.Stmts) (inner.operation find unknown result left op right)
      (inner'.operation find unknown result left' op right') :=
  (parallel rule.Stmts).operation (h.expr hl rl) (h.expr hr rr) find own plain
    (.refl (R := Eq) (fun _ => rfl) op) rfl

theorem exprStep {t t' : Tree} (ht : t.IsExpr) (r : Replaced rule.rel t t') :
    Agree rule.Stmts (Data rule.Stmts) (inner.exprStep t) (inner'.exprStep t') := by
  cases ht with
  | literal =>
    rw [token r]
    exact (parallel rule.Stmts).tokenValue fun _ => trivial
  | name hn =>
    rw [name r hn]
    cases t with
    | token => exact (parallel rule.Stmts).tokenValue fun _ => trivial
    | _ => exact hn.elim
  | @arithmetic _ _ _ kind op place _ hl _ left right =>
    rcases hl with rfl | rfl <;>
    · obtain ⟨_, rfl, inside⟩ := node r
      obtain ⟨_, _, _, rfl, rl, ro, rr⟩ := related_three inside
      rw [token ro]
      refine h.operation ?_ ?_ left rl right rr (.token kind op place)
      · exact fun _ => trivial
      · exact fun _ _ => nofun
  | @comparison _ _ kind op place _ _ left right =>
    obtain ⟨_, rfl, inside⟩ := node r
    obtain ⟨_, _, _, rfl, rl, ro, rr⟩ := related_three inside
    rw [token ro]
    refine h.operation ?_ ?_ left rl right rr (.token kind op place)
    · exact fun _ => trivial
    · exact fun _ _ => nofun
  | logical hl left right =>
    rcases hl with rfl | rfl <;>
    · obtain ⟨_, rfl, inside⟩ := node r
      obtain ⟨_, _, rfl, rl, rr⟩ := related_two inside
      exact (parallel rule.Stmts).shortCircuit (h.expr left rl) (h.expr right rr) _
  | signed hl operand =>
    rcases hl with rfl | rfl <;>
    · obtain ⟨_, rfl, inside⟩ := node r
      obtain ⟨_, rfl, re⟩ := related_one inside
      exact (parallel rule.Stmts).signed (h.expr operand re) _
  | update hl operand =>
    simp only [List.mem_cons, List.not_mem_nil, or_false] at hl
    rcases hl with rfl | rfl | rfl | rfl <;>
    · obtain ⟨_, rfl, inside⟩ := node r
      obtain ⟨_, rfl, re⟩ := related_one inside
      obtain ⟨same, kind⟩ := expr_head operand re
      exact (parallel rule.Stmts).update _ _ same kind fun _ _ => trivial
  | @function _ called _ _ _ hn hp body =>
    obtain ⟨_, rfl, inside⟩ := node r
    obtain ⟨called', _, _, rfl, rn, rp, rb⟩ := related_three inside
    obtain ⟨_, rfl, params⟩ := node rp
    obtain rfl := names params hp
    have same : called' = called := by
      rcases hn with rfl | hn
      · exact missing rn
      · exact name rn hn
    rw [same]
    have named := Tree.Alike.refl (R := fun a b => a.identifier? = b.identifier?) fun _ => rfl
    exact (parallel rule.Stmts).makeFunction rfl (named _) ⟨body, rb⟩
  | call function args =>
    obtain ⟨_, rfl, inside⟩ := node r
    obtain ⟨_, _, rfl, rf, ra⟩ := related_two inside
    obtain ⟨args', rfl, values⟩ := node ra
    have both := (List.forall₂_and_left _ args').mpr ⟨args, values⟩
    have values := (parallel rule.Stmts).mapM both fun _ _ ⟨ha, ra⟩ => h.expr ha ra
    exact (parallel rule.Stmts).application (h.expr function rf) (expr_head function rf).1
      (fun _ _ => trivial) values h.call
  | unsupported hl =>
    rcases hl with rfl | rfl <;>
    · obtain ⟨_, rfl, _⟩ := node r
      exact .fail _

/-- A statement that is not replaced itself. -/
theorem stmtStep (rounds : Nat) {label : Label} {place : Option Place}
    {children children' : List Tree} (ht : (Tree.node label place children).IsStmt)
    (inside : List.Forall₂ (Replaced rule.rel) children children') :
    Agree rule.Stmts (Completions rule.Stmts) (inner.stmtStep rounds (.node label place children))
      (inner'.stmtStep rounds (.node label place children')) := by
  cases ht with
  | empty =>
    cases inside
    exact .pure completions_undefined
  | seq first rest =>
    obtain ⟨_, _, rfl, rf, rr⟩ := related_two inside
    rw [Evaluator.stmtStep, Evaluator.stmtStep, two, two, sequence_eq, sequence_eq]
    exact (h.stmt first rf).andThen (h.last rest rr)
  | store hl target value =>
    obtain ⟨_, _, rfl, rt, rv⟩ := related_two inside
    rw [name rt target]
    rcases hl with rfl | rfl
    · exact (parallel rule.Stmts).store (h.expr value rv) _ rfl
    · exact (parallel rule.Stmts).store (h.expr value rv) _ rfl
  | bareExpr value =>
    obtain ⟨_, rfl, re⟩ := related_one inside
    exact (parallel rule.Stmts).bare (h.expr value re)
  | ifOnly test body =>
    obtain ⟨_, _, _, rfl, rc, rb, ro⟩ := related_three inside
    rw [missing ro]
    exact (parallel rule.Stmts).branch (h.expr test rc) (h.stmt body rb) Iff.rfl fun some =>
      absurd rfl some
  | @ifElse _ _ _ other' test body other =>
    obtain ⟨_, _, other'', rfl, rc, rb, ro⟩ := related_three inside
    have some : other' = .missing ↔ other'' = .missing := by
      have there := isStmt_replaced other ro
      exact iff_of_false (by rintro rfl; cases other) (by rintro rfl; cases there)
    exact (parallel rule.Stmts).branch (h.expr test rc) (h.stmt body rb) some fun _ =>
      h.stmt other ro
  | loop test body =>
    obtain ⟨_, _, rfl, rc, rb⟩ := related_two inside
    have again := (parallel rule.Stmts).test (h.expr test rc)
    exact (parallel rule.Stmts).repeatWhile again (h.stmt body rb) rounds
  | ret value =>
    obtain ⟨_, rfl, re⟩ := related_one inside
    exact (parallel rule.Stmts).returning (h.expr value re)

end Follows

/-! ## Levels -/

section

variable {inner inner' : Evaluator} {rounds : Nat}

theorem last_same (same : ∀ {t}, t.IsStmt →
      Agree rule.Stmts (Completions rule.Stmts) (inner.stmt t) (inner'.stmt t))
    {t : Tree} (ht : t.IsStmt) :
    Agree rule.Stmts (Completions rule.Stmts) (inner.last t) (inner'.last t) := by
  cases ht with
  | seq first rest =>
    rw [Evaluator.last, Evaluator.last, sequence_eq, sequence_eq]
    exact (same first).andThen (last_same same rest)
  | empty => exact same .empty
  | store which target value =>
    rcases which with rfl | rfl
    · exact same (.store (.inl rfl) target value)
    · exact same (.store (.inr rfl) target value)
  | bareExpr value => exact same (.bareExpr value)
  | ifOnly test body => exact same (.ifOnly test body)
  | ifElse test body other => exact same (.ifElse test body other)
  | loop test body => exact same (.loop test body)
  | ret value => exact same (.ret value)

section

variable {depth depth' : Nat}
  (same : ∀ {t}, t.IsStmt → Agree rule.Stmts (Completions rule.Stmts)
    ((evaluator rounds depth).stmt t) ((evaluator rounds depth').stmt t))
  (replaced : ∀ {t t'}, t.IsStmt → Replaced rule.rel t t' →
    Agree rule.Stmts (Completions rule.Stmts) ((evaluator rounds depth).stmt t)
      ((evaluator rounds (depth' + 1)).stmt t'))
include same replaced

theorem last_single {label : Label} {place : Option Place} {children : List Tree} {t' : Tree}
    (ht : (Tree.node label place children).IsStmt) (other : label ≠ .seq)
    (r : Replaced rule.rel (.node label place children) t') :
    Agree rule.Stmts (Completions rule.Stmts)
      ((evaluator rounds depth).last (.node label place children))
      ((evaluator rounds (depth' + 1)).last t') := by
  cases r with
  | part here => exact (last_same same ht).trans (rule.last_agrees here rounds depth')
  | node inside =>
    rw [last_of_label other, last_of_label other]
    exact replaced ht (.node inside)

/-- If statements agree, so do the ends of lists. -/
theorem last_replaced {t : Tree} (ht : t.IsStmt) {t' : Tree} (r : Replaced rule.rel t t') :
    Agree rule.Stmts (Completions rule.Stmts) ((evaluator rounds depth).last t)
      ((evaluator rounds (depth' + 1)).last t') := by
  cases ht with
  | seq first rest =>
    cases r with
    | part here =>
      exact (last_same same (.seq first rest)).trans (rule.last_agrees here rounds depth')
    | node inside =>
      obtain ⟨_, _, rfl, rf, rr⟩ := related_two inside
      rw [Evaluator.last, Evaluator.last, sequence_eq, sequence_eq]
      exact (replaced first rf).andThen (last_replaced rest rr)
  | empty => exact last_single same replaced .empty (by decide) r
  | store which target value =>
    rcases which with rfl | rfl
    · exact last_single same replaced (.store (.inl rfl) target value) (by decide) r
    · exact last_single same replaced (.store (.inr rfl) target value) (by decide) r
  | bareExpr value => exact last_single same replaced (.bareExpr value) (by decide) r
  | ifOnly test body => exact last_single same replaced (.ifOnly test body) (by decide) r
  | ifElse test body other =>
    exact last_single same replaced (.ifElse test body other) (by decide) r
  | loop test body => exact last_single same replaced (.loop test body) (by decide) r
  | ret value => exact last_single same replaced (.ret value) (by decide) r

end

theorem Follows.deepenExpr (h : rule.Follows inner inner') {t t' : Tree} (ht : t.IsExpr)
    (r : Replaced rule.rel t t') : Agree rule.Stmts (Data rule.Stmts)
      ((inner.deepen rounds).expr t) ((inner'.deepen rounds).expr t') :=
  (h.exprStep ht r).located _ _

theorem Follows.deepenSame (h : rule.Follows inner inner') {t : Tree} (ht : t.IsStmt) :
    Agree rule.Stmts (Completions rule.Stmts) ((inner.deepen rounds).stmt t)
      ((inner'.deepen rounds).stmt t) := by
  cases t with
  | node label place children => exact (h.stmtStep rounds ht (replaced_refl children)).located _ _
  | _ => cases ht

end

/-- With more than twice the depth, the second run can afford the levels that the replaced
statements take. -/
theorem follows (rule : Rule) (rounds : Nat) {depth depth' : Nat} (deeper : 2 * depth < depth') :
    rule.Follows (evaluator rounds depth) (evaluator rounds depth') := by
  induction depth generalizing depth' with
  | zero =>
    obtain ⟨less, rfl⟩ := Nat.exists_eq_succ_of_ne_zero (Nat.ne_of_gt deeper)
    exact ⟨evaluator_tells rounds 0, fun _ _ => .tooDeep _, fun _ _ => .tooDeep _,
      fun ht r => last_replaced (fun _ => .tooDeep _) (fun _ _ => .tooDeep _) ht r⟩
  | succ depth ih =>
    obtain ⟨less, rfl⟩ := Nat.exists_eq_add_of_lt (show 1 < depth' by omega)
    rw [show 1 + less + 1 = less + 1 + 1 by omega] at deeper ⊢
    have inside := ih (show 2 * depth < less by omega)
    have outside := ih (show 2 * depth < less + 1 by omega)
    have same {t : Tree} (ht : t.IsStmt) : Agree rule.Stmts (Completions rule.Stmts)
        ((evaluator rounds (depth + 1)).stmt t) ((evaluator rounds (less + 1)).stmt t) :=
      inside.deepenSame ht
    have replaced {t t' : Tree} (ht : t.IsStmt) (r : Replaced rule.rel t t') :
        Agree rule.Stmts (Completions rule.Stmts) ((evaluator rounds (depth + 1)).stmt t)
          ((evaluator rounds (less + 1 + 1)).stmt t') := by
      cases r with
      | part here => exact (same ht).trans (rule.stmt_agrees here rounds (less + 1))
      | node children => exact (outside.stmtStep rounds ht children).located _ _
      | missing => cases ht
      | token => cases ht
    exact ⟨evaluator_tells rounds (depth + 1), outside.deepenExpr, replaced,
      fun ht r => last_replaced same replaced ht r⟩

end Rule

/-! ## Runs -/

open Bodies Scriptlet.Tree

variable {rounds depth depth' : Nat} {t t' : Tree} {m : Machine}

/-- More depth does not change a run that is within its limits. -/
theorem exec_deeper (le : depth ≤ depth')
    (within : WithinLimits (m.exec ⟨depth, rounds⟩ t).1) :
    (m.exec ⟨depth', rounds⟩ t).1 = (m.exec ⟨depth, rounds⟩ t).1 ∧
      (m.exec ⟨depth', rounds⟩ t).2.store = (m.exec ⟨depth, rounds⟩ t).2.store ∧
      (m.exec ⟨depth', rounds⟩ t).2.anonymous = (m.exec ⟨depth, rounds⟩ t).2.anonymous := by
  have agree := (Comparison.evaluators_of_le (c := Comparison.shallow) Failure.HitsLimit.nesting
    rounds le).stmt (t := t) rfl
  have start : Comparison.shallow.Machines _ m m :=
    Comparison.Machines.of_sameFrames (fun _ => rfl) ⟨rfl, rfl, rfl⟩
  obtain ⟨outcomes, machines⟩ := (agree _ m m rfl start).outcomes (fun _ hits => hits) within
  exact ⟨(Comparison.Outcomes.eq outcomes).symm, (Comparison.Machines.store_eq machines rfl).symm,
    machines.anonymous.symm⟩

namespace Rule

variable (rule : Rule)

/-- On a heap that programs left, every body may stand for itself. -/
theorem heaps_refl (sound : m.store.Sound) : Heaps rule.Stmts m m := by
  refine .refl fun i frame found slot mem f function => ?_
  exact ⟨(sound i frame found slot mem f function).body, .refl f.body⟩

theorem exec_replaced (ht : t.IsStmt) (r : Replaced rule.rel t t') (sound : m.store.Sound)
    (deeper : 2 * depth < depth') (within : WithinLimits (m.exec ⟨depth, rounds⟩ t).1) :
    Results rule.Stmts (m.exec ⟨depth, rounds⟩ t) (m.exec ⟨depth', rounds⟩ t') :=
  ((rule.follows rounds deeper).stmt ht r).results (rule.heaps_refl sound) within

/-- The rule may be applied again and again, also to what came of it. -/
def Reaches : Tree → Tree → Prop := Relation.ReflTransGen (Replaced rule.rel)

variable {rule}

theorem Reaches.symm (r : rule.Reaches t t') : rule.Reaches t' t := by
  induction r with
  | refl => exact .refl
  | tail _ r ih => exact .head (.symm rule.symm _ r) ih

theorem Reaches.isStmt (r : rule.Reaches t t') (ht : t.IsStmt) : t'.IsStmt := by
  induction r with
  | refl => exact ht
  | tail _ r ih => exact isStmt_replaced ih r

/-- A run within its limits can be had of the other tree too, with enough depth. -/
theorem Reaches.exec (r : rule.Reaches t t') (ht : t.IsStmt) (sound : m.store.Sound)
    (within : WithinLimits (m.exec ⟨depth, rounds⟩ t).1) : ∃ least, ∀ depth' > least,
      Results rule.Reaches (m.exec ⟨depth, rounds⟩ t) (m.exec ⟨depth', rounds⟩ t') := by
  induction r using Relation.ReflTransGen.head_induction_on generalizing depth with
  | refl =>
    refine ⟨2 * depth, fun depth' deeper => ?_⟩
    have same := rule.exec_replaced ht (.refl t') sound deeper within
    exact ⟨same.outcome.imp fun _ _ h => .single h.2, same.heap.imp fun _ _ h => .single h.2⟩
  | head first _ ih =>
    have here := rule.exec_replaced ht first sound (Nat.lt_succ_self _) within
    obtain ⟨least, rest⟩ := ih (isStmt_replaced ht first) (here.outcome.within within)
    refine ⟨least, fun depth' deeper => ?_⟩
    have there := rest depth' deeper
    have chain (t u v : Tree) (h : rule.Stmts t u) (h' : rule.Reaches u v) : rule.Reaches t v :=
      .head h.2 h'
    exact ⟨here.outcome.trans chain there.outcome, here.heap.trans chain there.heap⟩

end Rule

/-- Whatever the limits are, two trees come to the same if neither run hits one; and if one of them
can be run without hitting one, so can the other. -/
structure Interchangeable (R : Tree → Tree → Prop) (m : Machine) (t t' : Tree) : Prop where
  results : ∀ {rounds depth depth' : Nat}, WithinLimits (m.exec ⟨depth, rounds⟩ t).1 →
    WithinLimits (m.exec ⟨depth', rounds⟩ t').1 →
    Results R (m.exec ⟨depth, rounds⟩ t) (m.exec ⟨depth', rounds⟩ t')
  within : ∀ {rounds : Nat}, (∃ depth, WithinLimits (m.exec ⟨depth, rounds⟩ t).1) ↔
    ∃ depth, WithinLimits (m.exec ⟨depth, rounds⟩ t').1

theorem Rule.Reaches.interchangeable {rule : Rule} {src : String}
    (parsed : Source.parse src = .ok t) (r : rule.Reaches t t') (session : m.Session) :
    Interchangeable rule.Reaches m t t' := by
  obtain ⟨program, read, rfl⟩ := Source.parse_eq_ok_iff.mp parsed
  have ht := Source.readProgram_isStmt read
  constructor
  · intro rounds depth depth' within within'
    obtain ⟨least, rest⟩ := r.exec ht session.sound within
    have far := rest (max (least + 1) depth') (Nat.le_max_left _ _)
    obtain ⟨outcome, store, anonymous⟩ := exec_deeper (Nat.le_max_right (least + 1) depth') within'
    exact ⟨outcome ▸ far.outcome, far.heap.congr store.symm anonymous.symm⟩
  · intro rounds
    constructor
    · rintro ⟨depth, within⟩
      obtain ⟨least, rest⟩ := r.exec ht session.sound within
      exact ⟨least + 1, (rest _ (Nat.lt_succ_self _)).outcome.within within⟩
    · rintro ⟨depth, within⟩
      obtain ⟨least, rest⟩ := r.symm.exec (r.isStmt ht) session.sound within
      exact ⟨least + 1, (rest _ (Nat.lt_succ_self _)).outcome.within within⟩

end Scriptlet
