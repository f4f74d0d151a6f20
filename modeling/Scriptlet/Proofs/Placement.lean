import Mathlib.Data.List.Flatten
import Scriptlet.Proofs.Joining
import Scriptlet.Proofs.Keeping
/-!
# Where the parts of a tree stand

The tree of a phrase takes its leaves, in their order, from the tokens that the phrase keeps, and a
node begins with the first of the tokens of its phrase. These stand in the text as they do in the
list, so the places in a tree are true.
-/

namespace Scriptlet

/-! ## Leaves -/

/-- A token leaf of a tree: what it says, and where it stands. -/
structure Leaf where
  text : String
  place : Option Place
deriving DecidableEq, Repr

def Source.Name.leaf (name : Name) : Leaf := ⟨name.text, some name.place⟩

namespace Tree

/-- The `undefined` of a declaration or a return without a value: it has the place of the statement,
where another word stands. -/
def isFiller (label : Label) (place : Option Place) : Tree → Bool
  | .token .undefinedWord _ place' => (label == .decl || label == .ret) && place' == place
  | _ => false

mutual

/-- The token leaves from left to right, without those children of a node that are left out. -/
def leavesBut (out : Label → Option Place → Tree → Bool) : Tree → List Leaf
  | missing => []
  | token _ text place => [⟨text, place⟩]
  | node label place children => leavesBelow out label place children

def leavesBelow (out : Label → Option Place → Tree → Bool) (label : Label)
    (place : Option Place) : List Tree → List Leaf
  | [] => []
  | t :: ts =>
    (if out label place t then [] else t.leavesBut out) ++ leavesBelow out label place ts

end

/-- All token leaves. -/
def leaves (t : Tree) : List Leaf := t.leavesBut fun _ _ _ => false

/-- The token leaves that come from the source. -/
def written (t : Tree) : List Leaf := t.leavesBut isFiller

theorem leavesBelow_eq (out : Label → Option Place → Tree → Bool) (label : Label)
    (place : Option Place) (ts : List Tree) : leavesBelow out label place ts =
      (ts.filter fun t => !out label place t).flatMap (leavesBut out) := by
  induction ts with
  | nil => rfl
  | cons t ts ih => cases left : out label place t <;> simp [leavesBelow, ih, left]

@[simp]
theorem leaves_missing : missing.leaves = [] := by rw [leaves, leavesBut]

@[simp]
theorem leaves_token (kind : TokenKind) (text : String) (place : Option Place) :
    (token kind text place).leaves = [⟨text, place⟩] := by rw [leaves, leavesBut]

@[simp]
theorem leaves_node (label : Label) (place : Option Place) (ts : List Tree) :
    (node label place ts).leaves = ts.flatMap leaves := by
  rw [leaves, leavesBut, leavesBelow_eq]
  exact congrArg (List.flatMap leaves) (List.filter_eq_self.mpr fun _ _ => rfl)

@[simp]
theorem written_missing : missing.written = [] := by rw [written, leavesBut]

@[simp]
theorem written_token (kind : TokenKind) (text : String) (place : Option Place) :
    (token kind text place).written = [⟨text, place⟩] := by rw [written, leavesBut]

theorem written_node (label : Label) (place : Option Place) (ts : List Tree) :
    (node label place ts).written = (ts.filter (!·.isFiller label place)).flatMap written := by
  rw [written, leavesBut, leavesBelow_eq]
  rfl

theorem written_node_sublist (label : Label) (place : Option Place) (ts : List Tree) :
    (node label place ts).written.Sublist (ts.flatMap written) := by
  rw [written_node]
  exact List.filter_sublist.flatMap Tree.written

/-- Only a declaration or a return has a value filled in. -/
theorem written_node_of_ne {label : Label} (place : Option Place) (ts : List Tree)
    (other : label ≠ .decl ∧ label ≠ .ret) :
    (node label place ts).written = ts.flatMap written := by
  rw [written_node, List.filter_eq_self.mpr fun t _ => ?_]
  cases t with
  | token kind => cases kind <;> simp [isFiller, other]
  | _ => rfl

theorem written_sequence (place : Option Place) (ts : List Tree) :
    (sequence place ts).written = ts.flatMap written := by
  fun_induction sequence place ts with
  | case1 => simp [written_node]
  | case2 t => simp
  | case3 t ts more ih =>
    rw [written_node_of_ne _ _ (by decide)]
    simp [ih]

theorem leaves_sequence (place : Option Place) (ts : List Tree) :
    (sequence place ts).leaves = ts.flatMap leaves := by
  fun_induction sequence place ts with
  | case1 => simp
  | case2 t => simp
  | case3 t ts more ih => simp [ih]

/-- Every leaf of the trees stands at the place or behind it. -/
def Over (p : Place) (ts : List Tree) : Prop :=
  ∀ t ∈ ts, ∀ leaf ∈ t.leaves, ∃ q, leaf.place = some q ∧ p.AtOrBefore q

theorem Over.append {p : Place} {ts us : List Tree} (h : Over p ts) (h' : Over p us) :
    Over p (ts ++ us) :=
  fun t ht => (List.mem_append.mp ht).elim (h t) (h' t)

theorem Over.node {p : Place} {ts : List Tree} (h : Over p ts) (label : Label)
    (place : Option Place) : Over p [.node label place ts] := by
  refine List.forall_mem_singleton.mpr fun leaf hleaf => ?_
  rw [leaves_node] at hleaf
  obtain ⟨t, ht, hleaf⟩ := List.mem_flatMap.mp hleaf
  exact h t ht leaf hleaf

theorem Over.sequence {p : Place} {ts : List Tree} (h : Over p ts) (place : Option Place) :
    Over p [.sequence place ts] := by
  refine List.forall_mem_singleton.mpr fun leaf hleaf => ?_
  rw [leaves_sequence] at hleaf
  obtain ⟨t, ht, hleaf⟩ := List.mem_flatMap.mp hleaf
  exact h t ht leaf hleaf

/-- A node stands at or before the leaves below it. Only lists that are empty have no place, and
only at a `var` or a `return` is a value filled in. -/
inductive Grounded (spelled : List Source.Name) : Tree → Prop
  | missing : Grounded spelled missing
  | token {kind text place} : Grounded spelled (token kind text place)
  | placed {label p children} : Over p children →
      (∀ t ∈ children, t.isFiller label (some p) →
        ∃ n ∈ spelled, n.place = p ∧ (n.text = "var" ∨ n.text = "return")) →
      (∀ t ∈ children, Grounded spelled t) → Grounded spelled (node label (some p) children)
  | unplaced {label} : label = .params ∨ label = .args → Grounded spelled (node label none [])

theorem Grounded.sequence {spelled : List Source.Name} {p : Place} {ts : List Tree}
    (h : ∀ t ∈ ts, t.Grounded spelled) (spans : Over p ts) :
    (Tree.sequence (some p) ts).Grounded spelled := by
  generalize same : some p = place
  fun_induction Tree.sequence place ts with
  | case1 =>
    subst same
    exact .placed spans (by simp) h
  | case2 t => exact h t (List.mem_singleton_self t)
  | case3 t ts more ih =>
    obtain ⟨first, rest⟩ := List.forall_mem_cons.mp h
    obtain ⟨overFirst, overRest⟩ := List.forall_mem_cons.mp spans
    subst same
    refine .placed (List.forall_mem_cons.mpr ⟨overFirst, Over.sequence overRest _⟩)
      (fun t ht filler => ?_) ?_
    · cases t with
      | token kind => cases kind <;> simp [isFiller] at filler
      | _ => cases filler
    · exact List.forall_mem_cons.mpr ⟨first, List.forall_mem_singleton.mpr (ih rest overRest)⟩

theorem Grounded.part {spelled : List Source.Name} {whole t : Tree} (h : whole.Grounded spelled)
    (part : whole.Part t) : t.Grounded spelled := by
  induction part with
  | whole => exact h
  | child _ member ih =>
    cases ih with
    | placed _ _ inside => exact inside _ member
    | unplaced => cases member

end Tree

namespace Source

open Scriptlet.Tree

variable {spelled k k' : List Name} {ts us : List Tree} {l : Lowered} {p : Place}

/-- The trees take their leaves, in order, from the tokens `kept`. -/
structure AllFit (spelled : List Name) (ts : List Tree) (kept : List Name) : Prop where
  written : ∃ names : List Name, ts.flatMap Tree.written = names.map Name.leaf ∧ names.Sublist kept
  leaves : ∀ t ∈ ts, ∀ leaf ∈ t.leaves, ∃ n ∈ kept, leaf.place = some n.place
  grounded : ∀ t ∈ ts, t.Grounded spelled

namespace AllFit

theorem nil : AllFit spelled [] [] where
  written := ⟨[], rfl, .slnil⟩
  leaves := List.forall_mem_nil _
  grounded := List.forall_mem_nil _

theorem mono (h : AllFit spelled ts k) (sub : k.Sublist k') : AllFit spelled ts k' where
  written := by
    obtain ⟨names, same, kept⟩ := h.written
    exact ⟨names, same, kept.trans sub⟩
  leaves t ht leaf hleaf := by
    obtain ⟨n, hn, same⟩ := h.leaves t ht leaf hleaf
    exact ⟨n, sub.subset hn, same⟩
  grounded := h.grounded

theorem append (h : AllFit spelled ts k) (h' : AllFit spelled us k') :
    AllFit spelled (ts ++ us) (k ++ k') where
  written := by
    obtain ⟨names, same, kept⟩ := h.written
    obtain ⟨names', same', kept'⟩ := h'.written
    exact ⟨names ++ names', by simp [same, same'], kept.append kept'⟩
  leaves t ht := by
    rcases List.mem_append.mp ht with ht | ht
    · exact (h.mono (List.sublist_append_left k k')).leaves t ht
    · exact (h'.mono (List.sublist_append_right k k')).leaves t ht
  grounded t ht := (List.mem_append.mp ht).elim (h.grounded t) (h'.grounded t)

theorem name (kind : TokenKind) (n : Name) : AllFit spelled [n.tree kind] [n] where
  written := ⟨[n], by simp [Name.tree, Name.leaf], .refl _⟩
  leaves := by simp [Name.tree]
  grounded := by
    rintro t ht
    obtain rfl := List.mem_singleton.mp ht
    exact .token

theorem missing : AllFit spelled [.missing] [] where
  written := ⟨[], by simp, .slnil⟩
  leaves := by simp
  grounded := by
    rintro t ht
    obtain rfl := List.mem_singleton.mp ht
    exact .missing

theorem andMissing (h : AllFit spelled ts k) : AllFit spelled (ts ++ [.missing]) k := by
  simpa using h.append .missing

theorem spans (h : AllFit spelled ts k) (le : ∀ n ∈ k, p.AtOrBefore n.place) : Over p ts := by
  intro t ht leaf hleaf
  obtain ⟨n, hn, same⟩ := h.leaves t ht leaf hleaf
  exact ⟨n.place, same, le n hn⟩

/-- A node around trees that stand at its place or behind it. -/
theorem node {label : Label} (h : AllFit spelled ts k) (spans : Over p ts)
    (fill : label = .decl ∨ label = .ret →
      ∃ n ∈ spelled, n.place = p ∧ (n.text = "var" ∨ n.text = "return")) :
    AllFit spelled [.node label (some p) ts] k where
  written := by
    obtain ⟨names, same, kept⟩ := h.written
    have sub := written_node_sublist label (some p) ts
    rw [same] at sub
    obtain ⟨names', sub', same'⟩ := List.sublist_map_iff.mp sub
    exact ⟨names', by simpa using same', sub'.trans kept⟩
  leaves := by
    intro t ht leaf hleaf
    obtain rfl := List.mem_singleton.mp ht
    rw [leaves_node] at hleaf
    obtain ⟨t, ht, hleaf⟩ := List.mem_flatMap.mp hleaf
    exact h.leaves t ht leaf hleaf
  grounded := by
    rintro t ht
    obtain rfl := List.mem_singleton.mp ht
    refine .placed spans (fun t _ filler => fill ?_) h.grounded
    cases t with
    | token kind =>
      cases kind <;> simp [isFiller] at filler
      exact filler.1
    | _ => cases filler

/-- A statement whose value is filled in. -/
theorem filled {label : Label} (h : AllFit spelled ts k) (spans : Over p ts)
    (holds : label = .decl ∨ label = .ret) {n : Name} (hn : n ∈ k) (place : n.place = p)
    (sub : k.Sublist spelled) (fill : n.text = "var" ∨ n.text = "return") :
    AllFit spelled [.node label (some p) (ts ++ [undefinedAt p])] k where
  written := by
    have dropped : (Tree.node label (some p) (ts ++ [undefinedAt p])).written =
        (Tree.node label (some p) ts).written := by
      rw [written_node, written_node, List.filter_append]
      have filler : (undefinedAt p).isFiller label (some p) = true := by
        simpa [undefinedAt, isFiller] using holds
      simp [filler]
    have whole : AllFit spelled [.node label (some p) ts] k :=
      h.node spans fun _ => ⟨n, sub.subset hn, place, fill⟩
    simpa [dropped] using whole.written
  leaves := by
    intro t ht leaf hleaf
    obtain rfl := List.mem_singleton.mp ht
    simp only [leaves_node, List.flatMap_append, List.mem_append] at hleaf
    rcases hleaf with hleaf | hleaf
    · obtain ⟨t, ht, hleaf⟩ := List.mem_flatMap.mp hleaf
      exact h.leaves t ht leaf hleaf
    · simp only [undefinedAt, List.flatMap_singleton, leaves_token, List.mem_singleton] at hleaf
      exact ⟨n, hn, by rw [hleaf, place]⟩
  grounded := by
    rintro t ht
    obtain rfl := List.mem_singleton.mp ht
    refine .placed (fun t ht => ?_) (fun _ _ _ => ⟨n, sub.subset hn, place, fill⟩) fun t ht => ?_
    · rcases List.mem_append.mp ht with ht | ht
      · exact spans t ht
      · obtain rfl := List.mem_singleton.mp ht
        simp [undefinedAt, Place.AtOrBefore]
    · rcases List.mem_append.mp ht with ht | ht
      · exact h.grounded t ht
      · obtain rfl := List.mem_singleton.mp ht
        exact .token

theorem sequence (h : AllFit spelled ts k) (spans : Over p ts) :
    AllFit spelled [.sequence (some p) ts] k where
  written := by simpa [written_sequence] using h.written
  leaves := by
    intro t ht leaf hleaf
    obtain rfl := List.mem_singleton.mp ht
    rw [leaves_sequence] at hleaf
    obtain ⟨t, ht, hleaf⟩ := List.mem_flatMap.mp hleaf
    exact h.leaves t ht leaf hleaf
  grounded := List.forall_mem_singleton.mpr (.sequence h.grounded spans)

end AllFit

/-- The tree fits the tokens of the phrase, and the phrase counts from the first of them that its
tree lies behind. -/
structure Lowered.Fit (spelled : List Name) (l : Lowered) (kept : List Name) : Prop where
  all : AllFit spelled [l.tree] kept
  start : ∃ n ∈ kept, n.place = l.start
  spans : Over l.start [l.tree]

/-- A node around a single phrase. -/
theorem Lowered.Fit.wrap {label : Label} (h : l.Fit spelled k)
    (other : label ≠ .decl ∧ label ≠ .ret) :
    (Lowered.mk l.start (.node label (some l.start) [l.tree])).Fit spelled k :=
  ⟨h.all.node h.spans fun statement => statement.elim (absurd · other.1) (absurd · other.2),
    h.start, h.spans.node _ _⟩

/-- The same of a list of phrases. -/
structure Lowered.FitList (spelled : List Name) (ls : List Lowered) (kept : List Name) :
    Prop where
  all : AllFit spelled (ls.map (·.tree)) kept
  spans : ∀ p ∈ placeOfAll ls, Over p (ls.map (·.tree))

section

variable (ordered : spelled.Pairwise (·.place.Before ·.place)) {label : Label}
include ordered

theorem AllFit.over_of_first {n : Name} (h : AllFit spelled ts k) (sub : (n :: k).Sublist spelled) :
    Over n.place ts :=
  h.spans fun _ hn' => .inr (List.rel_of_pairwise_cons (ordered.sublist sub) hn')

/-- What follows a phrase lies behind its start. -/
theorem Lowered.Fit.over_rest (h : l.Fit spelled k) (h' : AllFit spelled us k')
    (sub : (k ++ k').Sublist spelled) : Over l.start us := by
  obtain ⟨n, hn, start⟩ := h.start
  refine h'.spans fun n' hn' => ?_
  rw [← start]
  exact .inr ((List.pairwise_append.mp (ordered.sublist sub)).2.2 n hn n' hn')

/-- A node that begins with a token of its own. -/
theorem fit_headed {n : Name} (h : AllFit spelled ts k) (sub : (n :: k).Sublist spelled)
    (fill : label = .decl ∨ label = .ret → n.text = "var" ∨ n.text = "return") :
    (Lowered.mk n.place (.node label (some n.place) ts)).Fit spelled (n :: k) := by
  have spans : Over n.place ts := h.over_of_first ordered sub
  have here : n ∈ n :: k := List.mem_cons_self
  refine ⟨(h.mono (List.sublist_cons_self n k)).node spans fun statement =>
    ⟨n, sub.subset here, rfl, fill statement⟩, ⟨n, here, rfl⟩, spans.node _ _⟩

/-- A node that begins with a phrase. -/
theorem Lowered.Fit.extend (h : l.Fit spelled k) (h' : AllFit spelled ts k')
    (sub : (k ++ k').Sublist spelled) (other : label ≠ .decl ∧ label ≠ .ret) :
    (Lowered.mk l.start (.node label (some l.start) (l.tree :: ts))).Fit spelled (k ++ k') := by
  have spans : Over l.start (l.tree :: ts) := Over.append h.spans (h.over_rest ordered h' sub)
  obtain ⟨n, hn, start⟩ := h.start
  refine ⟨(h.all.append h').node spans (fun statement => ?_),
    ⟨n, List.mem_append_left _ hn, start⟩, spans.node _ _⟩
  exact statement.elim (absurd · other.1) (absurd · other.2)

/-- A statement without the value that it might have. -/
theorem fit_filled {n : Name} (h : AllFit spelled ts k) (sub : (n :: k).Sublist spelled)
    (holds : label = .decl ∨ label = .ret) (fill : n.text = "var" ∨ n.text = "return") :
    (Lowered.mk n.place (.node label (some n.place) (ts ++ [undefinedAt n.place]))).Fit spelled
      (n :: k) := by
  have spans : Over n.place ts := h.over_of_first ordered sub
  have here : n ∈ n :: k := List.mem_cons_self
  have filler : Over n.place [undefinedAt n.place] := by simp [Over, undefinedAt, Place.AtOrBefore]
  exact ⟨(h.mono (List.sublist_cons_self n k)).filled spans holds here rfl sub fill,
    ⟨n, here, rfl⟩, (spans.append filler).node _ _⟩

/-- An operator between two operands. -/
theorem Lowered.Fit.binary {right : Tree} (h : l.Fit spelled k) (op : BinaryOp)
    (h' : AllFit spelled [right] k') (sub : (k ++ ⟨op.text, p⟩ :: k').Sublist spelled) :
    (Lowered.mk l.start (op.tree l.start p l.tree right)).Fit spelled
      (k ++ ⟨op.text, p⟩ :: k') := by
  have other : op.label ≠ .decl ∧ op.label ≠ .ret := by cases op <;> simp [BinaryOp.label]
  rw [BinaryOp.tree]
  split
  · exact h.extend ordered (h'.mono (List.sublist_cons_self ..)) sub other
  · rename_i kind text token
    obtain rfl : text = op.text := by cases op <;> cases token <;> rfl
    exact h.extend ordered ((AllFit.name kind ⟨op.text, p⟩).append h') sub other

theorem fit_block {ls : List Lowered} {n : Name} (h : Lowered.FitList spelled ls k)
    (sub : (n :: k).Sublist spelled) :
    (Lowered.mk n.place (.sequence (some n.place) (ls.map (·.tree)))).Fit spelled (n :: k) := by
  have spans := h.all.over_of_first ordered sub
  exact ⟨(h.all.sequence spans).mono (List.sublist_cons_self n k), ⟨n, List.mem_cons_self, rfl⟩,
    spans.sequence _⟩

theorem Lowered.FitList.cons {ls : List Lowered} (h : l.Fit spelled k)
    (h' : Lowered.FitList spelled ls k') (sub : (k ++ k').Sublist spelled) :
    Lowered.FitList spelled (l :: ls) (k ++ k') := by
  refine ⟨h.all.append h'.all, fun p hp => ?_⟩
  obtain rfl : l.start = p := by simpa [placeOfAll] using hp
  exact Over.append h.spans (h.over_rest ordered h'.all sub)

end

theorem Lowered.FitList.nil : Lowered.FitList spelled [] [] :=
  ⟨.nil, fun p hp => by simp [placeOfAll] at hp⟩

/-- A list of parameters or arguments. -/
theorem Lowered.FitList.node {ls : List Lowered} {label : Label}
    (h : Lowered.FitList spelled ls k) (list : label = .params ∨ label = .args) :
    AllFit spelled [.node label (placeOfAll ls) (ls.map (·.tree))] k := by
  cases ls with
  | nil =>
    refine ⟨⟨[], by simp [written_node], List.nil_sublist k⟩, by simp, ?_⟩
    exact List.forall_mem_singleton.mpr (.unplaced list)
  | cons l ls =>
    refine h.all.node (h.spans l.start rfl) fun statement => ?_
    rcases list with rfl | rfl <;> simp at statement

theorem Lowered.Fit.inParens (h : l.Fit spelled k) (start : Place)
    (sub : (⟨"(", start⟩ :: k : List Name).Sublist spelled)
    (ordered : spelled.Pairwise (·.place.Before ·.place)) :
    (l.inParens start).Fit spelled (⟨"(", start⟩ :: k) := by
  have all : AllFit spelled [l.tree] (⟨"(", start⟩ :: k) := h.all.mono (List.sublist_cons_self ..)
  have spans : Over start [l.tree] := h.all.over_of_first ordered sub
  rw [Lowered.inParens]
  split
  · exact ⟨all, ⟨_, List.mem_cons_self, rfl⟩, spans⟩
  · obtain ⟨n, hn, same⟩ := h.start
    exact ⟨all, ⟨n, List.mem_cons_of_mem _ hn, same⟩, h.spans⟩

theorem fit_name (kind : TokenKind) (n : Name) :
    (Lowered.mk n.place (n.tree kind)).Fit spelled [n] :=
  ⟨.name kind n, ⟨n, List.mem_singleton_self n, rfl⟩, by simp [Over, Name.tree, Place.AtOrBefore]⟩

theorem fit_params (ordered : spelled.Pairwise (·.place.Before ·.place)) {params : List Name}
    (sub : params.Sublist spelled) : AllFit spelled [paramsTree params] params := by
  have list : Lowered.FitList spelled
      (params.map fun n => ⟨n.place, n.tree .identifier⟩) params := by
    induction params with
    | nil => exact .nil
    | cons n params ih =>
      exact .cons ordered (fit_name _ n) (ih (List.sublist_of_cons_sublist sub)) sub
  simpa [paramsTree, placeOfAll, Function.comp_def] using list.node (.inl rfl)

theorem sublist_left {k k' : List Name} (sub : (k ++ k').Sublist spelled) : k.Sublist spelled :=
  (List.sublist_append_left k k').trans sub

theorem sublist_right {k k' : List Name} (sub : (k ++ k').Sublist spelled) : k'.Sublist spelled :=
  (List.sublist_append_right k k').trans sub

section

variable (ordered : spelled.Pairwise (·.place.Before ·.place))
include ordered

mutual

theorem Expr.fit : (e : Expr) → e.kept.Sublist spelled → e.lower.Fit spelled e.kept
  | .atom kind name, _ => fit_name kind name
  | .paren start inner, sub =>
    (inner.fit (List.sublist_of_cons_sublist sub)).inParens start sub ordered
  | .function start params body, sub => by
    have inside : (params ++ body.kept).Sublist spelled := List.sublist_of_cons_sublist sub
    have hp := fit_params ordered (sublist_left inside)
    have parts := hp.append (body.fit (sublist_right inside))
    exact fit_headed ordered (AllFit.missing.append parts) sub (by simp)
  | .construct start name args, sub => by
    have inside : (name :: keptOfArgs args).Sublist spelled := List.sublist_of_cons_sublist sub
    have ha := (fit_args args (List.sublist_of_cons_sublist inside)).node (.inr rfl)
    exact fit_headed ordered ((AllFit.name _ name).append ha) sub (by simp)
  | .call callee args, sub =>
    (callee.fit (sublist_left sub)).extend ordered
      ((fit_args args (sublist_right sub)).node (.inr rfl)) sub (by simp)
  | .member object name, sub =>
    (object.fit (sublist_left sub)).extend ordered (.name _ name) sub (by simp)
  | .postfixed operand op, sub =>
    (operand.fit sub).wrap (by cases op <;> simp [PostfixOp.label])
  | .unary start op operand, sub =>
    fit_headed ordered (operand.fit (List.sublist_of_cons_sublist sub)).all sub
      (by cases op <;> simp [UnaryOp.label])
  | .binary left op place right, sub => by
    have behind : (⟨op.text, place⟩ :: right.kept : List Name).Sublist spelled :=
      sublist_right sub
    have operand := (right.fit (List.sublist_of_cons_sublist behind)).all
    exact (left.fit (sublist_left sub)).binary ordered op operand sub

theorem fit_args : (es : List Expr) → (keptOfArgs es).Sublist spelled →
    Lowered.FitList spelled (lowerArgs es) (keptOfArgs es)
  | [], _ => .nil
  | e :: es, sub =>
    .cons ordered (e.fit (sublist_left sub)) (fit_args es (sublist_right sub)) sub

theorem Block.fit : (b : Block) → b.kept.Sublist spelled → AllFit spelled [b.tree] b.kept
  | .mk _ body, sub =>
    (fit_block ordered (fit_body body (List.sublist_of_cons_sublist sub)) sub).all

theorem fit_body : (ss : List Stmt) → (keptOfBody ss).Sublist spelled →
    Lowered.FitList spelled (lowerBody ss) (keptOfBody ss)
  | [], _ => .nil
  | s :: ss, sub =>
    .cons ordered (s.fit (sublist_left sub)) (fit_body ss (sublist_right sub)) sub

theorem Stmt.fit : (s : Stmt) → s.kept.Sublist spelled → s.lower.Fit spelled s.kept
  | .declare start name value, sub => by
    have inside : (name :: value.kept).Sublist spelled := List.sublist_of_cons_sublist sub
    have hv := (value.fit (List.sublist_of_cons_sublist inside)).all
    exact fit_headed ordered ((AllFit.name _ name).append hv) sub (by simp)
  | .declareBare _ name, sub =>
    fit_filled ordered (.name .identifier name) sub (.inl rfl) (.inl rfl)
  | .assign name value, sub =>
    (fit_name _ name).extend ordered (value.fit (List.sublist_of_cons_sublist sub)).all sub
      (by simp)
  | .ifOnly start test body, sub => by
    have inside : (test.kept ++ body.kept).Sublist spelled := List.sublist_of_cons_sublist sub
    have parts := (test.fit (sublist_left inside)).all.append (body.fit (sublist_right inside))
    exact fit_headed ordered parts.andMissing sub (by simp)
  | .ifElse start test body other, sub => by
    have inside : (test.kept ++ body.kept ++ other.kept).Sublist spelled :=
      List.sublist_of_cons_sublist sub
    have front := sublist_left inside
    have parts := (test.fit (sublist_left front)).all.append (body.fit (sublist_right front))
    exact fit_headed ordered (parts.append (other.fit (sublist_right inside)).all) sub (by simp)
  | .while start test body, sub => by
    have inside : (test.kept ++ body.kept).Sublist spelled := List.sublist_of_cons_sublist sub
    have parts := (test.fit (sublist_left inside)).all.append (body.fit (sublist_right inside))
    exact fit_headed ordered parts sub (by simp)
  | .return start value, sub =>
    fit_headed ordered (value.fit (List.sublist_of_cons_sublist sub)).all sub (by simp)
  | .returnBare start, sub => fit_filled ordered .nil sub (.inr rfl) (.inr rfl)
  | .function start name params body, sub => by
    have inside : (name :: (params ++ body.kept)).Sublist spelled :=
      List.sublist_of_cons_sublist sub
    have behind : (params ++ body.kept).Sublist spelled := List.sublist_of_cons_sublist inside
    have hp := fit_params ordered (sublist_left behind)
    have parts := hp.append (body.fit (sublist_right behind))
    exact (fit_headed ordered ((AllFit.name _ name).append parts) sub (by simp)).wrap (by simp)
  | .block (.mk _ body), sub =>
    fit_block ordered (fit_body body (List.sublist_of_cons_sublist sub)) sub
  | .expr value, sub => (value.fit sub).wrap (by simp)
  | .empty _, sub => fit_headed ordered .nil sub (by simp)

end

end

/-! ## Whole texts -/

/-- The places in a tree are those of the text. -/
structure TrueTo (src : String) (tree : Tree) : Prop where
  /-- What a leaf says stands in the text where the leaf does. -/
  spelled : ∀ leaf ∈ tree.written, ∃ p, leaf.place = some p ∧ Spells src p leaf.text
  /-- From left to right, the leaves stand further and further down the text. -/
  ordered : tree.written.Pairwise fun a b =>
    ∃ p q, a.place = some p ∧ b.place = some q ∧ p.Before q
  /-- Where a value is filled in, the text has a declaration or a return. -/
  filled : ∀ {label place children t}, tree.Part (.node label place children) → t ∈ children →
    t.isFiller label place → ∃ p, place = some p ∧ (Spells src p "var" ∨ Spells src p "return")
  /-- No leaf below a node stands before it. -/
  spans : ∀ {label p children}, tree.Part (.node label (some p) children) →
    ∀ leaf ∈ (Tree.node label (some p) children).leaves,
      ∃ q, leaf.place = some q ∧ p.AtOrBefore q
  /-- Only an empty list has no place: one of parameters, of arguments, or the program. -/
  unplaced : ∀ {label children}, tree.Part (.node label none children) → children = [] ∧
    (label = .params ∨ label = .args ∨ tree = .node .empty none [] ∧ IsLastGap src.toList)

theorem AllFit.trueTo {src : String} {tree : Tree} (h : AllFit spelled [tree] k)
    (sub : k.Sublist spelled) (ordered : spelled.Pairwise (·.place.Before ·.place))
    (found : ∀ n ∈ spelled, Spells src n.place n.text) : TrueTo src tree := by
  obtain ⟨names, same, kept⟩ := h.written
  have written : tree.written = names.map Name.leaf := by simpa using same
  have grounded : tree.Grounded spelled := h.grounded tree (List.mem_singleton_self tree)
  constructor
  · intro leaf hleaf
    rw [written] at hleaf
    obtain ⟨n, hn, rfl⟩ := List.mem_map.mp hleaf
    exact ⟨n.place, rfl, found n ((kept.trans sub).subset hn)⟩
  · rw [written]
    exact List.pairwise_map.mpr ((ordered.sublist (kept.trans sub)).imp
      fun before => ⟨_, _, rfl, rfl, before⟩)
  · intro label place children t part member filler
    cases grounded.part part with
    | placed _ fill _ =>
      obtain ⟨n, hn, rfl, statement | statement⟩ := fill t member filler
      · exact ⟨n.place, rfl, .inl (statement ▸ found n hn)⟩
      · exact ⟨n.place, rfl, .inr (statement ▸ found n hn)⟩
    | unplaced => cases member
  · intro label p children part
    cases grounded.part part with
    | placed spans _ _ => exact spans.node label (some p) _ (List.mem_singleton_self _)
  · intro label children part
    cases grounded.part part with
    | unplaced list => exact ⟨rfl, list.imp_right .inl⟩

/-- The empty program is read from a text without tokens. -/
theorem isLastGap_of_scan {cs : List Char} (scanned : scan cs = ([], .finished)) :
    IsLastGap cs := by
  obtain ⟨pieces, tail, lexemes, cuts, _⟩ := scan_cuts scanned
  obtain rfl : pieces = [] := by simpa using lexemes.symm
  simpa [cuts.text_eq] using cuts.tail

theorem trueTo_empty {src : String} (gap : IsLastGap src.toList) :
    TrueTo src (.node .empty none []) := by
  have whole {t : Tree} (part : (Tree.node .empty none []).Part t) :
      t = .node .empty none [] := by
    induction part with
    | whole => rfl
    | child _ member ih =>
      cases ih
      cases member
  constructor
  · simp [written_node]
  · simp [written_node]
  · intro label place children t part member
    cases whole part
    cases member
  · intro label p children part
    cases whole part
  · intro label children part
    cases whole part
    exact ⟨rfl, .inr (.inr ⟨rfl, gap⟩)⟩

/-- The places in the tree of a text are true: at that of a leaf the text spells it, they increase
from leaf to leaf, and a node stands at or before the leaves below it, unless it is an empty list,
which has none. -/
theorem parse_trueTo {src : String} {tree : Tree} (h : parse src = .ok tree) :
    TrueTo src tree := by
  obtain ⟨program, read, rfl⟩ := parse_eq_ok_iff.mp h
  obtain ⟨tokens, st, scanned, run, ended⟩ := readProgram_eq_ok_iff.mp read
  obtain ⟨names, kept, sub⟩ := State.run_kept run
  have program_kept : names = keptOfBody program := kept.symm.trans (State.kept_program ended)
  cases program with
  | nil =>
    have none : st.kept = [] := State.kept_program ended
    obtain rfl : tokens = [] := State.run_start_kept run none
    exact trueTo_empty (isLastGap_of_scan scanned)
  | cons s ss =>
    rw [program_kept] at sub
    have ordered : (tokens.map Token.name).Pairwise (·.place.Before ·.place) :=
      List.pairwise_map.mpr (scan_ordered scanned)
    have fit := fit_body ordered (s :: ss) sub
    refine (fit.all.sequence (fit.spans s.lower.start rfl)).trueTo sub ordered fun n hn => ?_
    obtain ⟨t, ht, rfl⟩ := List.mem_map.mp hn
    exact scan_spelled scanned t ht

/-- A bare declaration behind a carriage return and a comment, and a call in parentheses that begin
on another line. -/
theorem parse_trueTo_bare : ∃ tree, parse "// a\n\rvar b; (\nb + c() );" = .ok tree ∧
    tree.written = [⟨"b", some ⟨2, 6⟩⟩, ⟨"b", some ⟨3, 1⟩⟩, ⟨"+", some ⟨3, 3⟩⟩,
      ⟨"c", some ⟨3, 5⟩⟩] ∧
    TrueTo "// a\n\rvar b; (\nb + c() );" tree := by
  have read : (parse "// a\n\rvar b; (\nb + c() );").toOption.map Tree.written =
      some [⟨"b", some ⟨2, 6⟩⟩, ⟨"b", some ⟨3, 1⟩⟩, ⟨"+", some ⟨3, 3⟩⟩, ⟨"c", some ⟨3, 5⟩⟩] := by
    decide +kernel
  cases parsed : parse "// a\n\rvar b; (\nb + c() );" with
  | error e =>
    rw [parsed] at read
    cases read
  | ok tree =>
    rw [parsed] at read
    exact ⟨tree, rfl, Option.some.inj read, parse_trueTo parsed⟩

end Source

end Scriptlet
