import Scriptlet.Proofs.Accepted
import Scriptlet.Proofs.Identity
/-!
# Names that programs can spell

Anonymous functions are stored under hidden names. No identifier of a source text is one of them,
so that a program never reads what is stored there.
-/

namespace Scriptlet

open Store (isHidden)

namespace Store

theorem isHidden_anonymous (text : String) : isHidden (anonymousStem ++ text) = true := by
  rw [isHidden, String.toList_append, List.isPrefixOf_iff_prefix]
  exact List.prefix_append _ _

/-- What begins with a letter, an underscore or a dollar is not hidden. -/
theorem isHidden_of_isIdentifier {x : String} (h : Source.IsIdentifier x) : isHidden x = false := by
  obtain ⟨c, cs, spelled, start, _⟩ := h
  have other : ('%' == c) = false := by
    apply beq_false_of_ne
    rintro rfl
    rcases start with alpha | same | same
    · exact absurd alpha (by decide)
    · exact absurd same (by decide)
    · exact absurd same (by decide)
  rw [isHidden, spelled]
  exact (congrArg (· && _) other).trans (Bool.false_and _)

end Store

/-! ## Trees -/

namespace Tree

/-- Not an identifier that spells a hidden name. -/
def isVisible : Tree → Bool
  | token .identifier text _ => !isHidden text
  | _ => true

/-- No identifier in the tree spells a hidden name. -/
def Visible (t : Tree) : Prop := t.all isVisible

@[simp]
theorem visible_missing : missing.Visible := rfl

theorem visible_node_iff {label : Label} {place : Option Place} {children : List Tree} :
    (node label place children).Visible ↔ ∀ c ∈ children, c.Visible := by
  rw [Visible, all, allOf_eq_all]
  exact (Bool.and_eq_true_iff.trans ⟨And.right, And.intro rfl⟩).trans List.all_eq_true

theorem Visible.children {t c : Tree} (h : t.Visible) (mem : c ∈ t.children) : c.Visible := by
  cases t with
  | node => exact visible_node_iff.mp h c mem
  | _ => cases mem

theorem Visible.identifier? {t : Tree} {name : String} (h : t.Visible)
    (found : t.identifier? = some name) : isHidden name = false := by
  cases t with
  | token kind text place =>
    cases kind with
    | identifier =>
      cases found
      exact (Bool.not_eq_true' _).mp h
    | _ => cases found
  | _ => cases found

mutual

/-- Places do not matter to what holds all over a tree and does not look at them. -/
theorem all_bare {p : Tree → Bool} (unplaced : ∀ t, p t.bare = p t) (t : Tree) :
    t.bare.all p = t.all p := by
  have here := unplaced t
  match t with
  | missing => rfl
  | token .. => rwa [bare_token] at here ⊢
  | node _ _ children =>
    rw [bare_node] at here ⊢
    rw [all, all, here, allOf_bare unplaced children]

theorem allOf_bare {p : Tree → Bool} (unplaced : ∀ t, p t.bare = p t) (ts : List Tree) :
    allOf p (ts.map bare) = allOf p ts := by
  match ts with
  | [] => rfl
  | t :: ts => rw [List.map_cons, allOf, allOf, all_bare unplaced t, allOf_bare unplaced ts]

end

theorem visible_of_bare {t : Tree} (h : t.bare.Visible) : t.Visible := by
  refine (all_bare (fun t => ?_) t).symm.trans h
  cases t with
  | missing => rfl
  | token kind _ _ =>
    rw [bare_token]
    cases kind <;> rfl
  | node =>
    rw [bare_node]
    rfl

/-- What holds of lists holds all over a list if it does all over the statements. -/
theorem all_sequence {p : Tree → Bool} (empty : ∀ place, p (node .empty place []))
    (seq : ∀ place children, p (node .seq place children)) {place : Option Place} {ts : List Tree}
    (h : ∀ t ∈ ts, t.all p) : (sequence place ts).all p := by
  fun_induction sequence place ts with
  | case1 =>
    rw [all, empty, Bool.true_and]
    rfl
  | case2 t => exact h t List.mem_cons_self
  | case3 t ts _ ih =>
    obtain ⟨first, rest⟩ := List.forall_mem_cons.mp h
    rw [all, seq, allOf, allOf, first, ih rest]
    rfl

theorem visible_sequence {place : Option Place} {ts : List Tree} (h : ∀ t ∈ ts, t.Visible) :
    (sequence place ts).Visible :=
  all_sequence (fun _ => rfl) (fun _ _ => rfl) h

end Tree

namespace Source

theorem visible_nameTree {x : String} (h : IsIdentifier x) : (nameTree x).Visible :=
  (Bool.not_eq_true' _).mpr (Store.isHidden_of_isIdentifier h)

theorem visible_undefinedTree : undefinedTree.Visible := rfl

theorem Operator.visible {sym : Symbol} {m : Mark} {label : Label} {kept : List Tree}
    (h : Operator sym m label kept) : ∀ t ∈ kept, t.Visible := by
  cases h with
  | or | and => exact fun _ => nofun
  | _ => exact List.forall_mem_singleton.mpr rfl

theorem Constant.visible {s : String} {kind : TokenKind} (h : Constant s kind) :
    (Tree.token kind s none).Visible := by
  cases h <;> rfl

/-- The trees of derivations are made of identifiers and of words that are no names. -/
theorem Derives.visible {plain : String → Prop} {sym : Symbol} {ts : List Lexeme}
    {trees : List Tree} (h : Derives plain sym ts trees) : ∀ t ∈ trees, t.Visible := by
  induction h with
  | start _ ih | block _ ih => exact List.forall_mem_singleton.mpr (Tree.visible_sequence ih)
  | number => exact List.forall_mem_singleton.mpr rfl
  | constant hc => exact List.forall_mem_singleton.mpr hc.visible
  | binary op _ _ _ left right =>
    refine List.forall_mem_singleton.mpr (Tree.visible_node_iff.mpr ?_)
    refine List.forall_mem_cons.mpr ⟨?_, ?_⟩
    · exact List.forall_mem_singleton.mp left
    · exact List.forall_mem_append.mpr ⟨op.visible, right⟩
  | _ => simp_all [Tree.visible_node_iff, visible_nameTree, visible_undefinedTree]

theorem readProgram_visible {cs : List Char} {p : Program} (h : readProgram cs = .ok p) :
    p.tree.Visible := by
  obtain ⟨tokens, st, scanned, run, ended⟩ := readProgram_eq_ok_iff.mp h
  exact Tree.visible_of_bare ((derives_of_run scanned run ended).visible _ List.mem_cons_self)

end Source

/-! ## Sessions -/

/-- All names are visible. -/
def Trait.visible : Trait where
  permits := Tree.Visible
  has _ _ := True
  child h mem := Tree.visible_node_iff.mp h _ mem
  mono _ _ := trivial
  plain _ _ _ := trivial
  former _ _ _ := trivial
  function _ := trivial

/-- In a session no function has a hidden name in its body. -/
theorem Machine.Session.visible {m : Machine} (h : m.Session) : Trait.visible.Holds m :=
  Trait.visible.session (h.sessionOf fun _ _ => Source.readProgram_visible)

end Scriptlet
