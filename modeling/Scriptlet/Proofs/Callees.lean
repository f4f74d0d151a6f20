import Scriptlet.Proofs.Locals
import Scriptlet.Proofs.Naming
/-!
# What is called is settled before the arguments

A call evaluates its function expression, then its arguments, and then looks at the function
expression's datum once more. Nothing that the arguments do can change what is called: a function
is called as it was found, and a name that meant no function means none when it is looked up again,
since the expressions of a source text give no function a name.
-/

namespace Scriptlet

/-! ## Expressions name no functions -/

/-- The tree assigns no function to a name. -/
def Tree.NamesNone (t : Tree) : Prop := ∀ name d, t.Assigns name d → d.function = none

namespace Tree

theorem namesNone_token (kind : TokenKind) (text : String) (place : Option Place) :
    (token kind text place).NamesNone := fun _ _ => nofun

/-- A node of an expression that is neither a function nor a call. -/
theorem namesNone_node {label : Label} {place : Option Place} {children : List Tree}
    (other : label ∉ [.decl, .assign, .function, .call]) (parts : ∀ t ∈ children, t.NamesNone) :
    (node label place children).NamesNone := by
  intro name d assigns
  cases assigns with
  | target storing => rcases storing with rfl | rfl <;> simp at other
  | literal => simp at other
  | operand => rfl
  | part _ mem assigns => exact parts _ mem name d assigns
  | argument => simp at other

theorem namesNone_function {place : Option Place} {params body : Tree} :
    (node .function place [.missing, params, body]).NamesNone := by
  intro name d assigns
  cases assigns with
  | literal named => cases named
  | operand operator => simp at operator
  | part other => exact absurd rfl other

theorem namesNone_call {place listPlace : Option Place} {f : Tree} {args : List Tree}
    (hf : f.NamesNone) (ha : ∀ t ∈ args, t.NamesNone) :
    (node .call place [f, node .args listPlace args]).NamesNone := by
  have list : (node .args listPlace args).NamesNone := namesNone_node (by simp) ha
  intro name d assigns
  cases assigns with
  | target storing => simp at storing
  | operand => rfl
  | part _ mem assigns =>
    rcases List.mem_pair.mp mem with rfl | rfl
    · exact hf name d assigns
    · exact list name d assigns
  | argument mem assigns => exact ha _ mem name d assigns

end Tree

namespace Source

open Scriptlet.Tree

theorem BinaryOp.namesNone (op : BinaryOp) (start place : Place) {left right : Tree}
    (hl : left.NamesNone) (hr : right.NamesNone) : (op.tree start place left right).NamesNone := by
  rw [BinaryOp.tree]
  split
  · exact namesNone_node (by cases op <;> simp [BinaryOp.label]) (by simp [hl, hr])
  · exact namesNone_node (by cases op <;> simp [BinaryOp.label])
      (by simp [hl, hr, namesNone_token])

mutual

/-- The expressions of a source text name no functions: only statements do. -/
theorem Expr.namesNone : (e : Expr) → e.lower.tree.NamesNone
  | .atom kind name => namesNone_token kind name.text _
  | .paren start inner => by
    rw [Expr.tree_paren]
    exact inner.namesNone
  | .function start params body => namesNone_function
  | .construct start name args =>
    have list : (argsTree (lowerArgs args)).NamesNone :=
      namesNone_node (by simp) (namesNone_args args)
    namesNone_node (by simp) (by simp [Name.tree, namesNone_token, list])
  | .call callee args => namesNone_call callee.namesNone (namesNone_args args)
  | .member object name =>
    namesNone_node (by simp) (by simp [Name.tree, namesNone_token, object.namesNone])
  | .postfixed operand op =>
    namesNone_node (by cases op <;> simp [PostfixOp.label]) (by simp [operand.namesNone])
  | .unary start op operand =>
    namesNone_node (by cases op <;> simp [UnaryOp.label]) (by simp [operand.namesNone])
  | .binary left op place right => op.namesNone _ _ left.namesNone right.namesNone

theorem namesNone_args : (es : List Expr) → ∀ t ∈ (lowerArgs es).map (·.tree), t.NamesNone
  | [] => fun _ => nofun
  | e :: es => List.forall_mem_cons.mpr ⟨e.namesNone, namesNone_args es⟩

end

end Source

/-! ## Arguments -/

namespace Tree

/-- Names of functions that may be hidden, or data that are no functions. -/
def MayHold (name : String) (d : Datum) : Prop := Store.isHidden name ∨ d.function = none

theorem NamesNone.bounds {t : Tree} (h : t.NamesNone) : t.Bounds MayHold where
  anonymous n _ := .inl (Store.isHidden_anonymous (toString n))
  assigned name d assigns := .inr (h name d assigns)

end Tree

/-- A visible name that meant no function means none after the arguments. -/
theorem load?_after_args {rounds depth : Nat} {args : List Tree} (ha : ∀ t ∈ args, t.NamesNone)
    {m m' : Machine} {ds : List Datum} (wf : m.store.WellFormed)
    (ended : args.mapM (evaluator rounds depth).expr m = .ok ds m') {name : String} {d : Datum}
    (visible : Store.isHidden name = false) (before : m.store.load? name = some d)
    (none : d.function = none) :
    ∃ d', m'.store.load? name = some d' ∧ d'.function = .none := by
  let C := writing Tree.MayHold
  have each (t : Tree) (mem : t ∈ args) (w : C.World) : C.rel w True C.good
      ((evaluator rounds depth).expr t) fun _ => (evaluator rounds depth).expr t :=
    (evaluator_writes rounds depth (ha t mem).bounds).1
  have writes : m.store.Writes Tree.MayHold
      ((args.mapM (evaluator rounds depth).expr).after m).store :=
    C.mapM (R := C.good) (w := ()) (P := True) C.mono each m
  simp only [Eval.after, ended] at writes
  have live := wf.live m.store.top List.mem_cons_self
  rcases writes.load? (Array.getElem?_eq_getElem live) name with same | ⟨d', after, held⟩
  · exact ⟨d, same.trans before, none⟩
  · rcases held with hidden | none
    · rw [visible] at hidden
      cases hidden
    · exact ⟨d', after, none⟩

/-! ## Calls -/

/-- What a call comes to, given the datum that its function expression has come to, and the data
and the machine that its arguments have come to after that. A function is called, in a scope that
can be entered; any other datum is refused without running anything. -/
structure Settled (inner : Evaluator) (place : Option Place) (d : Datum) (ds : List Datum)
    (m : Machine) (r : EStateM.Result Stop Machine Datum) : Prop where
  called : ∀ f, d.function = some f →
    (∃ s, m.store.push f.scope = .ok s) ∧ r = (inner.call f ds).located place m
  refused : d.function = none → ∃ fault m', r = .error (.fault fault place) m' ∧
    (fault = .notCallable ∨ ∃ name, fault = .notFunction name) ∧ m'.store = m.store ∧
    ∃ es, m'.journal = es ++ m.journal ∧ ∀ e ∈ es, ∃ name, e = .load name

/-- Calls as they are written come to what their function expressions have settled. -/
def settled : Law where
  expr t m r := ∀ (rounds depth : Nat) (callee : Source.Expr) (args : List Source.Expr),
    t = (Source.Expr.call callee args).lower.tree → t.Visible →
    r = (evaluator rounds (depth + 1)).expr t m →
    ∀ d m₁ ds m₂, (evaluator rounds depth).expr callee.lower.tree m = .ok d m₁ →
      (args.map (·.lower.tree)).mapM (evaluator rounds depth).expr m₁ = .ok ds m₂ →
      Settled (evaluator rounds depth) t.place? d ds m₂ r
  stmt _ _ _ := True

theorem lookUp_eq (name : String) (m : Machine) : lookUp name m =
    match m.store.load? name with
    | some d => .ok d (m.record (.load name))
    | none => .error (.fault (.undefinedName name) none) (m.record (.load name)) := by
  simp only [lookUp, Bind.bind, EStateM.bind]
  have found : Eval.load? name m = .ok (m.store.load? name) (m.record (.load name)) := rfl
  rw [found]
  cases m.store.load? name <;> rfl

/-- What a name is evaluated to is what it means. -/
theorem expr_name {rounds depth : Nat} {t : Tree} {name : String}
    (named : t.identifier? = some name) {m m' : Machine} {d : Datum}
    (ended : (evaluator rounds depth).expr t m = .ok d m') :
    m.store.load? name = some d ∧ m'.store = m.store := by
  cases depth with
  | zero => cases ended
  | succ depth =>
    obtain ⟨place, rfl⟩ : ∃ place, t = .token .identifier name place := by
      cases t with
      | token kind text place =>
        cases kind <;> cases named
        exact ⟨place, rfl⟩
      | _ => cases named
    have looked : lookUp name m = .ok d m' := Eval.eq_ok_of_located ended
    rw [lookUp_eq] at looked
    cases found : m.store.load? name with
    | none =>
      rw [found] at looked
      cases looked
    | some d' =>
      rw [found] at looked
      cases looked
      exact ⟨rfl, rfl⟩

/-- A datum that is no function is refused, and nothing but its name is looked up for that. -/
theorem callee_refuses {node : Tree} {d : Datum} (none : d.function = none) {m : Machine}
    (named : ∀ name, node.identifier? = some name →
      ∃ d', m.store.load? name = some d' ∧ d'.function = .none) :
    ∃ fault m', callee node d m = .error (.fault fault .none) m' ∧
      (fault = .notCallable ∨ ∃ name, fault = .notFunction name) ∧ m'.store = m.store ∧
      ∃ es, m'.journal = es ++ m.journal ∧ ∀ e ∈ es, ∃ name, e = .load name := by
  rw [callee, none]
  cases found : node.identifier? with
  | none => exact ⟨_, m, rfl, .inl rfl, rfl, [], rfl, by simp⟩
  | some name =>
    obtain ⟨d', loaded, none'⟩ := named name found
    refine ⟨.notFunction name, m.record (.load name), ?_, .inr ⟨name, rfl⟩, rfl, [.load name],
      rfl, by simp⟩
    simp only [Bind.bind, EStateM.bind, lookUp_eq, loaded, none']
    rfl

/-- A call goes on from the machine that its arguments leave behind. -/
theorem expr_call (place : Option Place) {rounds depth : Nat} {function args : Tree}
    {m m₁ m₂ : Machine} {d : Datum} {ds : List Datum}
    (settled : (evaluator rounds depth).expr function m = .ok d m₁)
    (ended : args.children.mapM (evaluator rounds depth).expr m₁ = .ok ds m₂) :
    (evaluator rounds (depth + 1)).expr (.node .call place [function, args]) m =
      (do let f ← callee function d; (evaluator rounds depth).call f ds : Eval Datum).located
        place m₂ := by
  have applied : (evaluator rounds depth).application function args m =
      (do let f ← callee function d; (evaluator rounds depth).call f ds : Eval Datum) m₂ := by
    simp only [Evaluator.application, Bind.bind, EStateM.bind, settled, ended]
  have step : (evaluator rounds (depth + 1)).expr (.node .call place [function, args]) m =
      ((evaluator rounds depth).application function args).located place m := rfl
  rw [step, Eval.located, Eval.located, applied]

/-- A discipline of machines whose stores are well formed. -/
def Discipline.wellFormed (D : Discipline) : Discipline :=
  { D with
    holds := fun m => D.holds m ∧ m.store.WellFormed
    scope := fun h => D.scope h.1
    load := fun h => D.load h.1
    step := fun h step journal about =>
      have next := D.step h.1 step journal about
      ⟨⟨next.1, step.wellFormed h.2⟩, next.2⟩
    literal := fun h permitted scope done journal =>
      have next := D.literal h.1 permitted scope done journal
      ⟨⟨next.1, (Store.Step.alloc done).wellFormed h.2.reserve⟩, next.2⟩ }

/-- The function that an expression comes to can still be called after the arguments. -/
theorem callable_after_args {D : Discipline} (all : ∀ t, D.permits t) {rounds depth : Nat}
    {function : Tree} {args : List Tree} {m m₁ m₂ : Machine} {d : Datum} {ds : List Datum}
    (holds : D.holds m) (settled : (evaluator rounds depth).expr function m = .ok d m₁)
    (ended : args.mapM (evaluator rounds depth).expr m₁ = .ok ds m₂) :
    D.holds m₁ ∧ ∀ f, d.function = some f → ∃ s, m₂.store.push f.scope = .ok s := by
  have evaluators := D.evaluators_refl rounds depth
  have first := (evaluators.expr (all function) m holds).1
  rw [settled] at first
  obtain ⟨holds₁, -, good⟩ := first
  have list : D.congruence.rel m₁ True (fun m ds => ∀ d ∈ ds, D.good m d)
      (args.mapM (evaluator rounds depth).expr) fun _ => args.mapM (evaluator rounds depth).expr :=
    D.congruence.mapM (R := D.good) D.mono fun t _ m _ => evaluators.expr (all t) m
  have rest := (list trivial holds₁).1
  rw [ended] at rest
  obtain ⟨holds₂, later, -⟩ := rest
  exact ⟨holds₁, fun f function => D.scope holds₂ (D.mono later good) function⟩

theorem obeys_settled : Trait.any.discipline.wellFormed.Obeys settled := by
  refine ⟨?_, fun _ _ _ => trivial⟩
  intro _ _ t m _ holds _ rounds depth callee args shape visible same d m₁ ds m₂ settled ended
  subst shape
  have list : (Source.argsTree (Source.lowerArgs args)).children = args.map (·.lower.tree) := by
    rw [Source.argsTree, Source.lowerArgs_eq_map, Tree.children, List.map_map]
    rfl
  obtain ⟨holds₁, enter⟩ := callable_after_args (fun _ => trivial) holds settled ended
  have called := expr_call (some callee.lower.start) settled (list ▸ ended)
  constructor
  · intro f function
    refine ⟨enter f function, same.trans (called.trans ?_)⟩
    have found : Scriptlet.callee callee.lower.tree d = pure f := by rw [Scriptlet.callee, function]
    rw [found]
    rfl
  · intro none
    have named : ∀ name, callee.lower.tree.identifier? = some name →
        ∃ d', m₂.store.load? name = some d' ∧ d'.function = .none := by
      intro name found
      obtain ⟨before, still⟩ := expr_name found settled
      refine load?_after_args (fun t mem => ?_) holds₁.2 ended ?_ (still ▸ before) none
      · obtain ⟨e, -, rfl⟩ := List.mem_map.mp mem
        exact e.namesNone
      · exact (visible.children List.mem_cons_self).identifier? found
    obtain ⟨fault, m', refused, kind, store, loads⟩ := callee_refuses none named
    refine ⟨fault, m', same.trans (called.trans ?_), kind, store, loads⟩
    rw [Eval.located]
    simp only [Bind.bind, EStateM.bind, refused]
    rfl

/-- Wherever in a session a call is evaluated, its function expression settles what is called before
the arguments are evaluated, and they cannot change it: the function that it has come to is called
in a scope of its own, and where it has come to none, the call is refused after the arguments, and
nothing is run for it. -/
theorem callees_settled {m : Machine} (session : m.Session) (limits : Limits) :
    (∀ t, settled.Governs limits t m) ∧
    ∀ src p, Source.readProgram src.toList = .ok p →
      settled.Governs limits p.tree (m.record (.fragment src)) := by
  have identified := Trait.any.session (session.sessionOf Trait.permitsSource_any)
  have holds : Trait.any.discipline.wellFormed.holds m := ⟨identified, session.wellFormed⟩
  constructor
  · intro t
    exact obeys_settled.governs limits trivial holds
  · intro src p _
    have begun := Discipline.recorded (e := .fragment src) holds .fragment trivial
    exact obeys_settled.governs limits trivial begun.1

private def single : Machine :=
  (Machine.fresh.run .standard "function f(a) \x7b return a; \x7d").2

private def calleeF : Source.Expr := .atom .identifier ⟨"f", .first⟩

/-- `f(f++)` -/
private def updatingCall : Source.Expr := .call calleeF [.postfixed calleeF .increment]

/-- The argument makes a number of the name, and the function that it meant before is called. -/
theorem callees_settled_update : single.Session ∧ ∃ d m₁ ds m₂,
    (evaluator 5 10).expr calleeF.lower.tree single = .ok d m₁ ∧
    [(Source.Expr.postfixed calleeF .increment).lower.tree].mapM (evaluator 5 10).expr m₁ =
      .ok ds m₂ ∧
    d.function.isSome ∧ ((m₂.store.load? "f").bind (·.function)).isNone ∧
    Settled (evaluator 5 10) (some .first) d ds m₂
      ((evaluator 5 11).expr updatingCall.lower.tree single) := by
  have session : single.Session := .run .standard _ (.fresh 0)
  have ran : (match (evaluator 5 10).expr calleeF.lower.tree single with
      | .error .. => false
      | .ok d m₁ =>
        match [(Source.Expr.postfixed calleeF .increment).lower.tree].mapM
          (evaluator 5 10).expr m₁ with
        | .error .. => false
        | .ok _ m₂ =>
          d.function.isSome && ((m₂.store.load? "f").bind (·.function)).isNone) = true := by
    decide +kernel
  have law := ((callees_settled session ⟨11, 5⟩).1 updatingCall.lower.tree).ending.1
  cases first : (evaluator 5 10).expr calleeF.lower.tree single with
  | error => rw [first] at ran; cases ran
  | ok d m₁ =>
    rw [first] at ran
    dsimp only at ran
    cases rest : [(Source.Expr.postfixed calleeF .increment).lower.tree].mapM
      (evaluator 5 10).expr m₁ with
    | error => rw [rest] at ran; cases ran
    | ok ds m₂ =>
      rw [rest] at ran
      obtain ⟨found, lost⟩ := Bool.and_eq_true_iff.mp ran
      exact ⟨session, d, m₁, ds, m₂, rfl, rest, found, lost,
        law 5 10 calleeF _ rfl rfl rfl d m₁ ds m₂ first rest⟩

end Scriptlet
