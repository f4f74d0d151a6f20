import Scriptlet.Evaluation
/-!
# Judgements that steps keep

An action may be judged together with what takes its place, one other action for each index. A
`Judgement` has a rule for every request to the store and for each way to combine actions. Each
construct of the language is judged by these rules, given how its parts are judged. A judgement that
also says which trees are evaluated is a `Congruence`, and holds of whole steps: of the step that
one evaluator takes and those that others take instead, as long as nested evaluations are judged so.
What is proved of evaluation in this way has to say nothing of any construct of the language.

The judgement may depend on the trees that are evaluated, on the functions that flow and on what has
happened so far. One for which none of this matters is given by fewer rules (`Uniform`).
-/

namespace Scriptlet

/-- A fault that a step may raise by itself: it tells neither of a limit nor of the table of
scopes. -/
def Fault.IsOwn : Fault → Prop
  | callsTooDeep => False
  | nestingTooDeep => False
  | unknownScope _ => False
  | globalScope => False
  | _ => True

/-- The operators that change a variable. -/
def Label.updates : List Label := [.preIncrement, .preDecrement, .postIncrement, .postDecrement]

/-- A fault that depends on the data that flow, and not on the shape of a tree. -/
def Fault.IsDynamic : Fault → Prop
  | undefinedName _ => True
  | notCallable => True
  | notFunction _ => True
  | _ => False

theorem Fault.IsDynamic.isOwn {f : Fault} (h : f.IsDynamic) : f.IsOwn := by
  cases f with
  | undefinedName | notCallable | notFunction => trivial
  | _ => exact h.elim

/-- A judgement on actions and families of actions, with a rule for each way in which an action is
made up. `rel w P Q x y` is about `x` in the world `w`, takes `P` for granted and says `Q` of the
result and the world that it is in. The actions may fail with what `raises` allows. -/
structure Judgement (ι : Type) (raises : Fault → Prop) where
  World : Type
  later : World → World → Prop
  rel : {α : Type} → World → Prop → (World → α → Prop) → Eval α → (ι → Eval α) → Prop
  good : World → Datum → Prop
  /-- What may be stored under a name. -/
  stores : String → Datum → Prop
  dynamic : ∀ {f : Fault}, f.IsDynamic → raises f
  mono : ∀ {w w' d}, later w w' → good w d → good w' d
  plain : ∀ w {v : Value}, (∀ tag, v ≠ .ref tag) → good w ⟨v, none⟩
  imp : ∀ {α : Type} {w} {P P' : Prop} {Q : World → α → Prop} {x : Eval α} {y : ι → Eval α},
    rel w P Q x y → (P' → P) → rel w P' Q x y
  pure : ∀ {α : Type} {w} {P : Prop} {Q : World → α → Prop} {a : α}, (P → Q w a) →
    rel w P Q (Pure.pure a) fun _ => Pure.pure a
  fail : ∀ {α : Type} {w} {P : Prop} {Q : World → α → Prop} {f : Fault}, raises f →
    rel w P Q (Eval.fail f) fun _ => Eval.fail f
  unfinished : ∀ {α : Type} {w} {P : Prop} {Q : World → α → Prop},
    rel w P Q (throw .unfinished) fun _ => throw .unfinished
  bind : ∀ {α β : Type} {w} {P : Prop} {Q : World → α → Prop} {R : World → β → Prop} {x : Eval α}
    {y : ι → Eval α} {f : α → Eval β} {g : ι → α → Eval β}, rel w P Q x y →
    (∀ w' a, later w w' → rel w' (P ∧ Q w' a) R (f a) fun i => g i a) →
    rel w P R (x >>= f) fun i => y i >>= g i
  alloc : ∀ {w name d}, stores name d →
    rel w (good w d) (fun _ _ => True) (Eval.alloc name d) fun _ => Eval.alloc name d
  load? : ∀ {w} {P : Prop} name,
    rel w P (fun w found => ∀ d, found = some d → good w d) (Eval.load? name) fun _ =>
      Eval.load? name

namespace Judgement

variable {ι : Type} {raises : Fault → Prop} (J : Judgement ι raises) {α : Type} {w : J.World}
  {P : Prop} {Q : J.World → α → Prop}

/-- What a statement may come to. -/
structure Fine (w : J.World) (c : Completion) : Prop where
  datum : J.good w c.datum
  returned : ∀ d, c.returned = some d → J.good w d

/-- What may be called. -/
def Callable (w : J.World) (f : Closure) : Prop := ∃ d, J.good w d ∧ d.function = some f

theorem good_number (w : J.World) (x : Float) : J.good w ⟨.number x, none⟩ := J.plain w nofun

theorem good_undefined (w : J.World) : J.good w .undefined := J.plain w nofun

theorem fine_of_good {d : Datum} (h : J.good w d) : J.Fine w ⟨d, none⟩ := by
  constructor
  · exact h
  · intro d' hd
    cases hd

theorem fine_undefined (w : J.World) : J.Fine w .undefined := J.fine_of_good (J.good_undefined w)

/-! ## What needs no nested evaluation -/

theorem ite {p : Prop} [Decidable p] {x x' : Eval α} {y y' : ι → Eval α} (h : J.rel w P Q x y)
    (h' : J.rel w P Q x' y') :
    J.rel w P Q (if p then x else x') fun i => if p then y i else y' i := by
  by_cases hp : p
  · simpa only [if_pos hp] using h
  · simpa only [if_neg hp] using h'

/-- Results that come one after the other, of which something is said that stays true. -/
theorem mapM {β : Type} {R : J.World → β → Prop} {f : α → Eval β} {g : ι → α → Eval β}
    {as : List α} (kept : ∀ {w w' b}, J.later w w' → R w b → R w' b)
    (h : ∀ a ∈ as, ∀ w, J.rel w True R (f a) fun i => g i a) :
    J.rel w P (fun w bs => ∀ b ∈ bs, R w b) (as.mapM f) fun i => as.mapM (g i) := by
  induction as generalizing w P with
  | nil => exact J.pure fun _ => List.forall_mem_nil _
  | cons a as ih =>
    simp only [List.mapM_cons]
    apply J.bind (J.imp (h a List.mem_cons_self w) fun _ => trivial)
    intro w' b later
    apply J.bind (ih fun a ha => h a (List.mem_cons_of_mem _ ha))
    intro w'' bs later'
    apply J.pure
    rintro ⟨⟨_, here⟩, rest⟩
    exact List.forall_mem_cons.mpr ⟨kept later' here, rest⟩

theorem lookUp (name : String) :
    J.rel w P J.good (Scriptlet.lookUp name) fun _ => Scriptlet.lookUp name := by
  apply J.bind (J.load? name)
  intro w' found _
  cases found with
  | none => exact J.fail (J.dynamic trivial)
  | some d => exact J.pure fun h => h.2 d rfl

/-- What a postfix operator comes to is the former value of its operand. -/
theorem update {target : Tree} {name : String} (named : target.identifier? = some name)
    (stored : ∀ x, J.stores name ⟨.number x, none⟩) {postfixed : Bool}
    (former : postfixed → ∀ {w d}, J.good w d → J.good w ⟨d.value, none⟩) (delta : Float) :
    J.rel w P J.good (Scriptlet.update postfixed delta target) fun _ =>
      Scriptlet.update postfixed delta target := by
  simp only [Scriptlet.update, named]
  apply J.bind (J.lookUp name)
  intro w' old _
  apply J.bind (J.imp (J.alloc (stored _)) fun _ => J.good_number w' _)
  intro w'' _ later
  apply J.pure
  rintro ⟨⟨_, good⟩, _⟩
  cases postfixed with
  | false => exact J.good_number w'' _
  | true => exact former rfl (J.mono later good)

theorem callee (node : Tree) (d : Datum) :
    J.rel w (J.good w d) J.Callable (Scriptlet.callee node d) fun _ =>
      Scriptlet.callee node d := by
  simp only [Scriptlet.callee]
  split
  · rename_i f function
    exact J.pure fun good => ⟨d, good, function⟩
  · exact J.fail (J.dynamic trivial)
  · apply J.bind (J.lookUp _)
    intro w' found _
    cases function : found.function with
    | none => exact J.fail (J.dynamic trivial)
    | some f => exact J.pure fun h => ⟨found, h.2, function⟩

theorem bindParams {params : List String} (free : ∀ p ∈ params, ∀ d, J.stores p d)
    (args : List Datum) :
    J.rel w (∀ a ∈ args, J.good w a) (fun _ _ => True) (Scriptlet.bindParams params args) fun _ =>
      Scriptlet.bindParams params args := by
  induction params generalizing w args with
  | nil => exact J.pure fun _ => trivial
  | cons p ps ih =>
    obtain ⟨here, others⟩ := List.forall_mem_cons.mp free
    cases args with
    | nil =>
      apply J.bind (J.imp (J.alloc (here .undefined)) fun _ => J.good_undefined w)
      intro w' _ _
      exact J.imp (ih others []) fun _ => List.forall_mem_nil _
    | cons a as =>
      apply J.bind (J.imp (J.alloc (here a)) fun h => h a List.mem_cons_self)
      intro w' _ later
      exact J.imp (ih others as) fun h b hb => J.mono later (h.1 b (List.mem_cons_of_mem a hb))

theorem repeatWhile {test : Eval Bool} {test' : ι → Eval Bool} {body : Eval Completion}
    {body' : ι → Eval Completion} (ht : ∀ {w}, J.rel w True (fun _ _ => True) test test')
    (hb : ∀ {w}, J.rel w True J.Fine body body') (rounds : Nat) :
    J.rel w P J.Fine (Scriptlet.repeatWhile test body rounds) fun i =>
      Scriptlet.repeatWhile (test' i) (body' i) rounds := by
  induction rounds generalizing w P with
  | zero => exact J.unfinished
  | succ rounds ih =>
    apply J.bind (J.imp ht fun _ => trivial)
    intro w' again _
    apply J.ite _ (J.pure fun _ => J.fine_undefined w')
    apply J.bind (J.imp hb fun _ => trivial)
    intro w'' c _
    exact J.ite (J.pure fun h => ⟨J.good_undefined w'', h.2.returned⟩) ih

/-! ## The constructs of the language

What is nested inside is judged of the trees that are permitted. -/

variable {J} {inner : Evaluator} {inner' : ι → Evaluator} {permitted : Tree → Prop}

section

variable (he : ∀ {w P t}, permitted t →
  J.rel w P J.good (inner.expr t) fun i => (inner' i).expr t)
include he

theorem operation {find : String → Option (Float → Float → α)} (unknown : String → Fault)
    {result : α → Value} (plain : ∀ a tag, result a ≠ .ref tag) {left right : Tree}
    (hl : permitted left) {kind : TokenKind} {op : String} {place : Option Place}
    (known : (find op).isSome) (hr : permitted right) :
    J.rel w P J.good (inner.operation find unknown result left (.token kind op place) right)
      fun i => (inner' i).operation find unknown result left (.token kind op place) right := by
  obtain ⟨f, found⟩ := Option.isSome_iff_exists.mp known
  simp only [Evaluator.operation, found]
  apply J.bind (he hl)
  intro _ a _
  apply J.bind (he hr)
  intro w' b _
  exact J.pure fun _ => J.plain w' (plain _)

theorem shortCircuit (onward : Bool) {left right : Tree} (hl : permitted left)
    (hr : permitted right) :
    J.rel w P J.good (inner.shortCircuit onward left right) fun i =>
      (inner' i).shortCircuit onward left right :=
  J.bind (he hl) fun _ _ _ => J.ite (he hr) (J.pure fun h => h.2)

theorem signed (sign : Float → Float) {operand : Tree} (ho : permitted operand) :
    J.rel w P J.good (inner.signed sign operand) fun i => (inner' i).signed sign operand :=
  J.bind (he ho) fun w _ _ => J.pure fun _ => J.good_number w _

theorem application
    (call : ∀ {w} f args, J.rel w (J.Callable w f ∧ ∀ a ∈ args, J.good w a) J.good
      (inner.call f args) fun i => (inner' i).call f args)
    {function args : Tree} (hf : permitted function) (ha : ∀ a ∈ args.children, permitted a) :
    J.rel w P J.good (inner.application function args) fun i =>
      (inner' i).application function args := by
  apply J.bind (he hf)
  intro _ d _
  apply J.bind (J.mapM (R := J.good) J.mono fun a mem _ => he (ha a mem))
  intro _ values later
  apply J.bind (J.imp (J.callee function d) fun h => J.mono later h.1.2)
  intro _ f later'
  exact J.imp (call f values) fun h => ⟨h.2, fun a mem => J.mono later' (h.1.2 a mem)⟩

theorem store (role : IdentifierRole) {target value : Tree} {name : String}
    (named : target.identifier? = some name) (stored : ∀ d, J.stores name d)
    (hv : permitted value) :
    J.rel w P J.Fine (inner.store role target value) fun i =>
      (inner' i).store role target value := by
  have stores : J.rel w P J.Fine (do let d ← inner.expr value; Eval.alloc name d; return ⟨d, none⟩)
      fun i => (do let d ← (inner' i).expr value; Eval.alloc name d; return ⟨d, none⟩) := by
    apply J.bind (he hv)
    intro _ d _
    apply J.bind (J.imp (J.alloc (stored d)) fun h => h.2)
    intro _ _ later
    exact J.pure fun h => J.fine_of_good (J.mono later h.1.2)
  simp only [Evaluator.store, Scriptlet.identifier, named]
  exact stores

theorem bare {e : Tree} (h : permitted e) :
    J.rel w P J.Fine (inner.bare e) fun i => (inner' i).bare e :=
  J.bind (he h) fun _ _ _ => J.pure fun h => J.fine_of_good h.2

theorem returning {e : Tree} (h : permitted e) :
    J.rel w P J.Fine (inner.returning e) fun i => (inner' i).returning e := by
  apply J.bind (he h)
  intro _ d _
  apply J.pure
  rintro ⟨_, good⟩
  constructor
  · exact good
  · intro d' hd
    cases hd
    exact good

theorem test {e : Tree} (h : permitted e) :
    J.rel w P (fun _ _ => True) (inner.test e) fun i => (inner' i).test e :=
  J.bind (he h) fun _ _ _ => J.pure fun _ => trivial

end

section

variable {runs : Tree → Prop} (hs : ∀ {w P t}, runs t →
  J.rel w P J.Fine (inner.stmt t) fun i => (inner' i).stmt t)
include hs

/-- One statement of a list, and what follows unless it returns. -/
theorem stmtThen {t : Tree} (ht : runs t) {rest : Eval Completion}
    {rest' : ι → Eval Completion} (hr : ∀ {w P}, J.rel w P J.Fine rest rest') :
    J.rel w P J.Fine (do
        let c ← inner.stmt t
        if c.returned.isSome then return c else rest)
      (fun i => do
        let c ← (inner' i).stmt t
        if c.returned.isSome then return c else rest' i) :=
  J.bind (hs ht) fun _ _ _ => J.ite (J.pure fun h => h.2) hr

variable (he : ∀ {w P t}, permitted t →
  J.rel w P J.good (inner.expr t) fun i => (inner' i).expr t)
include he

theorem branch {condition body other : Tree} (hc : permitted condition) (hb : runs body)
    (ho : other ≠ .missing → runs other) :
    J.rel w P J.Fine (inner.branch condition body other) fun i =>
      (inner' i).branch condition body other := by
  apply J.bind (test he hc)
  intro w' again _
  apply J.ite (hs hb)
  cases other with
  | missing => exact J.pure fun _ => J.fine_undefined w'
  | _ => exact hs (ho nofun)

end

end Judgement

/-- A judgement on whole steps: what it asks of a tree holds of what is evaluated in it, however the
tree is made up. -/
structure Congruence (ι : Type) extends Judgement ι Fault.IsOwn where
  dynamic := Fault.IsDynamic.isOwn
  permits : Tree → Prop
  /-- The parts of a function literal are not evaluated along with it. -/
  part : ∀ {label place children t}, permits (.node label place children) → label ≠ .function →
    t ∈ children → permits t
  argument : ∀ {place function args t}, permits (.node .call place [function, args]) →
    t ∈ args.children → permits t
  target : ∀ {label place target value name}, permits (.node label place [target, value]) →
    label = .decl ∨ label = .assign → target.identifier? = some name → ∀ d, stores name d
  operand : ∀ {label place target rest name}, permits (.node label place (target :: rest)) →
    label ∈ Label.updates → target.identifier? = some name → ∀ x, stores name ⟨.number x, none⟩
  /-- The value that a variable had before a postfix operator. -/
  former : ∀ {w d label place target rest}, permits (.node label place (target :: rest)) →
    label = .postIncrement ∨ label = .postDecrement → good w d → good w ⟨d.value, none⟩
  literal : ∀ {w} {P : Prop} {place name params body},
    permits (.node .function place [name, params, body]) →
    rel w P good (makeFunction name params body) fun _ => makeFunction name params body

namespace Congruence

variable {ι : Type} (C : Congruence ι) {α : Type} {w : C.World} {P : Prop}
  {Q : C.World → α → Prop}

theorem tokenValue (kind : TokenKind) (text : String) :
    C.rel w P C.good (Scriptlet.tokenValue kind text) fun _ => Scriptlet.tokenValue kind text := by
  cases kind with
  | identifier => exact C.lookUp text
  | number | trueWord | falseWord | nullWord | undefinedWord =>
    exact C.pure fun _ => C.plain w nofun
  | _ => exact C.fail trivial

theorem update {label : Label} {place : Option Place} {target : Tree} {rest : List Tree}
    (ht : C.permits (.node label place (target :: rest))) (updates : label ∈ Label.updates)
    {postfixed : Bool} (former : postfixed → label = .postIncrement ∨ label = .postDecrement)
    (delta : Float) :
    C.rel w P C.good (Scriptlet.update postfixed delta target) fun _ =>
      Scriptlet.update postfixed delta target := by
  cases named : target.identifier? with
  | none =>
    simp only [Scriptlet.update, named]
    exact C.fail trivial
  | some name =>
    have stored : ∀ x, C.stores name ⟨.number x, none⟩ := C.operand ht updates named
    have kept (old : postfixed) {w d} : C.good w d → C.good w ⟨d.value, none⟩ :=
      C.former ht (former old)
    exact C.toJudgement.update named stored kept delta

section

variable {label : Label} {children : List Tree}

theorem first {f : Tree → Eval α} {g : ι → Tree → Eval α}
    (h : ∀ a rest, children = a :: rest → C.rel w P Q (f a) fun i => g i a) :
    C.rel w P Q (Scriptlet.first label children f) fun i =>
      Scriptlet.first label children (g i) := by
  rcases children with _ | ⟨a, rest⟩
  · exact C.fail trivial
  · exact h a rest rfl

theorem one {f : Tree → Eval α} {g : ι → Tree → Eval α}
    (h : ∀ a ∈ children, C.rel w P Q (f a) fun i => g i a) :
    C.rel w P Q (Scriptlet.one label children f) fun i => Scriptlet.one label children (g i) := by
  rcases children with _ | ⟨a, _ | _⟩
  · exact C.fail trivial
  · exact h a List.mem_cons_self
  · exact C.fail trivial

theorem two {f : Tree → Tree → Eval α} {g : ι → Tree → Tree → Eval α}
    (h : ∀ a b, children = [a, b] → C.rel w P Q (f a b) fun i => g i a b) :
    C.rel w P Q (Scriptlet.two label children f) fun i => Scriptlet.two label children (g i) := by
  rcases children with _ | ⟨a, _ | ⟨b, _ | _⟩⟩
  · exact C.fail trivial
  · exact C.fail trivial
  · exact h a b rfl
  · exact C.fail trivial

theorem three {f : Tree → Tree → Tree → Eval α} {g : ι → Tree → Tree → Tree → Eval α}
    (h : ∀ a b c, children = [a, b, c] → C.rel w P Q (f a b c) fun i => g i a b c) :
    C.rel w P Q (Scriptlet.three label children f) fun i =>
      Scriptlet.three label children (g i) := by
  rcases children with _ | ⟨a, _ | ⟨b, _ | ⟨c, _ | _⟩⟩⟩
  · exact C.fail trivial
  · exact C.fail trivial
  · exact C.fail trivial
  · exact h a b c rfl
  · exact C.fail trivial

end

/-! ## Steps -/

variable {C} {inner : Evaluator} {inner' : ι → Evaluator}

section

variable (he : ∀ {w P t}, C.permits t →
  C.rel w P C.good (inner.expr t) fun i => (inner' i).expr t)
include he

theorem operation (find : String → Option (Float → Float → α)) {unknown : String → Fault}
    (own : ∀ op, (unknown op).IsOwn) {result : α → Value} (plain : ∀ a tag, result a ≠ .ref tag)
    {left right : Tree} (hl : C.permits left) (op : Tree) (hr : C.permits right) :
    C.rel w P C.good (inner.operation find unknown result left op right) fun i =>
      (inner' i).operation find unknown result left op right := by
  cases op with
  | token kind text place =>
    cases found : find text with
    | none =>
      simp only [Evaluator.operation, found]
      exact C.fail (own text)
    | some f => exact Judgement.operation he unknown plain hl (by simp [found]) hr
  | _ => exact C.fail trivial

/-- An expression that is no call evaluates nothing but expressions. -/
theorem plainStep {t : Tree} (ht : C.permits t)
    (noCall : ∀ place children, t ≠ .node .call place children) :
    C.rel w P C.good (inner.exprStep t) fun i => (inner' i).exprStep t := by
  cases t with
  | missing => exact C.fail trivial
  | token kind text place => exact C.tokenValue kind text
  | node label place children =>
    have part {a : Tree} : label ≠ .function → a ∈ children → C.permits a := C.part ht
    have updated (updates : label ∈ Label.updates) (postfixed : Bool)
        (former : postfixed → label = .postIncrement ∨ label = .postDecrement) (delta : Float) :
        C.rel w P C.good (Scriptlet.first label children (Scriptlet.update postfixed delta))
          fun _ => Scriptlet.first label children (Scriptlet.update postfixed delta) := by
      apply C.first
      rintro a rest rfl
      exact C.update ht updates former delta
    cases label with
    | add | mul | compare =>
      apply C.three
      rintro a b c rfl
      refine operation he _ ?_ ?_ (part nofun (by simp)) b (part nofun (by simp))
      · exact fun _ => trivial
      · exact fun _ _ => nofun
    | and | or =>
      apply C.two
      rintro a b rfl
      exact Judgement.shortCircuit he _ (part nofun (by simp)) (part nofun (by simp))
    | neg | pos =>
      apply C.first
      rintro a rest rfl
      exact Judgement.signed he _ (part nofun List.mem_cons_self)
    | preIncrement | preDecrement => exact updated (by decide) false (by simp) _
    | postIncrement | postDecrement => exact updated (by decide) true (by simp) _
    | function =>
      apply C.three
      rintro a b c rfl
      exact C.literal ht
    | call => exact absurd rfl (noCall place children)
    | _ => exact C.fail trivial

/-- The calls that an expression makes are taken to be related. -/
theorem exprStep (call : ∀ {w} f args, C.rel w (C.Callable w f ∧ ∀ a ∈ args, C.good w a) C.good
    (inner.call f args) fun i => (inner' i).call f args) {t : Tree} (ht : C.permits t) :
    C.rel w P C.good (inner.exprStep t) fun i => (inner' i).exprStep t := by
  by_cases isCall : ∃ place children, t = .node .call place children
  · obtain ⟨place, children, rfl⟩ := isCall
    have part {a : Tree} : a ∈ children → C.permits a := C.part ht nofun
    apply C.two
    rintro function args rfl
    exact Judgement.application he call (part (by simp)) fun a mem => C.argument ht mem
  · exact plainStep he ht fun place children same => isCall ⟨place, children, same⟩

theorem store (role : IdentifierRole) {target value : Tree}
    (ht : ∀ name, target.identifier? = some name → ∀ d, C.stores name d) (hv : C.permits value) :
    C.rel w P C.Fine (inner.store role target value) fun i =>
      (inner' i).store role target value := by
  cases named : target.identifier? with
  | none =>
    simp only [Evaluator.store, Scriptlet.identifier, named]
    exact C.fail trivial
  | some name => exact Judgement.store he role named (ht name named) hv

end

section

variable (hs : ∀ {w P t}, C.permits t →
  C.rel w P C.Fine (inner.stmt t) fun i => (inner' i).stmt t)
include hs

theorem sequence {first rest : Tree} (hf : C.permits first) (hr : C.permits rest) :
    C.rel w P C.Fine (inner.sequence first rest) fun i => (inner' i).sequence first rest := by
  fun_induction Evaluator.sequence inner first rest generalizing w P with
  | case1 first place next rest ih =>
    have part {t : Tree} : t ∈ [next, rest] → C.permits t := C.part hr (by decide)
    exact Judgement.stmtThen hs hf (ih (part (by simp)) (part (by simp)))
  | case2 first place children malformed =>
    have ended (i : ι) : (inner' i).sequence first (.node .seq place children) = _ :=
      Evaluator.sequence.eq_2 _ first place children malformed
    simp only [ended]
    exact Judgement.stmtThen hs hf (C.fail trivial)
  | case3 first last well malformed =>
    have ended (i : ι) : (inner' i).sequence first last = _ :=
      Evaluator.sequence.eq_3 _ first last well malformed
    simp only [ended]
    exact Judgement.stmtThen hs hf (hs hr)

variable (he : ∀ {w P t}, C.permits t →
  C.rel w P C.good (inner.expr t) fun i => (inner' i).expr t)
include he

theorem stmtStep (rounds : Nat) {t : Tree} (ht : C.permits t) :
    C.rel w P C.Fine (inner.stmtStep rounds t) fun i => (inner' i).stmtStep rounds t := by
  cases t with
  | node label place children =>
    have part {a : Tree} : label ≠ .function → a ∈ children → C.permits a := C.part ht
    cases label with
    | decl | assign =>
      apply C.two
      rintro target value rfl
      have stored (name : String) : target.identifier? = some name → ∀ d, C.stores name d :=
        C.target ht (by simp)
      exact store he _ stored (part nofun (by simp))
    | bareExpr =>
      apply C.first
      rintro e rest rfl
      exact Judgement.bare he (part nofun List.mem_cons_self)
    | empty => exact C.pure fun _ => C.fine_undefined w
    | conditional =>
      apply C.three
      rintro condition body other rfl
      refine Judgement.branch hs he (part nofun (by simp)) (part nofun (by simp)) fun _ => ?_
      exact part nofun (by simp)
    | loop =>
      apply C.two
      rintro condition body rfl
      have tested : C.permits condition := part nofun (by simp)
      exact C.repeatWhile (Judgement.test he tested) (hs (part nofun (by simp))) rounds
    | ret => exact C.one fun e mem => Judgement.returning he (part nofun mem)
    | seq =>
      apply C.two
      rintro first rest rfl
      exact sequence hs (part nofun (by simp)) (part nofun (by simp))
    | _ => exact C.fail trivial
  | _ => exact C.fail trivial

end

end Congruence

/-! ## Relations that hold whatever the trees and the data are -/

/-- Takes the next number for an anonymous name. -/
def Eval.count : Eval Nat :=
  modifyGet fun m => (m.anonymous, { m with anonymous := m.anonymous + 1 })

/-- A relation between actions and families of actions that every request keeps, whatever it is
about. -/
structure Uniform (ι : Type) where
  rel : {α : Type} → Eval α → (ι → Eval α) → Prop
  pure : ∀ {α : Type} (a : α), rel (Pure.pure a) fun _ => Pure.pure a
  fail : ∀ {α : Type} {f : Fault}, f.IsOwn → rel (Eval.fail f : Eval α) fun _ => Eval.fail f
  unfinished : ∀ {α : Type}, rel (throw .unfinished : Eval α) fun _ => throw .unfinished
  bind : ∀ {α β : Type} {x : Eval α} {y : ι → Eval α} {f : α → Eval β} {g : ι → α → Eval β},
    rel x y → (∀ a, rel (f a) fun i => g i a) → rel (x >>= f) fun i => y i >>= g i
  alloc : ∀ name d, rel (Eval.alloc name d) fun _ => Eval.alloc name d
  count : rel Eval.count fun _ => Eval.count
  load? : ∀ name, rel (Eval.load? name) fun _ => Eval.load? name
  reserve : rel Eval.reserve fun _ => Eval.reserve

namespace Uniform

variable {ι : Type} (U : Uniform ι)

/-- The world says nothing, and all data are good. -/
def judgement : Judgement ι Fault.IsOwn where
  World := Unit
  later _ _ := True
  rel _ _ _ := U.rel
  good _ _ := True
  stores _ _ := True
  dynamic := Fault.IsDynamic.isOwn
  mono _ _ := trivial
  plain _ _ _ := trivial
  imp h _ := h
  pure _ := U.pure _
  fail := U.fail
  unfinished := U.unfinished
  bind hx hf := U.bind hx fun a => hf () a trivial
  alloc _ := U.alloc _ _
  load? := U.load?

theorem mapM {α β : Type} {f : α → Eval β} {g : ι → α → Eval β}
    (h : ∀ a, U.rel (f a) fun i => g i a) (as : List α) :
    U.rel (as.mapM f) fun i => as.mapM (g i) :=
  U.judgement.mapM (w := ()) (P := True) (R := fun _ _ => True) (fun _ _ => trivial)
    fun a _ _ => h a

theorem bindParams (params : List String) (args : List Datum) :
    U.rel (Scriptlet.bindParams params args) fun _ => Scriptlet.bindParams params args :=
  U.judgement.bindParams (w := ()) (fun _ _ _ => trivial) args

theorem callee (node : Tree) (d : Datum) :
    U.rel (Scriptlet.callee node d) fun _ => Scriptlet.callee node d :=
  U.judgement.callee (w := ()) node d

theorem identifier (role : IdentifierRole) (t : Tree) :
    U.rel (Scriptlet.identifier role t) fun _ => Scriptlet.identifier role t := by
  simp only [Scriptlet.identifier]
  cases t.identifier? with
  | none => exact U.fail trivial
  | some name => exact U.pure name

theorem paramNames (t : Tree) :
    U.rel (Scriptlet.paramNames t) fun _ => Scriptlet.paramNames t := by
  cases t with
  | missing => exact U.pure _
  | token => exact U.fail trivial
  | node label place params => exact U.mapM (U.identifier .parameter) params

theorem allocAnonymous (d : Datum) :
    U.rel (Eval.allocAnonymous d) fun _ => Eval.allocAnonymous d :=
  U.bind U.count fun _ => U.alloc _ d

theorem makeFunction (name params body : Tree) :
    U.rel (Scriptlet.makeFunction name params body) fun _ =>
      Scriptlet.makeFunction name params body := by
  apply U.bind U.reserve
  intro scope
  apply U.bind (U.paramNames params)
  intro names
  simp only
  split
  · split
    · exact U.bind (U.allocAnonymous _) fun _ => U.pure _
    · exact U.bind (U.alloc _ _) fun _ => U.pure _
  · exact U.bind (U.allocAnonymous _) fun _ => U.pure _

/-- Every tree is permitted. -/
def congruence : Congruence ι where
  toJudgement := U.judgement
  permits _ := True
  part _ _ _ := trivial
  argument _ _ := trivial
  target _ _ _ _ := trivial
  operand _ _ _ _ := trivial
  former _ _ _ := trivial
  literal _ := U.makeFunction _ _ _

variable {inner : Evaluator} {inner' : ι → Evaluator} {α : Type}

theorem two {label : Label} {children : List Tree} {f : Tree → Tree → Eval α}
    {g : ι → Tree → Tree → Eval α} (h : ∀ a b, U.rel (f a b) fun i => g i a b) :
    U.rel (Scriptlet.two label children f) fun i => Scriptlet.two label children (g i) :=
  U.congruence.two (w := ()) (P := True) (Q := fun _ _ => True) fun a b _ => h a b

section

variable (he : ∀ t, U.rel (inner.expr t) fun i => (inner' i).expr t)
include he

theorem plainStep {t : Tree} (noCall : ∀ place children, t ≠ .node .call place children) :
    U.rel (inner.exprStep t) fun i => (inner' i).exprStep t :=
  Congruence.plainStep (C := U.congruence) (w := ()) (P := True) (fun _ => he _) trivial noCall

theorem exprStep
    (call : ∀ f args, U.rel (inner.call f args) fun i => (inner' i).call f args) (t : Tree) :
    U.rel (inner.exprStep t) fun i => (inner' i).exprStep t :=
  Congruence.exprStep (C := U.congruence) (w := ()) (P := True) (fun _ => he _) call trivial

theorem test (e : Tree) : U.rel (inner.test e) fun i => (inner' i).test e :=
  Judgement.test (J := U.judgement) (w := ()) (P := True)
    (fun {_ _ t} (_ : U.congruence.permits t) => he t) trivial

theorem stmtStep (hs : ∀ t, U.rel (inner.stmt t) fun i => (inner' i).stmt t) (rounds : Nat)
    (t : Tree) : U.rel (inner.stmtStep rounds t) fun i => (inner' i).stmtStep rounds t :=
  Congruence.stmtStep (C := U.congruence) (w := ()) (P := True) (fun _ => hs _) (fun _ => he _)
    rounds trivial

end

end Uniform

end Scriptlet
