import Scriptlet.Proofs.Congruence
import Scriptlet.Proofs.Correspondence
/-!
# Two runs side by side

Two evaluators run trees of one form on two machines, with data in the one run for related data in
the other. If actions that are made up of related actions are related, and so are the requests that
two steps make to their stores for related data, then whole steps are related as long as nested
evaluations and calls are. What a relation has to show for this are the clauses of a `Parallel`.
-/

namespace Scriptlet

/-! ## Trees of one form -/

/-- Trees of one form, whose children are related. -/
inductive Tree.Alike (R : Tree → Tree → Prop) : Tree → Tree → Prop
  | missing : Alike R .missing .missing
  | token {kind text place place'} : Alike R (.token kind text place) (.token kind text place')
  | node {label place place' children children'} : List.Forall₂ R children children' →
      Alike R (.node label place children) (.node label place' children')

namespace Tree.Alike

variable {R : Tree → Tree → Prop} {t t' : Tree}

theorem refl (hr : ∀ t, R t t) (t : Tree) : t.Alike R t := by
  cases t with
  | missing => exact .missing
  | token => exact .token
  | node => exact .node (List.forall₂_same.mpr fun t _ => hr t)

theorem identifier? (h : t.Alike R t') : t.identifier? = t'.identifier? := by
  cases h with
  | @token kind => cases kind <;> rfl
  | _ => rfl

theorem kindName (h : t.Alike R t') : t.kindName = t'.kindName := by
  cases h <;> rfl

theorem children (h : t.Alike R t') : List.Forall₂ R t.children t'.children := by
  cases h with
  | node same => exact same
  | _ => exact .nil

theorem missing_iff (h : t.Alike R t') : t = .missing ↔ t' = .missing := by
  cases h <;> simp

end Tree.Alike

mutual

theorem Tree.literal_eq {R : Tree → Tree → Prop} (alike : ∀ {t t'}, R t t' → t.Alike R t')
    {t t' : Tree} (h : R t t') : t.literal = t'.literal := by
  match t, t', alike h with
  | _, _, .missing => rfl
  | _, _, .token => simp [Tree.literal]
  | .node _ _ _, .node _ _ _, .node hs => simp [Tree.literal, literalAll_eq alike hs]

theorem Tree.literalAll_eq {R : Tree → Tree → Prop} (alike : ∀ {t t'}, R t t' → t.Alike R t')
    {ts ts' : List Tree} (h : List.Forall₂ R ts ts') :
    Tree.literalAll ts = Tree.literalAll ts' := by
  match ts, ts', h with
  | _, _, .nil => rfl
  | [_], [_], .cons ht .nil => simp [Tree.literalAll, literal_eq alike ht]
  | _ :: _ :: _, _ :: _ :: _, .cons ht hts =>
    simp [Tree.literalAll, literal_eq alike ht, literalAll_eq alike hts]

end

/-! ## Calls and statement lists -/

namespace Evaluator

/-- What a call comes to once its body has ended. -/
def callEnding : Except Stop Completion → Eval Datum
  | .ok e => pure (e.returned.getD .undefined)
  | .error .tooDeep => Eval.fail .callsTooDeep
  | .error stop => throw stop

theorem call_eq (inner : Evaluator) (f : Closure) (args : List Datum) :
    inner.call f args = (do
      Eval.record (.call f args.length)
      Eval.push f.scope
      let ending ← Eval.attempt do
        bindParams f.params args
        inner.stmt f.body
      Eval.pop false
      callEnding ending) := rfl

/-- One action, and another one unless the first returns. -/
def andThen (x y : Eval Completion) : Eval Completion := do
  let e ← x
  if e.returned.isSome then return e else y

/-- The last statement of a list. If it is a list itself, its statements are run as if they were
part of the list around it. -/
def last (inner : Evaluator) : Tree → Eval Completion
  | .node .seq _ [next, rest] => inner.sequence next rest
  | .node .seq _ _ => Eval.fail (.malformedNode Label.seq.name)
  | t => inner.stmt t

theorem sequence_eq (inner : Evaluator) (first rest : Tree) :
    inner.sequence first rest = andThen (inner.stmt first) (inner.last rest) := by
  cases rest with
  | missing => rfl
  | token => rfl
  | node label place children =>
    cases label with
    | seq => rcases children with _ | ⟨_, _ | ⟨_, _ | _⟩⟩ <;> rfl
    | _ => rfl

end Evaluator

/-! ## The clauses -/

/-- A relation between actions of two runs, with a clause for each way in which a step is made up.
`rel Q x y` says `Q` of the results of `x` and `y`. -/
structure Parallel where
  rel : {α β : Type} → (α → β → Prop) → Eval α → Eval β → Prop
  data : Datum → Datum → Prop
  functions : Closure → Closure → Prop
  /-- What takes the place of the body of a function, and of its scope. -/
  bodies : Tree → Tree → Prop
  scopes : Nat → Nat → Prop
  /-- The names that may be looked up. -/
  names : String → Prop
  truth : ∀ {d d'}, data d d' → d.value.truth = d'.value.truth
  toNumber : ∀ {d d'}, data d d' → d.value.toNumber = d'.value.toNumber
  function : ∀ {d d'}, data d d' → Option.Rel functions d.function d'.function
  plain : ∀ {v : Value}, (∀ tag, v ≠ .ref tag) → data ⟨v, none⟩ ⟨v, none⟩
  former : ∀ {d d'}, data d d' → data ⟨d.value, none⟩ ⟨d'.value, none⟩
  made : ∀ {n n' : Nat} {body body'} params name, scopes n n' → bodies body body' →
    data ⟨.ref n, some ⟨params, body, name, n⟩⟩ ⟨.ref n', some ⟨params, body', name, n'⟩⟩
  pure : ∀ {α β : Type} {Q : α → β → Prop} {a b}, Q a b → rel Q (Pure.pure a) (Pure.pure b)
  fail : ∀ {α β : Type} {Q : α → β → Prop} {f : Fault}, f.IsOwn →
    rel Q (Eval.fail f) (Eval.fail f)
  unfinished : ∀ {α β : Type} {Q : α → β → Prop}, rel Q (throw .unfinished) (throw .unfinished)
  bind : ∀ {α β γ δ : Type} {Q : α → β → Prop} {R : γ → δ → Prop} {x y} {f : α → Eval γ}
    {g : β → Eval δ}, rel Q x y → (∀ a b, Q a b → rel R (f a) (g b)) → rel R (x >>= f) (y >>= g)
  alloc : ∀ {d d'} name, data d d' →
    rel (fun _ _ => True) (Eval.alloc name d) (Eval.alloc name d')
  allocAnonymous : ∀ {d d'}, data d d' →
    rel (fun _ _ => True) (Eval.allocAnonymous d) (Eval.allocAnonymous d')
  load? : ∀ {name}, names name → rel (Option.Rel data) (Eval.load? name) (Eval.load? name)
  reserve : rel scopes Eval.reserve Eval.reserve

namespace Parallel

variable (P : Parallel) {α β γ δ : Type} {Q : α → β → Prop}

/-- What two statements may come to. -/
abbrev Fine : Completion → Completion → Prop := Completion.Alike P.data

theorem undefined : P.data .undefined .undefined := P.plain nofun

theorem number (x : Float) : P.data ⟨.number x, none⟩ ⟨.number x, none⟩ := P.plain nofun

theorem fine_undefined : P.Fine .undefined .undefined := .of_datum P.undefined

/-! ## What needs no nested evaluation -/

theorem ite {p p' : Prop} [Decidable p] [Decidable p'] {x y : Eval α} {x' y' : Eval β}
    (same : p ↔ p') (hx : P.rel Q x x') (hy : P.rel Q y y') :
    P.rel Q (if p then x else y) (if p' then x' else y') := by
  by_cases h : p
  · rw [if_pos h, if_pos (same.mp h)]
    exact hx
  · rw [if_neg h, if_neg (mt same.mpr h)]
    exact hy

theorem mapM {R : γ → δ → Prop} {f : γ → Eval α} {g : δ → Eval β} {as : List γ} {bs : List δ}
    (h : List.Forall₂ R as bs) (hf : ∀ a b, R a b → P.rel Q (f a) (g b)) :
    P.rel (List.Forall₂ Q) (as.mapM f) (bs.mapM g) := by
  induction h with
  | nil => exact P.pure .nil
  | cons same _ ih =>
    rw [List.mapM_cons, List.mapM_cons]
    exact P.bind (hf _ _ same) fun _ _ here => P.bind ih fun _ _ rest => P.pure (.cons here rest)

theorem identifier (role : IdentifierRole) {t t' : Tree} (h : t.identifier? = t'.identifier?) :
    P.rel Eq (Scriptlet.identifier role t) (Scriptlet.identifier role t') := by
  rw [Scriptlet.identifier, Scriptlet.identifier, h]
  cases t'.identifier? with
  | none => exact P.fail trivial
  | some name => exact P.pure rfl

theorem paramNames {t t' : Tree} (h : t.Alike (fun a b => a.identifier? = b.identifier?) t') :
    P.rel Eq (Scriptlet.paramNames t) (Scriptlet.paramNames t') := by
  cases h with
  | missing => exact P.pure rfl
  | token => exact P.fail trivial
  | node params =>
    have names := P.mapM params fun _ _ => P.identifier .parameter
    rw [List.forall₂_eq_eq_eq] at names
    exact names

theorem lookUp {name : String} (h : P.names name) :
    P.rel P.data (Scriptlet.lookUp name) (Scriptlet.lookUp name) := by
  refine P.bind (P.load? h) fun d d' found => ?_
  cases found with
  | none => exact P.fail trivial
  | some same => exact P.pure same

theorem tokenValue {kind : TokenKind} {text : String} (h : kind = .identifier → P.names text) :
    P.rel P.data (Scriptlet.tokenValue kind text) (Scriptlet.tokenValue kind text) := by
  cases kind with
  | identifier => exact P.lookUp (h rfl)
  | number | trueWord | falseWord | nullWord | undefinedWord => exact P.pure (P.plain nofun)
  | _ => exact P.fail trivial

theorem makeFunction {name name' params params' body body' : Tree}
    (hn : name.identifier? = name'.identifier?)
    (hp : params.Alike (fun a b => a.identifier? = b.identifier?) params')
    (hb : P.bodies body body') :
    P.rel P.data (Scriptlet.makeFunction name params body)
      (Scriptlet.makeFunction name' params' body') := by
  refine P.bind P.reserve fun scope scope' reserved => ?_
  refine P.bind (P.paramNames hp) fun names _ same => ?_
  subst same
  have function := P.made names name.identifier? reserved hb
  rw [← hn]
  dsimp only
  generalize name.identifier? = found at function ⊢
  cases found with
  | none => exact P.bind (P.allocAnonymous function) fun _ _ _ => P.pure function
  | some text =>
    refine P.ite Iff.rfl ?_ ?_
    · exact P.bind (P.allocAnonymous function) fun _ _ _ => P.pure function
    · exact P.bind (P.alloc text function) fun _ _ _ => P.pure function

theorem update (postfixed : Bool) (delta : Float) {target target' : Tree}
    (same : target.identifier? = target'.identifier?) (kind : target.kindName = target'.kindName)
    (names : ∀ name, target.identifier? = some name → P.names name) :
    P.rel P.data (Scriptlet.update postfixed delta target)
      (Scriptlet.update postfixed delta target') := by
  rw [Scriptlet.update, Scriptlet.update, ← same, ← kind]
  cases found : target.identifier? with
  | none => exact P.fail trivial
  | some name =>
    refine P.bind (P.lookUp (names name found)) fun old old' same => ?_
    dsimp only
    rw [P.toNumber same]
    refine P.bind (P.alloc name (P.number _)) fun _ _ _ => P.pure ?_
    cases postfixed with
    | true => exact P.former same
    | false => exact P.number _

theorem callee {node node' : Tree} (same : node.identifier? = node'.identifier?)
    (names : ∀ name, node.identifier? = some name → P.names name) {d d' : Datum}
    (hd : P.data d d') :
    P.rel P.functions (Scriptlet.callee node d) (Scriptlet.callee node' d') := by
  have function := P.function hd
  rw [Scriptlet.callee, Scriptlet.callee, ← same]
  generalize d.function = f at function ⊢
  generalize d'.function = f' at function ⊢
  cases function with
  | some same => exact P.pure same
  | none =>
    cases found : node.identifier? with
    | none => exact P.fail trivial
    | some name =>
      refine P.bind (P.lookUp (names name found)) fun d d' same => ?_
      have function := P.function same
      generalize d.function = f at function ⊢
      generalize d'.function = f' at function ⊢
      cases function with
      | none => exact P.fail trivial
      | some here => exact P.pure here

theorem bindParams (params : List String) {args args' : List Datum}
    (h : List.Forall₂ P.data args args') :
    P.rel (fun _ _ => True) (Scriptlet.bindParams params args)
      (Scriptlet.bindParams params args') := by
  induction params generalizing args args' with
  | nil => exact P.pure trivial
  | cons p ps ih =>
    cases h with
    | nil => exact P.bind (P.alloc p P.undefined) fun _ _ _ => ih .nil
    | cons same rest => exact P.bind (P.alloc p same) fun _ _ _ => ih rest

section

variable {label : Label} {children children' : List Tree} {R : Tree → Tree → Prop}
  (h : List.Forall₂ R children children')
include h

theorem first {f : Tree → Eval α} {g : Tree → Eval β}
    (hf : ∀ a a', R a a' → P.rel Q (f a) (g a')) :
    P.rel Q (Scriptlet.first label children f) (Scriptlet.first label children' g) := by
  cases h with
  | nil => exact P.fail trivial
  | cons ha _ => exact hf _ _ ha

theorem one {f : Tree → Eval α} {g : Tree → Eval β}
    (hf : ∀ a a', R a a' → P.rel Q (f a) (g a')) :
    P.rel Q (Scriptlet.one label children f) (Scriptlet.one label children' g) := by
  rcases h with _ | ⟨ha, _ | ⟨hb, _⟩⟩
  · exact P.fail trivial
  · exact hf _ _ ha
  · exact P.fail trivial

theorem two {f : Tree → Tree → Eval α} {g : Tree → Tree → Eval β}
    (hf : ∀ a a' b b', R a a' → R b b' → P.rel Q (f a b) (g a' b')) :
    P.rel Q (Scriptlet.two label children f) (Scriptlet.two label children' g) := by
  rcases h with _ | ⟨ha, _ | ⟨hb, _ | ⟨hc, _⟩⟩⟩
  · exact P.fail trivial
  · exact P.fail trivial
  · exact hf _ _ _ _ ha hb
  · exact P.fail trivial

theorem three {f : Tree → Tree → Tree → Eval α} {g : Tree → Tree → Tree → Eval β}
    (hf : ∀ a a' b b' c c', R a a' → R b b' → R c c' → P.rel Q (f a b c) (g a' b' c')) :
    P.rel Q (Scriptlet.three label children f) (Scriptlet.three label children' g) := by
  rcases h with _ | ⟨ha, _ | ⟨hb, _ | ⟨hc, _ | ⟨hd, _⟩⟩⟩⟩
  · exact P.fail trivial
  · exact P.fail trivial
  · exact P.fail trivial
  · exact hf _ _ _ _ _ _ ha hb hc
  · exact P.fail trivial

end

theorem repeatWhile {test test' : Eval Bool} {body body' : Eval Completion}
    (ht : P.rel Eq test test') (hb : P.rel P.Fine body body') (rounds : Nat) :
    P.rel P.Fine (Scriptlet.repeatWhile test body rounds)
      (Scriptlet.repeatWhile test' body' rounds) := by
  induction rounds with
  | zero => exact P.unfinished
  | succ rounds ih =>
    refine P.bind ht fun again _ same => ?_
    subst same
    refine P.ite Iff.rfl ?_ (P.pure P.fine_undefined)
    refine P.bind hb fun e e' same => ?_
    refine P.ite (by rw [same.isSome_returned]) ?_ ih
    exact P.pure ⟨P.undefined, same.returned⟩

theorem andThen {x x' y y' : Eval Completion} (hx : P.rel P.Fine x x') (hy : P.rel P.Fine y y') :
    P.rel P.Fine (Evaluator.andThen x y) (Evaluator.andThen x' y') :=
  P.bind hx fun _ _ same => P.ite (by rw [same.isSome_returned]) (P.pure same) hy

/-! ## Steps whose nested evaluations are related -/

variable {inner inner' : Evaluator}

section

variable {a a' b b' : Tree} (ha : P.rel P.data (inner.expr a) (inner'.expr a'))
include ha

theorem operation (hb : P.rel P.data (inner.expr b) (inner'.expr b'))
    (find : String → Option (Float → Float → γ)) {unknown : String → Fault}
    (own : ∀ op, (unknown op).IsOwn) {result : γ → Value} (plain : ∀ c tag, result c ≠ .ref tag)
    {R : Tree → Tree → Prop} {op op' : Tree} (alike : op.Alike R op')
    (literal : op.literal = op'.literal) :
    P.rel P.data (inner.operation find unknown result a op b)
      (inner'.operation find unknown result a' op' b') := by
  cases alike with
  | @token _ text =>
    simp only [Evaluator.operation]
    cases find text with
    | none => exact P.fail (own text)
    | some f =>
      refine P.bind ha fun d d' same => P.bind hb fun e e' same' => ?_
      rw [P.toNumber same, P.toNumber same']
      exact P.pure (P.plain (plain _))
  | missing => exact P.fail trivial
  | node =>
    simp only [Evaluator.operation, literal]
    exact P.fail trivial

theorem shortCircuit (hb : P.rel P.data (inner.expr b) (inner'.expr b')) (onward : Bool) :
    P.rel P.data (inner.shortCircuit onward a b) (inner'.shortCircuit onward a' b') :=
  P.bind ha fun _ _ same => P.ite (by rw [P.truth same]) hb (P.pure same)

theorem signed (sign : Float → Float) :
    P.rel P.data (inner.signed sign a) (inner'.signed sign a') := by
  refine P.bind ha fun d d' same => ?_
  rw [P.toNumber same]
  exact P.pure (P.number _)

theorem application (same : a.identifier? = a'.identifier?)
    (names : ∀ name, a.identifier? = some name → P.names name)
    (hb : P.rel (List.Forall₂ P.data) (b.children.mapM inner.expr)
      (b'.children.mapM inner'.expr))
    (call : ∀ {f f' args args'}, P.functions f f' → List.Forall₂ P.data args args' →
      P.rel P.data (inner.call f args) (inner'.call f' args')) :
    P.rel P.data (inner.application a b) (inner'.application a' b') :=
  P.bind ha fun _ _ hd => P.bind hb fun _ _ values =>
    P.bind (P.callee same names hd) fun _ _ hf => call hf values

theorem bare : P.rel P.Fine (inner.bare a) (inner'.bare a') :=
  P.bind ha fun _ _ same => P.pure (.of_datum same)

theorem returning : P.rel P.Fine (inner.returning a) (inner'.returning a') :=
  P.bind ha fun _ _ same => P.pure ⟨same, .some same⟩

theorem test : P.rel Eq (inner.test a) (inner'.test a') :=
  P.bind ha fun _ _ same => P.pure (P.truth same)

theorem store (role : IdentifierRole) {target target' : Tree}
    (same : target.identifier? = target'.identifier?) :
    P.rel P.Fine (inner.store role target a) (inner'.store role target' a') := by
  refine P.bind (P.identifier role same) fun name _ same => ?_
  subst same
  exact P.bind ha fun _ _ same => P.bind (P.alloc name same) fun _ _ _ => P.pure (.of_datum same)

theorem branch (hb : P.rel P.Fine (inner.stmt b) (inner'.stmt b')) {other other' : Tree}
    (missing : other = .missing ↔ other' = .missing)
    (ho : other ≠ .missing → P.rel P.Fine (inner.stmt other) (inner'.stmt other')) :
    P.rel P.Fine (inner.branch a b other) (inner'.branch a' b' other') := by
  refine P.bind (P.test ha) fun again _ same => ?_
  subst same
  refine P.ite Iff.rfl hb ?_
  by_cases here : other = .missing
  · obtain rfl := missing.mp here
    subst here
    exact P.pure P.fine_undefined
  · have run := ho here
    have here' := mt missing.mpr here
    cases other <;> cases other' <;> first | exact run | contradiction

end

/-! ## Steps on trees of one form -/

/-- Trees of one form, in which the names may be looked up, and which may take the place of one
another as bodies. -/
structure Trees (R : Tree → Tree → Prop) : Prop where
  alike : ∀ {t t'}, R t t' → t.Alike R t'
  body : ∀ {t t'}, R t t' → P.bodies t t'
  names : ∀ {t t'}, R t t' → ∀ name, t.identifier? = some name → P.names name

namespace Trees

variable {P} {R : Tree → Tree → Prop} (h : P.Trees R) {t t' : Tree}
include h

theorem identifier? (ht : R t t') : t.identifier? = t'.identifier? := (h.alike ht).identifier?

theorem named (ht : R t t') : t.Alike (fun a b => a.identifier? = b.identifier?) t' := by
  cases h.alike ht with
  | missing => exact .missing
  | token => exact .token
  | node same => exact .node (same.imp fun _ _ => h.identifier?)

variable (he : ∀ {t t'}, R t t' → P.rel P.data (inner.expr t) (inner'.expr t'))
include he

theorem exprStep
    (call : ∀ {f f' args args'}, P.functions f f' → List.Forall₂ P.data args args' →
      P.rel P.data (inner.call f args) (inner'.call f' args')) (ht : R t t') :
    P.rel P.data (inner.exprStep t) (inner'.exprStep t') := by
  have names := h.names ht
  cases h.alike ht with
  | missing => exact P.fail trivial
  | @token kind text =>
    refine P.tokenValue fun identifier => ?_
    subst identifier
    exact names text rfl
  | @node label _ _ children children' hc =>
    cases label with
    | add | mul | compare =>
      refine P.three hc fun _ _ _ _ _ _ hl ho hr => ?_
      refine P.operation (he hl) (he hr) _ ?_ ?_ (h.alike ho) (Tree.literal_eq h.alike ho)
      · exact fun _ => trivial
      · exact fun _ _ => nofun
    | and | or => exact P.two hc fun _ _ _ _ hl hr => P.shortCircuit (he hl) (he hr) _
    | neg | pos => exact P.first hc fun _ _ ha => P.signed (he ha) _
    | preIncrement | preDecrement | postIncrement | postDecrement =>
      exact P.first hc fun _ _ ha =>
        P.update _ _ (h.identifier? ha) (h.alike ha).kindName (h.names ha)
    | function =>
      exact P.three hc fun _ _ _ _ _ _ hn hp hb =>
        P.makeFunction (h.identifier? hn) (h.named hp) (h.body hb)
    | call =>
      refine P.two hc fun _ _ _ _ hf ha => ?_
      have values := P.mapM (h.alike ha).children fun _ _ => he
      exact P.application (he hf) (h.identifier? hf) (h.names hf) values call
    | _ => exact P.fail trivial

variable (hs : ∀ {t t'}, R t t' → P.rel P.Fine (inner.stmt t) (inner'.stmt t'))
include hs

omit he in
theorem sequence {first first' rest rest' : Tree} (hf : R first first') (hr : R rest rest') :
    P.rel P.Fine (inner.sequence first rest) (inner'.sequence first' rest') := by
  fun_induction Evaluator.sequence inner first rest generalizing first' rest' with
  | case1 first _ next rest ih =>
    cases h.alike hr with
    | node children =>
      rcases children with _ | ⟨hn, _ | ⟨ho, _ | _⟩⟩
      exact P.andThen (hs hf) (ih hn ho)
  | case2 first place children malformed =>
    cases h.alike hr with
    | node children =>
      rcases children with _ | ⟨_, _ | ⟨_, _ | _⟩⟩
      · exact P.andThen (hs hf) (P.fail trivial)
      · exact P.andThen (hs hf) (P.fail trivial)
      · exact absurd rfl (malformed _ _)
      · exact P.andThen (hs hf) (P.fail trivial)
  | case3 first last _ other =>
    have run := hs hr
    cases h.alike hr with
    | @node label =>
      cases label with
      | seq => exact absurd rfl (other _ _)
      | _ => exact P.andThen (hs hf) run
    | _ => exact P.andThen (hs hf) run

omit he in
theorem last (ht : R t t') : P.rel P.Fine (inner.last t) (inner'.last t') := by
  have run := hs ht
  cases h.alike ht with
  | missing => exact run
  | token => exact run
  | @node label _ _ children children' hc =>
    cases label with
    | seq =>
      rcases hc with _ | ⟨hn, _ | ⟨ho, _ | _⟩⟩
      · exact P.fail trivial
      · exact P.fail trivial
      · exact h.sequence hs hn ho
      · exact P.fail trivial
    | _ => exact run

theorem stmtStep (rounds : Nat) (ht : R t t') :
    P.rel P.Fine (inner.stmtStep rounds t) (inner'.stmtStep rounds t') := by
  cases h.alike ht with
  | missing => exact P.fail trivial
  | token => exact P.fail trivial
  | @node label _ _ children children' hc =>
    cases label with
    | decl | assign =>
      exact P.two hc fun _ _ _ _ ht hv => P.store (he hv) _ (h.identifier? ht)
    | bareExpr => exact P.first hc fun _ _ ha => P.bare (he ha)
    | empty => exact P.pure P.fine_undefined
    | conditional =>
      exact P.three hc fun _ _ _ _ _ _ hc hb ho =>
        P.branch (he hc) (hs hb) (h.alike ho).missing_iff fun _ => hs ho
    | loop =>
      exact P.two hc fun _ _ _ _ ha hb => P.repeatWhile (P.test (he ha)) (hs hb) rounds
    | ret => exact P.one hc fun _ _ ha => P.returning (he ha)
    | seq => exact P.two hc fun _ _ _ _ hf hr => h.sequence hs hf hr
    | _ => exact P.fail trivial

end Trees

end Parallel

end Scriptlet
