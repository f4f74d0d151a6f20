import Scriptlet.Proofs.Naming
import Scriptlet.Proofs.Parallel
/-!
# Runs on a store that has grown

A program does not see which numbers its frames and scopes have, nor what lies in frames that it
cannot reach. Two stores are taken for one another if the second holds what the first one holds,
except that frames and scopes from some number on stand further up, behind others of which nothing
is said. Hidden names are not compared either. Runs of one tree on two such stores end alike: with
the same fault, or with data that differ in the numbers of new scopes alone, and on stores that
can be taken for one another again.
-/

namespace Scriptlet

open Store (isHidden)

/-! ## Numbers that move -/

/-- Numbers from `least` on are moved up by `more`. -/
structure Move where
  least : Nat
  more : Nat

namespace Move

variable {μ : Move} {i j : Nat}

def up (μ : Move) (n : Nat) : Nat := if n < μ.least then n else n + μ.more

theorem up_of_lt (h : i < μ.least) : μ.up i = i := if_pos h

theorem up_of_le (h : μ.least ≤ i) : μ.up i = i + μ.more := if_neg (Nat.not_lt.mpr h)

theorem up_lt_up : μ.up i < μ.up j ↔ i < j := by
  by_cases hi : i < μ.least
  · by_cases hj : j < μ.least
    · rw [up_of_lt hi, up_of_lt hj]
    · rw [up_of_lt hi, up_of_le (Nat.le_of_not_lt hj)]
      omega
  · by_cases hj : j < μ.least
    · rw [up_of_le (Nat.le_of_not_lt hi), up_of_lt hj]
      omega
    · rw [up_of_le (Nat.le_of_not_lt hi), up_of_le (Nat.le_of_not_lt hj)]
      omega

theorem up_strictMono (μ : Move) : StrictMono μ.up := fun _ _ => up_lt_up.mpr

/-- So many there are before and after: the next one is moved to the next one. -/
structure Counts (μ : Move) (n n' : Nat) : Prop where
  least : μ.least ≤ n
  more : n' = n + μ.more

theorem Counts.next {n n' : Nat} (h : μ.Counts n n') : n' = μ.up n := by
  rw [h.more, up_of_le h.least]

theorem Counts.le_up {n n' : Nat} (h : μ.Counts n n') (le : n ≤ i) : n' ≤ μ.up i := by
  obtain ⟨least, more⟩ := h
  rw [up_of_le (Nat.le_trans least le)]
  omega

theorem Counts.succ {n n' : Nat} (h : μ.Counts n n') : μ.Counts (n + 1) (n' + 1) := by
  obtain ⟨least, more⟩ := h
  constructor <;> omega

/-- From the numbers that are new after `n` to those that are new after `n'`. -/
def between (n n' : Nat) : Move := ⟨n, n' - n⟩

theorem counts_between {n n' : Nat} (le : n ≤ n') : (between n n').Counts n n' :=
  ⟨Nat.le_refl n, (Nat.add_sub_of_le le).symm⟩

end Move

/-- How the frames and scopes of one store are moved in another, and the values that are handed in
from outside. -/
structure Shift where
  frames : Move
  scopes : Move
  given : List Value

namespace Slots

theorem get?_put (slots : Slots) (name other : String) (d : Datum) :
    (slots.put name d).get? other = if name = other then some d else slots.get? other := by
  induction slots with
  | nil => exact get?_cons name d [] other
  | cons slot rest ih =>
    obtain ⟨n, old⟩ := slot
    rw [get?_cons]
    by_cases h : n = name
    · rw [put, if_pos h, get?_cons, h]
      by_cases same : name = other
      · rw [if_pos same, if_pos same]
      · rw [if_neg same, if_neg same, if_neg same]
    · rw [put, if_neg h, get?_cons, ih]
      by_cases same : n = other
      · rw [if_pos same, if_pos same, if_neg fun here => h (same.trans here.symm)]
      · rw [if_neg same, if_neg same]

/-- The slots that have a name of their own. -/
def named (slots : Slots) : Slots := slots.filter fun (name, _) => !isHidden name

theorem named_cons (name : String) (d : Datum) (rest : Slots) :
    named ((name, d) :: rest) = if isHidden name then rest.named else (name, d) :: rest.named := by
  by_cases h : isHidden name <;> simp [named, h]

theorem get?_named (slots : Slots) {name : String} (visible : isHidden name = false) :
    slots.named.get? name = slots.get? name := by
  induction slots with
  | nil => rfl
  | cons slot rest ih =>
    obtain ⟨n, d⟩ := slot
    rw [named_cons, get?_cons]
    by_cases hidden : isHidden n
    · have apart : n ≠ name := by
        rintro rfl
        exact absurd (hidden.symm.trans visible) Bool.noConfusion
      rw [if_pos hidden, ih, if_neg apart]
    · rw [if_neg hidden, get?_cons, ih]

theorem named_put (slots : Slots) (name : String) (d : Datum) :
    (slots.put name d).named = if isHidden name then slots.named else slots.named.put name d := by
  induction slots with
  | nil => exact named_cons name d []
  | cons slot rest ih =>
    obtain ⟨n, old⟩ := slot
    by_cases same : n = name
    · subst same
      rw [put, if_pos rfl, named_cons, named_cons]
      by_cases hidden : isHidden n
      · simp only [if_pos hidden]
      · simp only [if_neg hidden, put, if_true]
    · rw [put, if_neg same, named_cons, named_cons, ih]
      by_cases hidden : isHidden name
      · simp only [if_pos hidden]
      · by_cases other : isHidden n
        · simp only [if_neg hidden, if_pos other]
        · simp only [if_neg hidden, if_neg other, put, if_neg same]

end Slots

namespace Shift

/-! ## What is moved -/

section

variable (σ : Shift)

def tag : Int → Int
  | .ofNat n => .ofNat (σ.scopes.up n)
  | .negSucc n => .negSucc n

def value : Value → Value
  | .ref tag => .ref (σ.tag tag)
  | v => v

def closure (f : Closure) : Closure := { f with scope := σ.tag f.scope }

def stop : Stop → Stop
  | .fault (.unknownScope id) place => .fault (.unknownScope (σ.tag id)) place
  | stop => stop

/-- The function is moved, and so is the value, unless it was handed in as it is. -/
structure Data (d d' : Datum) : Prop where
  value : d'.value = σ.value d.value ∨ d.value ∈ σ.given ∧ d'.value = d.value
  function : d'.function = d.function.map σ.closure
  body : ∀ f, d.function = some f → f.body.Visible

/-- A function that is moved, and its body can be run on both stores. -/
structure Functions (f f' : Closure) : Prop where
  moved : f' = σ.closure f
  body : f.body.Visible

abbrev Completions : Completion → Completion → Prop := Completion.Alike σ.Data

/-- What is stored under hidden names does not matter. -/
structure Frames (f f' : Frame) : Prop where
  parent : f'.parent = f.parent.map σ.frames.up
  named : List.Forall₂ (Slot.Alike σ.Data) f.slots.named f'.slots.named

structure Stores (s s' : Store) : Prop where
  frames : ∀ i : Nat, Option.Rel σ.Frames s.frames[i]? s'.frames[σ.frames.up i]?
  captured : ∀ n : Nat, s'.captured[σ.scopes.up n]? = s.captured[n]?.map (Option.map σ.frames.up)
  frameCount : σ.frames.Counts s.frames.size s'.frames.size
  scopeCount : σ.scopes.Counts s.scopeCount s'.scopeCount
  top : s'.top = σ.frames.up s.top
  below : s'.below = s.below.map σ.frames.up

variable {α β γ δ : Type}

/-- Two runs end alike. -/
inductive Ends (Q : α → β → Prop) :
    EStateM.Result Stop Machine α → EStateM.Result Stop Machine β → Prop
  | ok {a b m m'} : Q a b → σ.Stores m.store m'.store → Ends Q (.ok a m) (.ok b m')
  | error {e m m'} : σ.Stores m.store m'.store → Ends Q (.error e m) (.error (σ.stop e) m')

/-- The same for endings that are handed on as results. -/
inductive Endings (Q : α → β → Prop) : Except Stop α → Except Stop β → Prop
  | ok {a b} : Q a b → Endings Q (.ok a) (.ok b)
  | error {e} : Endings Q (.error e) (.error (σ.stop e))

/-- From stores that can be taken for one another, two actions end alike. -/
def Agree (Q : α → β → Prop) (x : Eval α) (y : Eval β) : Prop :=
  ∀ m m', σ.Stores m.store m'.store → σ.Ends Q (x m) (y m')

end

variable {σ : Shift} {α β γ δ : Type}

/-- Only a fault that tells a scope is moved. -/
theorem stop_of_isOrdinary {stop : Stop} (h : stop.IsOrdinary) : σ.stop stop = stop := by
  cases stop with
  | fault f place =>
    cases f with
    | unknownScope => exact h.elim
    | _ => rfl
  | _ => rfl

/-! ## Data -/

theorem truth_value (v : Value) : (σ.value v).truth = v.truth := by
  cases v <;> rfl

theorem toNumber_value (v : Value) : (σ.value v).toNumber = v.toNumber := by
  cases v <;> rfl

section

variable {d d' : Datum} (h : σ.Data d d')
include h

theorem Data.truth : d.value.truth = d'.value.truth := by
  rcases h.value with moved | ⟨_, same⟩
  · rw [moved, truth_value]
  · rw [same]

theorem Data.toNumber : d.value.toNumber = d'.value.toNumber := by
  rcases h.value with moved | ⟨_, same⟩
  · rw [moved, toNumber_value]
  · rw [same]

/-- The values alone. -/
theorem Data.bare : σ.Data ⟨d.value, none⟩ ⟨d'.value, none⟩ := ⟨h.value, rfl, fun _ => nofun⟩

theorem Data.functions : Option.Rel σ.Functions d.function d'.function := by
  have body := h.body
  rw [h.function]
  cases function : d.function with
  | none => exact .none
  | some f => exact .some ⟨rfl, body f function⟩

end

theorem data_of_value {v : Value} (h : ∀ tag, v ≠ .ref tag) : σ.Data ⟨v, none⟩ ⟨v, none⟩ := by
  have same : σ.value v = v := by
    cases v with
    | ref tag => exact absurd rfl (h tag)
    | _ => rfl
  exact ⟨Or.inl same.symm, rfl, fun _ => nofun⟩

theorem data_undefined : σ.Data .undefined .undefined := data_of_value fun _ => nofun

theorem data_closure {f : Closure} (h : f.body.Visible) :
    σ.Data ⟨.ref f.scope, some f⟩ ⟨.ref (σ.closure f).scope, some (σ.closure f)⟩ := by
  constructor
  · exact Or.inl rfl
  · rfl
  · rintro g ⟨⟩
    exact h

/-! ## Stores -/

theorem Frames.slots {f f' : Frame} (h : σ.Frames f f') {name : String}
    (visible : isHidden name = false) :
    Option.Rel σ.Data (f.slots.get? name) (f'.slots.get? name) := by
  rw [← Slots.get?_named f.slots visible, ← Slots.get?_named f'.slots visible]
  exact Slots.get?_alike h.named name

theorem Frames.put {f f' : Frame} (h : σ.Frames f f') (name : String) {d d' : Datum}
    (hd : σ.Data d d') :
    σ.Frames { f with slots := f.slots.put name d } { f' with slots := f'.slots.put name d' } := by
  refine ⟨h.parent, ?_⟩
  dsimp only
  rw [Slots.named_put, Slots.named_put]
  split
  · exact h.named
  · exact Slots.put_alike h.named name hd

theorem Frames.putHidden {f f' : Frame} (h : σ.Frames f f') {name name' : String} (d d' : Datum)
    (hidden : isHidden name = true) (hidden' : isHidden name' = true) :
    σ.Frames { f with slots := f.slots.put name d } { f' with slots := f'.slots.put name' d' } := by
  refine ⟨h.parent, ?_⟩
  dsimp only
  rw [Slots.named_put, Slots.named_put, if_pos hidden, if_pos hidden']
  exact h.named

namespace Stores

variable {s s' : Store}

/-- The innermost frames are changed alike. -/
theorem modify (h : σ.Stores s s') {g g' : Frame → Frame}
    (hg : ∀ f f', σ.Frames f f' → σ.Frames (g f) (g' f')) :
    σ.Stores { s with frames := s.frames.modify s.top g }
      { s' with frames := s'.frames.modify s'.top g' } := by
  refine { h with frames := ?_, frameCount := ?_ }
  · rw [h.top]
    exact Corresponds.modify h.frames σ.frames.up_strictMono s.top hg
  · rw [Array.size_modify, Array.size_modify]
    exact h.frameCount

theorem chain (h : σ.Stores s s') (i : Nat) :
    List.Forall₂ σ.Frames (s.chain i) (s'.chain (σ.frames.up i)) :=
  Corresponds.chain σ.frames.up_strictMono h.frames (fun _ _ same => same.parent) i

/-- A visible name means the same, seen from a frame or from where it was moved to. -/
theorem findSome? (h : σ.Stores s s') {name : String} (visible : isHidden name = false) (i : Nat) :
    Option.Rel σ.Data ((s.chain i).findSome? (·.slots.get? name))
      ((s'.chain (σ.frames.up i)).findSome? (·.slots.get? name)) :=
  findSome?_rel (h.chain i) fun _ _ same => same.slots visible

theorem load? (h : σ.Stores s s') {name : String} (visible : isHidden name = false) :
    Option.Rel σ.Data (s.load? name) (s'.load? name) := by
  rw [Store.load?, Store.load?, h.top]
  exact h.findSome? visible s.top

theorem reserve (h : σ.Stores s s') : σ.Stores s.reserve.2 s'.reserve.2 := by
  have next : s'.captured.size = σ.scopes.up s.captured.size := h.scopeCount.next
  refine { h with captured := fun n => ?_, scopeCount := ?_ }
  · simp only [Store.reserve, Array.getElem?_push, next, h.top]
    by_cases new : n = s.captured.size
    · rw [if_pos new, if_pos (congrArg σ.scopes.up new)]
      rfl
    · rw [if_neg new, if_neg (mt (σ.scopes.up_strictMono.injective ·) new)]
      exact h.captured n
  · simp only [Store.reserve, Store.scopeCount, Array.size_push]
    exact h.scopeCount.succ

theorem scope? (h : σ.Stores s s') (id : Int) :
    s'.scope? (σ.tag id) = (s.scope? id).map (Option.map σ.frames.up) := by
  cases id with
  | ofNat n => exact h.captured n
  | negSucc n => rfl

/-- A new frame of a scope and of what it was moved to. -/
theorem enter (h : σ.Stores s s') (id id' : Nat) (parent : Option Nat) :
    σ.Stores
      { s with
        frames := s.frames.push ⟨id, parent, []⟩
        top := s.frames.size
        below := s.top :: s.below }
      { s' with
        frames := s'.frames.push ⟨id', parent.map σ.frames.up, []⟩
        top := s'.frames.size
        below := s'.top :: s'.below } := by
  have last := h.frameCount.next
  refine { h with frames := ?_, frameCount := ?_, top := last, below := ?_ }
  · exact Corresponds.push h.frames σ.frames.up_strictMono last ⟨rfl, .nil⟩
  · rw [Array.size_push, Array.size_push]
    exact h.frameCount.succ
  · dsimp only
    rw [List.map_cons, h.top, h.below]

theorem leave (h : σ.Stores s s') (t : Nat) (ts : List Nat) :
    σ.Stores { s with top := t, below := ts }
      { s' with top := σ.frames.up t, below := ts.map σ.frames.up } :=
  { h with top := rfl, below := rfl }

end Stores

/-! ## Actions -/

variable {Q : α → β → Prop} {R : γ → δ → Prop}

theorem Agree.pure {a : α} {b : β} (h : Q a b) : σ.Agree Q (Pure.pure a) (Pure.pure b) :=
  fun _ _ stores => .ok h stores

theorem Agree.throw (e : Stop) :
    σ.Agree Q (MonadExcept.throw e) (MonadExcept.throw (σ.stop e)) :=
  fun _ _ stores => .error stores

theorem Agree.fail {f : Fault} (h : (Stop.fault f none).IsOrdinary) :
    σ.Agree Q (Eval.fail f) (Eval.fail f) := by
  have thrown : σ.Agree Q (Eval.fail f) (MonadExcept.throw (σ.stop (.fault f none))) := .throw _
  rwa [stop_of_isOrdinary h] at thrown

theorem Agree.bind {x : Eval α} {y : Eval β} {f : α → Eval γ} {g : β → Eval δ}
    (h : σ.Agree Q x y) (hf : ∀ a b, Q a b → σ.Agree R (f a) (g b)) :
    σ.Agree R (x >>= f) (y >>= g) := by
  intro m m' stores
  have first := h m m' stores
  simp only [Bind.bind, EStateM.bind]
  generalize x m = r at first ⊢
  generalize y m' = r' at first ⊢
  cases first with
  | ok same stores => exact hf _ _ same _ _ stores
  | error stores => exact .error stores

theorem Agree.located {x : Eval α} {y : Eval β} (h : σ.Agree Q x y) (place : Option Place) :
    σ.Agree Q (x.located place) (y.located place) := by
  intro m m' stores
  have inside := h m m' stores
  simp only [Eval.located]
  generalize x m = r at inside ⊢
  generalize y m' = r' at inside ⊢
  cases inside with
  | ok same stores => exact .ok same stores
  | @error e m m' stores =>
    have located (f : Fault) : σ.Ends Q (.error (.fault f place) m)
        (.error (σ.stop (.fault f place)) m') := .error stores
    rcases e with ⟨f, _ | p⟩ | _ | _
    · cases f <;> exact located _
    · cases f <;> exact .error stores
    · exact .error stores
    · exact .error stores

theorem Agree.attempt {x : Eval α} {y : Eval β} (h : σ.Agree Q x y) :
    σ.Agree (σ.Endings Q) (Eval.attempt x) (Eval.attempt y) := by
  intro m m' stores
  have inside := h m m' stores
  simp only [Eval.attempt]
  generalize x m = r at inside ⊢
  generalize y m' = r' at inside ⊢
  cases inside with
  | ok same stores => exact .ok (.ok same) stores
  | error stores => exact .ok .error stores

/-! ## Requests to the store -/

theorem agree_record (e e' : Event) :
    σ.Agree (fun _ _ => True) (Eval.record e) (Eval.record e') :=
  fun _ _ stores => .ok trivial stores

theorem agree_alloc (name : String) {d d' : Datum} (h : σ.Data d d') :
    σ.Agree (fun _ _ => True) (Eval.alloc name d) (Eval.alloc name d') := by
  intro m m' stores
  by_cases empty : name = ""
  · simp only [Eval.alloc, Store.alloc, if_pos empty]
    exact .error (e := .fault .emptyName none) stores
  · simp only [Eval.alloc, Store.alloc, if_neg empty]
    exact .ok trivial (stores.modify fun _ _ same => same.put name h)

/-- The two names may differ, but both are hidden. -/
theorem agree_allocHidden (n n' : Nat) (d d' : Datum) :
    σ.Agree (fun _ _ => True) (Eval.alloc (Store.anonymousStem ++ toString n) d)
      (Eval.alloc (Store.anonymousStem ++ toString n') d') := by
  intro m m' stores
  simp only [Eval.alloc, Store.alloc, if_neg (Store.anonymousName_ne n),
    if_neg (Store.anonymousName_ne n')]
  exact .ok trivial (stores.modify fun _ _ same =>
    same.putHidden d d' (Store.isHidden_anonymous _) (Store.isHidden_anonymous _))

theorem agree_count : σ.Agree (fun _ _ => True) Eval.count Eval.count :=
  fun _ _ stores => .ok trivial stores

theorem agree_allocAnonymous (d d' : Datum) :
    σ.Agree (fun _ _ => True) (Eval.allocAnonymous d) (Eval.allocAnonymous d') :=
  agree_count.bind fun n n' _ => agree_allocHidden n n' d d'

theorem agree_load? {name : String} (visible : isHidden name = false) :
    σ.Agree (Option.Rel σ.Data) (Eval.load? name) (Eval.load? name) :=
  fun _ _ stores => .ok (stores.load? visible) stores

theorem agree_reserve : σ.Agree (fun n n' => n' = σ.scopes.up n) Eval.reserve Eval.reserve :=
  fun _ _ stores => .ok stores.scopeCount.next stores.reserve

theorem agree_push (id : Int) :
    σ.Agree (fun _ _ => True) (Eval.push id) (Eval.push (σ.tag id)) := by
  intro m m' stores
  simp only [Eval.push, Store.push, stores.scope? id]
  cases m.store.scope? id with
  | none => exact .error (e := .fault (.unknownScope id) none) stores
  | some parent => exact .ok trivial (stores.enter _ _ parent)

theorem agree_pop (retain : Bool) :
    σ.Agree (fun _ _ => True) (Eval.pop retain) (Eval.pop retain) := by
  intro m m' stores
  have below := stores.below
  simp only [Eval.pop, Store.pop, below]
  cases m.store.below with
  | nil => exact .error (e := .fault .globalScope none) stores
  | cons t ts => exact .ok trivial (stores.leave t ts)

/-- Actions that agree are made up of such. -/
def parallel (σ : Shift) : Parallel where
  rel := σ.Agree
  data := σ.Data
  functions := σ.Functions
  bodies t t' := t = t' ∧ t.Visible
  scopes n n' := n' = σ.scopes.up n
  names name := isHidden name = false
  truth same := same.truth
  toNumber same := same.toNumber
  function same := same.functions
  plain := data_of_value
  former same := same.bare
  made := by
    rintro n _ body _ params name rfl ⟨rfl, visible⟩
    exact data_closure (f := ⟨params, body, name, n⟩) visible
  pure := .pure
  fail own := .fail (Stop.isOrdinary_of_isOwn own)
  unfinished := .throw .unfinished
  bind := .bind
  alloc name := agree_alloc name
  allocAnonymous _ := agree_allocAnonymous _ _
  load? := agree_load?
  reserve := agree_reserve

theorem trees (σ : Shift) : σ.parallel.Trees fun t t' => t = t' ∧ t.Visible where
  alike := by
    rintro t _ ⟨rfl, visible⟩
    cases t with
    | missing => exact .missing
    | token => exact .token
    | node label place children =>
      have inside := Tree.visible_node_iff.mp visible
      exact .node (List.forall₂_same.mpr fun c mem => ⟨rfl, inside c mem⟩)
  body := id
  names := by
    rintro t _ ⟨rfl, visible⟩ name spelled
    exact visible.identifier? spelled

/-! ## Evaluators -/

/-- Runs of one tree on two stores end alike. -/
structure Evaluators (σ : Shift) (inner : Evaluator) : Prop where
  expr : ∀ {t}, t.Visible → σ.Agree σ.Data (inner.expr t) (inner.expr t)
  stmt : ∀ {t}, t.Visible → σ.Agree σ.Completions (inner.stmt t) (inner.stmt t)

namespace Evaluators

variable {inner : Evaluator}

theorem call (h : σ.Evaluators inner) {f : Closure} (hf : f.body.Visible) {args args' : List Datum}
    (ha : List.Forall₂ σ.Data args args') :
    σ.Agree σ.Data (inner.call f args) (inner.call (σ.closure f) args') := by
  have body := Agree.bind (σ.parallel.bindParams f.params ha) fun _ _ _ => h.stmt hf
  rw [Evaluator.call_eq, Evaluator.call_eq]
  refine (agree_record _ _).bind fun _ _ _ => (agree_push f.scope).bind fun _ _ _ => ?_
  refine body.attempt.bind fun ending _ same => (agree_pop false).bind fun _ _ _ => ?_
  cases same with
  | ok same => exact .pure (same.result data_undefined)
  | @error e =>
    cases e with
    | tooDeep => exact .fail trivial
    | unfinished => exact .throw .unfinished
    | fault f place => cases f <;> exact .throw (.fault _ place)

theorem expr_eq (h : σ.Evaluators inner) {t t' : Tree} (ht : t = t' ∧ t.Visible) :
    σ.Agree σ.Data (inner.expr t) (inner.expr t') := by
  obtain ⟨rfl, visible⟩ := ht
  exact h.expr visible

theorem stmt_eq (h : σ.Evaluators inner) {t t' : Tree} (ht : t = t' ∧ t.Visible) :
    σ.Agree σ.Completions (inner.stmt t) (inner.stmt t') := by
  obtain ⟨rfl, visible⟩ := ht
  exact h.stmt visible

theorem exprStep (h : σ.Evaluators inner) {t : Tree} (ht : t.Visible) :
    σ.Agree σ.Data (inner.exprStep t) (inner.exprStep t) := by
  refine σ.trees.exprStep h.expr_eq ?_ ⟨rfl, ht⟩
  rintro f _ args args' ⟨rfl, body⟩ ha
  exact h.call body ha

theorem stmtStep (h : σ.Evaluators inner) (rounds : Nat) {t : Tree} (ht : t.Visible) :
    σ.Agree σ.Completions (inner.stmtStep rounds t) (inner.stmtStep rounds t) :=
  σ.trees.stmtStep h.expr_eq h.stmt_eq rounds ⟨rfl, ht⟩

theorem deepen (h : σ.Evaluators inner) (rounds : Nat) : σ.Evaluators (inner.deepen rounds) :=
  ⟨fun {t} ht => (h.exprStep ht).located t.place?,
    fun {t} ht => (h.stmtStep rounds ht).located t.place?⟩

end Evaluators

/-- A program does not see where its frames and scopes are. -/
theorem evaluators (σ : Shift) (rounds depth : Nat) : σ.Evaluators (evaluator rounds depth) := by
  induction depth with
  | zero => exact ⟨fun _ => .throw .tooDeep, fun _ => .throw .tooDeep⟩
  | succ depth ih => exact ih.deepen rounds

end Shift

end Scriptlet
