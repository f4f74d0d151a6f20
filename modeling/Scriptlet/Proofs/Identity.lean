import Scriptlet.Proofs.Guards
import Scriptlet.Proofs.Laws
/-!
# Which function a reference stands for

A function is told apart by the scope that was reserved for it. Wherever data are, in a frame or in
the hands of the evaluator, a datum that carries a function is the reference to it, and no two
functions share a scope. The way back does not always hold: the old value that a postfix operator
yields is a reference without its function. Nothing else loses one.
-/

namespace Scriptlet

/-! ## Data in a store -/

/-- The datum is in a slot of some frame. -/
def Store.Contains (s : Store) (d : Datum) : Prop :=
  ∃ (i : Nat) (f : Frame) (slot : String × Datum),
    s.frames[i]? = some f ∧ slot ∈ f.slots ∧ slot.2 = d

namespace Store

variable {s s' : Store} {e : Event} {d : Datum}

theorem not_contains_fresh : ¬fresh.Contains d := by
  rintro ⟨i, f, slot, hf, hs, _⟩
  rcases i with _ | i <;> simp [fresh] at hf
  subst hf
  cases hs

/-- Only what is stored comes in. -/
theorem Step.contains (h : s.Step e s') (hd : s'.Contains d) :
    s.Contains d ∨ ∃ name scope, e = .alloc name d scope := by
  obtain ⟨i, f', slot, hf, hs, rfl⟩ := hd
  cases h with
  | @alloc _ name d done =>
    obtain rfl := alloc_eq_ok done
    rw [Array.getElem?_modify] at hf
    split at hf
    · obtain ⟨f, old, rfl⟩ := Option.map_eq_some_iff.mp hf
      rcases Slots.mem_put hs with hs | rfl
      · exact Or.inl ⟨i, f, slot, old, hs, rfl⟩
      · exact Or.inr ⟨name, _, rfl⟩
    · exact Or.inl ⟨i, f', slot, hf, hs, rfl⟩
  | push done =>
    obtain ⟨parent, _, rfl⟩ := push_eq_ok done
    rw [Array.getElem?_push] at hf
    split at hf
    · cases hf
      cases hs
    · exact Or.inl ⟨i, f', slot, hf, hs, rfl⟩
  | pop done =>
    rw [(pop_eq_ok done).2] at hf
    exact Or.inl ⟨i, f', slot, hf, hs, rfl⟩
  | _ => exact Or.inl ⟨i, f', slot, hf, hs, rfl⟩

theorem contains_of_get? {i : Nat} {f : Frame} {name : String} (hf : s.frames[i]? = some f)
    (h : f.slots.get? name = some d) : s.Contains d := by
  obtain ⟨slot, found, rfl⟩ := Option.map_eq_some_iff.mp h
  exact ⟨i, f, slot, hf, List.mem_of_find?_eq_some found, rfl⟩

theorem contains_of_load? {name : String} (h : s.load? name = some d) : s.Contains d := by
  obtain ⟨f, hf, hget⟩ := List.exists_of_findSome?_eq_some h
  obtain ⟨i, hi⟩ := mem_chain hf
  exact contains_of_get? hi hget

theorem Step.scopeCount_le (h : s.Step e s') : s.scopeCount ≤ s'.scopeCount := by
  cases h with
  | alloc done => exact Nat.le_of_eq (scopeCount_alloc done).symm
  | push done =>
    obtain ⟨parent, _, rfl⟩ := push_eq_ok done
    exact Nat.le_refl _
  | pop done => exact Nat.le_of_eq (scopeCount_pop done).symm
  | reserve => simp [Store.reserve, scopeCount]
  | _ => exact Nat.le_refl _

end Store

/-! ## Functions and their references -/

/-- The function that an entry of the journal stores. -/
def Event.stored? : Event → Option Closure
  | alloc _ d _ => d.function
  | _ => none

/-- The functions that were ever stored. -/
def Machine.made (m : Machine) : List Closure := m.journal.filterMap Event.stored?

/-- Each function has a scope of its own, which is reserved and not the global one. -/
structure Machine.Apart (m : Machine) : Prop where
  scopes : 1 ≤ m.store.scopeCount
  scope : ∀ f ∈ m.made, 1 ≤ f.scope ∧ f.scope < m.store.scopeCount
  unique : ∀ f ∈ m.made, ∀ g ∈ m.made, f.scope = g.scope → f = g

/-- A function goes with the reference to it, and a reference is to a function that was made. -/
structure Datum.Identified (m : Machine) (d : Datum) : Prop where
  function : ∀ f, d.function = some f → d.value = .ref f.scope ∧ f ∈ m.made
  ref : ∀ tag, d.value = .ref tag → ∃ f ∈ m.made, f.scope = tag

/-- Functions have scopes of their own, and the slots of all frames tell them apart by these. -/
structure Machine.Identified (m : Machine) : Prop extends m.Apart where
  slots : ∀ d, m.store.Contains d → d.Identified m

section

variable {m m' : Machine}

theorem Datum.Identified.mono {d : Datum} (h : d.Identified m) (more : m.made ⊆ m'.made) :
    d.Identified m' := by
  constructor
  · intro f hf
    obtain ⟨value, made⟩ := h.function f hf
    exact ⟨value, more made⟩
  · intro tag hv
    obtain ⟨f, made, scope⟩ := h.ref tag hv
    exact ⟨f, more made, scope⟩

theorem Datum.identified_plain {v : Value} (h : ∀ tag, v ≠ .ref tag) :
    Datum.Identified m ⟨v, none⟩ := by
  constructor
  · intro f hf
    cases hf
  · intro tag hv
    exact absurd hv (h tag)

/-- A reference alone is as good as with its function. -/
theorem Datum.Identified.bare {d : Datum} (h : d.Identified m) :
    Datum.Identified m ⟨d.value, none⟩ := by
  constructor
  · intro f hf
    cases hf
  · exact h.ref

theorem Datum.identified_of_made {f : Closure} (h : f ∈ m.made) :
    Datum.Identified m ⟨.ref f.scope, some f⟩ := by
  constructor
  · intro g hg
    cases hg
    exact ⟨rfl, h⟩
  · intro tag hv
    cases hv
    exact ⟨f, h, rfl⟩

theorem Machine.apart_fresh (anonymous : Nat) : Machine.Apart { anonymous } := by
  constructor
  · exact Nat.le_refl 1
  · intro f hf
    cases hf
  · intro f hf
    cases hf

/-- Storing functions that were made before makes none. -/
theorem Machine.mem_made_iff {e : Event} (journal : m'.journal = e :: m.journal)
    (stored : ∀ f, e.stored? = some f → f ∈ m.made) {f : Closure} : f ∈ m'.made ↔ f ∈ m.made := by
  rw [made, made, journal, List.filterMap_cons]
  cases h : e.stored? with
  | none => exact Iff.rfl
  | some g =>
    constructor
    · intro hf
      rcases List.mem_cons.mp hf with rfl | hf
      · exact stored f h
      · exact hf
    · exact List.mem_cons_of_mem g

/-- Every request but the storing of a new function keeps functions apart. -/
theorem Machine.Apart.step {e : Event} (h : m.Apart) (step : m.store.Step e m'.store)
    (made : ∀ {f}, f ∈ m'.made ↔ f ∈ m.made) : m'.Apart := by
  have scopes := step.scopeCount_le
  constructor
  · exact Nat.le_trans h.scopes scopes
  · intro f hf
    obtain ⟨first, reserved⟩ := h.scope f (made.mp hf)
    constructor <;> omega
  · intro f hf g hg
    exact h.unique f (made.mp hf) g (made.mp hg)

/-- A new function has a scope that no other function has. -/
theorem Machine.Apart.literal {f : Closure} (h : m.Apart)
    (scope : f.scope = Int.ofNat m.store.scopeCount)
    (scopes : m'.store.scopeCount = m.store.scopeCount + 1) (made : m'.made = f :: m.made) :
    m'.Apart := by
  have first := h.scopes
  have apart : ∀ g ∈ m.made, g.scope ≠ f.scope := by
    intro g hg same
    have reserved := (h.scope g hg).2
    rw [same, scope] at reserved
    exact absurd reserved (Int.lt_irrefl _)
  constructor
  · omega
  · intro g hg
    rw [made] at hg
    rcases List.mem_cons.mp hg with rfl | hg
    · rw [scope, scopes]
      constructor
      · exact Int.ofNat_le.mpr first
      · exact Int.ofNat_lt.mpr (Nat.lt_succ_self _)
    · obtain ⟨first, reserved⟩ := h.scope g hg
      constructor <;> omega
  · intro g hg g' hg' same
    rw [made] at hg hg'
    rcases List.mem_cons.mp hg with rfl | old
    · rcases List.mem_cons.mp hg' with rfl | old'
      · rfl
      · exact absurd same.symm (apart g' old')
    · rcases List.mem_cons.mp hg' with rfl | old'
      · exact absurd same (apart g old)
      · exact h.unique g old g' old' same

end

/-! ## Traits of data -/

/-- What data have that flow through the evaluation of permitted trees. -/
structure Trait where
  permits : Tree → Prop
  has : Machine → Datum → Prop
  child : ∀ {label place children t}, permits (.node label place children) → t ∈ children →
    permits t
  mono : ∀ {m m' d}, has m d → m.made ⊆ m'.made → has m' d
  plain : ∀ m {v : Value}, (∀ tag, v ≠ .ref tag) → has m ⟨v, none⟩
  former : ∀ {m d label place target rest}, permits (.node label place (target :: rest)) →
    label = .postIncrement ∨ label = .postDecrement → has m d → has m ⟨d.value, none⟩
  function : ∀ {m f}, f ∈ m.made → has m ⟨.ref f.scope, some f⟩

/-- A datum with the trait, whose function, if it has one, was made of a permitted body. -/
structure Trait.Good (T : Trait) (m : Machine) (d : Datum) : Prop where
  made : ∀ f, d.function = some f → f ∈ m.made ∧ T.permits f.body
  has : T.has m d

theorem Trait.Good.mono {T : Trait} {m m' : Machine} {d : Datum} (h : T.Good m d)
    (more : m.made ⊆ m'.made) : T.Good m' d := by
  constructor
  · intro f hf
    obtain ⟨made, body⟩ := h.made f hf
    exact ⟨more made, body⟩
  · exact T.mono h.has more

/-- A datum without a function. -/
theorem Trait.good_of_none {T : Trait} {m : Machine} {v : Value} (h : T.has m ⟨v, none⟩) :
    T.Good m ⟨v, none⟩ := by
  constructor
  · intro f hf
    cases hf
  · exact h

theorem Trait.good_of_made {T : Trait} {m : Machine} {f : Closure} (made : f ∈ m.made)
    (body : T.permits f.body) : T.Good m ⟨.ref f.scope, some f⟩ := by
  constructor
  · intro g hg
    cases hg
    exact ⟨made, body⟩
  · exact T.function made

/-- Functions are apart and have permitted bodies, and all data in frames have the trait. -/
structure Trait.Holds (T : Trait) (m : Machine) : Prop where
  apart : m.Apart
  body : ∀ f ∈ m.made, T.permits f.body
  slots : ∀ d, m.store.Contains d → T.Good m d

namespace Trait

variable (T : Trait) {m m' : Machine}

theorem holds_fresh (anonymous : Nat) : T.Holds { anonymous } := by
  constructor
  · exact Machine.apart_fresh anonymous
  · intro f hf
    cases hf
  · intro d hd
    exact absurd hd Store.not_contains_fresh

variable {T}

/-- Every request keeps the trait, as long as only good data are stored. -/
theorem Holds.step {e : Event} (h : T.Holds m) (step : m.store.Step e m'.store)
    (journal : m'.journal = e :: m.journal)
    (stored : ∀ name d scope, e = .alloc name d scope → T.Good m d) :
    T.Holds m' ∧ m.made ⊆ m'.made := by
  have made {f : Closure} : f ∈ m'.made ↔ f ∈ m.made := by
    refine Machine.mem_made_iff journal fun g hg => ?_
    cases e with
    | alloc name d scope => exact ((stored name d scope rfl).made g hg).1
    | _ => cases hg
  have more : m.made ⊆ m'.made := fun f => made.mpr
  refine ⟨?_, more⟩
  constructor
  · exact h.apart.step step made
  · intro f hf
    exact h.body f (made.mp hf)
  · intro d hd
    rcases step.contains hd with hd | ⟨name, scope, rfl⟩
    · exact (h.slots d hd).mono more
    · exact (stored name d scope rfl).mono more

/-- So does the storing of a new function. -/
theorem Holds.literal {name : String} {f : Closure} (h : T.Holds m) (body : T.permits f.body)
    (scope : f.scope = Int.ofNat m.store.scopeCount)
    (done : m.store.reserve.2.alloc name ⟨.ref f.scope, some f⟩ = .ok m'.store)
    (journal : m'.journal = .alloc name ⟨.ref f.scope, some f⟩ (some m'.store.currentScope) ::
      .reserve m.store.scopeCount :: m.journal) :
    T.Holds m' ∧ m.made ⊆ m'.made ∧ T.Good m' ⟨.ref f.scope, some f⟩ := by
  have made : m'.made = f :: m.made := by
    rw [Machine.made, journal]
    rfl
  have more : m.made ⊆ m'.made := made ▸ List.subset_cons_self f m.made
  have scopes : m'.store.scopeCount = m.store.scopeCount + 1 := by
    rw [Store.scopeCount_alloc done]
    simp [Store.reserve, Store.scopeCount]
  have new : T.Good m' ⟨.ref f.scope, some f⟩ := good_of_made (made ▸ List.mem_cons_self) body
  refine ⟨?_, more, new⟩
  constructor
  · exact h.apart.literal scope scopes made
  · intro g hg
    rw [made] at hg
    rcases List.mem_cons.mp hg with rfl | hg
    · exact body
    · exact h.body g hg
  · intro d hd
    rcases (Store.Step.alloc done).contains hd with hd | ⟨_, _, same⟩
    · exact (h.slots d hd).mono more
    · cases same
      exact new

/-- The scope of a function that was made can be entered. -/
theorem Holds.scope {f : Closure} (h : T.Holds m) (made : f ∈ m.made) :
    ∃ s, m.store.push f.scope = .ok s := by
  obtain ⟨first, reserved⟩ := h.apart.scope f made
  obtain ⟨id, same⟩ : ∃ id : Nat, f.scope = Int.ofNat id := Int.eq_ofNat_of_zero_le (by omega)
  rw [same] at reserved ⊢
  obtain ⟨s, enter, _⟩ := Store.push_eq_ok_of_lt (Int.ofNat_lt.mp reserved)
  exact ⟨s, enter⟩

/-- Only data with the trait flow where they are all that there is. -/
def discipline (T : Trait) : Discipline where
  holds := T.Holds
  later m m' := m.made ⊆ m'.made
  good := T.Good
  permits := T.permits
  refl m := List.Subset.refl m.made
  trans h h' := List.Subset.trans h h'
  mono later h := h.mono later
  child := T.child
  body h function := (h.made _ function).2
  scope holds good function := holds.scope (good.made _ function).1
  plain m _ h := good_of_none (T.plain m h)
  former permitted label good := good_of_none (T.former permitted label good.has)
  load holds found := holds.slots _ (Store.contains_of_load? found)
  step holds step journal about := holds.step step journal fun _ _ _ same => by
    subst same
    exact about
  literal := Holds.literal

end Trait

/-- Every function and every tree; references are to functions that were made. -/
def Trait.any : Trait where
  permits _ := True
  has m d := d.Identified m
  child _ _ := trivial
  mono h more := h.mono more
  plain _ _ h := Datum.identified_plain h
  former _ _ h := h.bare
  function := Datum.identified_of_made

theorem Machine.identified_of_holds {m : Machine} (h : Trait.any.Holds m) : m.Identified :=
  ⟨h.apart, fun d hd => (h.slots d hd).has⟩

/-! ## Sessions -/

/-- Sessions in which all fragments have such sources. -/
inductive Machine.SessionOf (sources : String → Prop) : Machine → Prop
  | fresh (anonymous : Nat) : SessionOf sources { anonymous }
  | run {m : Machine} (limits : Limits) {src : String} : sources src → SessionOf sources m →
      SessionOf sources (m.run limits src).2

theorem Machine.Session.sessionOf {m : Machine} (h : m.Session) {sources : String → Prop}
    (all : ∀ src, sources src) : m.SessionOf sources := by
  induction h with
  | fresh anonymous => exact .fresh anonymous
  | run limits src _ ih => exact .run limits (all src) ih

/-- The source is no program, or one whose tree is permitted. -/
def Trait.PermitsSource (T : Trait) (src : String) : Prop :=
  ∀ p, Source.readProgram src.toList = .ok p → T.permits p.tree

theorem Trait.session (T : Trait) {m : Machine} (h : m.SessionOf T.PermitsSource) :
    T.Holds m := by
  induction h with
  | fresh anonymous => exact T.holds_fresh anonymous
  | run limits permitted _ ih => exact (T.discipline.run limits ih permitted).1

/-- A law that the discipline obeys governs each further fragment of a session, and what else is
evaluated on its machine. -/
theorem Trait.governs (T : Trait) {law : Law} (obeys : T.discipline.Obeys law) {m : Machine}
    (h : m.SessionOf T.PermitsSource) (limits : Limits) :
    (∀ t, T.permits t → law.Governs limits t m) ∧
    ∀ src p, T.PermitsSource src → Source.readProgram src.toList = .ok p →
      law.Governs limits p.tree (m.record (.fragment src)) := by
  have holds : T.discipline.holds m := T.session h
  constructor
  · intro t permitted
    exact obeys.governs limits permitted holds
  · intro src p permitted read
    have begun := Discipline.recorded (e := .fragment src) holds .fragment trivial
    exact obeys.governs limits (permitted p read) begun.1

/-! ## Functions are told apart -/

/-- A function literal, with whatever children. -/
def Tree.IsFunction (t : Tree) : Prop := ∃ place children, t = .node .function place children

/-- The function was not there before, nor any other with its scope. -/
def Datum.IsNew (m : Machine) (d : Datum) : Prop :=
  ∃ f, d = ⟨.ref f.scope, some f⟩ ∧ ∀ g ∈ m.made, g.scope ≠ f.scope

/-- Functions are told apart on the machine before and on that after the evaluation, all data that
it comes to go with their functions, and a function literal makes a new one. -/
def identity : Law where
  expr t m
    | .ok d m' => m.Identified ∧ m'.Identified ∧ m.made ⊆ m'.made ∧ d.Identified m' ∧
      (t.IsFunction → d.IsNew m)
    | .error _ m' => m.Identified ∧ m'.Identified ∧ m.made ⊆ m'.made
  stmt _ m
    | .ok c m' => m.Identified ∧ m'.Identified ∧ m.made ⊆ m'.made ∧ c.datum.Identified m' ∧
      ∀ d, c.returned = some d → d.Identified m'
    | .error _ m' => m.Identified ∧ m'.Identified ∧ m.made ⊆ m'.made

/-- A function literal makes a function of the next scope, which it reserves. -/
theorem expr_function {rounds depth : Nat} {t : Tree} (function : t.IsFunction) {m m' : Machine}
    {d : Datum} (h : (evaluator rounds depth).expr t m = .ok d m') :
    ∃ f name, d = ⟨.ref f.scope, some f⟩ ∧ f.scope = Int.ofNat m.store.scopeCount ∧
      m.store.reserve.2.alloc name d = .ok m'.store := by
  obtain ⟨place, children, rfl⟩ := function
  cases depth with
  | zero => cases h
  | succ depth =>
    have made := Eval.eq_ok_of_located h
    simp only [Evaluator.exprStep] at made
    rcases children with _ | ⟨a, _ | ⟨b, _ | ⟨c, _ | _⟩⟩⟩
    · cases made
    · cases made
    · cases made
    · rcases makeFunction_eq a b c m with ⟨_, _, failed⟩ | ⟨f, name, _, _, _, scope, done, stored⟩
      · cases failed.symm.trans made
      · cases stored.symm.trans made
        exact ⟨f, name, rfl, scope, done⟩
    · cases made

theorem obeys_identity : Trait.any.discipline.Obeys identity := by
  constructor
  · intro rounds depth t m _ holds ends
    cases h : (evaluator rounds depth).expr t m with
    | ok d m' =>
      rw [h] at ends
      obtain ⟨holds', more, good⟩ := ends
      refine ⟨Machine.identified_of_holds holds, Machine.identified_of_holds holds', more, good.has,
        fun function => ?_⟩
      obtain ⟨f, _, rfl, scope, _⟩ := expr_function function h
      refine ⟨f, rfl, fun g hg same => ?_⟩
      have reserved := (holds.apart.scope g hg).2
      rw [same, scope] at reserved
      exact absurd reserved (Int.lt_irrefl _)
    | error stop m' =>
      rw [h] at ends
      exact ⟨Machine.identified_of_holds holds, Machine.identified_of_holds ends.1, ends.2.1⟩
  · intro rounds depth t m _ holds ends
    cases h : (evaluator rounds depth).stmt t m with
    | ok c m' =>
      rw [h] at ends
      obtain ⟨holds', more, fine⟩ := ends
      exact ⟨Machine.identified_of_holds holds, Machine.identified_of_holds holds', more,
        fine.datum.has, fun d hd => (fine.returned d hd).has⟩
    | error stop m' =>
      rw [h] at ends
      exact ⟨Machine.identified_of_holds holds, Machine.identified_of_holds ends.1, ends.2.1⟩

theorem Trait.permitsSource_any (src : String) : Trait.any.PermitsSource src := fun _ _ => trivial

/-- In a session every datum in a frame goes with its function, no two functions share a scope, and
no scope of a function is the global one or missing. The same holds all the time while anything is
evaluated further, for every result on the way, and each function literal makes a new function. -/
theorem functions_identified {m : Machine} (session : m.Session) :
    m.Identified ∧ ∀ limits, (∀ t, identity.Governs limits t m) ∧
      ∀ src p, Source.readProgram src.toList = .ok p →
        identity.Governs limits p.tree (m.record (.fragment src)) := by
  have session := session.sessionOf Trait.permitsSource_any
  refine ⟨Machine.identified_of_holds (Trait.any.session session), fun limits => ?_⟩
  obtain ⟨here, further⟩ := Trait.any.governs obeys_identity session limits
  exact ⟨fun t => here t trivial, fun src p => further src p (Trait.permitsSource_any src)⟩

/-- A function whose calls give functions, and one such call. -/
private def counting : Machine :=
  (Machine.fresh.run .standard
    "function f(a) \x7b return function () \x7b return a; \x7d; \x7d var g = f(1);").2

/-- The two functions have the scopes 1 and 2, and a further literal has none of them. -/
theorem functions_identified_closure : counting.Session ∧ counting.Identified ∧
    counting.made.map (·.scope) = [2, 2, 1] ∧
    ∀ place children d m', (evaluator 0 1).expr (.node .function place children) counting =
      .ok d m' → d.value ≠ .ref 1 ∧ d.value ≠ .ref 2 := by
  have session : counting.Session := .run .standard _ (.fresh 0)
  obtain ⟨identified, governed⟩ := functions_identified session
  have scopes : counting.made.map (·.scope) = [2, 2, 1] := by decide +kernel
  refine ⟨session, identified, scopes, fun place children d m' made => ?_⟩
  have allowed := ((governed ⟨1, 0⟩).1 (.node .function place children)).ending.1
  rw [made] at allowed
  obtain ⟨f, rfl, new⟩ := allowed.2.2.2.2 ⟨place, children, rfl⟩
  have apart {scope : Int} (h : scope ∈ counting.made.map (·.scope)) : f.scope ≠ scope := by
    obtain ⟨g, hg, rfl⟩ := List.mem_map.mp h
    exact (new g hg).symm
  constructor
  · intro same
    exact apart (scopes ▸ by decide) (Value.ref.inj same)
  · intro same
    exact apart (scopes ▸ by decide) (Value.ref.inj same)

/-! ## Functions are not lost -/

/-- A reference carries the function that it is the reference to. -/
def Datum.IsWhole (d : Datum) : Prop :=
  ∀ tag, d.value = .ref tag → ∃ f, d.function = some f ∧ f.scope = tag

/-- All data that an evaluation comes to are whole. -/
def wholeness : Law where
  expr _ _ r := ∀ d m', r = .ok d m' → d.IsWhole
  stmt _ _ r := ∀ c m', r = .ok c m' → c.datum.IsWhole ∧ ∀ d, c.returned = some d → d.IsWhole

namespace Tree

mutual

/-- `p` holds of the tree and of every tree in it. -/
def all (p : Tree → Bool) : Tree → Bool
  | missing => p missing
  | token kind text place => p (token kind text place)
  | node label place children => p (node label place children) && allOf p children

def allOf (p : Tree → Bool) : List Tree → Bool
  | [] => true
  | t :: ts => all p t && allOf p ts

end

theorem all_self {p : Tree → Bool} {t : Tree} (h : t.all p) : p t := by
  cases t with
  | missing => exact h
  | token => exact h
  | node => exact (Bool.and_eq_true_iff.mp h).1

theorem allOf_eq_all (p : Tree → Bool) (ts : List Tree) : allOf p ts = List.all ts (all p) := by
  induction ts with
  | nil => rfl
  | cons t ts ih => rw [allOf, ih, List.all_cons]

theorem all_child {p : Tree → Bool} {label : Label} {place : Option Place} {children : List Tree}
    {t : Tree} (h : (node label place children).all p) (mem : t ∈ children) : t.all p := by
  have rest : allOf p children = true := (Bool.and_eq_true_iff.mp h).2
  rw [allOf_eq_all] at rest
  exact List.all_eq_true.mp rest t mem

/-- An operator behind a variable, which yields the old value. -/
def isPostfix : Tree → Bool
  | node .postIncrement _ _ => true
  | node .postDecrement _ _ => true
  | _ => false

/-- There are no such operators in the tree. -/
def WithoutPostfix (t : Tree) : Prop := t.all (!·.isPostfix)

end Tree

/-- Whole data, where there are no postfix operators. -/
def Trait.whole : Trait where
  permits := Tree.WithoutPostfix
  has _ d := d.IsWhole
  child := Tree.all_child
  mono h _ := h
  plain _ _ h := fun tag same => absurd same (h tag)
  former permitted label _ := by
    have here := Tree.all_self permitted
    rcases label with rfl | rfl <;> cases here
  function _ := by
    intro tag same
    cases same
    exact ⟨_, rfl, rfl⟩

theorem obeys_wholeness : Trait.whole.discipline.Obeys wholeness := by
  constructor
  · intro rounds depth t m _ _ ends d m' ended
    rw [ended] at ends
    exact ends.2.2.has
  · intro rounds depth t m _ _ ends c m' ended
    rw [ended] at ends
    have fine := ends.2.2
    exact ⟨fine.datum.has, fun d hd => (fine.returned d hd).has⟩

/-- Where no fragment has a postfix operator, no reference is ever without its function: not in a
frame, and not on the way while anything without such an operator is evaluated. -/
theorem functions_kept {m : Machine} (session : m.SessionOf Trait.whole.PermitsSource) :
    (∀ d, m.store.Contains d → d.IsWhole) ∧
    ∀ limits, (∀ t, t.WithoutPostfix → wholeness.Governs limits t m) ∧
      ∀ src p, Source.readProgram src.toList = .ok p → p.tree.WithoutPostfix →
        wholeness.Governs limits p.tree (m.record (.fragment src)) := by
  refine ⟨fun d hd => ((Trait.whole.session session).slots d hd).has, fun limits => ?_⟩
  obtain ⟨here, further⟩ := Trait.whole.governs obeys_wholeness session limits
  refine ⟨here, fun src p read permitted => further src p (fun q read' => ?_) read⟩
  cases read.symm.trans read'
  exact permitted

/-- The fragment comes to a reference that its function has been lost from. -/
private def bareReference (id : Int) : Except Failure Completion → Bool
  | .ok c => decide (c.datum.value = .ref id) && c.datum.function.isNone
  | .error _ => false

private def declared : Machine :=
  (Machine.fresh.run .standard "function f() \x7b return 1; \x7d").2

/-- The frame holds the function, and every evaluation of its name gives it whole. -/
theorem functions_kept_declared : declared.SessionOf Trait.whole.PermitsSource ∧
    (∀ d, declared.store.Contains d → d.IsWhole) ∧
    ∀ (limits : Limits) d m',
      (evaluator limits.rounds limits.depth).expr (.token .identifier "f" none) declared =
        .ok d m' → d.IsWhole := by
  have plain : Trait.whole.PermitsSource "function f() \x7b return 1; \x7d" := by
    have checked : (match Source.readProgram "function f() \x7b return 1; \x7d".toList with
        | .ok p => p.tree.all (!·.isPostfix)
        | .error _ => true) = true := by decide +kernel
    intro p read
    rw [read] at checked
    exact checked
  have session : declared.SessionOf Trait.whole.PermitsSource := .run .standard plain (.fresh 0)
  obtain ⟨slots, governed⟩ := functions_kept session
  refine ⟨session, slots, fun limits => ?_⟩
  have name : Tree.WithoutPostfix (.token .identifier "f" none) := rfl
  exact ((governed limits).1 _ name).ending.1

/-- The old value that a postfix operator yields is a reference without its function. -/
theorem postfix_loses_function : declared.Session ∧
    ∃ c, (declared.run .standard "f++;").1 = .ok c ∧ c.datum.value = .ref 1 ∧
      ¬c.datum.IsWhole := by
  have lost : bareReference 1 (declared.run .standard "f++;").1 = true := by decide +kernel
  refine ⟨.run .standard _ (.fresh 0), ?_⟩
  cases ended : (declared.run .standard "f++;").1 with
  | error f => rw [ended] at lost; cases lost
  | ok c =>
    rw [ended] at lost
    obtain ⟨value, none⟩ := Bool.and_eq_true_iff.mp lost
    refine ⟨c, rfl, of_decide_eq_true value, fun whole => ?_⟩
    obtain ⟨f, function, _⟩ := whole 1 (of_decide_eq_true value)
    rw [function] at none
    cases none

end Scriptlet
