import Scriptlet.Proofs.Listing
/-!
# Arguments and parameters

A call opens a frame of the function's scope and stores the arguments there, one parameter after the
other, before the body starts. Parameters that no argument is left for are undefined, and arguments
that no parameter is left for are dropped. A parameter may be named again: the later one then takes
the slot over, even if it has no argument and the earlier one had one.
-/

namespace Scriptlet

/-- What the parameters stand for: each for the argument at its index, or for undefined. -/
def bound (params : List String) (args : List Datum) : Slots :=
  params.mapIdx fun i name => (name, args[i]?.getD .undefined)

theorem names_bound (params : List String) (args : List Datum) :
    (bound params args).names = params := by
  refine List.ext_getElem? fun i => ?_
  simp [bound, Slots.names, Function.comp_def]

theorem getElem?_bound {params : List String} {i : Nat} {name : String}
    (h : params[i]? = some name) (args : List Datum) :
    (bound params args)[i]? = some (name, args[i]?.getD .undefined) := by
  simp [bound, h]

theorem bound_cons (p : String) (ps : List String) (args : List Datum) :
    bound (p :: ps) args = (p, args.headD .undefined) :: bound ps args.tail := by
  cases args <;> simp [bound, List.mapIdx_cons]

theorem bindParams_cons (p : String) (ps : List String) (args : List Datum) :
    bindParams (p :: ps) args =
      Eval.alloc p (args.headD .undefined) >>= fun _ => bindParams ps args.tail := by
  cases args <;> rfl

namespace Slots

variable {new : Slots} {name : String}

theorem get?_putAll_of_notMem (slots : Slots) (h : name ∉ new.names) :
    (slots.putAll new).get? name = slots.get? name := by
  induction new generalizing slots with
  | nil => rfl
  | cons slot new ih =>
    obtain ⟨n, d⟩ := slot
    obtain ⟨here, later⟩ := not_or.mp (mt List.mem_cons.mpr h)
    rw [putAll_cons, ih _ later, get?_put, if_neg (Ne.symm here)]

/-- What is stored under a name last is what the name has then. -/
theorem get?_putAll_of_last {i : Nat} {d : Datum} (slots : Slots)
    (here : new[i]? = some (name, d))
    (last : ∀ j, i < j → new.names[j]? ≠ some name) : (slots.putAll new).get? name = some d := by
  induction new generalizing slots i with
  | nil => simp at here
  | cons slot new ih =>
    cases i with
    | zero =>
      obtain rfl : slot = (name, d) := by simpa using here
      have later : name ∉ names new := fun mem => by
        obtain ⟨j, found⟩ := List.mem_iff_getElem?.mp mem
        exact last (j + 1) (Nat.succ_pos j) found
      rw [putAll_cons, get?_putAll_of_notMem _ later, get?_put, if_pos rfl]
    | succ i =>
      exact ih _ (by simpa using here) fun j lt => last (j + 1) (Nat.succ_lt_succ lt)

end Slots

/-! ## The frame that a call opens -/

namespace Store

/-- A scope entered with a frame that holds these slots. -/
def entered (s : Store) (scope : Nat) (parent : Option Nat) (slots : Slots) : Store :=
  { s with
    frames := s.frames.push ⟨scope, parent, slots⟩
    top := s.frames.size
    below := s.top :: s.below }

variable {s : Store}

theorem push_eq_entered {id : Int} {parent : Option Nat} (h : s.scope? id = some parent) :
    s.push id = .ok (s.entered id.toNat parent []) := by
  rw [push, h]
  rfl

/-- Only the frame on top is stored in. -/
theorem alloc_entered {name : String} (h : name ≠ "") (scope : Nat) (parent : Option Nat)
    (slots : Slots) (d : Datum) :
    (s.entered scope parent slots).alloc name d =
      .ok (s.entered scope parent (slots.put name d)) := by
  have above : (s.frames.push ⟨scope, parent, slots⟩).modify s.frames.size
      (fun f => { f with slots := f.slots.put name d }) =
      s.frames.push ⟨scope, parent, slots.put name d⟩ := by
    refine Array.ext_getElem? fun i => ?_
    rw [Array.getElem?_modify, Array.getElem?_push, Array.getElem?_push]
    by_cases top : s.frames.size = i
    · simp [top]
    · rw [if_neg top, if_neg (Ne.symm top), if_neg (Ne.symm top)]
  rw [alloc, if_neg h]
  exact congrArg (fun frames => Except.ok { s.entered scope parent slots with frames }) above

end Store

/-- Each parameter is stored on top of those before it. -/
theorem bindParams_entered {s : Store} {scope : Nat} {parent : Option Nat} {params : List String}
    (named : "" ∉ params) (args : List Datum) {slots : Slots} {m : Machine}
    (h : m.store = s.entered scope parent slots) :
    ∃ m', bindParams params args m = .ok () m' ∧
      m'.store = s.entered scope parent (slots.putAll (bound params args)) := by
  induction params generalizing args slots m with
  | nil => exact ⟨m, rfl, h⟩
  | cons p ps ih =>
    obtain ⟨first, others⟩ := not_or.mp (mt List.mem_cons.mpr named)
    obtain ⟨m', stored, h'⟩ : ∃ m', Eval.alloc p (args.headD .undefined) m = .ok () m' ∧
        m'.store = s.entered scope parent (slots.put p (args.headD .undefined)) := by
      rw [Eval.alloc, h, Store.alloc_entered (Ne.symm first)]
      exact ⟨_, rfl, rfl⟩
    obtain ⟨m'', rest, h''⟩ := ih others args.tail h'
    refine ⟨m'', ?_, by rw [h'', bound_cons, Slots.putAll_cons]⟩
    simpa only [bindParams_cons, Bind.bind, EStateM.bind, stored] using rest

/-- The body of a function starts in a new frame of the function's scope, behind the frame that the
scope captured. Its slots are the parameters, each name once and in the order of first occurrence.
What a name stands for is the argument at the last index at which the name is a parameter, or
undefined if there are not so many arguments. All other frames are as they were. -/
theorem parameters_bind_by_position {f : Closure} {m : Machine} {parent : Option Nat}
    (named : "" ∉ f.params) (registered : m.store.scope? f.scope = some parent)
    (args : List Datum) :
    ∃ (start : Machine) (slots : Slots),
      (∀ inner : Evaluator, inner.call f args m = (do
        let ending ← Eval.attempt (inner.stmt f.body)
        Eval.pop false
        Evaluator.callEnding ending) start) ∧
      start.store.frames = m.store.frames.push ⟨f.scope.toNat, parent, slots⟩ ∧
      start.store.top = m.store.frames.size ∧
      start.store.below = m.store.top :: m.store.below ∧
      start.store.captured = m.store.captured ∧
      slots.names = f.params.eraseDups ∧
      ∀ (i : Nat) (name : String), f.params[i]? = some name →
        (∀ j, i < j → f.params[j]? ≠ some name) →
        slots.get? name = some (args[i]?.getD .undefined) := by
  have recorded : Eval.record (.call f args.length) m = .ok () (m.record (.call f args.length)) :=
    rfl
  obtain ⟨opened, pushed, above⟩ :
      ∃ opened, Eval.push f.scope (m.record (.call f args.length)) = .ok () opened ∧
        opened.store = m.store.entered f.scope.toNat parent [] := by
    rw [Eval.push, Machine.record, Store.push_eq_entered registered]
    exact ⟨_, rfl, rfl⟩
  obtain ⟨start, stored, filled⟩ := bindParams_entered named args above
  refine ⟨start, Slots.putAll [] (bound f.params args), fun inner => ?_, ?_⟩
  · rw [Evaluator.call_eq]
    simp only [Bind.bind, EStateM.bind, recorded, pushed, Eval.attempt, stored]
  · rw [filled]
    refine ⟨rfl, rfl, rfl, rfl, ?_, fun i name here last => ?_⟩
    · rw [Slots.names_putAll (by simp), names_bound]
      rfl
    · refine Slots.get?_putAll_of_last [] (getElem?_bound here args) ?_
      rwa [names_bound]

/-- The second `a` has no argument, and takes the slot of the first one over. -/
theorem parameters_bind_by_position_repeated :
    let f : Closure := ⟨["a", "b", "a"], .missing, none, 1⟩
    let m : Machine := { store := Store.fresh.reserve.2 }
    "" ∉ f.params ∧ m.store.scope? f.scope = some (some 0) ∧
      ∃ (start : Machine) (slots : Slots),
        start.store.frames = m.store.frames.push ⟨1, some 0, slots⟩ ∧
        slots.names = ["a", "b"] ∧
        slots.get? "a" = some .undefined ∧ slots.get? "b" = some ⟨.bool false, none⟩ := by
  intro f m
  have named : "" ∉ f.params := by decide
  have registered : m.store.scope? f.scope = some (some 0) := rfl
  obtain ⟨start, slots, -, frames, -, -, -, names, each⟩ :=
    parameters_bind_by_position named registered [⟨.bool true, none⟩, ⟨.bool false, none⟩]
  refine ⟨named, registered, start, slots, frames, by rw [names]; rfl, ?_, ?_⟩
  · refine each 2 "a" rfl fun j lt => ?_
    rw [List.getElem?_eq_none (Nat.succ_le_of_lt lt)]
    nofun
  · refine each 1 "b" rfl fun j lt => ?_
    rcases Nat.eq_or_lt_of_le (Nat.succ_le_of_lt lt) with rfl | past
    · decide
    · rw [List.getElem?_eq_none (Nat.succ_le_of_lt past)]
      nofun

end Scriptlet
