import Scriptlet.Proofs.Ancestry
import Scriptlet.Proofs.Renaming
import Scriptlet.Proofs.Scoping
/-!
# Stores that are asked directly

A store can be asked for anything in any order, without a program. The calls that were made say by
themselves which frames there are, which one each scope captured, and what was last stored in a
frame; the store agrees with them on all of it (`Describe`). So its frames, its scopes and the ways
outward stay in order whatever it is asked, and a request that it refuses leaves it as it was.

Histories are read from the last call back, like the journal.
-/

namespace Scriptlet

namespace Eval

variable {m : Machine} {name : String}

theorem load_of_some {d : Datum} (found : m.store.load? name = some d) :
    load name m = .ok d (m.record (.load name)) := by
  have loaded : load? name m = .ok (some d) (m.record (.load name)) := by
    rw [← found]
    rfl
  simp only [load, bind, EStateM.bind, loaded]
  rfl

theorem load_of_none (missing : m.store.load? name = none) :
    load name m = .error (.fault (.noSlot name) none) (m.record (.load name)) := by
  have loaded : load? name m = .ok none (m.record (.load name)) := by
    rw [← missing]
    rfl
  simp only [load, bind, EStateM.bind, loaded]
  rfl

end Eval

namespace Store

/-- What a store can be asked for. -/
inductive Request
  | alloc (name : String) (d : Datum)
  | load (name : String)
  | push (scope : Int)
  | pop (retain : Bool)
  | reserve

inductive Answer
  | done
  | datum (d : Datum)
  | scope (id : Nat)

namespace Request

/-- Makes the request. -/
def ask : Request → Eval Answer
  | alloc name d => do
    Eval.alloc name d
    return .done
  | load name => return .datum (← Eval.load name)
  | push id => do
    Eval.push id
    return .done
  | pop retain => do
    Eval.pop retain
    return .done
  | reserve => return .scope (← Eval.reserve)

/-- What a request makes of a store, or why it is refused. -/
def apply (s : Store) : Request → Except Fault Store
  | alloc name d => s.alloc name d
  | load name => if (s.load? name).isSome then .ok s else .error (.noSlot name)
  | push id => s.push id
  | pop _ => s.pop
  | reserve => .ok s.reserve.2

/-- Why a store may refuse a request. -/
inductive Refused (s : Store) : Request → Fault → Prop
  | emptyName {d} : Refused s (alloc "" d) .emptyName
  | noSlot {name} : s.load? name = none → Refused s (load name) (.noSlot name)
  | unknownScope {id} : s.scope? id = none → Refused s (push id) (.unknownScope id)
  | globalScope {retain} : s.below = [] → Refused s (pop retain) .globalScope

variable {r : Request} {m : Machine} {s s' : Store} {f : Fault}

theorem ask_of_ok (h : r.apply m.store = .ok s) :
    ∃ a e, r.ask m = .ok a { m.record e with store := s } ∧ m.store.Step e s := by
  cases r with
  | alloc name d =>
    refine ⟨.done, .alloc name d (some s.currentScope), ?_, .alloc h⟩
    simp only [ask, Bind.bind, EStateM.bind, Eval.alloc, show m.store.alloc name d = .ok s from h]
    rfl
  | load name =>
    rw [apply] at h
    split at h
    · rename_i found
      obtain ⟨d, found⟩ := Option.isSome_iff_exists.mp found
      cases h
      refine ⟨.datum d, .load name, ?_, .load⟩
      simp only [ask, Bind.bind, EStateM.bind, Eval.load_of_some found]
      rfl
    · cases h
  | push id =>
    refine ⟨.done, .push id (some s.depth), ?_, .push h⟩
    simp only [ask, Bind.bind, EStateM.bind, Eval.push, show m.store.push id = .ok s from h]
    rfl
  | pop retain =>
    refine ⟨.done, .pop retain (some (m.store.currentScope, s.depth)), ?_, .pop h⟩
    simp only [ask, Bind.bind, EStateM.bind, Eval.pop, show m.store.pop = .ok s from h]
    rfl
  | reserve =>
    cases h
    exact ⟨.scope m.store.scopeCount, _, rfl, .reserve⟩

theorem ask_of_error (h : r.apply m.store = .error f) :
    ∃ e, r.ask m = .error (.fault f none) (m.record e) := by
  cases r with
  | alloc name d =>
    refine ⟨.alloc name d none, ?_⟩
    simp only [ask, Bind.bind, EStateM.bind, Eval.alloc,
      show m.store.alloc name d = .error f from h]
  | load name =>
    rw [apply] at h
    split at h
    · cases h
    · rename_i missing
      cases h
      have missing := Option.not_isSome_iff_eq_none.mp missing
      refine ⟨.load name, ?_⟩
      simp only [ask, Bind.bind, EStateM.bind, Eval.load_of_none missing]
  | push id =>
    refine ⟨.push id none, ?_⟩
    simp only [ask, Bind.bind, EStateM.bind, Eval.push, show m.store.push id = .error f from h]
  | pop retain =>
    refine ⟨.pop retain none, ?_⟩
    simp only [ask, Bind.bind, EStateM.bind, Eval.pop, show m.store.pop = .error f from h]
  | reserve => cases h

theorem apply_eq_error_iff : r.apply s = .error f ↔ r.Refused s f := by
  constructor
  · intro h
    cases r with
    | alloc name d =>
      simp only [apply, Store.alloc] at h
      split at h
      · rename_i empty
        cases h
        exact empty ▸ .emptyName
      · cases h
    | load name =>
      simp only [apply] at h
      split at h
      · cases h
      · rename_i missing
        cases h
        exact .noSlot (Option.not_isSome_iff_eq_none.mp missing)
    | push id =>
      simp only [apply, Store.push] at h
      split at h
      · rename_i unknown
        cases h
        exact .unknownScope unknown
      · cases h
    | pop retain =>
      simp only [apply, Store.pop] at h
      split at h
      · rename_i last
        cases h
        exact .globalScope last
      · cases h
    | reserve => cases h
  · intro refused
    cases refused with
    | emptyName => rfl
    | noSlot missing => simp [apply, missing]
    | unknownScope unknown => simp [apply, Store.push, unknown]
    | globalScope last => simp [apply, Store.pop, last]

/-- A request is granted, as a step of the store, or it is refused and leaves the store alone. -/
theorem granted_or_refused (r : Request) (m : Machine) :
    (∃ s e, r.apply m.store = .ok s ∧ m.store.Step e s ∧ (r.ask.ending m).isOk = true ∧
      (r.ask.after m).store = s) ∨
    ∃ f, r.Refused m.store f ∧ r.ask.ending m = .error (.fault f none) ∧
      (r.ask.after m).store = m.store := by
  simp only [Eval.ending, Eval.after]
  cases h : r.apply m.store with
  | ok s =>
    obtain ⟨a, e, asked, step⟩ := ask_of_ok h
    rw [asked]
    exact Or.inl ⟨s, e, rfl, step, rfl, rfl⟩
  | error f =>
    obtain ⟨e, asked⟩ := ask_of_error h
    rw [asked]
    exact Or.inr ⟨f, apply_eq_error_iff.mp h, rfl, rfl⟩

/-- Asking fails for the reasons there are to refuse the request, and for no other ones. -/
theorem ending_eq_error_iff {stop : Stop} :
    r.ask.ending m = .error stop ↔ ∃ f, stop = .fault f none ∧ r.Refused m.store f := by
  constructor
  · intro failed
    rcases r.granted_or_refused m with ⟨_, _, _, _, granted, _⟩ | ⟨f, refused, ended, _⟩
    · rw [failed] at granted
      cases granted
    · cases failed.symm.trans ended
      exact ⟨f, rfl, refused⟩
  · rintro ⟨f, rfl, refused⟩
    obtain ⟨e, asked⟩ := ask_of_error (apply_eq_error_iff.mpr refused)
    rw [Eval.ending, asked]

end Request

/-! ## Histories -/

/-- A request that was made, and whether it was granted. -/
structure Call where
  request : Request
  granted : Bool

abbrev Calls := List Call

/-- A fresh machine after requests, of which the last one comes first. -/
def serve : List Request → Machine
  | [] => .fresh
  | r :: rs => r.ask.after (serve rs)

/-- The calls that requests come to on a fresh machine. -/
def calls : List Request → Calls
  | [] => []
  | r :: rs => ⟨r, (r.ask.ending (serve rs)).isOk⟩ :: calls rs

namespace Calls

/-- How many frames there have been. They are numbered in the order in which they came. -/
def frameCount : Calls → Nat
  | [] => 1
  | ⟨.push _, true⟩ :: cs => frameCount cs + 1
  | _ :: cs => frameCount cs

/-- The frames that were entered and not left again, the innermost one first. -/
def stack : Calls → List Nat
  | [] => [0]
  | ⟨.push _, true⟩ :: cs => frameCount cs :: stack cs
  | ⟨.pop _, true⟩ :: cs => (stack cs).tail
  | _ :: cs => stack cs

def scopeCount : Calls → Nat
  | [] => 1
  | ⟨.reserve, true⟩ :: cs => scopeCount cs + 1
  | _ :: cs => scopeCount cs

/-- The frame that was the innermost one when a scope was reserved. -/
def captor (id : Nat) : Calls → Option Nat
  | [] => none
  | ⟨.reserve, true⟩ :: cs => if id = scopeCount cs then (stack cs).head? else captor id cs
  | _ :: cs => captor id cs

/-- The frame that was captured by the scope in which a frame was opened. -/
def parent (i : Nat) : Calls → Option Nat
  | [] => none
  | ⟨.push id, true⟩ :: cs => if i = frameCount cs then captor id.toNat cs else parent i cs
  | _ :: cs => parent i cs

/-- What was last stored under a name while a frame was the innermost one. -/
def stored (i : Nat) (name : String) : Calls → Option Datum
  | [] => none
  | ⟨.alloc n d, true⟩ :: cs =>
    if n = name ∧ (stack cs).head? = some i then some d else stored i name cs
  | _ :: cs => stored i name cs

theorem lt_of_mem_stack {cs : Calls} {i : Nat} (h : i ∈ cs.stack) : i < cs.frameCount := by
  fun_induction stack cs with
  | case1 => simp_all [frameCount]
  | case2 cs id ih =>
    rw [frameCount]
    rcases List.mem_cons.mp h with rfl | h
    · exact Nat.lt_succ_self _
    · exact Nat.lt_succ_of_lt (ih h)
  | case3 cs retain ih => exact ih (List.mem_of_mem_tail h)
  | case4 c cs notPush notPop ih =>
    rw [frameCount]
    · exact ih h
    · exact notPush

theorem lt_of_stored {cs : Calls} {i : Nat} {name : String} {d : Datum}
    (h : cs.stored i name = some d) : i < cs.frameCount := by
  fun_induction stored i name cs with
  | case1 => cases h
  | case2 n e cs here =>
    exact lt_of_mem_stack (List.mem_of_mem_head? here.2)
  | case3 n e cs _ ih => exact ih h
  | case4 c cs notAlloc ih =>
    have lt := ih h
    rcases c with ⟨_ | _ | _ | _ | _, _ | _⟩ <;> simp only [frameCount] <;> omega

/-- The calls say how a store looks. -/
structure Describe (cs : Calls) (s : Store) : Prop where
  frames : s.frames.size = cs.frameCount
  scopes : s.scopeCount = cs.scopeCount
  stack : s.stack = cs.stack
  captured : ∀ id < s.scopeCount, s.captured[id]? = some (cs.captor id)
  parent : ∀ (i : Nat) (f : Frame), s.frames[i]? = some f → f.parent = cs.parent i
  slots : ∀ (i : Nat) (f : Frame), s.frames[i]? = some f →
    ∀ name, f.slots.get? name = cs.stored i name

theorem describe_fresh : Describe [] fresh where
  frames := rfl
  scopes := rfl
  stack := rfl
  captured id lt := by
    obtain rfl : id = 0 := Nat.lt_one_iff.mp lt
    rfl
  parent i f hf := by
    rcases i with _ | i <;> simp [fresh] at hf
    subst hf
    rfl
  slots i f hf name := by
    rcases i with _ | i <;> simp [fresh] at hf
    subst hf
    rfl

variable {cs : Calls} {s s' : Store}

/-- A call that is not granted says nothing about the store. -/
theorem Describe.refused (h : cs.Describe s) (r : Request) : Describe (⟨r, false⟩ :: cs) s := by
  cases r <;> exact ⟨h.frames, h.scopes, h.stack, h.captured, h.parent, h.slots⟩

theorem Describe.head? (h : cs.Describe s) : cs.stack.head? = some s.top := by
  rw [← h.stack]
  rfl

theorem Describe.alloc (h : cs.Describe s) {name : String} {d : Datum}
    (done : s.alloc name d = .ok s') : Describe (⟨.alloc name d, true⟩ :: cs) s' := by
  obtain rfl := alloc_eq_ok done
  have size := h.frames
  refine ⟨by rwa [Array.size_modify], h.scopes, h.stack, h.captured, fun i f hf => ?_,
    fun i f hf other => ?_⟩
  · rw [Array.getElem?_modify] at hf
    split at hf
    · obtain ⟨g, hg, rfl⟩ := Option.map_eq_some_iff.mp hf
      exact h.parent i g hg
    · exact h.parent i f hf
  · rw [stored, h.head?]
    rw [Array.getElem?_modify] at hf
    by_cases top : s.top = i
    · rw [if_pos top] at hf
      obtain ⟨g, hg, rfl⟩ := Option.map_eq_some_iff.mp hf
      rw [Slots.get?_put, h.slots i g hg]
      simp [top]
    · rw [if_neg top] at hf
      rw [h.slots i f hf]
      simp [top]

theorem Describe.push (h : cs.Describe s) {id : Int} (done : s.push id = .ok s') :
    Describe (⟨.push id, true⟩ :: cs) s' := by
  obtain ⟨parent, captured, rfl⟩ := push_eq_ok done
  have captor : parent = cs.captor id.toNat := by
    cases id with
    | ofNat n =>
      have lt : n < s.scopeCount := (Array.getElem?_eq_some_iff.mp captured).1
      exact Option.some.inj (captured.symm.trans (h.captured n lt))
    | negSucc n => cases captured
  have size := h.frames
  have last : ∀ (i : Nat) (f : Frame), (s.frames.push ⟨id.toNat, parent, []⟩)[i]? = some f →
      i ≠ cs.frameCount ∧ s.frames[i]? = some f ∨
        i = cs.frameCount ∧ f = ⟨id.toNat, parent, []⟩ := by
    intro i f hf
    rw [Array.getElem?_push] at hf
    split at hf
    · cases hf
      exact Or.inr ⟨by omega, rfl⟩
    · exact Or.inl ⟨by omega, hf⟩
  refine ⟨?_, h.scopes, ?_, h.captured, fun i f hf => ?_, fun i f hf name => ?_⟩
  · simp [frameCount, size]
  · rw [Calls.stack, ← h.stack, ← size]
    rfl
  · rw [Calls.parent]
    rcases last i f hf with ⟨old, hf⟩ | ⟨rfl, rfl⟩
    · rw [if_neg old, h.parent i f hf]
    · rw [if_pos rfl, captor]
  · rw [stored]
    · rcases last i f hf with ⟨_, hf⟩ | ⟨rfl, rfl⟩
      · exact h.slots i f hf name
      · -- Nothing was stored in the frame before it came.
        cases found : cs.stored cs.frameCount name with
        | none => rfl
        | some d => exact absurd (lt_of_stored found) (Nat.lt_irrefl _)
    · exact nofun

theorem Describe.pop (h : cs.Describe s) {retain : Bool} (done : s.pop = .ok s') :
    Describe (⟨.pop retain, true⟩ :: cs) s' := by
  obtain ⟨below, after⟩ := pop_eq_ok done
  have stack : s'.stack = Calls.stack (⟨.pop retain, true⟩ :: cs) := by
    rw [Calls.stack, ← h.stack]
    exact below.symm
  rw [after] at stack ⊢
  exact ⟨h.frames, h.scopes, stack, h.captured, h.parent, h.slots⟩

theorem Describe.reserve (h : cs.Describe s) : Describe (⟨.reserve, true⟩ :: cs) s.reserve.2 := by
  have scopes := h.scopes
  refine ⟨h.frames, ?_, h.stack, fun id lt => ?_, h.parent, h.slots⟩
  · rw [Calls.scopeCount, ← scopes]
    exact Array.size_push ..
  · simp only [Store.reserve, captor, Array.getElem?_push, h.head?]
    rw [← scopes]
    have lt : id < s.scopeCount + 1 := by simpa [Store.reserve, Store.scopeCount] using lt
    by_cases last : id = s.scopeCount
    · rw [if_pos last]
      exact if_pos last
    · rw [if_neg last]
      exact (if_neg last).trans (h.captured id (by omega))

theorem Describe.granted (h : cs.Describe s) {r : Request} (done : r.apply s = .ok s') :
    Describe (⟨r, true⟩ :: cs) s' := by
  cases r with
  | alloc name d => exact h.alloc done
  | load name =>
    rw [Request.apply] at done
    split at done
    · cases done
      exact ⟨h.frames, h.scopes, h.stack, h.captured, h.parent, h.slots⟩
    · cases done
  | push id => exact h.push done
  | pop retain => exact h.pop done
  | reserve =>
    cases done
    exact h.reserve

end Calls

/-! ## What always holds -/

/-- Whatever is asked of a store makes a history of it. -/
theorem serve_steps (rs : List Request) : ∃ es, fresh.Steps es (serve rs).store := by
  induction rs with
  | nil => exact ⟨[], .refl⟩
  | cons r rs ih =>
    obtain ⟨es, steps⟩ := ih
    rw [serve]
    rcases r.granted_or_refused (serve rs) with ⟨s, e, _, step, _, same⟩ | ⟨_, _, _, same⟩
    · exact ⟨es ++ [e], same ▸ steps.append step.single⟩
    · exact ⟨es, same ▸ steps⟩

theorem serve_wellFormed (rs : List Request) : (serve rs).store.WellFormed := by
  obtain ⟨es, steps⟩ := serve_steps rs
  exact steps.wellFormed fresh_wellFormed

theorem serve_grounded (rs : List Request) : (serve rs).store.Grounded := by
  obtain ⟨es, steps⟩ := serve_steps rs
  exact steps.grounded fresh_grounded

/-- The calls say how the store looks that served them. -/
theorem describe_calls (rs : List Request) : (calls rs).Describe (serve rs).store := by
  induction rs with
  | nil => exact Calls.describe_fresh
  | cons r rs ih =>
    rw [serve, calls]
    rcases r.granted_or_refused (serve rs) with ⟨s, _, done, _, granted, same⟩ | ⟨_, _, ended, same⟩
    · rw [granted, same]
      exact ih.granted done
    · rw [ended, same]
      exact ih.refused r

/-- What holds of a store that started fresh and was asked for whatever it may be. -/
structure Intact (cs : Calls) (s : Store) : Prop where
  /-- The frame that there was at the beginning is at the bottom of the stack. -/
  bottom : s.stack.getLast? = some 0
  global : ∃ f, s.frames[0]? = some f ∧ f.scope = 0 ∧ f.parent = none
  /-- The scopes are numbered without a gap. -/
  scopes : ∀ id : Int, (s.scope? id).isSome ↔ 0 ≤ id ∧ id < s.scopeCount
  count : s.scopeCount = cs.scopeCount
  next : s.reserve.1 = s.scopeCount
  /-- What is on the stack, captured by a scope or the parent of a frame is a frame. -/
  live : ∀ i ∈ s.stack, i < s.frames.size
  captured : ∀ id p : Nat, s.captured[id]? = some (some p) → p < s.frames.size
  /-- The scope of a frame is there, and its parent is the frame captured when that scope was
  reserved. -/
  scope : ∀ (i : Nat) (f : Frame), s.frames[i]? = some f →
    f.scope < s.scopeCount ∧ f.parent = cs.captor f.scope ∧ (f.parent = none ↔ f.scope = 0)
  /-- A parent is older than its child. -/
  older : ∀ (i : Nat) (f : Frame), s.frames[i]? = some f → ∀ p, f.parent = some p → p < i
  /-- The way outward from a frame ends and never comes back to a frame, and look-ups go all of
  it. -/
  outward : ∀ i < s.frames.size, ∃ is, s.Outward i is ∧ is.Pairwise (· > ·) ∧
    (s.chain i).map some = is.map (s.frames[·]?)

theorem Calls.Describe.intact {cs : Calls} {s : Store} (h : cs.Describe s) (wf : s.WellFormed)
    (ground : s.Grounded) : s.Intact cs where
  bottom := ground.bottom
  global := ground.first
  scopes id := by
    cases id with
    | ofNat n =>
      have range : s.captured[n]?.isSome ↔ n < s.captured.size := by simp
      rw [scope?, range, Store.scopeCount, Int.ofNat_eq_natCast]
      omega
    | negSucc n => simp [scope?]
  count := h.scopes
  next := rfl
  live := wf.live
  captured := wf.captured
  scope i f hf := by
    have linked := wf.linked i f hf
    have lt : f.scope < s.scopeCount := (Array.getElem?_eq_some_iff.mp linked).1
    refine ⟨lt, ?_, ?_⟩
    · exact Option.some.inj (linked.symm.trans (h.captured f.scope lt))
    · rw [← ground.global, linked, Option.some.injEq]
  older := wf.older
  outward i lt := by
    obtain ⟨is, way⟩ := wf.exists_outward lt
    exact ⟨is, way, wf.outward_pairwise way, wf.chain_of_outward way⟩

/-- The frames and scopes of a store stay in order, whatever it is asked. A request fails if its
name is empty, its scope is not there, its frame is the last one or its slot is missing, and then it
leaves the store as it was. -/
theorem requests_keep_order (rs : List Request) :
    (serve rs).store.Intact (calls rs) ∧
    ∀ (r : Request) (stop : Stop),
      (r.ask.ending (serve rs) = .error stop ↔
        ∃ f, stop = .fault f none ∧ r.Refused (serve rs).store f) ∧
      (r.ask.ending (serve rs) = .error stop →
        (r.ask.after (serve rs)).store = (serve rs).store) := by
  constructor
  · exact (describe_calls rs).intact (serve_wellFormed rs) (serve_grounded rs)
  · intro r stop
    constructor
    · exact Request.ending_eq_error_iff
    · intro failed
      rcases r.granted_or_refused (serve rs) with ⟨_, _, _, _, granted, _⟩ | ⟨_, _, _, same⟩
      · rw [failed] at granted
        cases granted
      · exact same

end Store

end Scriptlet
