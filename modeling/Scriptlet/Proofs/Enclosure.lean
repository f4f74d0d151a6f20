import Scriptlet.Proofs.Ancestry
import Scriptlet.Proofs.Identity
/-!
# Frames that are enclosed in others

A frame is enclosed in those that its parents lead to. A store to which more is done keeps all of
them, so that a frame is enclosed in the same others ever after, and the frame that a scope has
captured can be read off any later store.

In a session the way outward always ends in the global frame: the only other way to a frame without
a parent is a scope that captured none, and no function has one.
-/

namespace Scriptlet

namespace Store

variable {s s' : Store} {i n : Nat}

/-- The way outward from the frame passes `n` others and ends in the frame that there was at the
beginning. -/
def Enclosed (s : Store) (i n : Nat) : Prop :=
  ∃ is, s.Outward i is ∧ is.length = n + 1 ∧ is.getLast? = some 0

/-- The frame that there was at the beginning is the only one without a parent. -/
def Rooted (s : Store) : Prop :=
  ∀ (i : Nat) (f : Frame), s.frames[i]? = some f → f.parent = none → i = 0

/-- The one store came from the other. -/
def LeadsTo (s s' : Store) : Prop := ∃ es, s.Steps es s'

theorem LeadsTo.refl (s : Store) : s.LeadsTo s := ⟨[], .refl⟩

theorem LeadsTo.trans {s₁ : Store} (h : s.LeadsTo s₁) (h' : s₁.LeadsTo s') : s.LeadsTo s' := by
  obtain ⟨es, steps⟩ := h
  obtain ⟨fs, steps'⟩ := h'
  exact ⟨es ++ fs, steps.append steps'⟩

theorem Step.leadsTo {e : Event} (h : s.Step e s') : s.LeadsTo s' := ⟨[e], h.single⟩

/-! ## Frames that are enclosed -/

theorem Enclosed.later (h : s.Enclosed i n) (leads : s.LeadsTo s') : s'.Enclosed i n := by
  obtain ⟨is, way, rest⟩ := h
  obtain ⟨es, steps⟩ := leads
  exact ⟨is, steps.outward way, rest⟩

/-- A frame that is there already is enclosed as it will be. -/
theorem Enclosed.earlier (wf : s.WellFormed) (lt : i < s.frames.size) (leads : s.LeadsTo s')
    (h : s'.Enclosed i n) : s.Enclosed i n := by
  obtain ⟨is, way, rest⟩ := h
  obtain ⟨es, steps⟩ := leads
  obtain ⟨js, way'⟩ := wf.exists_outward lt
  obtain rfl := way.unique (steps.outward way')
  exact ⟨is, way', rest⟩

/-- The last frame on a way outward has no parent. -/
theorem Outward.getLast? {is : List Nat} (way : s.Outward i is) :
    ∃ j f, is.getLast? = some j ∧ s.frames[j]? = some f ∧ f.parent = none := by
  induction way with
  | @last i f hf hp => exact ⟨i, f, rfl, hf, hp⟩
  | next _ _ rest ih =>
    obtain ⟨j, f, last, hf, hp⟩ := ih
    refine ⟨j, f, ?_, hf, hp⟩
    rw [List.getLast?_cons_of_ne_nil rest.ne_nil, last]

theorem Rooted.exists_enclosed (rooted : s.Rooted) (wf : s.WellFormed) (lt : i < s.frames.size) :
    ∃ n, s.Enclosed i n := by
  obtain ⟨is, way⟩ := wf.exists_outward lt
  obtain ⟨j, f, last, hf, hp⟩ := way.getLast?
  obtain rfl := rooted j f hf hp
  have length := List.length_pos_iff.mpr way.ne_nil
  exact ⟨is.length - 1, is, way, by omega, last⟩

theorem enclosed_succ_iff {f : Frame} {p : Nat} (hf : s.frames[i]? = some f)
    (hp : f.parent = some p) : s.Enclosed i (n + 1) ↔ s.Enclosed p n := by
  constructor
  · rintro ⟨is, way, length, last⟩
    cases way with
    | last hf' hp' =>
      cases hf.symm.trans hf'
      cases hp.symm.trans hp'
    | next hf' hp' rest =>
      cases hf.symm.trans hf'
      cases hp.symm.trans hp'
      rw [List.getLast?_cons_of_ne_nil rest.ne_nil] at last
      exact ⟨_, rest, by simpa using length, last⟩
  · rintro ⟨is, way, length, last⟩
    refine ⟨i :: is, .next hf hp way, by simpa using length, ?_⟩
    rw [List.getLast?_cons_of_ne_nil way.ne_nil, last]

/-- A frame without a parent is enclosed in no other. -/
theorem Enclosed.parent (h : s.Enclosed i (n + 1)) :
    ∃ f p, s.frames[i]? = some f ∧ f.parent = some p := by
  obtain ⟨is, way, length, _⟩ := h
  cases way with
  | last => simp at length
  | next hf hp => exact ⟨_, _, hf, hp⟩

theorem currentScope_eq {f : Frame} (hf : s.frames[s.top]? = some f) :
    s.currentScope = f.scope := by
  rw [currentScope, hf]
  rfl

/-- In how many function literals the one lies that reserved the scope, as told by the frame that
the scope captured. -/
def around (s : Store) : Int → Nat
  | .ofNat id =>
    match s.captured[id]? with
    | some (some p) => (s.chain p).length - 1
    | _ => 0
  | .negSucc _ => 0

theorem around_of_captured (wf : s.WellFormed) {id p : Nat}
    (captured : s.captured[id]? = some (some p)) (h : s.Enclosed p n) : s.around id = n := by
  obtain ⟨is, way, length, _⟩ := h
  have chain := congrArg List.length (wf.chain_of_outward way)
  rw [List.length_map, List.length_map] at chain
  have told : s.around id = (s.chain p).length - 1 := by
    rw [← Int.ofNat_eq_natCast, around, captured]
  omega

/-- A frame that is not the global one lies in its function. -/
theorem around_currentScope (wf : s.WellFormed) (wf' : s'.WellFormed) (leads : s.LeadsTo s')
    (h : s.Enclosed s.top (n + 1)) : s'.around s.currentScope = n := by
  obtain ⟨f, p, hf, hp⟩ := h.parent
  have captured : s.captured[f.scope]? = some (some p) := by rw [wf.linked _ f hf, hp]
  have outside := ((enclosed_succ_iff hf hp).mp h).later leads
  obtain ⟨es, steps⟩ := leads
  rw [currentScope_eq hf]
  exact around_of_captured wf' (steps.captured captured) outside

/-- A frame that was entered is enclosed in others, as it turns out in the end. -/
theorem enclosed_of_push {s₁ : Store} (wf : s.WellFormed) {id : Int} (enter : s.push id = .ok s₁)
    (leads : s₁.LeadsTo s') (wf' : s'.WellFormed) (rooted : s'.Rooted) :
    s₁.Enclosed s₁.top (s'.around id + 1) := by
  have wf₁ := wf.push enter
  have lt : s₁.top < s₁.frames.size := wf₁.live s₁.top List.mem_cons_self
  have remains : s₁.top < s'.frames.size := by
    obtain ⟨es, steps⟩ := leads
    exact Nat.lt_of_lt_of_le lt steps.frames_size_le
  obtain ⟨n, enclosed⟩ := rooted.exists_enclosed wf' remains
  have here := enclosed.earlier wf₁ lt leads
  obtain ⟨top, scope⟩ : s₁.top ≠ 0 ∧ (s₁.currentScope : Int) = id := by
    have live := wf.live s.top List.mem_cons_self
    obtain ⟨_, found, rfl⟩ := push_eq_ok enter
    constructor
    · dsimp only
      omega
    · cases id with
      | ofNat k => simp [currentScope]
      | negSucc => cases found
  cases n with
  | succ n =>
    have level := around_currentScope wf₁ wf' leads here
    rw [scope] at level
    rwa [level]
  | zero =>
    obtain ⟨is, way, length, last⟩ := here
    cases way with
    | last => exact absurd (Option.some.inj last) top
    | next _ _ rest => exact absurd (by simpa using length) rest.ne_nil

/-- The scope that a function literal reserves has captured the frame that it is evaluated in. -/
theorem captured_of_reserve {s s' : Store} {name : String} {d : Datum}
    (done : s.reserve.2.alloc name d = .ok s') :
    s'.captured[s.scopeCount]? = some (some s.top) := by
  obtain rfl := alloc_eq_ok done
  exact Array.getElem?_push_size

/-! ## Frames without a parent -/

theorem fresh_rooted : fresh.Rooted := by
  intro i f hf _
  rcases i with _ | i <;> simp [fresh] at hf
  rfl

/-- Unless the global scope is entered again, no frame without a parent comes. -/
theorem Step.rooted {e : Event} (h : s.Step e s') (rooted : s.Rooted) (ground : s.Grounded)
    (inner : ∀ id depth, e = .push id depth → id ≠ 0) : s'.Rooted := by
  intro i f' hf' parent
  cases h with
  | alloc done =>
    obtain rfl := alloc_eq_ok done
    rw [Array.getElem?_modify] at hf'
    split at hf'
    · obtain ⟨f, hf, rfl⟩ := Option.map_eq_some_iff.mp hf'
      exact rooted i f hf parent
    · exact rooted i f' hf' parent
  | @push _ id done =>
    obtain ⟨p, captured, rfl⟩ := push_eq_ok done
    rw [Array.getElem?_push] at hf'
    split at hf'
    · cases hf'
      obtain rfl : p = none := parent
      -- Only the global scope captured no frame.
      cases id with
      | ofNat k =>
        obtain rfl := (ground.global k).mp captured
        exact absurd rfl (inner _ _ rfl)
      | negSucc => cases captured
    · exact rooted i f' hf' parent
  | pop done =>
    rw [(pop_eq_ok done).2] at hf'
    exact rooted i f' hf' parent
  | _ => exact rooted i f' hf' parent

end Store

theorem Journaled.leadsTo {m m' : Machine} (h : Journaled m m') : m.store.LeadsTo m'.store := by
  obtain ⟨es, _, steps, _⟩ := h
  exact ⟨es, steps⟩

theorem Journaled.wellFormed {m m' : Machine} (h : Journaled m m') (wf : m.store.WellFormed) :
    m'.store.WellFormed := by
  obtain ⟨es, _, steps, _⟩ := h
  exact steps.wellFormed wf

theorem Journaled.enclosed {m m' : Machine} (h : Journaled m m') {n : Nat}
    (level : m.store.Enclosed m.store.top n) : m'.store.Enclosed m'.store.top n := by
  rw [h.confined.top]
  exact level.later h.leadsTo

/-! ## Sessions -/

/-- Functions never have the global scope, so that no call opens a frame without a parent. -/
def Trait.rooted (T : Trait) : Discipline :=
  { T.discipline with
    holds := fun m => T.Holds m ∧ m.store.Grounded ∧ m.store.Rooted
    scope := fun holds => T.discipline.scope holds.1
    load := fun holds => T.discipline.load holds.1
    step := by
      rintro m m' e ⟨holds, ground, rooted⟩ step journal about
      obtain ⟨holds', later⟩ := T.discipline.step holds step journal about
      refine ⟨⟨holds', step.grounded ground, step.rooted rooted ground ?_⟩, later⟩
      rintro id depth rfl rfl
      obtain ⟨d, f, good, function, scope⟩ := about
      have first := (holds.apart.scope f (good.made f function).1).1
      omega
    literal := by
      rintro m m' name f ⟨holds, ground, rooted⟩ body scope done journal
      obtain ⟨holds', later, good⟩ := T.discipline.literal holds body scope done journal
      have ground₁ : m.store.reserve.2.Grounded := Store.Step.reserve.grounded ground
      have rooted₁ : m.store.reserve.2.Rooted :=
        Store.Step.reserve.rooted rooted ground fun _ _ => nofun
      refine ⟨⟨holds', (Store.Step.alloc done).grounded ground₁, ?_⟩, later, good⟩
      exact (Store.Step.alloc done).rooted rooted₁ ground₁ fun _ _ => nofun }

namespace Machine

theorem Session.rooted {m : Machine} (h : m.Session) :
    Trait.any.Holds m ∧ m.store.Grounded ∧ m.store.Rooted := by
  induction h with
  | fresh anonymous =>
    exact ⟨Trait.any.holds_fresh anonymous, Store.fresh_grounded, Store.fresh_rooted⟩
  | run limits src _ ih =>
    exact (Trait.any.rooted.run limits ih (Trait.permitsSource_any src)).1

theorem Session.stack {m : Machine} (h : m.Session) : m.store.stack = [0] := by
  induction h with
  | fresh => rfl
  | @run m limits src _ ih => rw [(journaled_run limits src m).confined.stack, ih]

/-- Between fragments the global frame is the innermost one. -/
theorem Session.enclosed {m : Machine} (h : m.Session) : m.store.Enclosed m.store.top 0 := by
  obtain ⟨f, hf, _, parent⟩ := h.rooted.2.1.first
  have top : m.store.top = 0 := (List.cons.inj h.stack).1
  rw [top]
  exact ⟨[0], .last hf parent, rfl, rfl⟩

/-- The scope of a function that is stored in a session has captured a frame, which is enclosed as
is told of the function. -/
theorem Session.captured {m : Machine} (h : m.Session) {d : Datum} {f : Closure}
    (contains : m.store.Contains d) (function : d.function = some f) :
    ∃ id p : Nat, f.scope = id ∧ m.store.captured[id]? = some (some p) ∧
      m.store.Enclosed p (m.store.around f.scope) := by
  obtain ⟨holds, ground, rooted⟩ := h.rooted
  have wf := h.wellFormed
  obtain ⟨first, reserved⟩ := holds.apart.scope f ((holds.slots d contains).made f function).1
  obtain ⟨id, scope⟩ : ∃ id : Nat, f.scope = id := Int.eq_ofNat_of_zero_le (by omega)
  have lt : id < m.store.captured.size := by
    have count : m.store.scopeCount = m.store.captured.size := rfl
    omega
  have captured := Array.getElem?_eq_getElem lt
  cases parent : m.store.captured[id] with
  | none =>
    have global := (ground.global id).mp (by rw [captured, parent])
    omega
  | some p =>
    rw [parent] at captured
    obtain ⟨n, enclosed⟩ := rooted.exists_enclosed wf (wf.captured id p captured)
    refine ⟨id, p, scope, captured, ?_⟩
    rw [scope, Store.around_of_captured wf captured enclosed]
    exact enclosed

theorem SessionOf.session {sources : String → Prop} {m : Machine} (h : m.SessionOf sources) :
    m.Session := by
  induction h with
  | fresh anonymous => exact .fresh anonymous
  | run limits _ _ ih => exact .run limits _ ih

/-- The second machine comes from the first one by further fragments. -/
inductive Leads (m : Machine) : Machine → Prop
  | refl : Leads m m
  | run {m' : Machine} (limits : Limits) (src : String) : Leads m m' →
      Leads m (m'.run limits src).2

theorem Leads.leadsTo {m m' : Machine} (h : m.Leads m') : m.store.LeadsTo m'.store := by
  induction h with
  | refl => exact .refl _
  | @run m' limits src _ ih => exact ih.trans (journaled_run limits src m').leadsTo

end Machine

end Scriptlet
