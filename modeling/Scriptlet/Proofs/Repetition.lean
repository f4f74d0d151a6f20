import Scriptlet.Proofs.Renaming
import Scriptlet.Proofs.Scoping
/-!
# Calls can be repeated

A call leaves every frame that there was before as it was, and what it leaves behind besides cannot
be reached from there. So the same call, made again, runs on a store that can be taken for the first
one, and comes to the same, up to the scopes that the two calls have reserved.
-/

namespace Scriptlet

namespace Store

variable {s s' : Store}

/-- What a name means, seen from a frame. -/
def resolve? (s : Store) (i : Nat) (name : String) : Option Datum :=
  (s.chain i).findSome? (·.slots.get? name)

/-- From every frame there is, every name means the same as before. -/
def Preserves (s s' : Store) : Prop :=
  ∀ i < s.frames.size, ∀ name, s'.resolve? i name = s.resolve? i name

theorem size_le_of_getElem? {α : Type} {xs ys : Array α}
    (h : ∀ (i : Nat) (a : α), xs[i]? = some a → ys[i]? = some a) : xs.size ≤ ys.size := by
  apply Nat.le_of_not_lt
  intro lt
  have last := h ys.size _ (Array.getElem?_eq_getElem lt)
  rw [Array.getElem?_eq_none (Nat.le_refl _)] at last
  cases last

/-- The way out of a frame goes through older frames alone. -/
theorem chain_congr {i : Nat} (lt : i < s.frames.size)
    (same : ∀ j ≤ i, ∀ f, s.frames[j]? = some f → s'.frames[j]? = some f) :
    s'.chain i = s.chain i := by
  induction i using Nat.strongRecOn with
  | ind i ih =>
    have here := Array.getElem?_eq_getElem lt
    rw [Store.chain, Store.chain, here, same i (Nat.le_refl i) _ here]
    dsimp only
    split
    · rfl
    · rename_i p _
      by_cases older : p < i
      · rw [if_pos older, if_pos older, ih p older (Nat.lt_trans older lt)
          fun j le => same j (Nat.le_trans le (Nat.le_of_lt older))]
      · rw [if_neg older, if_neg older]

namespace Kept

variable (h : s.Kept s')
include h

theorem chain {i : Nat} (lt : i < s.frames.size) : s'.chain i = s.chain i :=
  chain_congr lt fun j _ => h.frames j

theorem preserves : s.Preserves s' := by
  intro i lt name
  rw [resolve?, resolve?, h.chain lt]

theorem frames_size_le : s.frames.size ≤ s'.frames.size := size_le_of_getElem? h.frames

theorem scopeCount_le : s.scopeCount ≤ s'.scopeCount := size_le_of_getElem? h.captured

end Kept

end Store

/-! ## What a call leaves as it was -/

/-- Work in a scope of its own, followed by what leaves the store alone. -/
theorem Eval.kept_of_scope {α β : Type} {x : Eval α} (hx : Tells x) {k : Except Stop α → Eval β}
    (hk : ∀ ending m, (k ending).after m = m) (id : Int) (m : Machine) :
    m.store.Kept
      ((do push id; let ending ← attempt x; pop false; k ending : Eval β).after m).store := by
  cases enter : m.store.push id with
  | error f =>
    have refused : m.store.Kept (m.record (.push id none)).store :=
      ⟨rfl, fun _ _ hf => hf, fun _ _ hp => hp⟩
    simpa only [after, bind, EStateM.bind, push, enter] using refused
  | ok s =>
    have inside := hx { m.record (.push id (some s.depth)) with store := s }
    obtain ⟨s', leave, _⟩ := journaled_of_scope enter inside
    have kept := Store.kept_of_scope enter inside.confined leave
    simp only [after, scope_eq enter leave] at hk ⊢
    simp only [hk]
    exact kept

theorem Evaluator.Tells.kept_call {inner : Evaluator} (h : inner.Tells) (f : Closure)
    (args : List Datum) (m : Machine) : m.store.Kept ((inner.call f args).after m).store := by
  have work : (do bindParams f.params args; inner.stmt f.body : Eval Completion).Tells :=
    (Eval.tells_bindParams f.params args).bind fun _ => h.stmt f.body
  rw [Evaluator.call_eq]
  refine Eval.kept_of_scope work (fun ending m => ?_) f.scope (m.record (.call f args.length))
  rcases ending with stop | c
  · cases stop <;> rfl
  · rfl

/-! ## The same call again -/

namespace Shift

/-- From the frames and scopes that are new after `s` to those that are new after `s'`. -/
def between (s s' : Store) (given : List Value) : Shift where
  frames := .between s.frames.size s'.frames.size
  scopes := .between s.scopeCount s'.scopeCount
  given := given

/-- Two calls end in the same way: with the same fault, at the same place, or with data that differ
in the scopes from some number on alone. -/
inductive Repeated (σ : Shift) : Except Stop Datum → Except Stop Datum → Prop
  | ok {d d'} : σ.Data d d' → Repeated σ (.ok d) (.ok d')
  | error {e} : Repeated σ (.error e) (.error e)

theorem Ends.repeated {σ : Shift} {x y : Eval Datum} {m m' : Machine}
    (h : σ.Ends σ.Data (x m) (y m'))
    (ordinary : ∀ stop n, x m = .error stop n → stop.IsOrdinary) :
    σ.Repeated (x.ending m) (y.ending m') ∧ σ.Stores (x.after m).store (y.after m').store := by
  simp only [Eval.ending, Eval.after]
  generalize x m = r at h ordinary ⊢
  generalize y m' = r' at h ⊢
  cases h with
  | ok same stores => exact ⟨.ok same, stores⟩
  | error stores =>
    rw [stop_of_isOrdinary (ordinary _ _ rfl)]
    exact ⟨.error, stores⟩

section

variable {m : Machine} {σ : Shift} (apart : m.Apart) (scopes : σ.scopes.least = m.store.scopeCount)
include apart scopes

theorem tag_of_made {f : Closure} (h : f ∈ m.made) : σ.tag f.scope = f.scope := by
  obtain ⟨first, reserved⟩ := apart.scope f h
  obtain ⟨id, same⟩ : ∃ id : Nat, f.scope = Int.ofNat id := Int.eq_ofNat_of_zero_le (by omega)
  rw [same] at reserved ⊢
  have old : id < σ.scopes.least := scopes ▸ Int.ofNat_lt.mp reserved
  rw [tag, Move.up_of_lt old]

theorem closure_of_made {f : Closure} (h : f ∈ m.made) : σ.closure f = f := by
  rw [closure, tag_of_made apart scopes h]

/-- What was made before is where it was. -/
theorem data_self {d : Datum} (good : Trait.visible.Good m d)
    (value : σ.value d.value = d.value ∨ d.value ∈ σ.given) : σ.Data d d := by
  constructor
  · rcases value with same | handed
    · exact Or.inl same.symm
    · exact Or.inr ⟨handed, rfl⟩
  · cases function : d.function with
    | none => rfl
    | some f => rw [Option.map_some, closure_of_made apart scopes (good.made f function).1]
  · intro f hf
    exact (good.made f hf).2

theorem value_of_identified {d : Datum} (h : d.Identified m) : σ.value d.value = d.value := by
  cases value : d.value with
  | ref tag =>
    obtain ⟨f, made, rfl⟩ := h.ref tag value
    rw [Shift.value, tag_of_made apart scopes made]
  | _ => rfl

end

section

variable {s s' : Store} {given : List Value}

theorem map_up_of_lt {p : Option Nat} (old : ∀ i, p = some i → i < s.frames.size) :
    p.map (between s s' given).frames.up = p := by
  cases p with
  | none => rfl
  | some i => exact congrArg some (Move.up_of_lt (old i rfl))

variable (wf : s.WellFormed) (kept : s.Kept s')
include wf kept

theorem frames_between (data : ∀ d, s.Contains d → (between s s' given).Data d d) (i : Nat) :
    Option.Rel (between s s' given).Frames s.frames[i]?
      s'.frames[(between s s' given).frames.up i]? := by
  by_cases lt : i < s.frames.size
  · have here := Array.getElem?_eq_getElem lt
    rw [Move.up_of_lt lt, here, kept.frames i _ here]
    apply Option.Rel.some
    constructor
    · symm
      apply map_up_of_lt
      intro p hp
      exact Nat.lt_trans (wf.older i _ here p hp) lt
    · refine List.forall₂_same.mpr fun slot mem => ⟨rfl, ?_⟩
      exact data _ ⟨i, _, slot, here, List.mem_of_mem_filter mem, rfl⟩
  · have least := Nat.le_of_not_lt lt
    have beyond : s'.frames.size ≤ (between s s' given).frames.up i :=
      (Move.counts_between kept.frames_size_le).le_up least
    rw [Array.getElem?_eq_none least, Array.getElem?_eq_none beyond]
    exact .none

theorem captured_between (n : Nat) : s'.captured[(between s s' given).scopes.up n]? =
    s.captured[n]?.map (Option.map (between s s' given).frames.up) := by
  by_cases lt : n < s.scopeCount
  · have here : s.captured[n]? = some s.captured[n] := Array.getElem?_eq_getElem lt
    have same : s.captured[n].map (between s s' given).frames.up = s.captured[n] := by
      apply map_up_of_lt
      intro i hi
      apply wf.captured n i
      rw [here, hi]
    rw [Move.up_of_lt lt, here, kept.captured n _ here, Option.map_some, same]
  · have least := Nat.le_of_not_lt lt
    have beyond : s'.captured.size ≤ (between s s' given).scopes.up n :=
      (Move.counts_between kept.scopeCount_le).le_up least
    rw [Array.getElem?_eq_none least, Array.getElem?_eq_none beyond]
    rfl

/-- A store can be taken for one that has kept all of it. -/
theorem stores_between (data : ∀ d, s.Contains d → (between s s' given).Data d d) :
    (between s s' given).Stores s s' where
  frames := frames_between wf kept data
  captured := captured_between wf kept
  frameCount := Move.counts_between kept.frames_size_le
  scopeCount := Move.counts_between kept.scopeCount_le
  top := by
    rw [(List.cons.inj kept.stack).1, Move.up_of_lt (wf.live s.top List.mem_cons_self)]
  below := by
    have old : s.below.map (between s s' given).frames.up = s.below.map id :=
      List.map_congr_left fun i hi => Move.up_of_lt (wf.live i (List.mem_cons_of_mem _ hi))
    rw [(List.cons.inj kept.stack).2, old, List.map_id]

end

end Shift

/-! ## Calls in a session -/

/-- A call of a function that was made never asks for a scope that there is not. -/
theorem Machine.Session.call_ordinary {m : Machine} (session : m.Session) (limits : Limits)
    {f : Closure} (hf : f ∈ m.made) {args : List Datum} (ha : ∀ a ∈ args, Trait.visible.Good m a)
    {stop : Stop} {m' : Machine}
    (h : (evaluator limits.rounds limits.depth).call f args m = .error stop m') :
    stop.IsOrdinary := by
  have holds := session.visible
  have callable : Trait.visible.discipline.Callable m f :=
    ⟨_, Trait.good_of_made hf (holds.body f hf), rfl⟩
  have keeps := (Trait.visible.discipline.evaluators_refl limits.rounds limits.depth).call
    (evaluator_tells limits.rounds limits.depth) callable ha
  have ends := (keeps holds).1
  rw [h] at ends
  exact ends.2.2

/-- In a session, a function that is called twice in a row with the same arguments ends in the same
way both times; where the first call gives a scope that it reserved, the second one gives the scope
that it reserved instead. Neither call changes what a name means, seen from a frame that was there
before it. -/
theorem calls_repeat {m : Machine} (session : m.Session) (limits : Limits) {f : Closure}
    (hf : f ∈ m.made) {args : List Datum}
    (ha : ∀ a ∈ args, ∀ g, a.function = some g → g ∈ m.made) :
    let call := (evaluator limits.rounds limits.depth).call f args
    let m₁ := call.after m
    let m₂ := call.after m₁
    let σ := Shift.between m.store m₁.store (args.map (·.value))
    σ.Repeated (call.ending m) (call.ending m₁) ∧
      m₂.store.scopeCount = m₁.store.scopeCount + (m₁.store.scopeCount - m.store.scopeCount) ∧
      m.store.Preserves m₁.store ∧ m₁.store.Preserves m₂.store := by
  intro call m₁ m₂ σ
  have tells := evaluator_tells limits.rounds limits.depth
  have kept : m.store.Kept m₁.store := tells.kept_call f args m
  have kept' : m₁.store.Kept m₂.store := tells.kept_call f args m₁
  have wf : m.store.WellFormed := session.wellFormed
  have holds := session.visible
  have good : ∀ a ∈ args, Trait.visible.Good m a := by
    intro a mem
    constructor
    · intro g hg
      have made := ha a mem g hg
      exact ⟨made, holds.body g made⟩
    · trivial
  have identified := Trait.any.session (session.sessionOf Trait.permitsSource_any)
  have slots (d : Datum) (hd : m.store.Contains d) : σ.Data d d :=
    Shift.data_self holds.apart rfl (holds.slots d hd)
      (Or.inl (Shift.value_of_identified holds.apart rfl (identified.slots d hd).has))
  have handed : List.Forall₂ σ.Data args args := List.forall₂_same.mpr fun a mem =>
    Shift.data_self holds.apart rfl (good a mem) (Or.inr (List.mem_map_of_mem mem))
  -- The second call is that of the function where it was moved to, which is where it was.
  have moved := (σ.evaluators limits.rounds limits.depth).call (holds.body f hf) handed
  rw [Shift.closure_of_made holds.apart rfl hf] at moved
  have ends : σ.Ends σ.Data (call m) (call m₁) := moved m m₁ (Shift.stores_between wf kept slots)
  obtain ⟨repeated, stores⟩ := ends.repeated fun _ _ => session.call_ordinary limits hf good
  exact ⟨repeated, stores.scopeCount.more, kept.preserves, kept'.preserves⟩

/-- A function whose calls give functions. -/
private def handing : Machine :=
  (Machine.fresh.run .standard
    "function f(a) \x7b return function () \x7b return a; \x7d; \x7d").2

/-- The function's scope in two calls in a row, if they give functions. -/
private def scopesOf (f : Closure) : Option Int × Option Int :=
  let call := (evaluator 10 10).call f [.undefined]
  let scope (ending : Except Stop Datum) := ending.toOption.bind (·.function.map (·.scope))
  (scope (call.ending handing), scope (call.ending (call.after handing)))

/-- The functions that two calls give have the scopes 2 and 3, and are the same otherwise. -/
theorem calls_repeat_closure : handing.Session ∧ ∃ f, f ∈ handing.made ∧
    scopesOf f = (some 2, some 3) ∧
    let call := (evaluator 10 10).call f [.undefined]
    (Shift.between handing.store (call.after handing).store [.undefined]).Repeated
      (call.ending handing) (call.ending (call.after handing)) := by
  have session : handing.Session := .run .standard _ (.fresh 0)
  have scopes : handing.made.map scopesOf = [(some 2, some 3)] := by decide +kernel
  obtain ⟨f, made, found⟩ := List.map_eq_singleton_iff.mp scopes
  have mem : f ∈ handing.made := made ▸ List.mem_cons_self
  have plain : ∀ a ∈ [Datum.undefined], ∀ g, a.function = some g → g ∈ handing.made := by
    intro a ha g hg
    rw [List.mem_singleton.mp ha] at hg
    cases hg
  exact ⟨session, f, mem, found, (calls_repeat session ⟨10, 10⟩ mem plain).1⟩

end Scriptlet
