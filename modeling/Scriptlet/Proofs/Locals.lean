import Scriptlet.Proofs.Repetition
/-!
# Locals never leak

A tree assigns to the names that stand in it as the targets of declarations and assignments, as the
names of function literals, or as operands of the updates, outside of the bodies of its function
literals. Whatever its evaluation runs, these are the only names that it stores in the innermost
frame, the anonymous ones apart: a call works in a frame of its own.
-/

namespace Scriptlet

/-- Evaluating the tree may store the datum under the name, in the frame that it begins in. -/
inductive Tree.Assigns : Tree → String → Datum → Prop
  | target {label place target value name d} : label = .decl ∨ label = .assign →
      target.identifier? = some name → Assigns (.node label place [target, value]) name d
  | literal {place name params body text d} : name.identifier? = some text →
      Assigns (.node .function place [name, params, body]) text d
  | operand {label place target rest name x} :
      label ∈ [.preIncrement, .preDecrement, .postIncrement, .postDecrement] →
      target.identifier? = some name →
      Assigns (.node label place (target :: rest)) name ⟨.number x, none⟩
  | part {label place children t name d} : label ≠ .function → t ∈ children →
      Assigns t name d → Assigns (.node label place children) name d
  | argument {place function args t name d} : t ∈ args.children →
      Assigns t name d → Assigns (.node .call place [function, args]) name d

/-- What is stored is allowed by the tree, or it is an anonymous function. -/
def Tree.Allows (t : Tree) (name : String) (d : Datum) : Prop :=
  (∃ n : Nat, name = Store.anonymousStem ++ toString n) ∨ t.Assigns name d

/-! ## Stores -/

namespace Store

/-- Work in the innermost frame alone, after which each of its slots is as before or holds a datum
that it may hold. -/
structure Writes (may : String → Datum → Prop) (s s' : Store) : Prop where
  confined : s.Confined s'
  slots : ∀ f f', s.frames[s.top]? = some f → s'.frames[s.top]? = some f' → ∀ name,
    f'.slots.get? name = f.slots.get? name ∨ ∃ d, f'.slots.get? name = some d ∧ may name d

variable {may : String → Datum → Prop} {s s₁ s' : Store}

theorem Kept.writes (h : s.Kept s') : s.Writes may s' where
  confined := h.confined
  slots f f' hf hf' name := by
    rw [h.frames _ f hf] at hf'
    exact .inl (congrArg (·.slots.get? name) (Option.some.inj hf').symm)

theorem Writes.refl (s : Store) : s.Writes may s :=
  Kept.writes ⟨rfl, fun _ _ hf => hf, fun _ _ hp => hp⟩

theorem Writes.trans (h : s.Writes may s₁) (h' : s₁.Writes may s') : s.Writes may s' where
  confined := h.confined.trans h'.confined
  slots f f' hf hf' name := by
    obtain ⟨f₁, hf₁, -⟩ := h.confined.innermost f hf
    have top := h.confined.top
    rcases h'.slots f₁ f' (top ▸ hf₁) (top ▸ hf') name with same | written
    · rw [same]
      exact h.slots f f₁ hf hf₁ name
    · exact .inr written

/-- Only the innermost frame of the way out may have changed. -/
theorem Confined.chain {f : Frame} (h : s.Confined s') (here : s.frames[s.top]? = some f) :
    ∃ f' rest, s'.frames[s.top]? = some f' ∧ s.chain s.top = f :: rest ∧
      s'.chain s.top = f' :: rest := by
  obtain ⟨f', here', -, parent, -⟩ := h.innermost f here
  have size := (Array.getElem?_eq_some_iff.mp here).1
  rw [Store.chain, Store.chain, here, here']
  dsimp only
  rw [parent]
  split
  · exact ⟨f', [], rfl, rfl, rfl⟩
  · rename_i p _
    split
    · rename_i older
      refine ⟨f', _, rfl, rfl, ?_⟩
      rw [chain_congr (Nat.lt_trans older size) fun j le f hf => h.others j f hf (by omega)]
    · exact ⟨f', [], rfl, rfl, rfl⟩

theorem Writes.load? {f : Frame} (h : s.Writes may s') (here : s.frames[s.top]? = some f)
    (name : String) : s'.load? name = s.load? name ∨ ∃ d, s'.load? name = some d ∧ may name d := by
  obtain ⟨f', rest, here', chain, chain'⟩ := h.confined.chain here
  rw [Store.load?, Store.load?, h.confined.top, chain, chain', List.findSome?_cons,
    List.findSome?_cons]
  rcases h.slots f f' here here' name with same | ⟨d, found, allowed⟩
  · exact .inl (by rw [same])
  · exact .inr ⟨d, by rw [found], allowed⟩

end Store

namespace Eval

variable {may : String → Datum → Prop} {α β : Type}

/-- An action that stores nothing else in the frame that it begins in, however it ends. -/
def Writes (may : String → Datum → Prop) (x : Eval α) : Prop :=
  ∀ m : Machine, m.store.Writes may (x.after m).store

theorem Writes.pure (a : α) : Writes may (Pure.pure a : Eval α) := fun m => .refl m.store

theorem Writes.throw (stop : Stop) : Writes may (MonadExcept.throw stop : Eval α) :=
  fun m => .refl m.store

theorem Writes.fail (f : Fault) : Writes may (Eval.fail f : Eval α) := .throw _

theorem Writes.bind {x : Eval α} {f : α → Eval β} (hx : Writes may x)
    (hf : ∀ a, Writes may (f a)) : Writes may (x >>= f) := by
  intro m
  have first := hx m
  simp only [after, Bind.bind, EStateM.bind] at first ⊢
  cases h : x m with
  | ok a m₁ =>
    rw [h] at first
    exact first.trans (hf a m₁)
  | error stop m₁ =>
    rw [h] at first
    exact first

theorem Writes.located {x : Eval α} (hx : Writes may x) (place : Option Place) :
    Writes may (x.located place) := by
  intro m
  rw [after_located]
  exact hx m

theorem writes_alloc {name : String} {d : Datum} (h : may name d) : Writes may (alloc name d) := by
  intro m
  have confined := (tells_alloc name d m).confined
  refine ⟨confined, fun f f' hf hf' other => ?_⟩
  simp only [after, alloc] at hf'
  cases stored : m.store.alloc name d with
  | error e =>
    simp only [stored, Machine.record, hf] at hf'
    exact .inl (congrArg (·.slots.get? other) (Option.some.inj hf').symm)
  | ok s =>
    simp only [stored, Store.alloc_eq_ok stored, Array.getElem?_modify, if_pos, hf,
      Option.map_some] at hf'
    rw [← Option.some.inj hf', Slots.get?_put]
    split
    · rename_i same
      exact .inr ⟨d, rfl, same ▸ h⟩
    · exact .inl rfl

theorem writes_load? (name : String) : Writes may (load? name) := fun m => .refl m.store

theorem writes_reserve : Writes may reserve := by
  intro m
  refine Store.Kept.writes ⟨rfl, fun _ _ hf => hf, fun id p hp => ?_⟩
  have old := (Array.getElem?_eq_some_iff.mp hp).1
  exact (Array.getElem?_push_lt old).trans ((Array.getElem?_eq_getElem old).symm.trans hp)

theorem writes_paramNames (t : Tree) : Writes may (paramNames t) := by
  intro m
  simp only [after]
  rcases paramNames_eq t with ⟨names, read⟩ | ⟨f, -, failed⟩
  · rw [read]
    exact .refl m.store
  · rw [failed]
    exact .refl m.store

end Eval

/-! ## Trees -/

/-- All that the tree assigns may be stored, and so may anonymous functions. -/
structure Tree.Bounds (t : Tree) (may : String → Datum → Prop) : Prop where
  anonymous : ∀ (n : Nat) (d : Datum), may (Store.anonymousStem ++ toString n) d
  assigned : ∀ name d, t.Assigns name d → may name d

variable {may : String → Datum → Prop}

theorem Tree.bounds_allows (t : Tree) : t.Bounds t.Allows where
  anonymous n _ := .inl ⟨n, rfl⟩
  assigned _ _ := .inr

theorem Tree.Bounds.part {label : Label} {place : Option Place} {children : List Tree} {t : Tree}
    (h : (node label place children).Bounds may) (other : label ≠ .function) (mem : t ∈ children) :
    t.Bounds may where
  anonymous := h.anonymous
  assigned name d assigns := h.assigned name d (.part other mem assigns)

theorem Tree.Bounds.argument {place : Option Place} {function args t : Tree}
    (h : (node .call place [function, args]).Bounds may) (mem : t ∈ args.children) :
    t.Bounds may where
  anonymous := h.anonymous
  assigned name d assigns := h.assigned name d (.argument mem assigns)

/-! ## Evaluations -/

open Eval

theorem Eval.writes_makeFunction {name params body : Tree} {place : Option Place}
    (h : (Tree.node .function place [name, params, body]).Bounds may) :
    (makeFunction name params body).Writes may := by
  have anonymous (d : Datum) : Eval.Writes may (do allocAnonymous d; return d) := by
    refine Writes.bind (fun m => ?_) fun _ => .pure _
    exact writes_alloc (h.anonymous m.anonymous d) { m with anonymous := m.anonymous + 1 }
  refine writes_reserve.bind fun scope => (writes_paramNames params).bind fun names => ?_
  dsimp only
  split
  · rename_i text named
    split
    · exact anonymous _
    · exact (writes_alloc (h.assigned _ _ (.literal named))).bind fun _ => .pure _
  · exact anonymous _

/-- Actions that store what a tree assigns, and nothing else. -/
def writing (may : String → Datum → Prop) : Congruence Unit where
  World := Unit
  later _ _ := True
  rel _ _ _ x _ := x.Writes may
  permits t := t.Bounds may
  good _ _ := True
  stores := may
  mono _ _ := trivial
  part := Tree.Bounds.part
  argument := Tree.Bounds.argument
  target ht storing named d := ht.assigned _ d (.target storing named)
  operand ht updates named _ := ht.assigned _ _ (.operand updates named)
  plain _ _ _ := trivial
  former _ _ _ := trivial
  imp h _ := h
  pure _ := .pure _
  fail _ := .fail _
  unfinished := .throw _
  bind hx hf := hx.bind fun a => hf () a trivial
  alloc := writes_alloc
  load? := writes_load?
  literal := writes_makeFunction

/-- A call leaves the frame from which it is made as it is. -/
theorem Evaluator.Tells.writes_call {inner : Evaluator} (h : inner.Tells) (f : Closure)
    (args : List Datum) : (inner.call f args).Writes may :=
  fun m => (h.kept_call f args m).writes

/-- Evaluating a tree stores what the tree assigns, and nothing else. -/
theorem evaluator_writes (rounds depth : Nat) {t : Tree} (ht : t.Bounds may) :
    ((evaluator rounds depth).expr t).Writes may ∧
      ((evaluator rounds depth).stmt t).Writes may := by
  induction depth generalizing t with
  | zero => exact ⟨.throw _, .throw _⟩
  | succ depth ih =>
    let C := writing may
    have expr {w P t} (ht : C.permits t) : C.rel w P C.good ((evaluator rounds depth).expr t)
        fun _ => (evaluator rounds depth).expr t := (ih ht).1
    have stmt {w P t} (ht : C.permits t) : C.rel w P C.Fine ((evaluator rounds depth).stmt t)
        fun _ => (evaluator rounds depth).stmt t := (ih ht).2
    have call (f : Closure) (args : List Datum) :
        ((evaluator rounds depth).call f args).Writes may :=
      (evaluator_tells rounds depth).writes_call f args
    constructor
    · exact Eval.Writes.located (C.exprStep (w := ()) (P := True) expr call ht) t.place?
    · exact Eval.Writes.located (C.stmtStep (w := ()) (P := True) stmt expr rounds ht) t.place?

/-- Whatever an evaluation runs and however it ends, a slot of the frame that was innermost when it
began is as before, or it is that of a name which the tree assigns, or of an anonymous function, and
so is the meaning of every name there. No local of a called function becomes visible. -/
theorem locals_never_leak {m : Machine} {f : Frame}
    (here : m.store.frames[m.store.top]? = some f) (limits : Limits) (t : Tree) :
    ∀ s', s' = (m.exec limits t).2.store ∨ s' = (m.eval limits t).2.store →
      s'.top = m.store.top ∧
      (∃ f', s'.frames[m.store.top]? = some f' ∧ ∀ name,
        f'.slots.get? name ≠ f.slots.get? name →
          ∃ d, f'.slots.get? name = some d ∧ t.Allows name d) ∧
      ∀ name, s'.load? name ≠ m.store.load? name →
        ∃ d, s'.load? name = some d ∧ t.Allows name d := by
  intro s' evaluated
  have writes : m.store.Writes t.Allows s' := by
    rcases evaluated with rfl | rfl
    · rw [Machine.exec, Eval.outcome_snd]
      exact (evaluator_writes limits.rounds limits.depth t.bounds_allows).2 m
    · rw [Machine.eval, Eval.outcome_snd]
      exact (evaluator_writes limits.rounds limits.depth t.bounds_allows).1 m
  obtain ⟨f', here', -⟩ := writes.confined.innermost f here
  refine ⟨writes.confined.top, ⟨f', here', fun name other => ?_⟩, fun name other => ?_⟩
  · exact (writes.slots f f' here here' name).resolve_left other
  · exact (writes.load? here name).resolve_left other

/-- A recursive function whose local hides a global name, and which stores under its parameter. -/
private def shading : Machine :=
  (Machine.fresh.run .standard
    "var x = true; function f(a) \x7b var x = a; y = x; a = null; if (x) \x7b f(false); \x7d \x7d").2

/-- `z = f(true)` -/
private def callShading : Tree :=
  .node .assign none [.token .identifier "z" none, .node .call none
    [.token .identifier "f" none, .node .args none [.token .trueWord "true" none]]]

/-- The call ends and its result is stored; nothing else is new, and `x` is what it was. -/
theorem locals_never_leak_shadowing :
    ∃ f s', shading.store.frames[shading.store.top]? = some f ∧
      s' = (shading.exec ⟨20, 5⟩ callShading).2.store ∧
      (∀ name, s'.load? name ≠ shading.store.load? name →
        ∃ d, s'.load? name = some d ∧ callShading.Allows name d) ∧
      s'.bindings.map (fun (name, d) => (name, d.value)) =
        [("x", .bool true), ("f", .ref 1), ("z", .undefined)] := by
  have size : shading.store.top < shading.store.frames.size := by decide +kernel
  have here := Array.getElem?_eq_getElem size
  obtain ⟨-, -, names⟩ := locals_never_leak here ⟨20, 5⟩ callShading _ (.inl rfl)
  exact ⟨_, _, here, rfl, names, by decide +kernel⟩

end Scriptlet
