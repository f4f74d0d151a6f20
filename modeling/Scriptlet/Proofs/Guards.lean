import Scriptlet.Proofs.Congruence
import Scriptlet.Proofs.Frames
import Scriptlet.Proofs.Shape
/-!
# Which faults a source text can run into

A store is sound if every function in it has the body of a source text and a scope that is
reserved. Every action that source texts lead to keeps the store sound, gives sound data, and stops
only for a reason that a program can bring about (`Safe`). The guards that are left can only be
tripped by trees and requests made by hand.
-/

namespace Scriptlet

/-- The faults that a program can run into. -/
def Fault.IsExpected : Fault → Prop
  | undefinedName _ => True
  | callsTooDeep => True
  | nestingTooDeep => True
  | badOperand _ _ => True
  | notCallable => True
  | notFunction _ => True
  | unsupported kind => kind = "instance_var" ∨ kind = "new_object"
  | _ => False

theorem Fault.IsDynamic.isExpected {f : Fault} (h : f.IsDynamic) : f.IsExpected := by
  cases f with
  | undefinedName | notCallable | notFunction => trivial
  | _ => exact h.elim

def Stop.IsExpected : Stop → Prop
  | fault f _ => f.IsExpected
  | tooDeep => True
  | unfinished => True

def Failure.IsExpected : Failure → Prop
  | parse _ => True
  | runtime f _ => f.IsExpected
  | unfinished => True

theorem Stop.IsExpected.failure {stop : Stop} (h : stop.IsExpected) : stop.failure.IsExpected := by
  cases stop with
  | fault f place => exact h
  | tooDeep => trivial
  | unfinished => trivial

/-! ## Sound stores -/

/-- A function that a source text can make, when so many scopes are reserved. -/
structure Closure.Sound (scopes : Nat) (f : Closure) : Prop where
  body : f.body.IsStmt
  params : ∀ p ∈ f.params, p ≠ ""
  scope : ∃ id < scopes, f.scope = Int.ofNat id

def Datum.Sound (scopes : Nat) (d : Datum) : Prop := ∀ f, d.function = some f → f.Sound scopes

def Store.Sound (s : Store) : Prop :=
  ∀ (i : Nat) (f : Frame), s.frames[i]? = some f → ∀ slot ∈ f.slots, slot.2.Sound s.scopeCount

theorem Closure.Sound.mono {j k : Nat} {f : Closure} (h : f.Sound j) (le : j ≤ k) : f.Sound k := by
  obtain ⟨id, lt, scope⟩ := h.scope
  exact ⟨h.body, h.params, id, by omega, scope⟩

theorem Datum.Sound.mono {j k : Nat} {d : Datum} (h : d.Sound j) (le : j ≤ k) : d.Sound k :=
  fun f hf => (h f hf).mono le

/-- A datum without a function is sound. -/
theorem Datum.sound_of_none {k : Nat} {d : Datum} (h : d.function = none) : d.Sound k := by
  intro f hf
  rw [h] at hf
  cases hf

theorem Slots.mem_put {name : String} {d : Datum} {slots : Slots} {slot : String × Datum}
    (h : slot ∈ slots.put name d) : slot ∈ slots ∨ slot.2 = d := by
  induction slots with
  | nil =>
    obtain rfl := List.mem_singleton.mp h
    exact Or.inr rfl
  | cons old rest ih =>
    obtain ⟨n, e⟩ := old
    rw [put] at h
    split at h
    · rcases List.mem_cons.mp h with rfl | h
      · exact Or.inr rfl
      · exact Or.inl (List.mem_cons_of_mem _ h)
    · rcases List.mem_cons.mp h with rfl | h
      · exact Or.inl List.mem_cons_self
      · rcases ih h with h | h
        · exact Or.inl (List.mem_cons_of_mem _ h)
        · exact Or.inr h

namespace Store

theorem fresh_sound : fresh.Sound := by
  intro i f hf slot hs
  rcases i with _ | i <;> simp [fresh] at hf
  subst hf
  cases hs

theorem Sound.alloc {s s' : Store} {name : String} {d : Datum} (h : s.Sound)
    (hd : d.Sound s.scopeCount) (done : s.alloc name d = .ok s') : s'.Sound := by
  obtain rfl := alloc_eq_ok done
  intro i f' hf slot hs
  rw [Array.getElem?_modify] at hf
  split at hf
  · obtain ⟨f, old, rfl⟩ := Option.map_eq_some_iff.mp hf
    rcases Slots.mem_put hs with hs | rfl
    · exact h i f old slot hs
    · exact hd
  · exact h i f' hf slot hs

theorem Sound.push {s s' : Store} {id : Int} (h : s.Sound) (done : s.push id = .ok s') :
    s'.Sound := by
  obtain ⟨parent, _, rfl⟩ := push_eq_ok done
  intro i f hf slot hs
  rw [Array.getElem?_push] at hf
  split at hf
  · cases hf
    cases hs
  · exact h i f hf slot hs

theorem Sound.pop {s s' : Store} (h : s.Sound) (done : s.pop = .ok s') : s'.Sound := by
  rw [(pop_eq_ok done).2]
  exact h

theorem Sound.reserve {s : Store} (h : s.Sound) : s.reserve.2.Sound := by
  intro i f hf slot hs
  refine (h i f hf slot hs).mono ?_
  simp [Store.reserve, scopeCount]

theorem mem_chain {s : Store} {i : Nat} {f : Frame} (h : f ∈ s.chain i) :
    ∃ j : Nat, s.frames[j]? = some f := by
  fun_induction chain s i with
  | case1 => cases h
  | case2 i g hg => exact ⟨i, List.mem_singleton.mp h ▸ hg⟩
  | case3 i g hg _ _ _ ih =>
    rcases List.mem_cons.mp h with rfl | h
    · exact ⟨i, hg⟩
    · exact ih h
  | case4 i g hg => exact ⟨i, List.mem_singleton.mp h ▸ hg⟩

theorem Sound.load? {s : Store} {name : String} {d : Datum} (h : s.Sound)
    (hd : s.load? name = some d) : d.Sound s.scopeCount := by
  obtain ⟨f, hf, hget⟩ := List.exists_of_findSome?_eq_some hd
  obtain ⟨i, hi⟩ := mem_chain hf
  rw [Slots.get?] at hget
  obtain ⟨slot, found, rfl⟩ := Option.map_eq_some_iff.mp hget
  exact h i f hi slot (List.mem_of_find?_eq_some found)

theorem scopeCount_alloc {s s' : Store} {name : String} {d : Datum} (h : s.alloc name d = .ok s') :
    s'.scopeCount = s.scopeCount := by
  rw [alloc_eq_ok h]
  rfl

theorem push_eq_ok_of_lt {s : Store} {id : Nat} (lt : id < s.scopeCount) :
    ∃ s', s.push (Int.ofNat id) = .ok s' ∧ s'.scopeCount = s.scopeCount := by
  have captured : s.scope? (Int.ofNat id) = some s.captured[id] := Array.getElem?_eq_getElem lt
  rw [push]
  rw [captured]
  exact ⟨_, rfl, rfl⟩

theorem scopeCount_pop {s s' : Store} (h : s.pop = .ok s') : s'.scopeCount = s.scopeCount := by
  rw [(pop_eq_ok h).2]
  rfl

end Store

namespace Eval

variable {α β : Type} {n : Nat} {Q : Nat → α → Prop} {R : Nat → β → Prop}

/-- A sound store with at least `n` scopes, and either a result of which `Q` holds, given how many
scopes there are, or an expected stop. -/
def Ends (n : Nat) (Q : Nat → α → Prop) : EStateM.Result Stop Machine α → Prop
  | .ok a m => m.store.Sound ∧ n ≤ m.store.scopeCount ∧ Q m.store.scopeCount a
  | .error stop m => m.store.Sound ∧ n ≤ m.store.scopeCount ∧ stop.IsExpected

theorem Ends.lower {j : Nat} {r : EStateM.Result Stop Machine α} (h : Ends n Q r) (le : j ≤ n) :
    Ends j Q r := by
  cases r with
  | ok a m => exact ⟨h.1, Nat.le_trans le h.2.1, h.2.2⟩
  | error stop m => exact ⟨h.1, Nat.le_trans le h.2.1, h.2.2⟩

/-- From every sound store with `n` scopes the action ends well and loses no scope. -/
def Safe (n : Nat) (x : Eval α) (Q : Nat → α → Prop) : Prop :=
  ∀ m : Machine, m.store.Sound → m.store.scopeCount = n → Ends n Q (x m)

theorem Safe.pure {a : α} (h : Q n a) : Safe n (Pure.pure a : Eval α) Q := by
  rintro m sound rfl
  exact ⟨sound, Nat.le_refl _, h⟩

theorem Safe.throw {stop : Stop} (h : stop.IsExpected) :
    Safe n (MonadExcept.throw stop : Eval α) Q :=
  fun _ sound here => ⟨sound, Nat.le_of_eq here.symm, h⟩

theorem Safe.fail {f : Fault} (h : f.IsExpected) : Safe n (Eval.fail f : Eval α) Q := .throw h

theorem Safe.bind {x : Eval α} {f : α → Eval β} (hx : Safe n x Q)
    (hf : ∀ k a, n ≤ k → Q k a → Safe k (f a) R) : Safe n (x >>= f) R := by
  intro m sound here
  have first := hx m sound here
  simp only [Bind.bind, EStateM.bind]
  cases h : x m with
  | ok a m₁ =>
    rw [h] at first
    obtain ⟨sound₁, le₁, ha⟩ := first
    exact (hf _ a le₁ ha m₁ sound₁ rfl).lower le₁
  | error stop m₁ =>
    rw [h] at first
    exact first

theorem Safe.located {x : Eval α} (hx : Safe n x Q) (place : Option Place) :
    Safe n (x.located place) Q := by
  intro m sound here
  have first := hx m sound here
  rw [Eval.located]
  cases h : x m with
  | ok a m' =>
    rw [h] at first
    exact first
  | error stop m' =>
    rw [h] at first
    rcases stop with ⟨f, _ | p⟩ | _ | _ <;> exact first

/-! ## Requests to the store -/

theorem safe_record (e : Event) : Safe n (record e) (fun _ _ => True) :=
  fun _ sound here => ⟨sound, Nat.le_of_eq here.symm, trivial⟩

theorem safe_alloc {name : String} {d : Datum} (hn : name ≠ "") (hd : d.Sound n) :
    Safe n (alloc name d) (fun _ _ => True) := by
  rintro m sound rfl
  obtain ⟨s, done⟩ : ∃ s, m.store.alloc name d = .ok s := by simp [Store.alloc, hn]
  have scopes := Store.scopeCount_alloc done
  simp only [alloc, done]
  exact ⟨sound.alloc hd done, Nat.le_of_eq scopes.symm, trivial⟩

theorem safe_allocAnonymous {d : Datum} (hd : d.Sound n) :
    Safe n (allocAnonymous d) (fun _ _ => True) := by
  intro m sound here
  have named := Store.anonymousName_ne m.anonymous
  exact safe_alloc named hd { m with anonymous := m.anonymous + 1 } sound here

theorem safe_load? (name : String) :
    Safe n (load? name) (fun k found => ∀ d, found = some d → d.Sound k) := by
  rintro m sound rfl
  exact ⟨sound, Nat.le_refl _, fun _ hd => sound.load? hd⟩

theorem safe_reserve : Safe n reserve (fun k id => id < k) := by
  rintro m sound rfl
  have more : m.store.scopeCount < m.store.reserve.2.scopeCount := by
    simp [Store.reserve, Store.scopeCount]
  exact ⟨sound.reserve, Nat.le_of_lt more, more⟩

/-- Safety, judged in the number of scopes that are reserved. -/
def safety : Judgement Unit Fault.IsExpected where
  World := Nat
  later := (· ≤ ·)
  rel n P Q x _ := P → Safe n x Q
  good := Datum.Sound
  stores name _ := name ≠ ""
  dynamic := Fault.IsDynamic.isExpected
  mono le h := h.mono le
  plain _ _ _ := Datum.sound_of_none rfl
  imp h granted p := h (granted p)
  pure h p := .pure (h p)
  fail h _ := .fail h
  unfinished _ := .throw trivial
  bind hx hf p := (hx p).bind fun k a le ha => hf k a le ⟨p, ha⟩
  alloc := safe_alloc
  load? name _ := safe_load? name

/-- Work in a reserved scope: the scope can be entered, and left again since the journal tells all
that happens in between. -/
theorem safe_scope {x : Eval α} (tells : x.Tells) (hx : Safe n x Q) {k : Except Stop α → Eval β}
    (hok : ∀ j a, n ≤ j → Q j a → Safe j (k (.ok a)) R)
    (herr : ∀ j stop, n ≤ j → stop.IsExpected → Safe j (k (.error stop)) R) {id : Nat}
    (lt : id < n) :
    Safe n (do push (Int.ofNat id); let ending ← attempt x; pop false; k ending) R := by
  rintro m sound rfl
  obtain ⟨s, enter, scopes⟩ := Store.push_eq_ok_of_lt lt
  have work := hx { m.record (.push id (some s.depth)) with store := s } (sound.push enter) scopes
  have inside := tells { m.record (.push id (some s.depth)) with store := s }
  obtain ⟨s', leave, _⟩ := journaled_of_scope enter inside
  simp only [after] at leave
  simp only [bind, EStateM.bind, push, enter, attempt, pop]
  cases h : x { m.record (.push id (some s.depth)) with store := s } with
  | ok a m₂ =>
    simp only [h] at work leave
    obtain ⟨sound₂, le₂, ha⟩ := work
    have kept := Store.scopeCount_pop leave
    simp only [leave]
    exact (hok _ a le₂ ha _ (sound₂.pop leave) kept).lower le₂
  | error stop m₂ =>
    simp only [h] at work leave
    obtain ⟨sound₂, le₂, hstop⟩ := work
    have kept := Store.scopeCount_pop leave
    simp only [leave]
    exact (herr _ stop le₂ hstop _ (sound₂.pop leave) kept).lower le₂

/-! ## What needs no nested evaluation -/

theorem safe_identifier (role : IdentifierRole) {t : Tree} (h : t.IsName) :
    Safe n (identifier role t) (fun _ name => name ≠ "") := by
  obtain ⟨name, found, hn⟩ := h.identifier?
  rw [identifier]
  rw [found]
  exact .pure hn

theorem safe_paramNames {place : Option Place} {params : List Tree}
    (h : ∀ p ∈ params, p.IsName) :
    Safe n (paramNames (.node .params place params)) (fun _ names => ∀ name ∈ names, name ≠ "") :=
  safety.mapM (g := fun _ => identifier .parameter) (R := fun _ name => name ≠ "") (fun _ hn => hn)
    (fun p hp _ _ => safe_identifier .parameter (h p hp)) trivial

theorem safe_tokenValue {kind : TokenKind} (h : kind.isLiteral) (text : String) :
    Safe n (tokenValue kind text) Datum.Sound := by
  cases kind with
  | number | trueWord | falseWord | nullWord | undefinedWord =>
    exact .pure (Datum.sound_of_none rfl)
  | _ => cases h

theorem safe_makeFunction {name params body : Tree} {place : Option Place} {names : List Tree}
    (hname : name = .missing ∨ name.IsName) (hparams : params = .node .params place names)
    (hnames : ∀ p ∈ names, p.IsName) (hbody : body.IsStmt) :
    Safe n (makeFunction name params body) Datum.Sound := by
  subst hparams
  refine safe_reserve.bind fun j scope _ lt => (safe_paramNames hnames).bind fun k ps hk hps => ?_
  have made (i : Nat) (hi : k ≤ i) :
      Datum.Sound i ⟨.ref scope, some ⟨ps, body, name.identifier?, scope⟩⟩ := by
    intro f hf
    cases hf
    exact ⟨hbody, hps, scope, by omega, rfl⟩
  have result := made k (Nat.le_refl k)
  dsimp only
  rcases hname with rfl | hname
  · exact (safe_allocAnonymous result).bind fun i _ hi _ => .pure (made i hi)
  · obtain ⟨text, found, htext⟩ := hname.identifier?
    rw [found] at result made ⊢
    simp only [htext, if_false]
    exact (safe_alloc htext result).bind fun i _ hi _ => .pure (made i hi)

theorem safe_update (postfixed : Bool) (delta : Float) {target : Tree}
    (h : ∀ name, target.identifier? = some name → name ≠ "") :
    Safe n (update postfixed delta target) Datum.Sound := by
  cases named : target.identifier? with
  | none =>
    simp only [update, named]
    exact .fail trivial
  | some name =>
    exact safety.update named (fun _ => h name named)
      (fun _ _ _ _ => Datum.sound_of_none rfl) delta trivial

end Eval

open Eval

/-- An evaluator that is safe on the trees of source texts. -/
structure Evaluator.Safe (inner : Evaluator) : Prop where
  expr : ∀ {t : Tree}, t.IsExpr → ∀ n, (inner.expr t).Safe n Datum.Sound
  stmt : ∀ {t : Tree}, t.IsStmt → ∀ n, (inner.stmt t).Safe n safety.Fine

namespace Evaluator

variable {inner : Evaluator} {n : Nat} {P : Prop}

section

variable (he : ∀ {n P t}, Tree.IsExpr t →
  safety.rel n P safety.good (inner.expr t) fun _ => inner.expr t)
include he

/-- Expressions are safe if the calls that they make are. -/
theorem safe_exprStep (call : ∀ {n} f args,
      safety.rel n (safety.Callable n f ∧ ∀ a ∈ args, safety.good n a) safety.good
        (inner.call f args) fun _ => inner.call f args)
    {t : Tree} (ht : t.IsExpr) :
    safety.rel n P safety.good (inner.exprStep t) fun _ => inner.exprStep t := by
  cases ht with
  | literal hk => exact fun _ => safe_tokenValue hk _
  | name hn =>
    cases t with
    | token kind text place =>
      cases kind with
      | identifier => exact safety.lookUp text
      | _ => cases hn
    | _ => cases hn
  | arithmetic hlabel known hl hr =>
    rcases hlabel with rfl | rfl
    · simp only [Evaluator.exprStep, three]
      exact Judgement.operation he _ (fun _ _ h => by cases h) hl known hr
    · simp only [Evaluator.exprStep, three]
      exact Judgement.operation he _ (fun _ _ h => by cases h) hl known hr
  | comparison known hl hr =>
    simp only [Evaluator.exprStep, three]
    exact Judgement.operation he _ (fun _ _ h => by cases h) hl known hr
  | logical hlabel hl hr =>
    rcases hlabel with rfl | rfl
    · exact Judgement.shortCircuit he true hl hr
    · exact Judgement.shortCircuit he false hl hr
  | signed hlabel ho =>
    rcases hlabel with rfl | rfl
    · exact Judgement.signed he _ ho
    · exact Judgement.signed he _ ho
  | update hlabel ho =>
    have named : ∀ name, _ = some name → name ≠ "" := fun _ => ho.identifier?
    simp only [List.mem_cons, List.not_mem_nil, or_false] at hlabel
    rcases hlabel with rfl | rfl | rfl | rfl
    · exact fun _ => safe_update false 1 named
    · exact fun _ => safe_update false (-1) named
    · exact fun _ => safe_update true 1 named
    · exact fun _ => safe_update true (-1) named
  | function hname hparams hbody => exact fun _ => safe_makeFunction hname rfl hparams hbody
  | call hf ha => exact Judgement.application he call hf ha
  | unsupported hlabel =>
    rcases hlabel with rfl | rfl
    · exact safety.fail (Or.inl rfl)
    · exact safety.fail (Or.inr rfl)

end

section

variable (hs : ∀ {n P t}, Tree.IsStmt t →
  safety.rel n P safety.Fine (inner.stmt t) fun _ => inner.stmt t)
include hs

theorem safe_sequence {first rest : Tree} (hf : first.IsStmt) (hr : rest.IsStmt) :
    safety.rel n P safety.Fine (inner.sequence first rest) fun _ => inner.sequence first rest := by
  fun_induction Evaluator.sequence inner first rest generalizing n P with
  | case1 first _ next rest ih =>
    cases hr with
    | seq hnext hrest => exact Judgement.stmtThen hs hf (ih hnext hrest)
    | store hlabel => rcases hlabel with hlabel | hlabel <;> cases hlabel
  | case2 first _ _ shape =>
    cases hr with
    | seq => exact absurd rfl (shape _ _)
    | store hlabel => rcases hlabel with hlabel | hlabel <;> cases hlabel
  | case3 first last => exact Judgement.stmtThen hs hf (hs hr)

variable (he : ∀ {n P t}, Tree.IsExpr t →
  safety.rel n P safety.good (inner.expr t) fun _ => inner.expr t)
include he

theorem safe_stmtStep (rounds : Nat) {t : Tree} (ht : t.IsStmt) :
    safety.rel n P safety.Fine (inner.stmtStep rounds t) fun _ => inner.stmtStep rounds t := by
  cases ht with
  | empty => exact safety.pure fun _ => safety.fine_undefined n
  | seq hnext hrest => exact safe_sequence hs hnext hrest
  | store hlabel ht hv =>
    obtain ⟨name, named, stored⟩ := ht.identifier?
    rcases hlabel with rfl | rfl
    · exact Judgement.store he .declaration named (fun _ => stored) hv
    · exact Judgement.store he .target named (fun _ => stored) hv
  | bareExpr h => exact Judgement.bare he h
  | ifOnly hc hb => exact Judgement.branch hs he hc hb (absurd rfl)
  | ifElse hc hb ho => exact Judgement.branch hs he hc hb fun _ => ho
  | loop hc hb => exact safety.repeatWhile (Judgement.test he hc) (hs hb) rounds
  | ret h => exact Judgement.returning he h

end

theorem Safe.call (h : inner.Safe) (tells : inner.Tells) {f : Closure} (hf : f.Sound n)
    {args : List Datum} (ha : ∀ a ∈ args, a.Sound n) : (inner.call f args).Safe n Datum.Sound := by
  obtain ⟨id, lt, scope⟩ := hf.scope
  refine (safe_record _).bind fun k _ hk _ => ?_
  rw [scope]
  have bound : Eval.Safe k (bindParams f.params args) fun _ _ => True :=
    safety.bindParams (fun p mem _ => hf.params p mem) args fun a mem => (ha a mem).mono hk
  refine safe_scope ((tells_bindParams f.params args).bind fun _ => tells.stmt f.body)
    (bound.bind fun j _ _ _ => h.stmt hf.body j) ?_ ?_ (by omega)
  · intro j c _ hc
    refine .pure ?_
    cases returned : c.returned with
    | none => exact Datum.sound_of_none rfl
    | some d => exact hc.returned d returned
  · intro j stop _ hstop
    cases stop with
    | tooDeep => exact .fail trivial
    | fault f place => exact .throw hstop
    | unfinished => exact .throw trivial

theorem Safe.deepen (h : inner.Safe) (tells : inner.Tells) (rounds : Nat) :
    (inner.deepen rounds).Safe := by
  have expr {n P t} (ht : Tree.IsExpr t) : safety.rel n P safety.good (inner.expr t) fun _ =>
      inner.expr t := fun _ => h.expr ht n
  have stmt {n P t} (ht : Tree.IsStmt t) : safety.rel n P safety.Fine (inner.stmt t) fun _ =>
      inner.stmt t := fun _ => h.stmt ht n
  have call {n} (f : Closure) (args : List Datum) : safety.rel n
      (safety.Callable n f ∧ ∀ a ∈ args, safety.good n a) safety.good (inner.call f args) fun _ =>
        inner.call f args := by
    rintro ⟨⟨d, sound, function⟩, ha⟩
    exact h.call tells (sound f function) ha
  constructor
  · intro t ht n
    have step : safety.rel n True safety.good (inner.exprStep t) fun _ => inner.exprStep t :=
      safe_exprStep expr call ht
    exact Eval.Safe.located (step trivial) t.place?
  · intro t ht n
    have step : safety.rel n True safety.Fine (inner.stmtStep rounds t) fun _ =>
        inner.stmtStep rounds t := safe_stmtStep stmt expr rounds ht
    exact Eval.Safe.located (step trivial) t.place?

end Evaluator

theorem evaluator_safe (rounds depth : Nat) : (evaluator rounds depth).Safe := by
  induction depth with
  | zero => exact ⟨fun _ _ => .throw trivial, fun _ _ => .throw trivial⟩
  | succ depth ih => exact ih.deepen (evaluator_tells rounds depth) rounds

namespace Machine

/-- A fragment keeps the store sound and fails only as a program can. -/
theorem run_sound (limits : Limits) (src : String) {m : Machine} (h : m.store.Sound) :
    (m.run limits src).2.store.Sound ∧
      ∀ f, (m.run limits src).1 = .error f → f.IsExpected := by
  simp only [run]
  split
  · exact ⟨h, fun f hf => by cases hf; trivial⟩
  · rename_i p read
    split
    · exact ⟨h, fun f hf => by cases hf; trivial⟩
    · have safe := (evaluator_safe limits.rounds limits.depth).stmt
        (Source.readProgram_isStmt read) m.store.scopeCount (m.record (.fragment src)) h rfl
      rw [exec, Eval.outcome]
      split
      · rename_i ended
        rw [ended] at safe
        exact ⟨safe.1, fun f hf => by cases hf⟩
      · rename_i ended
        rw [ended] at safe
        exact ⟨safe.1, fun f hf => by cases hf; exact safe.2.2.failure⟩

theorem Session.sound {m : Machine} (h : m.Session) : m.store.Sound := by
  induction h with
  | fresh => exact Store.fresh_sound
  | run limits src _ ih => exact (run_sound limits src ih).1

end Machine

/-- However many fragments were run before, and however they ended: a fragment that fails is not a
program, or fails in a way that a program can, and never trips a guard. -/
theorem fragments_trip_no_guard {m : Machine} (session : m.Session) (limits : Limits)
    (src : String) {f : Failure} (failed : (m.run limits src).1 = .error f) : f.IsExpected :=
  (Machine.run_sound limits src session.sound).2 f failed

private def declaring : Machine :=
  (Machine.fresh.run .standard "function f(a) \x7b return a.b; \x7d").2

private def messageOf : Except Failure Completion → Option String
  | .ok _ => none
  | .error f => some f.message

/-- The body of the function is evaluated in a later fragment, which fails in it. -/
theorem fragments_trip_no_guard_member : declaring.Session ∧
    ∃ f, (declaring.run .standard "f(1);").1 = .error f ∧ f.IsExpected ∧
      f.message = "Node 'instance_var' is not supported by this evaluator (line 1, col 24)" := by
  have session : declaring.Session := .run .standard _ (.fresh 0)
  have message : messageOf (declaring.run .standard "f(1);").1 =
      some "Node 'instance_var' is not supported by this evaluator (line 1, col 24)" := by
    decide +kernel
  refine ⟨session, ?_⟩
  cases failed : (declaring.run .standard "f(1);").1 with
  | ok c =>
    rw [failed] at message
    cases message
  | error f =>
    rw [failed] at message
    exact ⟨f, rfl, fragments_trip_no_guard session .standard _ failed, Option.some.inj message⟩

end Scriptlet
