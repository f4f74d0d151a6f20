import Scriptlet.Machine
/-!
# The history of a store

A journal says what a store was asked. `Step` reads one entry as a step of the store, `Steps` a
whole journal. Two facts hold of every history: a frame keeps its scope and its parent, and a frame
off the stack never changes and never returns. A journal is balanced if every scope entered is left
again; a balanced history works in the innermost frame alone (`Confined`).
-/

namespace Scriptlet

namespace Slots

def names (slots : Slots) : List String := slots.map (·.1)

theorem names_put (name : String) (d : Datum) (slots : Slots) :
    slots.names <+: (slots.put name d).names := by
  induction slots with
  | nil => exact List.nil_prefix
  | cons slot rest ih =>
    obtain ⟨n, old⟩ := slot
    by_cases h : n = name
    · simp [names, put, h]
    · simpa [names, put, h] using ih

end Slots

namespace Store

/-- The frames of the stack, the innermost first. -/
def stack (s : Store) : List Nat := s.top :: s.below

theorem anonymousName_ne (n : Nat) : anonymousStem ++ toString n ≠ "" := by
  intro h
  have := congrArg String.toList h
  simp [anonymousStem] at this

theorem alloc_eq_ok {s s' : Store} {name : String} {d : Datum} (h : s.alloc name d = .ok s') :
    s' = { s with
      frames := s.frames.modify s.top fun f => { f with slots := f.slots.put name d } } := by
  rw [alloc] at h
  split at h
  · cases h
  · exact (Except.ok.inj h).symm

theorem push_eq_ok {s s' : Store} {id : Int} (h : s.push id = .ok s') :
    ∃ parent, s.scope? id = some parent ∧
      s' = { s with
        frames := s.frames.push ⟨id.toNat, parent, []⟩
        top := s.frames.size
        below := s.top :: s.below } := by
  rw [push] at h
  split at h
  · cases h
  · rename_i parent hp
    exact ⟨parent, hp, (Except.ok.inj h).symm⟩

theorem pop_eq_ok {s s' : Store} (h : s.pop = .ok s') :
    s.below = s'.stack ∧ s' = { s with top := s'.top, below := s'.below } := by
  rw [pop] at h
  split at h
  · cases h
  · rename_i t ts hb
    obtain rfl := Except.ok.inj h
    exact ⟨hb, rfl⟩

/-- What an entry of the journal says of the store before and after it. -/
inductive Step : Store → Event → Store → Prop
  | alloc {s s' name d} : s.alloc name d = .ok s' → Step s (.alloc name d (some s'.currentScope)) s'
  | allocRefused {s name d f} : s.alloc name d = .error f → Step s (.alloc name d none) s
  | load {s name} : Step s (.load name) s
  | push {s s' id} : s.push id = .ok s' → Step s (.push id (some s'.depth)) s'
  | pushRefused {s id f} : s.push id = .error f → Step s (.push id none) s
  | pop {s s' retain} : s.pop = .ok s' → Step s (.pop retain (some (s.currentScope, s'.depth))) s'
  | popRefused {s retain f} : s.pop = .error f → Step s (.pop retain none) s
  | reserve {s} : Step s (.reserve s.reserve.1) s.reserve.2
  | call {s f args} : Step s (.call f args) s
  | fragment {s src} : Step s (.fragment src) s
  | rejected {s e} : Step s (.rejected e) s

/-- What a journal, its first entry first, says of the store before and after it. -/
inductive Steps : Store → List Event → Store → Prop
  | refl {s} : Steps s [] s
  | next {s s₁ s' e es} : Step s e s₁ → Steps s₁ es s' → Steps s (e :: es) s'

theorem Step.single {s s' : Store} {e : Event} (h : Step s e s') : Steps s [e] s' := .next h .refl

theorem Steps.append {s s₁ s' : Store} {es fs : List Event} (h : Steps s es s₁)
    (h' : Steps s₁ fs s') : Steps s (es ++ fs) s' := by
  induction h with
  | refl => exact h'
  | next step _ ih => exact .next step (ih h')

theorem steps_append_iff {s s' : Store} {es fs : List Event} :
    Steps s (es ++ fs) s' ↔ ∃ s₁, Steps s es s₁ ∧ Steps s₁ fs s' := by
  constructor
  · intro h
    induction es generalizing s with
    | nil => exact ⟨s, .refl, h⟩
    | cons e es ih =>
      cases h with
      | next step rest =>
        obtain ⟨s₁, before, after⟩ := ih rest
        exact ⟨s₁, .next step before, after⟩
  · rintro ⟨s₁, before, after⟩
    exact before.append after

/-! ## What no history changes -/

theorem Step.captured {s s' : Store} {e : Event} (h : Step s e s') {id : Nat} {p : Option Nat}
    (hp : s.captured[id]? = some p) : s'.captured[id]? = some p := by
  cases h with
  | alloc h => rw [alloc_eq_ok h]; exact hp
  | push h => obtain ⟨_, _, rfl⟩ := push_eq_ok h; exact hp
  | pop h => rw [(pop_eq_ok h).2]; exact hp
  | reserve =>
    have hlt : id < s.captured.size := (Array.getElem?_eq_some_iff.mp hp).1
    exact (Array.getElem?_push_lt hlt).trans ((Array.getElem?_eq_getElem hlt).symm.trans hp)
  | _ => exact hp

/-- Every scope id keeps the frame that it captured. -/
theorem Steps.captured {s s' : Store} {es : List Event} (h : Steps s es s') {id : Nat}
    {p : Option Nat} (hp : s.captured[id]? = some p) : s'.captured[id]? = some p := by
  induction h with
  | refl => exact hp
  | next step _ ih => exact ih (step.captured hp)

/-- A frame stays, and no step but an allocation in it changes it. -/
theorem Step.frame {s s' : Store} {e : Event} (h : Step s e s') {i : Nat} {f : Frame}
    (hf : s.frames[i]? = some f) :
    ∃ f', s'.frames[i]? = some f' ∧ f'.scope = f.scope ∧ f'.parent = f.parent ∧
      f.slots.names <+: f'.slots.names ∧ (i ≠ s.top → f' = f) := by
  cases h with
  | @alloc _ name d h =>
    rw [alloc_eq_ok h, Array.getElem?_modify, hf]
    by_cases hi : s.top = i
    · exact ⟨{ f with slots := f.slots.put name d }, by simp [hi], rfl, rfl,
        Slots.names_put name d f.slots, fun hne => absurd hi.symm hne⟩
    · exact ⟨f, by simp [hi], rfl, rfl, List.prefix_refl _, fun _ => rfl⟩
  | push h =>
    obtain ⟨parent, _, rfl⟩ := push_eq_ok h
    have hlt : i < s.frames.size := (Array.getElem?_eq_some_iff.mp hf).1
    exact ⟨f, (Array.getElem?_push_lt hlt).trans ((Array.getElem?_eq_getElem hlt).symm.trans hf),
      rfl, rfl, List.prefix_refl _, fun _ => rfl⟩
  | pop h => rw [(pop_eq_ok h).2]; exact ⟨f, hf, rfl, rfl, List.prefix_refl _, fun _ => rfl⟩
  | _ => exact ⟨f, hf, rfl, rfl, List.prefix_refl _, fun _ => rfl⟩

theorem Step.frames_size_le {s s' : Store} {e : Event} (h : Step s e s') :
    s.frames.size ≤ s'.frames.size := by
  cases h with
  | alloc h => rw [alloc_eq_ok h]; simp
  | push h => obtain ⟨_, _, rfl⟩ := push_eq_ok h; simp
  | pop h => exact Nat.le_of_eq (congrArg (·.frames.size) (pop_eq_ok h).2).symm
  | _ => exact Nat.le_refl _

theorem Steps.frames_size_le {s s' : Store} {es : List Event} (h : Steps s es s') :
    s.frames.size ≤ s'.frames.size := by
  induction h with
  | refl => exact Nat.le_refl _
  | next step _ ih => exact Nat.le_trans step.frames_size_le ih

/-- A frame on the stack after a step was on it before, or is new. -/
theorem Step.mem_stack {s s' : Store} {e : Event} (h : Step s e s') {i : Nat}
    (hi : i ∈ s'.stack) : i ∈ s.stack ∨ s.frames.size ≤ i := by
  cases h with
  | alloc h => rw [alloc_eq_ok h] at hi; exact Or.inl hi
  | push h =>
    obtain ⟨_, _, rfl⟩ := push_eq_ok h
    rcases List.mem_cons.mp hi with rfl | hi
    · exact Or.inr (Nat.le_refl _)
    · exact Or.inl hi
  | pop h => exact Or.inl (List.mem_cons_of_mem _ ((pop_eq_ok h).1 ▸ hi))
  | _ => exact Or.inl hi

/-- A frame that has left the stack is never modified again, and never returns to it. -/
theorem Steps.left_frame {s s' : Store} {es : List Event} (h : Steps s es s') {i : Nat} {f : Frame}
    (hf : s.frames[i]? = some f) (left : i ∉ s.stack) :
    s'.frames[i]? = some f ∧ i ∉ s'.stack := by
  induction h with
  | refl => exact ⟨hf, left⟩
  | @next s s₁ _ _ _ step _ ih =>
    have hlt : i < s.frames.size := (Array.getElem?_eq_some_iff.mp hf).1
    obtain ⟨f₁, hf₁, _, _, _, same⟩ := step.frame hf
    have hne : i ≠ s.top := fun hi => left (hi ▸ List.mem_cons_self)
    have left₁ : i ∉ s₁.stack := by
      intro hi
      rcases step.mem_stack hi with hi | hi
      · exact left hi
      · omega
    exact ih (same hne ▸ hf₁) left₁

/-- Frames on the stack exist, and a frame's parent is an older one, captured by its scope. -/
structure WellFormed (s : Store) : Prop where
  live : ∀ i ∈ s.stack, i < s.frames.size
  captured : ∀ (id p : Nat), s.captured[id]? = some (some p) → p < s.frames.size
  linked : ∀ (i : Nat) (f : Frame), s.frames[i]? = some f → s.captured[f.scope]? = some f.parent
  older : ∀ (i : Nat) (f : Frame), s.frames[i]? = some f → ∀ p, f.parent = some p → p < i

theorem fresh_wellFormed : fresh.WellFormed where
  live i hi := by
    obtain rfl : i = 0 := by simpa [fresh, stack] using hi
    decide
  captured id p h := by
    rcases id with _ | id <;> simp [fresh] at h
  linked i f h := by
    rcases i with _ | i <;> simp [fresh] at h
    subst h
    rfl
  older i f h p hp := by
    rcases i with _ | i <;> simp [fresh] at h
    subst h
    cases hp

theorem WellFormed.alloc {s s' : Store} {name : String} {d : Datum} (wf : s.WellFormed)
    (h : s.alloc name d = .ok s') : s'.WellFormed := by
  obtain rfl := alloc_eq_ok h
  have old : ∀ (i : Nat) (f' : Frame),
      (s.frames.modify s.top fun f => { f with slots := f.slots.put name d })[i]? = some f' →
      ∃ f, s.frames[i]? = some f ∧ f'.scope = f.scope ∧ f'.parent = f.parent := by
    intro i f' h
    rw [Array.getElem?_modify] at h
    split at h
    · obtain ⟨f, hf, rfl⟩ := Option.map_eq_some_iff.mp h
      exact ⟨f, hf, rfl, rfl⟩
    · exact ⟨f', h, rfl, rfl⟩
  constructor
  · intro i hi
    rw [Array.size_modify]
    exact wf.live i hi
  · intro id p hp
    rw [Array.size_modify]
    exact wf.captured id p hp
  · intro i f' hf'
    obtain ⟨f, hf, scope, parent⟩ := old i f' hf'
    rw [scope, parent]
    exact wf.linked i f hf
  · intro i f' hf' p hp
    obtain ⟨f, hf, _, parent⟩ := old i f' hf'
    exact wf.older i f hf p (parent ▸ hp)

theorem WellFormed.push {s s' : Store} {id : Int} (wf : s.WellFormed) (h : s.push id = .ok s') :
    s'.WellFormed := by
  obtain ⟨parent, hp, rfl⟩ := push_eq_ok h
  have parent_captured : s.captured[id.toNat]? = some parent := by
    cases id with
    | ofNat n => exact hp
    | negSucc n => cases hp
  have last : ∀ (i : Nat) (f : Frame), (s.frames.push ⟨id.toNat, parent, []⟩)[i]? = some f →
      s.frames[i]? = some f ∨ i = s.frames.size ∧ f = ⟨id.toNat, parent, []⟩ := by
    intro i f h
    rw [Array.getElem?_push] at h
    split at h
    · rename_i hi
      exact Or.inr ⟨hi, (Option.some.inj h).symm⟩
    · exact Or.inl h
  constructor
  · intro i hi
    rw [Array.size_push]
    rcases List.mem_cons.mp hi with rfl | hi
    · exact Nat.lt_succ_self _
    · have := wf.live i hi
      omega
  · intro n p hn
    rw [Array.size_push]
    have := wf.captured n p hn
    omega
  · intro i f hf
    rcases last i f hf with hf | ⟨_, rfl⟩
    · exact wf.linked i f hf
    · exact parent_captured
  · intro i f hf p hp
    rcases last i f hf with hf | ⟨rfl, rfl⟩
    · exact wf.older i f hf p hp
    · obtain rfl : parent = some p := hp
      exact wf.captured id.toNat p parent_captured

theorem WellFormed.reserve {s : Store} (wf : s.WellFormed) : s.reserve.2.WellFormed where
  live := wf.live
  captured id p hp := by
    have hp : (s.captured.push (some s.top))[id]? = some (some p) := hp
    rw [Array.getElem?_push] at hp
    split at hp
    · obtain rfl : s.top = p := by simpa using hp
      exact wf.live _ List.mem_cons_self
    · exact wf.captured id p hp
  linked i f hf := Step.reserve.captured (wf.linked i f hf)
  older := wf.older

theorem Step.wellFormed {s s' : Store} {e : Event} (h : Step s e s') (wf : s.WellFormed) :
    s'.WellFormed := by
  cases h with
  | alloc h => exact wf.alloc h
  | push h => exact wf.push h
  | pop h =>
    obtain ⟨below, after⟩ := pop_eq_ok h
    rw [after]
    exact ⟨fun i hi => wf.live i (List.mem_cons_of_mem _ (below ▸ hi)), wf.captured, wf.linked,
      wf.older⟩
  | reserve => exact wf.reserve
  | _ => exact wf

theorem Steps.wellFormed {s s' : Store} {es : List Event} (h : Steps s es s')
    (wf : s.WellFormed) : s'.WellFormed := by
  induction h with
  | refl => exact wf
  | next step _ ih => exact ih (step.wellFormed wf)

theorem chain_of_parent {s : Store} {i p : Nat} {f : Frame} (hf : s.frames[i]? = some f)
    (hp : f.parent = some p) (lt : p < i) : s.chain i = f :: s.chain p := by
  rw [chain, hf]
  simp [hp, lt]

/-- A chain begins with its frame. -/
theorem chain_eq_cons {s : Store} {i : Nat} {f : Frame} (hf : s.frames[i]? = some f) :
    ∃ rest, s.chain i = f :: rest := by
  rw [chain, hf]
  dsimp only
  split
  · exact ⟨[], rfl⟩
  · split
    · exact ⟨_, rfl⟩
    · exact ⟨[], rfl⟩

/-- Seen from frame `i`, the name is bound in a frame that has left the stack, and so have the
frames on the way to it. -/
inductive LeftBound (s : Store) (name : String) (d : Datum) : Nat → Prop
  | here {i f} : s.frames[i]? = some f → i ∉ s.stack → f.slots.get? name = some d →
      LeftBound s name d i
  | outside {i f p} : s.frames[i]? = some f → i ∉ s.stack → f.slots.get? name = none →
      f.parent = some p → LeftBound s name d p → LeftBound s name d i

theorem Steps.leftBound {s s' : Store} {es : List Event} (h : Steps s es s') {name : String}
    {d : Datum} {i : Nat} (bound : s.LeftBound name d i) : s'.LeftBound name d i := by
  induction bound with
  | here hf left hd =>
    obtain ⟨hf', left'⟩ := h.left_frame hf left
    exact .here hf' left' hd
  | outside hf left unbound hp _ ih =>
    obtain ⟨hf', left'⟩ := h.left_frame hf left
    exact .outside hf' left' unbound hp ih

theorem LeftBound.findSome? {s : Store} {name : String} {d : Datum} {i : Nat}
    (bound : s.LeftBound name d i) (wf : s.WellFormed) :
    (s.chain i).findSome? (·.slots.get? name) = some d := by
  induction bound with
  | here hf _ hd =>
    obtain ⟨rest, hrest⟩ := chain_eq_cons hf
    simp [hrest, hd]
  | @outside i f p hf _ unbound hp _ ih =>
    rw [chain_of_parent hf hp (wf.older i f hf p hp), List.findSome?_cons, unbound]
    exact ih

/-- What had left the stack in `s` is final in `s'`. While a frame of a scope that captured it is
the innermost one, a name that is not bound there means what it meant when the captured frame was
left. -/
structure LeftBehind (s s' : Store) : Prop where
  frames : ∀ (i : Nat) (f : Frame), s.frames[i]? = some f → i ∉ s.stack →
    s'.frames[i]? = some f ∧ i ∉ s'.stack
  reading : ∀ (id i : Nat) (g : Frame) (name : String) (d : Datum),
    s.captured[id]? = some (some i) → s.LeftBound name d i → s'.frames[s'.top]? = some g →
    g.scope = id → g.slots.get? name = none → s'.load? name = some d

theorem Steps.leftBehind {s s' : Store} {es : List Event} (h : Steps s es s')
    (wf : s.WellFormed) : LeftBehind s s' where
  frames _ _ hf left := h.left_frame hf left
  reading id i g name d captured bound hg scope unbound := by
    have wf' := h.wellFormed wf
    have parent : g.parent = some i := by
      have linked := wf'.linked s'.top g hg
      rw [scope, h.captured captured] at linked
      exact (Option.some.inj linked).symm
    rw [load?, chain_of_parent hg parent (wf'.older _ g hg i parent), List.findSome?_cons, unbound]
    exact (h.leftBound bound).findSome? wf'

/-! ## Balanced histories -/

/-- The initial stack is at the bottom of a later one, and the frames above it are new. -/
def Above (s s' : Store) : Prop :=
  ∃ opened, s'.stack = opened ++ s.stack ∧ ∀ i ∈ opened, s.frames.size ≤ i

/-- What work in the innermost frame alone may change. -/
structure Confined (s s' : Store) : Prop where
  stack : s'.stack = s.stack
  others : ∀ i f, s.frames[i]? = some f → i ≠ s.top → s'.frames[i]? = some f
  innermost : ∀ f, s.frames[s.top]? = some f → ∃ f', s'.frames[s.top]? = some f' ∧
    f'.scope = f.scope ∧ f'.parent = f.parent ∧ f.slots.names <+: f'.slots.names
  captured : ∀ (id : Nat) (p : Option Nat), s.captured[id]? = some p → s'.captured[id]? = some p

theorem Confined.refl (s : Store) : Confined s s where
  stack := rfl
  others _ _ hf _ := hf
  innermost f hf := ⟨f, hf, rfl, rfl, List.prefix_refl _⟩
  captured _ _ hp := hp

theorem Confined.top {s s' : Store} (h : Confined s s') : s'.top = s.top :=
  (List.cons.inj h.stack).1

theorem Confined.trans {s s₁ s' : Store} (h : Confined s s₁) (h' : Confined s₁ s') :
    Confined s s' where
  stack := h'.stack.trans h.stack
  others i f hf hi := h'.others i f (h.others i f hf hi) (h.top ▸ hi)
  innermost f hf := by
    obtain ⟨f₁, hf₁, scope₁, parent₁, names₁⟩ := h.innermost f hf
    obtain ⟨f', hf', scope', parent', names'⟩ := h'.innermost f₁ (by rw [h.top]; exact hf₁)
    rw [h.top] at hf'
    exact ⟨f', hf', scope'.trans scope₁, parent'.trans parent₁, names₁.trans names'⟩
  captured id p hp := h'.captured id p (h.captured id p hp)

end Store

/-- An entry that neither enters nor leaves a scope. -/
def Event.isQuiet : Event → Bool
  | .push _ (some _) => false
  | .pop .. => false
  | _ => true

/-- Every scope entered is left again, the last one first, and none is retained. -/
inductive Balanced : List Event → Prop
  | nil : Balanced []
  | quiet {e es} : e.isQuiet → Balanced es → Balanced (e :: es)
  | scope {id depth left es fs} : Balanced es → Balanced fs →
      Balanced (.push id (some depth) :: (es ++ .pop false (some left) :: fs))

theorem Balanced.append {es fs : List Event} (h : Balanced es) (h' : Balanced fs) :
    Balanced (es ++ fs) := by
  induction h with
  | nil => exact h'
  | quiet he _ ih => exact .quiet he ih
  | @scope _ _ _ es gs inside _ _ ih =>
    rw [List.cons_append, List.append_assoc, List.cons_append]
    exact .scope inside ih

namespace Store

theorem Step.stack_of_quiet {s s' : Store} {e : Event} (h : Step s e s') (he : e.isQuiet) :
    s'.stack = s.stack := by
  cases h with
  | alloc h => rw [alloc_eq_ok h]; rfl
  | push | pop | popRefused => cases he
  | _ => rfl

theorem Step.confined_of_quiet {s s' : Store} {e : Event} (h : Step s e s') (he : e.isQuiet) :
    Confined s s' where
  stack := h.stack_of_quiet he
  others i f hf hi := by
    obtain ⟨f', hf', _, _, _, same⟩ := h.frame hf
    exact same hi ▸ hf'
  innermost f hf := by
    obtain ⟨f', hf', scope, parent, names, _⟩ := h.frame hf
    exact ⟨f', hf', scope, parent, names⟩
  captured _ _ hp := h.captured hp

/-- What work in a frame entered and left again leaves as it was: every frame that there was, every
scope, and the stack. -/
structure Kept (s s' : Store) : Prop where
  stack : s'.stack = s.stack
  frames : ∀ (i : Nat) (f : Frame), s.frames[i]? = some f → s'.frames[i]? = some f
  captured : ∀ (id : Nat) (p : Option Nat), s.captured[id]? = some p → s'.captured[id]? = some p

theorem Kept.confined {s s' : Store} (h : Kept s s') : Confined s s' where
  stack := h.stack
  others i f hf _ := h.frames i f hf
  innermost f hf := ⟨f, h.frames s.top f hf, rfl, rfl, List.prefix_refl _⟩
  captured := h.captured

theorem kept_of_scope {s s₁ s₂ s' : Store} {id : Int} (enter : s.push id = .ok s₁)
    (inside : Confined s₁ s₂) (leave : s₂.pop = .ok s') : Kept s s' := by
  obtain ⟨parent, _, rfl⟩ := push_eq_ok enter
  obtain ⟨below, after⟩ := pop_eq_ok leave
  refine ⟨?_, fun i f hf => ?_, fun id p hp => ?_⟩
  · have := (List.cons.inj inside.stack).2
    exact below.symm.trans this
  · have hlt : i < s.frames.size := (Array.getElem?_eq_some_iff.mp hf).1
    have hf₁ : (s.frames.push ⟨id.toNat, parent, []⟩)[i]? = some f :=
      (Array.getElem?_push_lt hlt).trans ((Array.getElem?_eq_getElem hlt).symm.trans hf)
    rw [after]
    exact inside.others i f hf₁ (Nat.ne_of_lt hlt)
  · rw [after]
    exact inside.captured id p hp

theorem Steps.confined {s s' : Store} {es : List Event} (h : Steps s es s') (b : Balanced es) :
    Confined s s' := by
  induction b generalizing s s' with
  | nil => cases h; exact .refl s
  | quiet he _ ih =>
    cases h with
    | next step rest => exact (step.confined_of_quiet he).trans (ih rest)
  | @scope _ _ _ es fs _ _ inside after =>
    cases h with
    | next enter rest =>
      obtain ⟨s₂, work, final⟩ := steps_append_iff.mp rest
      cases final with
      | next leave final =>
        cases enter with
        | push enter =>
          cases leave with
          | pop leave =>
            exact (kept_of_scope enter (inside work) leave).confined.trans (after final)

theorem Above.refl (s : Store) : Above s s := ⟨[], rfl, by simp⟩

theorem Above.of_stack_eq {s s₁ s' : Store} (h : Above s₁ s') (stack : s₁.stack = s.stack)
    (frames : s.frames.size ≤ s₁.frames.size) : Above s s' := by
  obtain ⟨opened, hs, new⟩ := h
  refine ⟨opened, stack ▸ hs, ?_⟩
  intro i hi
  have := new i hi
  omega

theorem Above.of_push {s s₁ s' : Store} {id : Int} (h : Above s₁ s') (enter : s.push id = .ok s₁) :
    Above s s' := by
  obtain ⟨opened, hs, new⟩ := h
  obtain ⟨_, _, rfl⟩ := push_eq_ok enter
  refine ⟨opened ++ [s.frames.size], by simpa [stack] using hs, ?_⟩
  intro i hi
  rcases List.mem_append.mp hi with hi | hi
  · have := new i hi
    simp only [Array.size_push] at this
    omega
  · exact Nat.le_of_eq (List.mem_singleton.mp hi).symm

/-- A balanced history never leaves a frame that it has not entered. -/
theorem Steps.above {s s₁ : Store} {es fs : List Event} (b : Balanced es) (before : fs <+: es)
    (h : Steps s fs s₁) : Above s s₁ := by
  induction b generalizing s fs with
  | nil =>
    obtain rfl := List.prefix_nil.mp before
    cases h
    exact .refl _
  | quiet he _ ih =>
    cases h with
    | refl => exact .refl _
    | next step rest =>
      obtain ⟨rfl, before'⟩ := List.cons_prefix_cons.mp before
      exact (ih before' rest).of_stack_eq (step.stack_of_quiet he) step.frames_size_le
  | @scope _ _ _ es gs inside _ ihInside ihAfter =>
    cases h with
    | refl => exact .refl _
    | next enter rest =>
      obtain ⟨rfl, ts, hts⟩ := List.cons_prefix_cons.mp before
      cases enter with
      | push enter =>
        -- The history ends inside the scope, or it leaves the scope and goes on.
        rcases List.append_eq_append_iff.mp hts with ⟨us, hes, _⟩ | ⟨us, rfl, hus⟩
        · exact (ihInside ⟨us, hes.symm⟩ rest).of_push enter
        · obtain ⟨s₂, work, final⟩ := steps_append_iff.mp rest
          cases final with
          | refl => exact (ihInside (List.prefix_refl _) work).of_push enter
          | next leave final =>
            obtain ⟨rfl, hgs⟩ := List.cons.inj hus
            have grows := Nat.le_trans work.frames_size_le leave.frames_size_le
            cases leave with
            | pop leave =>
              have kept := kept_of_scope enter (work.confined inside) leave
              have entered := (Step.push enter).frames_size_le
              exact (ihAfter ⟨ts, hgs.symm⟩ final).of_stack_eq kept.stack (by omega)

end Store

end Scriptlet
