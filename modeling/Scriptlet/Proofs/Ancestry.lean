import Scriptlet.Proofs.History
/-!
# The way outward

A look-up goes from a frame to its parent, to the parent of that, and so on. A store that started
fresh never lets it go astray: a parent is older than its child, so that every way outward comes to
an end, and the frame at the bottom of the stack stays the one that there was at the beginning.
-/

namespace Scriptlet.Store

variable {s s' : Store}

/-- The frames on the way outward from a frame, by their numbers. The last one has no parent. -/
inductive Outward (s : Store) : Nat → List Nat → Prop
  | last {i f} : s.frames[i]? = some f → f.parent = none → Outward s i [i]
  | next {i f p is} : s.frames[i]? = some f → f.parent = some p → Outward s p is →
      Outward s i (i :: is)

theorem Outward.unique {i : Nat} {is js : List Nat} (h : s.Outward i is) (h' : s.Outward i js) :
    is = js := by
  induction h generalizing js with
  | last hf hp =>
    cases h' with
    | last => rfl
    | next hf' hp' =>
      cases hf.symm.trans hf'
      cases hp.symm.trans hp'
  | next hf hp _ ih =>
    cases h' with
    | last hf' hp' =>
      cases hf.symm.trans hf'
      cases hp.symm.trans hp'
    | next hf' hp' rest =>
      cases hf.symm.trans hf'
      cases hp.symm.trans hp'
      rw [ih rest]

theorem Outward.ne_nil {i : Nat} {is : List Nat} (h : s.Outward i is) : is ≠ [] := by
  cases h <;> exact List.cons_ne_nil _ _

/-- A frame keeps its scope and its parent. -/
theorem Steps.frame {es : List Event} (h : s.Steps es s') {i : Nat} {f : Frame}
    (hf : s.frames[i]? = some f) :
    ∃ f', s'.frames[i]? = some f' ∧ f'.scope = f.scope ∧ f'.parent = f.parent := by
  induction h generalizing f with
  | refl => exact ⟨f, hf, rfl, rfl⟩
  | next step _ ih =>
    obtain ⟨f₁, hf₁, scope₁, parent₁, _⟩ := step.frame hf
    obtain ⟨f', hf', scope', parent'⟩ := ih hf₁
    exact ⟨f', hf', scope'.trans scope₁, parent'.trans parent₁⟩

/-- The way outward from a frame never changes. -/
theorem Steps.outward {es : List Event} (h : s.Steps es s') {i : Nat} {is : List Nat}
    (way : s.Outward i is) : s'.Outward i is := by
  induction way with
  | last hf hp =>
    obtain ⟨f', hf', _, parent⟩ := h.frame hf
    exact .last hf' (parent.trans hp)
  | next hf hp _ ih =>
    obtain ⟨f', hf', _, parent⟩ := h.frame hf
    exact .next hf' (parent.trans hp) ih

namespace WellFormed

variable (wf : s.WellFormed)
include wf

/-- From every frame the way outward comes to an end. -/
theorem exists_outward {i : Nat} (lt : i < s.frames.size) : ∃ is, s.Outward i is := by
  induction i using Nat.strongRecOn with
  | ind i ih =>
    have hf := Array.getElem?_eq_getElem lt
    cases hp : s.frames[i].parent with
    | none => exact ⟨[i], .last hf hp⟩
    | some p =>
      have older := wf.older i _ hf p hp
      obtain ⟨is, way⟩ := ih p older (Nat.lt_trans older lt)
      exact ⟨i :: is, .next hf hp way⟩

theorem le_of_mem_outward {i : Nat} {is : List Nat} (way : s.Outward i is) : ∀ j ∈ is, j ≤ i := by
  induction way with
  | last => simp
  | next hf hp _ ih =>
    have older := wf.older _ _ hf _ hp
    intro j hj
    rcases List.mem_cons.mp hj with rfl | hj
    · exact Nat.le_refl _
    · exact Nat.le_trans (ih j hj) (Nat.le_of_lt older)

/-- Each frame on the way is older than the one before it, so that none comes twice. -/
theorem outward_pairwise {i : Nat} {is : List Nat} (way : s.Outward i is) :
    is.Pairwise (· > ·) := by
  induction way with
  | last => exact List.pairwise_singleton ..
  | next hf hp rest ih =>
    refine List.pairwise_cons.mpr ⟨fun j hj => ?_, ih⟩
    exact Nat.lt_of_le_of_lt (wf.le_of_mem_outward rest j hj) (wf.older _ _ hf _ hp)

/-- The chain that look-ups search is the way outward, to its end. -/
theorem chain_of_outward {i : Nat} {is : List Nat} (way : s.Outward i is) :
    (s.chain i).map some = is.map (s.frames[·]?) := by
  induction way with
  | last hf hp =>
    rw [chain, hf]
    simp [hp, hf]
  | next hf hp _ ih =>
    rw [chain_of_parent hf hp (wf.older _ _ hf _ hp), List.map_cons, List.map_cons, hf, ih]

end WellFormed

/-! ## The frame that there was at the beginning -/

/-- The first frame is the global one and lies at the bottom of the stack, and the global scope
alone captured no frame. -/
structure Grounded (s : Store) : Prop where
  bottom : s.stack.getLast? = some 0
  first : ∃ f, s.frames[0]? = some f ∧ f.scope = 0 ∧ f.parent = none
  global : ∀ id : Nat, s.captured[id]? = some none ↔ id = 0

theorem fresh_grounded : fresh.Grounded where
  bottom := rfl
  first := ⟨_, rfl, rfl, rfl⟩
  global id := by
    rcases id with _ | id <;> simp [fresh]

theorem Step.grounded {e : Event} (h : s.Step e s') (ground : s.Grounded) : s'.Grounded := by
  obtain ⟨f, hf, scope, parent⟩ := ground.first
  have first : ∃ f, s'.frames[0]? = some f ∧ f.scope = 0 ∧ f.parent = none := by
    obtain ⟨f', hf', scope', parent', _⟩ := h.frame hf
    exact ⟨f', hf', scope'.trans scope, parent'.trans parent⟩
  cases h with
  | alloc done =>
    obtain rfl := alloc_eq_ok done
    exact ⟨ground.bottom, first, ground.global⟩
  | push done =>
    obtain ⟨_, _, rfl⟩ := push_eq_ok done
    refine ⟨?_, first, ground.global⟩
    exact (List.getLast?_cons_cons ..).trans ground.bottom
  | pop done =>
    obtain ⟨below, after⟩ := pop_eq_ok done
    refine ⟨?_, first, ?_⟩
    · have bottom := ground.bottom
      rw [stack, below] at bottom
      exact (List.getLast?_cons_cons ..).symm.trans bottom
    · rw [after]
      exact ground.global
  | reserve =>
    refine ⟨ground.bottom, first, fun id => ?_⟩
    rw [← ground.global id]
    simp only [Store.reserve, Array.getElem?_push]
    split
    · rename_i last
      subst last
      simp
    · exact Iff.rfl
  | _ => exact ground

theorem Steps.grounded {es : List Event} (h : s.Steps es s') (ground : s.Grounded) :
    s'.Grounded := by
  induction h with
  | refl => exact ground
  | next step _ ih => exact ih (step.grounded ground)

end Scriptlet.Store
