import Scriptlet.Proofs.Requests
/-!
# A look-up finds what was stored last

Going outward from the innermost frame, the first one in which a name was ever stored is the frame
whose slot the name means. A look-up yields what was stored there last, however often the scope of
the frame has been entered since and however many frames have been left. The calls alone say which
frame this is, and what was stored.
-/

namespace Scriptlet.Store

namespace Calls

/-- On the way outward from frame `i`, along the frames that were captured, frame `j` is the first
one in which the name was ever stored. -/
inductive FirstStored (cs : Calls) (name : String) : Nat → Nat → Prop
  | here {i d} : cs.stored i name = some d → FirstStored cs name i i
  | outside {i p j} : cs.stored i name = none → cs.parent i = some p → FirstStored cs name p j →
      FirstStored cs name i j

/-- Seen from the innermost frame, the name means the slot in frame `j`. -/
def Means (cs : Calls) (name : String) (j : Nat) : Prop :=
  ∃ i, cs.stack.head? = some i ∧ cs.FirstStored name i j

variable {cs : Calls} {s : Store} {name : String} {i j : Nat}

theorem FirstStored.stored (h : cs.FirstStored name i j) : ∃ d, cs.stored j name = some d := by
  induction h with
  | here stored => exact ⟨_, stored⟩
  | outside _ _ _ ih => exact ih

theorem Means.stored (h : cs.Means name j) : ∃ d, cs.stored j name = some d := by
  obtain ⟨_, _, first⟩ := h
  exact first.stored

theorem firstStored_self {d : Datum} (stored : cs.stored i name = some d) :
    cs.FirstStored name i j ↔ j = i := by
  constructor
  · intro h
    cases h with
    | here => rfl
    | outside unstored => cases stored.symm.trans unstored
  · rintro rfl
    exact .here stored

theorem firstStored_parent {p : Nat} (unstored : cs.stored i name = none)
    (parent : cs.parent i = some p) : cs.FirstStored name i j ↔ cs.FirstStored name p j := by
  constructor
  · intro h
    cases h with
    | here stored => cases stored.symm.trans unstored
    | outside _ parent' rest =>
      cases parent.symm.trans parent'
      exact rest
  · exact .outside unstored parent

theorem not_firstStored (unstored : cs.stored i name = none) (last : cs.parent i = none) :
    ¬cs.FirstStored name i j := by
  intro h
  cases h with
  | here stored => cases stored.symm.trans unstored
  | outside _ parent => cases parent.symm.trans last

/-- Searching the frames on the way outward is going to the first one in which the name was
stored. -/
theorem Describe.findSome?_chain (h : cs.Describe s) (wf : s.WellFormed) {is : List Nat}
    (way : s.Outward i is) {d : Datum} :
    (s.chain i).findSome? (·.slots.get? name) = some d ↔
      ∃ j, cs.FirstStored name i j ∧ cs.stored j name = some d := by
  induction way with
  | @last i f hf hp =>
    have alone : s.chain i = [f] := by simp [chain, hf, hp]
    have parent : cs.parent i = none := (h.parent i f hf).symm.trans hp
    rw [alone, List.findSome?_singleton, h.slots i f hf]
    constructor
    · intro stored
      exact ⟨i, .here stored, stored⟩
    · rintro ⟨j, first, stored⟩
      cases here : cs.stored i name with
      | none => exact absurd first (not_firstStored here parent)
      | some e =>
        obtain rfl := (firstStored_self here).mp first
        exact here.symm.trans stored
  | @next i f p is hf hp _ ih =>
    have parent : cs.parent i = some p := (h.parent i f hf).symm.trans hp
    rw [chain_of_parent hf hp (wf.older i f hf p hp), List.findSome?_cons, h.slots i f hf]
    cases here : cs.stored i name with
    | none => simpa only [firstStored_parent here parent] using ih
    | some e => simp only [firstStored_self here, exists_eq_left, here]

end Calls

open Calls

/-- What a name means in a store is what was last stored in the first frame outward in which it was
ever stored. -/
theorem load?_eq_some_iff (rs : List Request) {name : String} {d : Datum} :
    (serve rs).store.load? name = some d ↔
      ∃ j, (calls rs).Means name j ∧ (calls rs).stored j name = some d := by
  have wf := serve_wellFormed rs
  have described := describe_calls rs
  obtain ⟨is, way⟩ := wf.exists_outward (wf.live _ List.mem_cons_self)
  rw [load?, described.findSome?_chain wf way]
  simp only [Means, described.head?, Option.some.injEq, exists_eq_left']

theorem load?_eq_none_iff (rs : List Request) {name : String} :
    (serve rs).store.load? name = none ↔ ¬∃ j, (calls rs).Means name j := by
  rw [Option.eq_none_iff_forall_ne_some]
  simp only [ne_eq, load?_eq_some_iff]
  constructor
  · rintro unfound ⟨j, means⟩
    obtain ⟨d, stored⟩ := means.stored
    exact unfound d ⟨j, means, stored⟩
  · rintro unmeant d ⟨j, means, _⟩
    exact unmeant ⟨j, means⟩

/-- After any requests, refused ones among them, a load yields exactly what was stored last in the
frame that the name means, and it fails for want of a slot exactly if the name means none. -/
theorem load_last_stored (rs : List Request) (name : String) :
    (∀ d, (Eval.load name).ending (serve rs) = .ok d ↔
      ∃ j, (calls rs).Means name j ∧ (calls rs).stored j name = some d) ∧
    ((Eval.load name).ending (serve rs) = .error (.fault (.noSlot name) none) ↔
      ¬∃ j, (calls rs).Means name j) := by
  simp only [← load?_eq_some_iff, ← load?_eq_none_iff, Eval.ending]
  cases found : (serve rs).store.load? name with
  | none => simp [Eval.load_of_none found]
  | some d => simp [Eval.load_of_some found]

end Scriptlet.Store
