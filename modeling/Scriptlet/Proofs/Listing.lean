import Mathlib.Data.List.Nodup
import Scriptlet.Proofs.Guards
import Scriptlet.Proofs.Requests
/-!
# The listing of the bindings

A look-up goes outward from the innermost frame and stops at the first slot of its name. A listing
is put together the other way round, from the outermost frame inward, and what lies further in takes
the place of what lies further out. Both find the same slots. In the listing a name stands where it
is met first, however often it was shadowed or stored again.
-/

namespace Scriptlet

/-! ## First occurrences -/

section

variable {α : Type} [BEq α] [LawfulBEq α] {as as' : List α} {a : α}

theorem nodup_eraseDups : (as : List α) → as.eraseDups.Nodup
  | [] => List.nodup_nil
  | a :: as => by
    rw [List.eraseDups_cons, List.nodup_cons]
    exact ⟨by simp, nodup_eraseDups (as.filter fun b => !b == a)⟩
termination_by as => as.length
decreasing_by exact Nat.lt_succ_of_le (List.length_filter_le ..)

theorem eraseDups_of_nodup (h : as.Nodup) : as.eraseDups = as := by
  induction as with
  | nil => rfl
  | cons a as ih =>
    obtain ⟨new, rest⟩ := List.nodup_cons.mp h
    have kept : as.filter (fun b => !b == a) = as := by
      refine List.filter_eq_self.mpr fun b hb => ?_
      simpa using fun same : b = a => new (same ▸ hb)
    rw [List.eraseDups_cons, kept, ih rest]

theorem eraseDups_append_of_mem (h : a ∈ as) (bs : List α) :
    (as ++ a :: bs).eraseDups = (as ++ bs).eraseDups := by
  have again : (a :: bs).removeAll as = bs.removeAll as :=
    List.filter_cons_of_neg (by simpa using h)
  rw [List.eraseDups_append, List.eraseDups_append, again]

theorem eraseDups_append_congr (h : as.eraseDups = as'.eraseDups) (bs : List α) :
    (as ++ bs).eraseDups = (as' ++ bs).eraseDups := by
  have same : bs.removeAll as = bs.removeAll as' := by
    refine List.filter_congr fun b _ => ?_
    have mem : b ∈ as ↔ b ∈ as' := by rw [← List.mem_eraseDups, h, List.mem_eraseDups]
    simp [mem]
  rw [List.eraseDups_append, List.eraseDups_append, h, same]

end

/-! ## Slots on top of slots -/

namespace Slots

variable {slots new : Slots} {name : String} {d : Datum}

@[simp] theorem names_nil : names [] = [] := rfl

@[simp] theorem names_cons (slot : String × Datum) (slots : Slots) :
    names (slot :: slots) = slot.1 :: slots.names := rfl

theorem names_put_eq (slots : Slots) (name : String) (d : Datum) :
    (slots.put name d).names =
      if name ∈ slots.names then slots.names else slots.names ++ [name] := by
  induction slots with
  | nil => rfl
  | cons slot rest ih =>
    obtain ⟨n, old⟩ := slot
    by_cases here : n = name
    · simp [put, here]
    · rw [put, if_neg here, names_cons, ih]
      by_cases later : name ∈ names rest <;> simp [later, Ne.symm here]

theorem nodup_names_put (h : slots.names.Nodup) (name : String) (d : Datum) :
    (slots.put name d).names.Nodup := by
  rw [names_put_eq]
  by_cases old : name ∈ slots.names
  · rwa [if_pos old]
  · rw [if_neg old]
    exact h.append (List.nodup_singleton name) (by simpa using old)

/-- If no name comes twice, the slots are those that a look-up finds. -/
theorem mem_iff_get? (h : slots.names.Nodup) : (name, d) ∈ slots ↔ slots.get? name = some d := by
  induction slots with
  | nil => simp [get?]
  | cons slot rest ih =>
    obtain ⟨n, e⟩ := slot
    obtain ⟨once, others⟩ := List.nodup_cons.mp h
    rw [get?_cons, List.mem_cons, Prod.mk.injEq]
    by_cases here : n = name
    · subst here
      have later : (n, d) ∉ rest := fun mem => once (List.mem_map.mpr ⟨(n, d), mem, rfl⟩)
      simp [later, eq_comm]
    · simp [here, Ne.symm here, ih others]

theorem putAll_cons (slots : Slots) (name : String) (d : Datum) (new : Slots) :
    slots.putAll ((name, d) :: new) = (slots.put name d).putAll new := rfl

theorem names_putAll (h : slots.names.Nodup) (new : Slots) :
    (slots.putAll new).names = (slots.names ++ new.names).eraseDups := by
  induction new generalizing slots with
  | nil => rw [names_nil, List.append_nil, eraseDups_of_nodup h]; rfl
  | cons slot new ih =>
    obtain ⟨n, d⟩ := slot
    rw [putAll_cons, ih (nodup_names_put h n d), names_put_eq, names_cons]
    by_cases old : n ∈ slots.names
    · rw [if_pos old, eraseDups_append_of_mem old]
    · rw [if_neg old, List.append_assoc]
      rfl

theorem get?_eq_none (h : name ∉ slots.names) : slots.get? name = none := by
  induction slots with
  | nil => rfl
  | cons slot rest ih =>
    obtain ⟨n, e⟩ := slot
    obtain ⟨here, later⟩ := not_or.mp (mt List.mem_cons.mpr h)
    rw [get?_cons, if_neg (Ne.symm here), ih later]

/-- What is stored on top is found first. -/
theorem get?_putAll (slots : Slots) (h : new.names.Nodup) (name : String) :
    (slots.putAll new).get? name = (new.get? name).or (slots.get? name) := by
  induction new generalizing slots with
  | nil => rfl
  | cons slot new ih =>
    obtain ⟨n, d⟩ := slot
    obtain ⟨once, others⟩ := List.nodup_cons.mp h
    rw [putAll_cons, ih (slots.put n d) others, get?_put, get?_cons]
    by_cases here : n = name
    · subst here
      simp [get?_eq_none once]
    · simp [here]

end Slots

namespace Store

/-! ## Frames on top of frames -/

/-- What is visible through frames, the innermost of which comes first. -/
def through (fs : List Frame) : Slots := fs.foldr (fun f acc => acc.putAll f.slots) []

theorem names_through (fs : List Frame) :
    (through fs).names = (fs.reverse.flatMap (·.slots.names)).eraseDups := by
  induction fs with
  | nil => rfl
  | cons f fs ih =>
    have outer : (through fs).names.Nodup := ih ▸ nodup_eraseDups _
    have whole : through (f :: fs) = (through fs).putAll f.slots := rfl
    have same : (through fs).names.eraseDups =
        (fs.reverse.flatMap (·.slots.names)).eraseDups := by
      rw [eraseDups_of_nodup outer, ih]
    rw [whole, Slots.names_putAll outer, eraseDups_append_congr same]
    simp

theorem get?_through {fs : List Frame} (h : ∀ f ∈ fs, f.slots.names.Nodup) (name : String) :
    (through fs).get? name = fs.findSome? (·.slots.get? name) := by
  induction fs with
  | nil => rfl
  | cons f fs ih =>
    obtain ⟨inner, outer⟩ := List.forall_mem_cons.mp h
    have whole : through (f :: fs) = (through fs).putAll f.slots := rfl
    rw [whole, Slots.get?_putAll _ inner, ih outer, List.findSome?_cons]
    cases f.slots.get? name <;> rfl

/-! ## Names in the order of the calls -/

namespace Calls

/-- The names that were stored while a frame was the innermost one, in the order in which they were
first stored. -/
def names (i : Nat) : Calls → List String
  | [] => []
  | ⟨.alloc n _, true⟩ :: cs =>
    if (stack cs).head? = some i ∧ n ∉ names i cs then names i cs ++ [n] else names i cs
  | _ :: cs => names i cs

/-- The way outward from a frame, along the frames that were captured. -/
inductive Outward (cs : Calls) : Nat → List Nat → Prop
  | last {i} : cs.parent i = none → Outward cs i [i]
  | next {i p is} : cs.parent i = some p → Outward cs p is → Outward cs i (i :: is)

variable {cs : Calls} {s s' : Store} {i : Nat}

theorem nodup_names (i : Nat) (cs : Calls) : (cs.names i).Nodup := by
  fun_induction names i cs with
  | case1 => exact List.nodup_nil
  | case2 n d cs new ih => exact ih.append (List.nodup_singleton n) (by simpa using new.2)
  | case3 n d cs old ih => exact ih
  | case4 c cs other ih => exact ih

/-- Nothing was stored in a frame before it came. -/
theorem names_of_le (h : cs.frameCount ≤ i) : cs.names i = [] := by
  fun_induction names i cs with
  | case1 => rfl
  | case2 n d cs new ih =>
    have lt := lt_of_mem_stack (List.mem_of_mem_head? new.1)
    exact absurd lt (Nat.not_lt.mpr h)
  | case3 n d cs old ih => exact ih h
  | case4 c cs other ih =>
    refine ih (Nat.le_trans ?_ h)
    rcases c with ⟨_ | _ | _ | _ | _, _ | _⟩ <;> simp only [frameCount] <;> omega

/-- The calls say in which order the names of every frame stand. -/
def Names (cs : Calls) (s : Store) : Prop :=
  ∀ (i : Nat) (f : Frame), s.frames[i]? = some f → f.slots.names = cs.names i

theorem names_fresh : Names [] fresh := by
  intro i f hf
  rcases i with _ | i <;> simp [fresh] at hf
  subst hf
  rfl

theorem Names.refused (h : cs.Names s) (r : Request) : Names (⟨r, false⟩ :: cs) s := by
  cases r <;> exact h

theorem Names.alloc (h : cs.Names s) (described : cs.Describe s) {name : String} {d : Datum}
    (done : s.alloc name d = .ok s') : Names (⟨.alloc name d, true⟩ :: cs) s' := by
  obtain rfl := alloc_eq_ok done
  intro i f hf
  rw [Calls.names, described.head?]
  rw [Array.getElem?_modify] at hf
  by_cases top : s.top = i
  · rw [if_pos top] at hf
    obtain ⟨g, hg, rfl⟩ := Option.map_eq_some_iff.mp hf
    rw [Slots.names_put_eq, h i g hg]
    by_cases old : name ∈ cs.names i <;> simp [top, old]
  · rw [if_neg top] at hf
    simpa [top] using h i f hf

theorem Names.push (h : cs.Names s) (described : cs.Describe s) {id : Int}
    (done : s.push id = .ok s') : Names (⟨.push id, true⟩ :: cs) s' := by
  obtain ⟨parent, _, rfl⟩ := push_eq_ok done
  intro i f hf
  have same : Calls.names i (⟨.push id, true⟩ :: cs) = cs.names i := rfl
  rw [same]
  rw [Array.getElem?_push] at hf
  by_cases last : i = s.frames.size
  · rw [if_pos last] at hf
    cases hf
    exact (names_of_le (described.frames ▸ Nat.le_of_eq last.symm)).symm
  · rw [if_neg last] at hf
    exact h i f hf

theorem Names.granted (h : cs.Names s) (described : cs.Describe s) {r : Request}
    (done : r.apply s = .ok s') : Names (⟨r, true⟩ :: cs) s' := by
  cases r with
  | alloc name d => exact h.alloc described done
  | load name =>
    rw [Request.apply] at done
    split at done
    · cases done
      exact h
    · cases done
  | push id => exact h.push described done
  | pop retain =>
    obtain ⟨_, after⟩ := pop_eq_ok (show s.pop = .ok s' from done)
    rw [after]
    exact h
  | reserve =>
    cases done
    exact h

/-- The way outward in a store is that of the calls. -/
theorem Describe.outward (h : cs.Describe s) {is : List Nat} (way : s.Outward i is) :
    cs.Outward i is := by
  induction way with
  | last hf hp => exact .last ((h.parent _ _ hf).symm.trans hp)
  | next hf hp _ ih => exact .next ((h.parent _ _ hf).symm.trans hp) ih

end Calls

open Calls

theorem names_calls (rs : List Request) : (calls rs).Names (serve rs).store := by
  induction rs with
  | nil => exact names_fresh
  | cons r rs ih =>
    rw [serve, calls]
    rcases r.granted_or_refused (serve rs) with ⟨s, _, done, _, granted, same⟩ | ⟨_, _, ended, same⟩
    · rw [granted, same]
      exact ih.granted (describe_calls rs) done
    · rw [ended, same]
      exact ih.refused r

/-! ## Both ways through the frames -/

theorem names_chain {cs : Calls} {s : Store} (named : cs.Names s) (wf : s.WellFormed) {i : Nat}
    {is : List Nat} (way : s.Outward i is) :
    (s.chain i).map (·.slots.names) = is.map fun j => cs.names j := by
  induction way with
  | @last i f hf hp =>
    have alone : s.chain i = [f] := by simp [chain, hf, hp]
    simp [alone, named i f hf]
  | @next i f p is hf hp _ ih =>
    rw [chain_of_parent hf hp (wf.older i f hf p hp), List.map_cons, ih, named i f hf,
      List.map_cons]

theorem load_eq_ok_iff {m : Machine} {name : String} {d : Datum} :
    (Eval.load name).ending m = .ok d ↔ m.store.load? name = some d := by
  rw [Eval.ending]
  cases found : m.store.load? name with
  | none => simp [Eval.load_of_none found]
  | some e => simp [Eval.load_of_some found]

/-- After any requests, the listing holds a name with a datum exactly if the name is not hidden and
a load of it yields the datum. No name comes twice, and the names stand in the order in which they
are met first when the frames are gone through from the outermost to the innermost, each in the
order in which its names were first stored. -/
theorem listing_agrees_with_load (rs : List Request) :
    let cs := calls rs
    let listing := (serve rs).store.bindings
    (∀ name d, (name, d) ∈ listing ↔
      isHidden name = false ∧ (Eval.load name).ending (serve rs) = .ok d) ∧
    listing.names.Nodup ∧
    ∃ i is, cs.stack.head? = some i ∧ cs.Outward i is ∧
      listing.names =
        (is.reverse.flatMap fun j => cs.names j).eraseDups.filter (!isHidden ·) := by
  intro cs listing
  have wf := serve_wellFormed rs
  have described := describe_calls rs
  have named := names_calls rs
  have innermost : (serve rs).store.top ∈ (serve rs).store.stack := List.mem_cons_self
  obtain ⟨is, way⟩ := wf.exists_outward (wf.live _ innermost)
  have visible : (serve rs).store.visible = through ((serve rs).store.chain (serve rs).store.top) :=
    rfl
  have order : (serve rs).store.visible.names =
      (is.reverse.flatMap fun j => cs.names j).eraseDups := by
    rw [visible, names_through, List.flatMap_def, List.map_reverse, names_chain named wf way,
      List.flatMap_def, List.map_reverse]
  have once : (serve rs).store.visible.names.Nodup := order ▸ nodup_eraseDups _
  have shown : listing.names = (serve rs).store.visible.names.filter (!isHidden ·) := by
    rw [Slots.names, Slots.names, List.filter_map]
    rfl
  refine ⟨fun name d => ?_, ?_, _, is, described.head?, described.outward way, ?_⟩
  · have each : ∀ f ∈ (serve rs).store.chain (serve rs).store.top, f.slots.names.Nodup := by
      intro f hf
      obtain ⟨j, found⟩ := mem_chain hf
      exact named j f found ▸ nodup_names j cs
    have found : (name, d) ∈ (serve rs).store.visible ↔ (serve rs).store.load? name = some d := by
      rw [Slots.mem_iff_get? once, visible, get?_through each]
      rfl
    rw [load_eq_ok_iff, ← found, and_comm]
    exact List.mem_filter.trans (and_congr_right' (by simp))
  · exact shown ▸ once.filter _
  · rw [shown, order]

end Store

end Scriptlet
