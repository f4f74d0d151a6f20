import Mathlib.Data.List.Forall2
import Mathlib.Order.Monotone.Basic
import Scriptlet.Evaluation
/-!
# Stores that correspond

Two stores are compared by the data that they hold: slots correspond if they have one name and
related data, and frames if their slots do. The frames of the first store may stand elsewhere in the
second one, as long as they stand in the same order. Then a name means related data in both.

Of the relations between data, those are singled out here that look no further than the bodies of
functions.
-/

namespace Scriptlet

section

variable {α β γ δ : Type}

theorem rel_imp {R S : α → β → Prop} (h : ∀ a b, R a b → S a b) {a : Option α} {b : Option β}
    (hab : Option.Rel R a b) : Option.Rel S a b := by
  cases hab with
  | none => exact .none
  | some same => exact .some (h _ _ same)

theorem rel_trans {R S T : α → α → Prop} (h : ∀ a b c, R a b → S b c → T a c) {a b c : Option α}
    (hab : Option.Rel R a b) (hbc : Option.Rel S b c) : Option.Rel T a c := by
  cases hab with
  | none =>
    cases hbc
    exact .none
  | some first =>
    cases hbc with
    | some second => exact .some (h _ _ _ first second)

theorem rel_refl {R : α → α → Prop} {a : Option α} (h : ∀ b, a = some b → R b b) :
    Option.Rel R a a := by
  cases a with
  | none => exact .none
  | some b => exact .some (h b rfl)

theorem rel_eq {a b : Option α} (h : Option.Rel Eq a b) : a = b := by
  cases h with
  | none => rfl
  | some same => rw [same]

/-- Related lists that are searched alike. -/
theorem findSome?_rel {R : α → β → Prop} {S : γ → δ → Prop} {f : α → Option γ} {g : β → Option δ}
    {as : List α} {bs : List β} (h : List.Forall₂ R as bs)
    (hf : ∀ a b, R a b → Option.Rel S (f a) (g b)) :
    Option.Rel S (as.findSome? f) (bs.findSome? g) := by
  induction h with
  | nil => exact .none
  | @cons a b _ _ same _ ih =>
    have here := hf a b same
    rw [List.findSome?_cons, List.findSome?_cons]
    generalize f a = c at here ⊢
    generalize g b = d at here ⊢
    cases here with
    | none => exact ih
    | some found => exact .some found

end

/-! ## Slots and completions -/

section

variable {R S T : Datum → Datum → Prop}

/-- Slots of one name. -/
structure Slot.Alike (R : Datum → Datum → Prop) (s s' : String × Datum) : Prop where
  name : s.1 = s'.1
  datum : R s.2 s'.2

namespace Slots

variable {slots slots' slots'' : Slots}

theorem get?_cons (n : String) (d : Datum) (rest : Slots) (name : String) :
    get? ((n, d) :: rest) name = if n = name then some d else rest.get? name := by
  by_cases h : n = name <;> simp [get?, h]

theorem get?_alike (h : List.Forall₂ (Slot.Alike R) slots slots') (name : String) :
    Option.Rel R (slots.get? name) (slots'.get? name) := by
  induction h with
  | nil => exact .none
  | @cons s s' _ _ same _ ih =>
    obtain ⟨n, d⟩ := s
    obtain ⟨n', d'⟩ := s'
    obtain ⟨rfl, datum⟩ := same
    rw [get?_cons, get?_cons]
    split
    · exact .some datum
    · exact ih

theorem put_alike (h : List.Forall₂ (Slot.Alike R) slots slots') (name : String) {d d' : Datum}
    (hd : R d d') : List.Forall₂ (Slot.Alike R) (slots.put name d) (slots'.put name d') := by
  induction h with
  | nil => exact .cons ⟨rfl, hd⟩ .nil
  | @cons s s' _ _ same rest ih =>
    rw [put, put, ← same.name]
    split
    · exact .cons ⟨rfl, hd⟩ rest
    · exact .cons ⟨rfl, same.datum⟩ ih

theorem putAll_alike {new new' : Slots} (h : List.Forall₂ (Slot.Alike R) slots slots')
    (hn : List.Forall₂ (Slot.Alike R) new new') :
    List.Forall₂ (Slot.Alike R) (slots.putAll new) (slots'.putAll new') := by
  induction hn generalizing slots slots' with
  | nil => exact h
  | @cons s s' _ _ here _ ih =>
    have first : List.Forall₂ (Slot.Alike R) (slots.put s.1 s.2) (slots'.put s'.1 s'.2) :=
      here.name ▸ put_alike h s.1 here.datum
    exact ih first

theorem alike_trans (chain : ∀ d d' d'', R d d' → S d' d'' → T d d'')
    (h : List.Forall₂ (Slot.Alike R) slots slots')
    (h' : List.Forall₂ (Slot.Alike S) slots' slots'') :
    List.Forall₂ (Slot.Alike T) slots slots'' := by
  induction h generalizing slots'' with
  | nil =>
    cases h'
    exact .nil
  | cons first _ ih =>
    cases h' with
    | cons second rest =>
      have datum := chain _ _ _ first.datum second.datum
      exact .cons ⟨first.name.trans second.name, datum⟩ (ih rest)

end Slots

/-- Completions that return alike. -/
structure Completion.Alike (R : Datum → Datum → Prop) (e e' : Completion) : Prop where
  datum : R e.datum e'.datum
  returned : Option.Rel R e.returned e'.returned

namespace Completion.Alike

variable {e e' e'' : Completion}

theorem of_datum {d d' : Datum} (h : R d d') : Completion.Alike R ⟨d, none⟩ ⟨d', none⟩ :=
  ⟨h, .none⟩

theorem isSome_returned (h : e.Alike R e') : e.returned.isSome = e'.returned.isSome := by
  obtain ⟨d, r⟩ := e
  obtain ⟨d', r'⟩ := e'
  obtain ⟨-, returned⟩ := h
  cases returned <;> rfl

theorem result (h : e.Alike R e') (undefined : R .undefined .undefined) :
    R (e.returned.getD .undefined) (e'.returned.getD .undefined) := by
  obtain ⟨d, r⟩ := e
  obtain ⟨d', r'⟩ := e'
  obtain ⟨-, returned⟩ := h
  cases returned with
  | none => exact undefined
  | some same => exact same

end Completion.Alike

end

/-! ## Frames -/

/-- The frame of each number is related to the one of the number that it is moved to, and there is
none if there is none. -/
def Corresponds (F : Frame → Frame → Prop) (up : Nat → Nat) (frames frames' : Array Frame) : Prop :=
  ∀ i : Nat, Option.Rel F frames[i]? frames'[up i]?

namespace Corresponds

variable {F : Frame → Frame → Prop} {up : Nat → Nat} {frames frames' : Array Frame}

/-- Where no frame is moved, there are as many. -/
theorem size (h : Corresponds F id frames frames') : frames.size = frames'.size := by
  have below := h frames.size
  have above := h frames'.size
  simp only [id] at below above
  rw [Array.getElem?_eq_none (Nat.le_refl _)] at below
  rw [Array.getElem?_eq_none (Nat.le_refl frames'.size)] at above
  generalize below' : frames'[frames.size]? = f at below
  generalize above' : frames[frames'.size]? = f' at above
  cases below
  cases above
  exact Nat.le_antisymm (Array.getElem?_eq_none_iff.mp above')
    (Array.getElem?_eq_none_iff.mp below')

variable (h : Corresponds F up frames frames') (ordered : StrictMono up)
include h ordered

/-- One frame is changed in both. -/
theorem modify (top : Nat) {g g' : Frame → Frame} (hg : ∀ f f', F f f' → F (g f) (g' f')) :
    Corresponds F up (frames.modify top g) (frames'.modify (up top) g') := by
  intro i
  have here := h i
  rw [Array.getElem?_modify, Array.getElem?_modify]
  by_cases changed : top = i
  · rw [if_pos changed, if_pos (congrArg up changed)]
    generalize frames[i]? = f at here ⊢
    generalize frames'[up i]? = f' at here ⊢
    cases here with
    | none => exact .none
    | some same => exact .some (hg _ _ same)
  · rw [if_neg changed, if_neg (mt (ordered.injective ·) changed)]
    exact here

theorem push (last : frames'.size = up frames.size) {f f' : Frame} (new : F f f') :
    Corresponds F up (frames.push f) (frames'.push f') := by
  intro i
  rw [Array.getElem?_push, Array.getElem?_push, last]
  by_cases here : i = frames.size
  · rw [if_pos here, if_pos (congrArg up here)]
    exact .some new
  · rw [if_neg here, if_neg (mt (ordered.injective ·) here)]
    exact h i

omit h in
/-- The way out from a frame, and from where that frame is moved to. -/
theorem chain {s s' : Store} (h : Corresponds F up s.frames s'.frames)
    (parents : ∀ f f', F f f' → f'.parent = f.parent.map up) (i : Nat) :
    List.Forall₂ F (s.chain i) (s'.chain (up i)) := by
  induction i using Nat.strongRecOn with
  | ind i ih =>
    have here := h i
    rw [Store.chain, Store.chain]
    generalize s.frames[i]? = f at here ⊢
    generalize s'.frames[up i]? = f' at here ⊢
    cases here with
    | none => exact .nil
    | @some f f' same =>
      have moved := parents f f' same
      cases hp : f.parent with
      | none => simpa [moved, hp] using same
      | some p =>
        by_cases lt : p < i
        · simpa [moved, hp, ordered.lt_iff_lt, lt] using ⟨same, ih p lt⟩
        · simpa [moved, hp, ordered.lt_iff_lt, lt] using same

end Corresponds

/-! ## Functions with related bodies -/

namespace Bodies

section

variable (R : Tree → Tree → Prop)

structure Closures (f f' : Closure) : Prop where
  params : f.params = f'.params
  body : R f.body f'.body
  name : f.name = f'.name
  scope : f.scope = f'.scope

structure Data (d d' : Datum) : Prop where
  value : d.value = d'.value
  function : Option.Rel (Closures R) d.function d'.function

abbrev Completions : Completion → Completion → Prop := Completion.Alike (Data R)

structure Frames (f f' : Frame) : Prop where
  scope : f.scope = f'.scope
  parent : f.parent = f'.parent
  slots : List.Forall₂ (Slot.Alike (Data R)) f.slots f'.slots

end

variable {R S T : Tree → Tree → Prop}

theorem data_of_value (v : Value) : Data R ⟨v, none⟩ ⟨v, none⟩ := ⟨rfl, .none⟩

theorem data_undefined : Data R .undefined .undefined := data_of_value _

theorem completions_undefined : Completions R .undefined .undefined := .of_datum data_undefined

/-- The values alone. -/
theorem Data.bare {d d' : Datum} (h : Data R d d') : Data R ⟨d.value, none⟩ ⟨d'.value, none⟩ :=
  ⟨h.value, .none⟩

theorem Frames.parent_map {f f' : Frame} (h : Frames R f f') : f'.parent = f.parent.map id := by
  rw [Option.map_id, id, h.parent]

theorem Frames.put {f f' : Frame} (h : Frames R f f') (name : String) {d d' : Datum}
    (hd : Data R d d') :
    Frames R { f with slots := f.slots.put name d } { f' with slots := f'.slots.put name d' } :=
  ⟨h.scope, h.parent, Slots.put_alike h.slots name hd⟩

/-- A name means related data if no frame is moved. -/
theorem load?_of_corresponds {s s' : Store} (h : Corresponds (Frames R) id s.frames s'.frames)
    (top : s.top = s'.top) (name : String) :
    Option.Rel (Data R) (s.load? name) (s'.load? name) := by
  rw [Store.load?, Store.load?, ← top]
  have chains := h.chain strictMono_id (fun _ _ same => same.parent_map) s.top
  exact findSome?_rel chains fun _ _ same => Slots.get?_alike same.slots name

/-! ### Other relations between bodies -/

section

variable (weaker : ∀ t t', R t t' → S t t')
include weaker

theorem Closures.imp {f f' : Closure} (h : Closures R f f') : Closures S f f' :=
  ⟨h.params, weaker _ _ h.body, h.name, h.scope⟩

theorem Data.imp {d d' : Datum} (h : Data R d d') : Data S d d' :=
  ⟨h.value, rel_imp (fun _ _ f => f.imp weaker) h.function⟩

theorem Completions.imp {e e' : Completion} (h : Completions R e e') : Completions S e e' :=
  ⟨h.datum.imp weaker, rel_imp (fun _ _ same => same.imp weaker) h.returned⟩

theorem Frames.imp {f f' : Frame} (h : Frames R f f') : Frames S f f' :=
  ⟨h.scope, h.parent, h.slots.imp fun _ _ slot => ⟨slot.name, slot.datum.imp weaker⟩⟩

end

section

variable (chain : ∀ t u v, R t u → S u v → T t v)
include chain

theorem Closures.trans {f f' f'' : Closure} (h : Closures R f f') (h' : Closures S f' f'') :
    Closures T f f'' :=
  ⟨h.params.trans h'.params, chain _ _ _ h.body h'.body, h.name.trans h'.name,
    h.scope.trans h'.scope⟩

theorem Data.trans {d d' d'' : Datum} (h : Data R d d') (h' : Data S d' d'') : Data T d d'' :=
  ⟨h.value.trans h'.value,
    rel_trans (fun _ _ _ f f' => f.trans chain f') h.function h'.function⟩

theorem Completions.trans {e e' e'' : Completion} (h : Completions R e e')
    (h' : Completions S e' e'') : Completions T e e'' :=
  ⟨h.datum.trans chain h'.datum,
    rel_trans (fun _ _ _ d d' => d.trans chain d') h.returned h'.returned⟩

theorem Frames.trans {f f' f'' : Frame} (h : Frames R f f') (h' : Frames S f' f'') :
    Frames T f f'' :=
  ⟨h.scope.trans h'.scope, h.parent.trans h'.parent,
    Slots.alike_trans (fun _ _ _ d d' => d.trans chain d') h.slots h'.slots⟩

end

/-- A datum is like itself if the body of its function is. -/
theorem Data.refl {d : Datum} (h : ∀ f, d.function = some f → R f.body f.body) : Data R d d :=
  ⟨rfl, rel_refl fun f function => ⟨rfl, h f function, rfl, rfl⟩⟩

theorem Frames.refl {f : Frame}
    (h : ∀ slot ∈ f.slots, ∀ g, slot.2.function = some g → R g.body g.body) : Frames R f f :=
  ⟨rfl, rfl, List.forall₂_same.mpr fun slot mem => ⟨rfl, .refl (h slot mem)⟩⟩

theorem Closures.eq {f f' : Closure} (h : Closures Eq f f') : f = f' := by
  obtain ⟨params, body, name, scope⟩ := f
  obtain ⟨rfl, rfl, rfl, rfl⟩ := h
  rfl

theorem Data.eq {d d' : Datum} (h : Data Eq d d') : d = d' := by
  obtain ⟨v, f⟩ := d
  obtain ⟨v', f'⟩ := d'
  obtain ⟨rfl, function⟩ := h
  exact congrArg _ (rel_eq (rel_imp (fun _ _ => Closures.eq) function))

theorem Completions.eq {e e' : Completion} (h : Completions Eq e e') : e = e' := by
  obtain ⟨d, r⟩ := e
  obtain ⟨d', r'⟩ := e'
  obtain ⟨datum, returned⟩ := h
  exact congrArg₂ _ datum.eq (rel_eq (rel_imp (fun _ _ => Data.eq) returned))

theorem Frames.eq {f f' : Frame} (h : Frames Eq f f') : f = f' := by
  obtain ⟨scope, parent, slots⟩ := f
  obtain ⟨scope', parent', slots'⟩ := f'
  obtain ⟨rfl, rfl, same⟩ := h
  have slots_eq := same.imp fun s s' (h : Slot.Alike _ s s') => Prod.ext h.name h.datum.eq
  rw [List.forall₂_eq_eq_eq] at slots_eq
  exact congrArg (Frame.mk _ _) slots_eq

theorem eq_of_corresponds {frames frames' : Array Frame}
    (h : Corresponds (Frames Eq) id frames frames') : frames = frames' :=
  Array.ext_getElem? fun i => rel_eq (rel_imp (fun _ _ => Frames.eq) (h i))

end Bodies

end Scriptlet
