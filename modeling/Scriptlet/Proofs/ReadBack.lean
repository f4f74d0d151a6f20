import Mathlib
import Scriptlet.Fragment
import Scriptlet.Proofs.Grids
import Scriptlet.Proofs.Numerals
import Scriptlet.Proofs.Stacking
/-!
# Displayed numbers read back

What is displayed for a finite magnitude is a numeral, and the magnitude is the nearest one to it.
So the text, as a statement of its own, gives the very number again.
-/

namespace Scriptlet

namespace Number

/-! ## Magnitudes -/

theorem value_of_whole {m : Magnitude} {n : Nat} (h : m.whole? = some n) : m.value = n := by
  rw [Magnitude.whole?] at h
  split at h
  · rename_i exact
    obtain rfl := Option.some.inj h
    have place : (2 : ℚ) ^ (-m.exponent).toNat ≠ 0 := by positivity
    obtain ⟨c, hc⟩ := Nat.dvd_of_mod_eq_zero exact
    have cancel : m.significand / pow2 (-m.exponent).toNat = c :=
      Nat.div_eq_of_eq_mul_right (Nat.two_pow_pos _) hc
    rw [cancel, Magnitude.value, hc, zpow_eq_div two_ne_zero, Nat.cast_mul, Nat.cast_mul, cast_pow2,
      cast_pow2]
    field_simp
  · cases h

/-- The values that round to a magnitude that is not integral are not integral either. -/
theorem exponent_neg_of_not_whole {m : Magnitude} (h : m.whole? = none) {e : ℤ} {n : Nat}
    (within : m.Within e n) : e < 0 := by
  have inexact : ¬pow2 (-m.exponent).toNat ∣ m.significand := fun exact => by
    rw [Magnitude.whole?, if_pos (Nat.mod_eq_zero_of_dvd exact)] at h
    cases h
  have down : m.exponent < 0 := by
    by_contra up
    rw [show (-m.exponent).toNat = 0 by omega] at inexact
    exact inexact (one_dvd _)
  by_contra up
  have quarter : m.quarter e = 1 := by
    rw [Magnitude.quarter, show m.exponent.toNat = 0 by omega, show (-e).toNat = 0 by omega]
    rfl
  obtain ⟨lower, upper, -⟩ := within
  have slack := m.slack_le
  rw [Magnitude.scaled, quarter] at lower upper
  -- Both are multiples of four quarters, and less than four apart.
  have multiple : n * m.pitch e = 4 * (pow2 (-m.exponent).toNat * (pow10 e.toNat * n)) := by
    rw [Magnitude.pitch]
    ring
  exact inexact ⟨pow10 e.toNat * n, by omega⟩

theorem display_spells (bits : Nat) :
    ∃ n, Spells (Magnitude.ofBits bits).display n ∧ Nearest n.value bits := by
  rw [Magnitude.display]
  cases whole : (Magnitude.ofBits bits).whole? with
  | some n =>
    refine ⟨⟨n, 0⟩, spells_toDigits n, ?_⟩
    have value : Numeral.value ⟨n, 0⟩ = valueOf bits := by
      rw [valueOf, value_of_whole whole, Numeral.value, zpow_zero, mul_one]
    rw [value]
    exact .self bits
  | none =>
    obtain ⟨k, s, canonical, rfl⟩ := exists_canonical bits
    have within := (Magnitude.ofBits (k * 2 ^ 52 + s)).shortest_within
    refine ⟨⟨_, _⟩, spells_fractional (exponent_neg_of_not_whole whole within), ?_⟩
    rw [ofBits_canonical canonical] at within ⊢
    have nearest := (within_iff_nearest canonical).mp within
    exact nearest

theorem ofText_display {bits : Nat} (finite : bits < infinityBits) :
    ofText (Magnitude.ofBits bits).display = ofMagnitudeBits bits := by
  obtain ⟨n, spells, nearest⟩ := display_spells bits
  have read := ofText_number spells.number
  rwa [String.toList_ofList, spells.read, Numeral.toBits_eq nearest,
    Nat.min_eq_left finite.le] at read

/-! ## Bit patterns -/

section

open Float.Model Float.Model.UnpackedFloat

variable {x : Float} {s : Sign} {e : BitVec 11} {f : BitVec 52}

theorem toNat_packComponents : (packComponents .binary64 s e f).toNat =
    s.toBitVec.toNat * 2 ^ 63 + (e.toNat * 2 ^ 52 + f.toNat) := by
  rw [packComponents, BitVec.toNat_append, ← Nat.shiftLeft_add_eq_or_of_lt f.isLt,
    BitVec.toNat_append, ← Nat.shiftLeft_add_eq_or_of_lt e.isLt, Nat.shiftLeft_eq, Nat.shiftLeft_eq]
  ring

/-- What fields of a finite number spell, with either sign. -/
theorem unpack_packComponents (e : BitVec 11) (f : BitVec 52) (finite : e ≠ -1#11) :
    (e = 0#11 ∧ f = 0#52 ∧
      ∀ s, UnpackedFloat.unpack .binary64 (packComponents .binary64 s e f) = .zero s) ∨
    ((e ≠ 0#11 ∨ f ≠ 0#52) ∧ ∃ m k pos, ∀ s,
      UnpackedFloat.unpack .binary64 (packComponents .binary64 s e f) = .finite s m k pos) := by
  simp only [UnpackedFloat.unpack, unpackExponent_packComponents, unpackMantissa_packComponents,
    unpackSign_packComponents, Sign.ofBitVec_toBitVec, if_neg finite]
  by_cases he : e = 0#11
  · by_cases hf : f = 0#52
    · exact .inl ⟨he, hf, fun s => by rw [if_pos he, dif_pos hf]⟩
    · have pos : 0 < f.toNat := Nat.pos_of_ne_zero fun none => hf (BitVec.eq_of_toNat_eq none)
      exact .inr ⟨.inr hf, _, _, pos, fun s => by rw [if_pos he, dif_neg hf]⟩
  · have pos : 0 < (1#1 ++ f).toNat := by
      rw [BitVec.toNat_append]
      exact Nat.lt_of_lt_of_le (Nat.two_pow_pos 52) Nat.left_le_or
    exact .inr ⟨.inl he, _, _, pos, fun s => if_neg he⟩

/-- A finite number has a sign, an exponent that is not the greatest one, and a fraction. -/
structure HasFields (x : Float) (s : Sign) (e : BitVec 11) (f : BitVec 52) : Prop where
  bits : x.toBits.toBitVec = packComponents .binary64 s e f
  finite : e ≠ -1#11

theorem exists_fields (finite : x.isFinite) : ∃ s e f, HasFields x s e f := by
  refine ⟨_, _, _, (@packComponents_unpackSign_unpackExponent_unpackMantissa .binary64
    x.toBits.toBitVec).symm, fun infinite => ?_⟩
  have finite : (UnpackedFloat.unpack .binary64 x.toBits.toBitVec).isFinite := finite
  rw [UnpackedFloat.unpack, if_pos infinite] at finite
  split at finite <;> cases finite

namespace HasFields

theorem unpack (h : HasFields x s e f) :
    x.toModel.unpack = UnpackedFloat.unpack .binary64 (packComponents .binary64 s e f) :=
  congrArg (UnpackedFloat.unpack .binary64) h.bits

theorem toNat (h : HasFields x s e f) :
    x.toBits.toNat = s.toBitVec.toNat * 2 ^ 63 + (e.toNat * 2 ^ 52 + f.toNat) :=
  (congrArg BitVec.toNat h.bits).trans toNat_packComponents

theorem magnitudeBits (h : HasFields x s e f) :
    Number.magnitudeBits x = e.toNat * 2 ^ 52 + f.toNat := by
  have he := e.isLt
  have hf := f.isLt
  have width : pow2 63 = 2 ^ 63 := rfl
  rw [Number.magnitudeBits, h.toNat, width]
  omega

theorem magnitudeBits_lt (h : HasFields x s e f) : Number.magnitudeBits x < infinityBits := by
  have below : e.toNat ≠ 2047 := fun same => h.finite (BitVec.eq_of_toNat_eq same)
  have he := e.isLt
  have hf := f.isLt
  have top : infinityBits = 2047 * 2 ^ 52 := rfl
  rw [h.magnitudeBits, top]
  omega

theorem isNegative (h : HasFields x s e f) : Number.isNegative x = (s == .negative) := by
  have he := e.isLt
  have hf := f.isLt
  have width : pow2 63 = 2 ^ 63 := rfl
  rw [Number.isNegative, h.toNat, width]
  cases s
  · have one : Sign.negative.toBitVec.toNat = 1 := rfl
    rw [one, decide_eq_true (by omega)]
    rfl
  · have zero : Sign.positive.toBitVec.toNat = 0 := rfl
    rw [zero, decide_eq_false (by omega)]
    rfl

theorem isNaN (h : HasFields x s e f) : x.isNaN = false := by
  have number : x.toModel.unpack.isNaN = false := by
    rcases unpack_packComponents e f h.finite with ⟨-, -, zero⟩ | ⟨-, _, _, _, finite⟩
    · rw [h.unpack, zero]
      rfl
    · rw [h.unpack, finite]
      rfl
  exact number

theorem abs (h : HasFields x s e f) : HasFields x.abs .positive e f := by
  refine ⟨?_, h.finite⟩
  have same : x.toModel.unpack.abs =
      UnpackedFloat.unpack .binary64 (packComponents .binary64 .positive e f) := by
    rcases unpack_packComponents e f h.finite with ⟨-, -, zero⟩ | ⟨-, _, _, _, finite⟩
    · rw [h.unpack, zero, zero]
      rfl
    · rw [h.unpack, finite, finite]
      rfl
  have valid : Format.Valid .binary64 (packComponents .binary64 .positive e f) :=
    ⟨fun infinite => absurd (unpackExponent_packComponents.symm.trans infinite) h.finite⟩
  have packed : x.abs.toBits.toBitVec = UnpackedFloat.pack .binary64 x.toModel.unpack.abs := rfl
  rw [packed, same, pack_unpack_of_valid valid]

/-- A number below zero has the sign bit set, and is not zero. -/
theorem of_neg (h : HasFields x s e f) (neg : x < 0) :
    s = .negative ∧ Number.magnitudeBits x ≠ 0 := by
  have below : x.toModel.unpack.lt (.zero .positive) := of_decide_eq_true neg
  rcases unpack_packComponents e f h.finite with ⟨-, -, zero⟩ | ⟨some, _, _, _, finite⟩
  · rw [h.unpack, zero] at below
    cases below
  · rw [h.unpack, finite] at below
    constructor
    · cases s with
      | negative => rfl
      | positive => cases below
    · rw [h.magnitudeBits]
      rcases some with some | some <;>
        · have positive := mt BitVec.eq_of_toNat_eq some
          simp only [BitVec.toNat_ofNat] at positive
          omega

end HasFields

end

/-! ## Display -/

theorem display_of_fields {x : Float} {s : Float.Model.UnpackedFloat.Sign} {e : BitVec 11}
    {f : BitVec 52} (h : HasFields x s e f) : display x =
      (if s == .negative && magnitudeBits x != 0 then ['-'] else []) ++
        (Magnitude.ofBits (magnitudeBits x)).display := by
  rw [display, h.isNaN, if_neg Bool.false_ne_true, h.isNegative]
  simp only [h.magnitudeBits_lt.ne, if_false]
  rfl

variable {x : Float}

/-- A number that is not negative is that of its pattern. -/
theorem ofMagnitudeBits_magnitudeBits (sign : isNegative x = false) :
    ofMagnitudeBits (magnitudeBits x) = x := by
  have same : magnitudeBits x = x.toBits.toNat := by
    rw [isNegative, decide_eq_false_iff_not, Nat.not_le] at sign
    exact Nat.mod_eq_of_lt sign
  rw [ofMagnitudeBits, same, UInt64.ofNat_toNat, Float.ofBits_toBits]

variable (finite : x.isFinite)
include finite

theorem display_of_positive (sign : isNegative x = false) :
    display x = (Magnitude.ofBits (magnitudeBits x)).display := by
  obtain ⟨s, e, f, h⟩ := exists_fields finite
  rw [h.isNegative] at sign
  rw [display_of_fields h, sign]
  rfl

theorem ofText_toText (sign : isNegative x = false) : ofText (toText x).toList = x := by
  obtain ⟨s, e, f, h⟩ := exists_fields finite
  rw [toText, String.toList_ofList, display_of_positive finite sign,
    ofText_display h.magnitudeBits_lt, ofMagnitudeBits_magnitudeBits sign]

theorem isNumber_toText (sign : isNegative x = false) : Source.IsNumber (toText x) := by
  obtain ⟨n, spells, -⟩ := display_spells (magnitudeBits x)
  rw [toText, display_of_positive finite sign]
  exact spells.number

theorem toText_of_neg (neg : x < 0) : toText x = "-" ++ toText x.abs := by
  obtain ⟨s, e, f, h⟩ := exists_fields finite
  obtain ⟨rfl, some⟩ := h.of_neg neg
  have same : magnitudeBits x.abs = magnitudeBits x := by rw [h.abs.magnitudeBits, h.magnitudeBits]
  have sign :
      (Float.Model.UnpackedFloat.Sign.negative == .negative && magnitudeBits x != 0) = true := by
    simpa using some
  rw [toText, toText, display_of_fields h, display_of_fields h.abs, same, if_pos sign]
  exact String.ofList_append

end Number

/-! ## Number statements -/

namespace Source

section

variable {s : String} (h : IsNumber s)
include h

theorem first?_number : Lexeme.first? (s.toList ++ [';']) = some (.numeral s) := by
  have some : s.toList ≠ [] := by
    obtain ⟨m, e, hs, hm, -⟩ := h
    simp [hs, hm.ne_nil]
  have alone := first?_numeral h Stops.nil
  rw [List.append_nil] at alone
  rw [first?_parted _ _ parts_semicolon some, alone]

theorem pastGap_number :
    (Cursor.start (s.toList ++ [';'])).pastGap = .start (s.toList ++ [';']) := by
  obtain ⟨c, cs, hc, gap, slash⟩ := chars_eq_cons (l := .numeral s) h
  have comment : ¬(c = '/' ∧ (cs ++ [';']).head? = some '/') := by
    rintro ⟨rfl, head⟩
    rw [slash rfl] at head
    exact absurd head (by decide)
  have text : s.toList = c :: cs := hc
  rw [Cursor.pastGap, Cursor.start, text, List.cons_append, skipGap, if_neg Bool.false_ne_true, gap,
    if_neg Bool.false_ne_true, if_neg comment]

theorem scan_number : ∃ place offset, scan (s.toList ++ [';']) =
    ([⟨.numeral s, .first, 0⟩, ⟨.mark .semicolon, place, offset⟩], .finished) := by
  obtain ⟨next, hnext⟩ : ∃ next, next =
    (Cursor.start (s.toList ++ [';'])).advance (Lexeme.numeral s).chars.length := ⟨_, rfl⟩
  have rest : next.rest = [';'] := by
    rw [hnext]
    exact List.drop_left
  have here : next.pastGap = next := by
    rw [Cursor.pastGap, rest]
    simp [skipGap, isGapChar, ← rest]
  have semicolon : Lexeme.first? next.pastGap.rest = some (.mark .semicolon) := by
    rw [here, rest]
    rfl
  have ended : (next.advance (Lexeme.mark .semicolon).chars.length).pastGap.rest = [] := by
    rw [Cursor.advance, rest]
    rfl
  refine ⟨next.place, next.offset, ?_⟩
  rw [scan, scanFrom_of_some (by rw [pastGap_number h]; exact first?_number h), pastGap_number h,
    ← hnext, scanFrom_of_some semicolon, here, scanFrom_of_none (by rw [ended]; rfl), Cursor.ending,
    ended]
  rfl

theorem parse_number : parse (s ++ ";") =
    .ok (.node .bareExpr (some .first) [.token .number s (some .first)]) := by
  obtain ⟨place, offset, scanned⟩ := scan_number h
  rw [parse, readProgram, String.toList_append, show ";".toList = [';'] from rfl, scanned]
  rfl

end

end Source

theorem exec_number {rounds depth : Nat} (s : String) (place place' : Option Place) (m : Machine) :
    m.exec ⟨depth + 2, rounds⟩ (.node .bareExpr place [.token .number s place']) =
      (.ok ⟨⟨.number (Number.ofText s.toList), none⟩, none⟩, m) :=
  rfl

/-- A displayed number, as a statement of its own, gives the number again; and one below zero is
displayed as its magnitude behind a minus sign. -/
theorem displayed_numbers_read_back :
    (∀ x : Float, x.isFinite → Number.isNegative x = false →
      let t := Tree.node .bareExpr (some .first)
        [.token .number (Number.toText x) (some .first)]
      Source.parse (Number.toText x ++ ";") = .ok t ∧
      ∀ (rounds depth : Nat) (m : Machine),
        m.exec ⟨depth + 2, rounds⟩ t = (.ok ⟨⟨.number x, none⟩, none⟩, m)) ∧
    ∀ x : Float, x.isFinite → x < 0 → Number.toText x = "-" ++ Number.toText x.abs := by
  refine ⟨fun x finite sign => ⟨?_, fun rounds depth m => ?_⟩, fun x => Number.toText_of_neg⟩
  · exact Source.parse_number (Number.isNumber_toText finite sign)
  · rw [exec_number, Number.ofText_toText finite sign]

/-- A tenth, which is no sum of powers of two, and its negative. -/
theorem displayed_numbers_read_back_tenth :
    (∃ t, Source.parse "0.1;" = .ok t ∧ ∀ m : Machine,
      m.exec ⟨2, 0⟩ t = (.ok ⟨⟨.number (.ofBits 0x3fb999999999999a), none⟩, none⟩, m)) ∧
    Number.toText (.ofBits 0xbfb999999999999a) = "-0.1" := by
  have tenth : Number.toText (.ofBits 0x3fb999999999999a) = "0.1" := by decide +kernel
  have magnitude : (Float.ofBits 0xbfb999999999999a).abs = .ofBits 0x3fb999999999999a := by
    decide +kernel
  obtain ⟨positive, negative⟩ := displayed_numbers_read_back
  obtain ⟨parsed, run⟩ :=
    positive (.ofBits 0x3fb999999999999a) (by decide +kernel) (by decide +kernel)
  rw [tenth] at parsed run
  refine ⟨⟨_, parsed, run 0 0⟩, ?_⟩
  rw [negative _ (by decide +kernel) (by decide +kernel), magnitude, tenth]
  rfl

end Scriptlet
