import Mathlib.Data.List.TakeWhile
import Scriptlet.Number.Display
import Scriptlet.Number.Spelling
import Scriptlet.Proofs.Rounding
import Scriptlet.Proofs.Scanning
/-!
# What numerals stand for

A numeral is read as its digits and its last place, and stands for the magnitude that is nearest to
this value. What is written for a number that is not integral is read as the digits and the place
that it was written with.
-/

namespace Scriptlet

/-! ## Characters -/

namespace Text

theorem digit?_of_isDigit {c : Char} (h : c.isDigit) : digit? c = some (c.toNat - '0'.toNat) := by
  have range : 48 ≤ c.toNat ∧ c.toNat < 58 := by
    simp only [Char.isDigit, Bool.and_eq_true, decide_eq_true_eq] at h
    exact ⟨h.1, Nat.lt_succ_of_le h.2⟩
  simp [digit?, zeros, range]

theorem isDigit_of_ascii {c : Char} (h : c.isDigit) : isDigit c := by
  simp [isDigit, digit?_of_isDigit h]

theorem digitsValue_eq {cs : List Char} (h : ∀ c ∈ cs, c.isDigit) :
    digitsValue cs = Nat.ofDigitChars 10 cs 0 := by
  rw [digitsValue, Nat.ofDigitChars_eq_foldl]
  refine List.foldl_ext _ _ _ fun n c hc => ?_
  rw [digit?_of_isDigit (h c hc), Option.getD_some]

theorem isBlank_of_isDigit {c : Char} (h : isDigit c) : isBlank c = false := by
  have apart : ∀ z ∈ zeros, ∀ i < 10,
      (blankRanges.any fun range => range.1 ≤ z + i && z + i ≤ range.2) = false := by
    decide +kernel
  rw [isDigit, digit?, Option.isSome_map] at h
  obtain ⟨z, hz⟩ := Option.isSome_iff_exists.mp h
  have range := List.find?_some hz
  simp only [Bool.and_eq_true, decide_eq_true_eq] at range
  have here := apart z (List.mem_of_find?_eq_some hz) (c.toNat - z) (by omega)
  rw [Nat.add_sub_cancel' range.1] at here
  exact here

theorem dropAround_eq_self {p : Char → Bool} {cs : List Char}
    (head : ∀ c, cs.head? = some c → p c = false)
    (last : ∀ c, cs.getLast? = some c → p c = false) : dropAround p cs = cs := by
  have keep {ds : List Char} (head : ∀ c, ds.head? = some c → p c = false) :
      ds.dropWhile p = ds := by
    cases ds with
    | nil => rfl
    | cons d ds => simp [head d rfl]
  rw [dropAround, keep head, keep (by simpa using last), List.reverse_reverse]

end Text

namespace Number

open Text Source

/-! ## Values -/

namespace Numeral

def value (n : Numeral) : ℚ := n.digits * 10 ^ n.exponent

theorem value_eq_div (n : Numeral) : n.value =
    ((n.digits * pow10 n.exponent.toNat : Nat) : ℚ) / (pow10 (-n.exponent).toNat : Nat) := by
  rw [value, zpow_eq_div (by norm_num), Nat.cast_mul, cast_pow10, cast_pow10, mul_div_assoc]

theorem two_pow_le_ten_pow (n : Nat) : (2 : ℚ) ^ (3 * n) ≤ 10 ^ n := by
  rw [pow_mul]
  exact pow_le_pow_left₀ (by positivity) (by norm_num) n

theorem valueOf_one : valueOf 1 = 2 ^ minExponent := by
  simpa using valueOf_step (k := 0) (s := 1) (by decide) (.inl rfl)

theorem valueOf_infinityBits : valueOf infinityBits = 2 ^ 1024 := by
  have step := valueOf_step (k := 2046) (s := 2 ^ 52) (by decide) (.inr le_rfl)
  have exponent : ((2046 : Nat) : ℤ) + minExponent = (972 : Nat) := by decide
  rw [exponent, zpow_natCast, Nat.cast_pow, Nat.cast_two, ← pow_add] at step
  exact step

variable {n : Numeral} {bits : Nat}

theorem infinityBits_le_of_nearest (h : Nearest n.value bits) (some : n.digits ≠ 0)
    (large : 400 < n.exponent) : infinityBits ≤ bits := by
  by_contra finite
  have half := h.below (Nat.lt_of_not_le finite)
  have below := valueOf_strictMono (Nat.lt_of_not_le finite)
  have exponent : n.exponent = (n.exponent.toNat : ℤ) := by omega
  have value : valueOf infinityBits ≤ n.value := by
    calc valueOf infinityBits = 2 ^ 1024 := valueOf_infinityBits
      _ ≤ 2 ^ (3 * n.exponent.toNat) := pow_le_pow_right₀ one_le_two (by omega)
      _ ≤ 10 ^ n.exponent.toNat := two_pow_le_ten_pow _
      _ ≤ n.digits * 10 ^ n.exponent.toNat :=
        le_mul_of_one_le_left (by positivity) (by exact_mod_cast Nat.one_le_iff_ne_zero.mpr some)
      _ = n.value := by rw [Numeral.value, exponent, zpow_natCast, Int.toNat_natCast]
  linarith

theorem eq_zero_of_nearest (h : Nearest n.value bits)
    (small : n.digits.log2 + 1080 < 3 * (-n.exponent).toNat) : bits = 0 := by
  by_contra some
  have half := h.above (Nat.pos_of_ne_zero some)
  have above := valueOf_strictMono.monotone (Nat.one_le_iff_ne_zero.mpr some)
  obtain ⟨down, hdown⟩ : ∃ down, down = (-n.exponent).toNat := ⟨_, rfl⟩
  have exponent : n.exponent = -(down : ℤ) := by omega
  have digits : (n.digits : ℚ) < 2 ^ (n.digits.log2 + 1) := by
    exact_mod_cast Nat.lt_log2_self (n := n.digits)
  have value : n.value < 2 ^ (-1080 : ℤ) := by
    rw [Numeral.value, exponent, zpow_neg, ← div_eq_mul_inv, div_lt_iff₀ (by positivity),
      zpow_natCast]
    calc (n.digits : ℚ) < 2 ^ (n.digits.log2 + 1) := digits
      _ ≤ 2 ^ (-1080 + ((3 * down : Nat) : ℤ)) := by
        rw [← zpow_natCast]
        exact zpow_le_zpow_right₀ one_le_two (by push_cast; omega)
      _ = 2 ^ (-1080 : ℤ) * 2 ^ (3 * down) := by rw [zpow_add₀ two_ne_zero, zpow_natCast]
      _ ≤ 2 ^ (-1080 : ℤ) * 10 ^ down := by gcongr; exact two_pow_le_ten_pow down
  have place : (2 : ℚ) ^ minExponent = 2 ^ (-1080 : ℤ) * 64 := by
    rw [show minExponent = -1080 + (6 : Nat) from rfl, zpow_add₀ two_ne_zero, zpow_natCast]
    norm_num
  have pos : (0 : ℚ) < 2 ^ (-1080 : ℤ) := by positivity
  rw [valueOf_zero] at half
  rw [valueOf_one, place] at above
  linarith

/-- A numeral is rounded to the nearest pattern, also where it is not multiplied out. -/
theorem toBits_eq (h : Nearest n.value bits) : n.toBits = min bits infinityBits := by
  rw [toBits]
  split_ifs with none large small
  · have zero : n.value = valueOf 0 := by simp [value, none, valueOf_zero]
    rw [← (zero.symm ▸ Nearest.self 0 : Nearest n.value 0).unique h]
    rfl
  · exact (Nat.min_eq_right (infinityBits_le_of_nearest h none large)).symm
  · rw [eq_zero_of_nearest h small]
    rfl
  · exact nearestBits_eq (Nat.pow_pos (by decide)) (value_eq_div n ▸ h)

end Numeral

/-! ## Spellings -/

section

variable {m e : List Char}

theorem readNumeral_append (hm : IsMantissa m) (he : IsExponent e) :
    Numeral.read (m ++ e) = ⟨digitsValue (m.takeWhile isDigit ++ (m.dropWhile isDigit).drop 1),
      Numeral.readExponent e - ((m.dropWhile isDigit).drop 1).length⟩ := by
  have length : mantissaLength (m ++ e) = m.length := mantissaLength_append hm (exponent_stops he)
  simp only [Numeral.read, length, List.take_left, List.drop_left]

theorem readNumeral_whole (some : m ≠ []) (digits : ∀ c ∈ m, isDigit c) (he : IsExponent e) :
    Numeral.read (m ++ e) = ⟨digitsValue m, Numeral.readExponent e⟩ := by
  have all : m.takeWhile isDigit = m := List.takeWhile_eq_self_iff.mpr digits
  have none : m.dropWhile isDigit = [] := List.dropWhile_eq_nil_iff.mpr digits
  rw [readNumeral_append (.whole some digits) he, all, none]
  simp

theorem readNumeral_point {whole fraction : List Char} (some : whole ≠ [])
    (digits : ∀ c ∈ whole, isDigit c) (digits' : ∀ c ∈ fraction, isDigit c) (he : IsExponent e) :
    Numeral.read (whole ++ '.' :: fraction ++ e) =
      ⟨digitsValue (whole ++ fraction), Numeral.readExponent e - fraction.length⟩ := by
  have point : isDigit '.' = false := by decide
  have before : (whole ++ '.' :: fraction).takeWhile isDigit = whole := by
    rw [List.takeWhile_append_of_pos digits, List.takeWhile_cons_of_neg (by simp [point]),
      List.append_nil]
  have after : (whole ++ '.' :: fraction).dropWhile isDigit = '.' :: fraction := by
    rw [List.dropWhile_append_of_pos digits, List.dropWhile_cons_of_neg (by simp [point])]
  rw [readNumeral_append (.point some digits digits') he, before, after]
  rfl

end

theorem dropUnderscores?_eq_self {cs : List Char} (h : '_' ∉ cs) (digit : Bool) :
    dropUnderscores? digit cs = some cs := by
  induction cs generalizing digit with
  | nil => rfl
  | cons c cs ih =>
    rw [List.mem_cons, not_or] at h
    rw [dropUnderscores?, if_neg (Ne.symm h.1), ih h.2]
    rfl

/-- A numeral does not begin like a name of infinity. -/
theorem toLower_ne_of_isDigit {c : Char} (h : isDigit c) : c.toLower ≠ 'i' := by
  intro same
  have range := digit_range h
  delta Char.toLower at same
  split at same
  · rename_i upper
    have below : 65 ≤ c.toNat ∧ c.toNat ≤ 90 := upper
    omega
  · subst same
    revert range
    decide

/-- A numeral of a source text stands for the number that it is read as, and for nothing else that a
text may spell. -/
theorem ofText_number {s : String} (h : IsNumber s) :
    ofText s.toList = ofMagnitudeBits (Numeral.read s.toList).toBits := by
  have length : numeralLength s.toList = s.toList.length := by
    simpa using numeralLength_append h Stops.nil
  obtain ⟨m, e, hs, hm, he⟩ := h
  have mem : ∀ c ∈ s.toList, isDigit c ∨ c ∈ ['.', 'e', 'E', '+', '-'] := by
    intro c hc
    rw [hs] at hc
    rcases List.mem_append.mp hc with hc | hc
    · exact (hm.mem c hc).imp id fun point => by simp [point]
    · exact (he.mem c hc).imp id (List.mem_cons_of_mem _)
  have padding : ∀ c ∈ s.toList, isPadding c = false := by
    intro c hc
    rcases mem c hc with digit | mark
    · rw [isPadding, isBlank_of_isDigit digit]
      rfl
    · have marks : (['.', 'e', 'E', '+', '-'].all (!isPadding ·)) = true := by decide
      exact Bool.not_eq_eq_eq_not.mp (List.all_eq_true.mp marks c mark)
  have underscore : '_' ∉ s.toList := fun hc => absurd (mem '_' hc) (by decide)
  obtain ⟨c, cs, hc⟩ := List.exists_cons_of_ne_nil hm.ne_nil
  have first := hm.mem c (hc ▸ List.mem_cons_self)
  have cs_eq : s.toList = c :: (cs ++ e) := by rw [hs, hc, List.cons_append]
  have unsigned : cutSign s.toList = (false, s.toList) := by
    have plus : c ≠ '+' := by rintro rfl; revert first; decide
    have minus : c ≠ '-' := by rintro rfl; revert first; decide
    simp [cs_eq, cutSign, plus, minus]
  have finite : infinityNames.contains (.ofList (s.toList.map Char.toLower)) = false := by
    have lower : c.toLower ≠ 'i' := by
      rcases first with digit | rfl
      · exact toLower_ne_of_isDigit digit
      · decide
    simp [infinityNames, cs_eq, lower, String.ext_iff]
  rw [ofText, dropAround_eq_self (fun c h => padding c (List.mem_of_head? h))
    fun c h => padding c (List.mem_of_getLast? h), unsigned]
  simp only [spelledBits?, finite, dropUnderscores?_eq_self underscore, length]
  simp [cs_eq]

/-! ## What is written -/

/-- A text is a numeral and is read as `n`. -/
structure Spells (cs : List Char) (n : Numeral) : Prop where
  number : IsNumber (.ofList cs)
  read : Numeral.read cs = n

section

variable {e : List Char} (he : IsExponent e)
include he

theorem spells_whole (ws : List Char) (some : ws ≠ []) (digits : ∀ c ∈ ws, c.isDigit) :
    Spells (ws ++ e) ⟨Nat.ofDigitChars 10 ws 0, Numeral.readExponent e⟩ where
  number :=
    ⟨ws, e, String.toList_ofList, .whole some fun c hc => isDigit_of_ascii (digits c hc), he⟩
  read := by
    rw [readNumeral_whole some (fun c hc => isDigit_of_ascii (digits c hc)) he,
      digitsValue_eq digits]

theorem spells_point (ws fs : List Char) (some : ws ≠ []) (digits : ∀ c ∈ ws ++ fs, c.isDigit) :
    Spells (ws ++ '.' :: fs ++ e)
      ⟨Nat.ofDigitChars 10 (ws ++ fs) 0, Numeral.readExponent e - fs.length⟩ := by
  have whole : ∀ c ∈ ws, isDigit c := fun c hc =>
    isDigit_of_ascii (digits c (List.mem_append_left _ hc))
  have fraction : ∀ c ∈ fs, isDigit c := fun c hc =>
    isDigit_of_ascii (digits c (List.mem_append_right _ hc))
  refine ⟨⟨_, e, String.toList_ofList, .point some whole fraction, he⟩, ?_⟩
  rw [readNumeral_point some whole fraction he, digitsValue_eq digits]

end

theorem isDigit_of_mem_zeros {n : Nat} {c : Char} (h : c ∈ List.replicate n '0') : c.isDigit := by
  rw [List.eq_of_mem_replicate h]
  rfl

theorem isDigit_of_mem_decimal {n : Nat} {c : Char} (h : c ∈ Nat.toDigits 10 n) : c.isDigit :=
  Nat.isDigit_of_mem_toDigits (by decide) (by decide) h

theorem isDigit_of_mem_padded {k n : Nat} :
    ∀ c ∈ List.replicate k '0' ++ Nat.toDigits 10 n, c.isDigit := by
  intro c hc
  rcases List.mem_append.mp hc with hc | hc
  · exact isDigit_of_mem_zeros hc
  · exact isDigit_of_mem_decimal hc

/-- Zeros in front do not count. -/
theorem ofDigitChars_padded (k n : Nat) :
    Nat.ofDigitChars 10 (List.replicate k '0' ++ Nat.toDigits 10 n) 0 = n := by
  rw [Nat.ofDigitChars_append, Nat.ofDigitChars_replicate_zero, Nat.mul_zero,
    Nat.ofDigitChars_ten_toDigits]

theorem spells_toDigits (n : Nat) : Spells (Nat.toDigits 10 n) ⟨n, 0⟩ := by
  have spells := spells_whole .none (Nat.toDigits 10 n) Nat.toDigits_ne_nil
    fun _ => isDigit_of_mem_decimal
  rwa [List.append_nil, Nat.ofDigitChars_ten_toDigits] at spells

section

variable {d : Nat}

theorem spells_positional (point : ℤ) (le : point ≤ (Nat.toDigits 10 d).length) :
    Spells (positional (Nat.toDigits 10 d) point) ⟨d, point - (Nat.toDigits 10 d).length⟩ := by
  have all : ∀ c ∈ Nat.toDigits 10 d, c.isDigit := fun _ => isDigit_of_mem_decimal
  rw [positional]
  split
  · have some : (Nat.toDigits 10 d).take point.toNat ≠ [] := by
      rw [← List.length_pos_iff, List.length_take]
      omega
    have spells := spells_point .none _ ((Nat.toDigits 10 d).drop point.toNat) some
      (by rwa [List.take_append_drop])
    have place : 0 - (((Nat.toDigits 10 d).drop point.toNat).length : ℤ) =
        point - (Nat.toDigits 10 d).length := by
      rw [List.length_drop]
      omega
    rwa [List.append_nil, List.take_append_drop, Nat.ofDigitChars_ten_toDigits,
      Numeral.readExponent, place] at spells
  · have spells := spells_point .none
      (List.replicate 1 '0') (List.replicate (-point).toNat '0' ++ Nat.toDigits 10 d)
      (by simp) (by
        rw [← List.append_assoc, List.replicate_append_replicate]
        exact isDigit_of_mem_padded)
    have place : 0 - ((List.replicate (-point).toNat '0' ++ Nat.toDigits 10 d).length : ℤ) =
        point - (Nat.toDigits 10 d).length := by
      rw [List.length_append, List.length_replicate]
      omega
    rwa [List.append_nil, ← List.append_assoc, List.replicate_append_replicate, ofDigitChars_padded,
      Numeral.readExponent, place] at spells

theorem spells_scientific (exponent : ℤ) (neg : exponent < 0) :
    Spells (scientific (Nat.toDigits 10 d) exponent)
      ⟨d, exponent - ((Nat.toDigits 10 d).length - 1)⟩ := by
  obtain ⟨first, rest, hd⟩ := List.exists_cons_of_ne_nil (Nat.toDigits_ne_nil (b := 10) (n := d))
  have value : Nat.ofDigitChars 10 (first :: rest) 0 = d := by
    rw [← hd, Nat.ofDigitChars_ten_toDigits]
  have all : ∀ c ∈ first :: rest, c.isDigit := fun _ hc => isDigit_of_mem_decimal (hd ▸ hc)
  obtain ⟨size, hsize⟩ : ∃ size, size =
      List.replicate (2 - (Nat.toDigits 10 exponent.natAbs).length) '0' ++
        Nat.toDigits 10 exponent.natAbs := ⟨_, rfl⟩
  have digits : ∀ c ∈ size, c.isDigit := hsize ▸ isDigit_of_mem_padded
  have place : Numeral.readExponent ('e' :: '-' :: size) = exponent := by
    rw [Numeral.readExponent, digitsValue_eq digits, hsize, ofDigitChars_padded]
    omega
  have he : IsExponent ('e' :: (['-'] ++ size)) := by
    refine .some (.inl rfl) (.inr (.inr rfl)) ?_ fun c hc => isDigit_of_ascii (digits c hc)
    simp [hsize, Nat.toDigits_ne_nil]
  cases rest with
  | nil =>
    have spells := spells_whole he [first] (by simp) all
    have text : scientific (Nat.toDigits 10 d) exponent = [first] ++ 'e' :: (['-'] ++ size) := by
      simp [scientific, hd, hsize]
    rw [text, hd]
    simpa [value, place] using spells
  | cons next rest =>
    have spells := spells_point he [first] (next :: rest) (by simp) all
    have text : scientific (Nat.toDigits 10 d) exponent =
        [first] ++ '.' :: next :: rest ++ 'e' :: (['-'] ++ size) := by
      simp [scientific, hd, hsize]
    rw [text, hd]
    simpa [value, place] using spells

/-- A number that is not integral is written with the digits and the place that it is read with. -/
theorem spells_fractional {exponent : ℤ} (neg : exponent < 0) :
    Spells (fractional d exponent) ⟨d, exponent⟩ := by
  have some := Nat.length_toDigits_pos (b := 10) (n := d)
  rw [fractional]
  split
  · have spells := spells_positional (d := d)
      (exponent + (Nat.toDigits 10 d).length - 1 + 1) (by omega)
    convert spells using 2
    omega
  · rename_i large
    rw [leastPositional] at large
    have spells := spells_scientific (d := d)
      (exponent + (Nat.toDigits 10 d).length - 1) (by omega)
    convert spells using 2
    omega

end

end Number

end Scriptlet
