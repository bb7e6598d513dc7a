import FrameNotation.Proofs.Number.Shortest

namespace FrameNotation

open Text

namespace Decimal

variable {d : Decimal}

-- The decimal is written with a point, and so reads back as a double.
def hasPoint (d : Decimal) : Bool := d.isPositional || decide (d.exponent < 0)

-- Digits on both sides of a point, and the decimal they stand for.
structure Pointed (d : Decimal) (whole fraction : List CodePoint) : Prop where
  whole_ne : whole ≠ []
  fraction_ne : fraction ≠ []
  whole_digits : ∀ c ∈ whole, c.isDigit = true
  fraction_digits : ∀ c ∈ fraction, c.isDigit = true
  value_eq : (digitsValue (whole ++ fraction) : ℚ) / 10 ^ fraction.length = d.value

theorem isDigit_replicate {n : Nat} {c : CodePoint} (hc : c ∈ List.replicate n (char '0')) :
    c.isDigit = true := by
  rw [List.eq_of_mem_replicate hc]
  rfl

theorem isDigit_append {cs ds : List CodePoint} (hcs : ∀ c ∈ cs, c.isDigit = true)
    (hds : ∀ c ∈ ds, c.isDigit = true) : ∀ c ∈ cs ++ ds, c.isDigit = true := by
  intro c hc
  rcases List.mem_append.mp hc with hc | hc
  · exact hcs c hc
  · exact hds c hc

-- A whole number gets a zero after the point.
theorem pointed_whole (h : 0 ≤ d.exponent) : Pointed d d.positional [char '0'] := by
  have hpositional :
      d.positional = digitChars d.digits ++ List.replicate d.exponent.toNat (char '0') := by
    rw [positional, if_pos h]
  rw [hpositional]
  refine ⟨by simp [digitChars_ne_nil], by simp,
    isDigit_append (fun _ => isDigit_digitChars) fun _ => isDigit_replicate,
    by simp [CodePoint.isDigit], ?_⟩
  have hzero : digitsValue [char '0'] = 0 := rfl
  rw [digitsValue_append, digitsValue_append, digitsValue_digitChars, digitsValue_replicate_zero,
    hzero, value]
  obtain ⟨e, he⟩ := Int.eq_ofNat_of_zero_le h
  rw [he]
  simp

-- With a negative exponent the point stands inside the digits or in front of them.
theorem pointed_fraction (h : d.exponent < 0) : ∃ whole fraction,
    d.positional = whole ++ char '.' :: fraction ∧ Pointed d whole fraction := by
  have hdigits : ∀ c ∈ digitChars d.digits, c.isDigit = true := fun _ => isDigit_digitChars
  have hvalue (places : Nat) (hplaces : (places : Int) = -d.exponent) :
      (d.digits : ℚ) / 10 ^ places = d.value := by
    rw [value, show d.exponent = -(places : Int) by omega, zpow_neg, zpow_natCast, div_eq_mul_inv]
  rw [positional, if_neg (by omega)]
  by_cases hpoint : 0 < (digitChars d.digits).length + d.exponent
  · rw [if_pos hpoint]
    refine ⟨_, _, rfl, ?_, ?_, fun c hc => hdigits c (List.mem_of_mem_take hc),
      fun c hc => hdigits c (List.mem_of_mem_drop hc), ?_⟩
    · rw [← List.length_pos_iff, List.length_take]
      omega
    · rw [← List.length_pos_iff, List.length_drop]
      omega
    · rw [List.take_append_drop, digitsValue_digitChars]
      exact hvalue _ (by rw [List.length_drop]; omega)
  · rw [if_neg hpoint]
    refine ⟨[char '0'],
      List.replicate (-((digitChars d.digits).length + d.exponent)).toNat (char '0') ++
        digitChars d.digits, rfl, by simp, by simp [digitChars_ne_nil],
      by simp [CodePoint.isDigit],
      isDigit_append (fun _ => isDigit_replicate) hdigits, ?_⟩
    have hzero : digitsValue [char '0'] = 0 := rfl
    rw [digitsValue_append, digitsValue_append, digitsValue_digitChars, digitsValue_replicate_zero,
      hzero, Nat.zero_mul, Nat.zero_mul, Nat.zero_add, Nat.zero_add]
    exact hvalue _ (by simp; omega)

theorem wire_point (h : d.hasPoint = true) :
    ∃ whole fraction, d.wire = whole ++ char '.' :: fraction ∧
    Pointed d whole fraction := by
  by_cases hwhole : 0 ≤ d.exponent
  · have hpositional : d.isPositional = true := by
      simpa [hasPoint, not_lt.mpr hwhole] using h
    refine ⟨d.positional, [char '0'], ?_, pointed_whole hwhole⟩
    rw [wire, if_pos hpositional, display, hpositional, if_neg (by simp), if_pos hwhole]
  · obtain ⟨whole, fraction, hpositional, hpointed⟩ := pointed_fraction (not_le.mp hwhole)
    refine ⟨whole, fraction, ?_, hpointed⟩
    rw [← hpositional, wire, display, if_neg hwhole]
    cases d.isPositional <;> rfl

-- Without a point the decimal is a whole number, with all its digits.
theorem wire_whole (h : d.hasPoint = false) : 0 ≤ d.exponent ∧
    d.wire = digitChars d.digits ++ List.replicate d.exponent.toNat (char '0') := by
  simp only [hasPoint, Bool.or_eq_false_iff, decide_eq_false_iff_not, not_lt] at h
  refine ⟨h.2, ?_⟩
  rw [wire, h.1, if_neg (by simp), positional, if_pos h.2]

-- The whole number that a decimal without a point stands for.
def whole (d : Decimal) : Nat := d.digits * tenPow d.exponent.toNat

theorem value_whole (h : 0 ≤ d.exponent) : (d.whole : ℚ) = d.value := by
  obtain ⟨e, he⟩ := Int.eq_ofNat_of_zero_le h
  rw [whole, value, tenPow_eq, he, Int.toNat_natCast, zpow_natCast]
  push_cast
  rfl

-- Zeros at the end of the digits are those of the power of ten.
theorem digitChars_mul_tenPow {n : Nat} (hn : 0 < n) (places : Nat) :
    digitChars (n * tenPow places) = digitChars n ++ List.replicate places (char '0') := by
  induction places with
  | zero => simp [tenPow_eq]
  | succ places ih =>
      have hpos : 0 < n * tenPow places := by
        rw [tenPow_eq]
        positivity
      have hlast : digitChars (10 * (n * tenPow places) + 0) =
          digitChars (n * tenPow places) ++ [char '0'] := by
        rw [digitChars, ← Nat.toDigits_append_toDigits (by decide) hpos (by decide),
          List.map_append]
        rfl
      have hnext : n * tenPow (places + 1) = 10 * (n * tenPow places) + 0 := by
        rw [tenPow_eq, tenPow_eq, Nat.pow_succ]
        ring
      rw [hnext, hlast, ih, List.append_assoc, List.replicate_succ']

theorem hasPoint_shortest_zero (exponent : Int) : (Decimal.shortest 0 exponent).hasPoint = true :=
  (by decide : (Decimal.mk 0 0).hasPoint = true)

end Decimal

namespace Number

open Binary

-- The number that is read back after a number was written. A double without a point comes back as
-- the integer its digits stand for.
def echo : Number → Number
  | .float x =>
    match Binary.ofFloat x with
    | .finite negative mantissa exponent =>
      let shortest := Decimal.shortest mantissa exponent
      if shortest.hasPoint then .float x
      else .int (if negative then -(shortest.whole : Int) else shortest.whole)
    | _ => .float x
  | n => n

-- A finite number, and if it is an integer, one of not too many digits.
def IsCarried : Number → Prop
  | .int i => i.natAbs < tenPow maxDigits
  | n => n.isFinite = true

theorem neg_finite {mantissa : Nat} {exponent : Int} (hcanonical : Canonical mantissa exponent) :
    -(Float.ofModel (Float.Model.pack (.finite .positive mantissa exponent hcanonical.pos))) =
      Float.ofModel (Float.Model.pack (.finite .negative mantissa exponent hcanonical.pos)) := by
  have hneg : -(Float.ofModel
      (Float.Model.pack (.finite .positive mantissa exponent hcanonical.pos))) =
      Float.ofModel (Float.Model.pack
        (Float.Model.pack (.finite .positive mantissa exponent hcanonical.pos)).unpack.neg) := rfl
  rw [hneg, unpack_pack hcanonical]
  rfl

-- The text of a number and what it is read as.
structure Carries (n : Number) (negative : Bool) (digits : List CodePoint) : Prop where
  wire_eq : n.wire = .ok (signed negative digits)
  head_digit : ∃ c rest, digits = c :: rest ∧ c.isDigit = true
  digit_or_point : ∀ c ∈ digits, c.isDigit = true ∨ c = '.'
  reads : ∃ numeral, Numeral.ofChars? (signed negative digits) = some numeral ∧
    numeral.value = .ok n.echo

theorem head_digit {cs : List CodePoint} (hne : cs ≠ []) (hdigits : ∀ c ∈ cs, c.isDigit = true) :
    ∃ c rest, cs = c :: rest ∧ c.isDigit = true := by
  obtain ⟨c, rest, rfl⟩ := List.exists_cons_of_ne_nil hne
  exact ⟨c, rest, rfl, hdigits c (by simp)⟩

section Doubles

variable {x : Float} {negative : Bool} {mantissa : Nat} {exponent : Int} {d : Decimal}

theorem exists_ofFloat (h : (Number.float x).isFinite = true) :
    ∃ negative mantissa exponent, ofFloat x = .finite negative mantissa exponent := by
  simp only [isFinite] at h
  split at h
  · exact ⟨_, _, _, by assumption⟩
  · cases h

theorem wire_float (h : ofFloat x = .finite negative mantissa exponent) :
    (Number.float x).wire = .ok (signed negative (Decimal.shortest mantissa exponent).wire) := by
  simp only [wire, toFloat, floatChars, h]

theorem echo_float (h : ofFloat x = .finite negative mantissa exponent) :
    (Number.float x).echo = if (Decimal.shortest mantissa exponent).hasPoint then .float x
      else .int (if negative then -((Decimal.shortest mantissa exponent).whole : Int)
        else (Decimal.shortest mantissa exponent).whole) := by
  simp only [echo, h]

-- What rounds to a positive double is positive.
theorem pos_of_admits {value : ℚ} (hcanonical : Canonical mantissa exponent)
    (h : (Rounding.ofParts mantissa exponent).Admits value) : 0 < value := by
  have hunits : 0 < (Rounding.ofParts mantissa exponent).low := by
    have hle := le_low mantissa exponent
    have hpos := hcanonical.pos
    omega
  have hlow : (0 : ℚ) < (Rounding.ofParts mantissa exponent).low *
      2 ^ (Rounding.ofParts mantissa exponent).exponent :=
    mul_pos (by exact_mod_cast hunits) (by positivity)
  exact lt_of_lt_of_le hlow h.low_le

theorem read_pointed {whole fraction : List CodePoint} (hcanonical : Canonical mantissa exponent)
    (hpointed : Decimal.Pointed (Decimal.shortest mantissa exponent) whole fraction) :
    Float.ofScientific (digitsValue (whole ++ fraction)) true fraction.length =
      Float.ofModel (Float.Model.pack (.finite .positive mantissa exponent hcanonical.pos)) := by
  have hadmits := Rounding.admits_shortest hcanonical
  rw [← hpointed.value_eq] at hadmits
  have hpos : 0 < digitsValue (whole ++ fraction) := by
    have hvalue := pos_of_admits hcanonical hadmits
    rw [div_pos_iff_of_pos_right (by positivity)] at hvalue
    exact_mod_cast hvalue
  exact ofScientific_eq hpos (List.length_pos_iff.mpr hpointed.fraction_ne) hcanonical hadmits

-- The digits of a double that is whole are never too many.
theorem length_whole_le (hcanonical : Canonical mantissa exponent)
    (h : (Rounding.ofParts mantissa exponent).Admits d.value) (hwhole : 0 ≤ d.exponent) :
    (Decimal.digitChars d.digits ++ List.replicate d.exponent.toNat (char '0')).length ≤
    maxDigits := by
  rw [← Decimal.value_whole hwhole] at h
  have hpos : 0 < d.whole := by exact_mod_cast pos_of_admits hcanonical h
  have hlt : d.whole < 10 ^ 1024 := by
    have hvalue : (d.whole : ℚ) < 10 ^ 1024 := by
      have hgreatest := hcanonical.le_greatest
      simp only [greatestExponent] at hgreatest
      calc (d.whole : ℚ) < 2 ^ (53 + exponent) := lt_of_admits hcanonical h
        _ ≤ 2 ^ ((1024 : ℕ) : Int) := zpow_le_zpow_right₀ (by norm_num) (by omega)
        _ = 2 ^ 1024 := zpow_natCast _ _
        _ ≤ 10 ^ 1024 := pow_le_pow_left₀ (by norm_num) (by norm_num) _
    exact_mod_cast hvalue
  have hdigits : 0 < d.digits := Nat.pos_of_mul_pos_right hpos
  have hlow := Decimal.pow_length_le hdigits
  have hpow : 10 ^ ((Decimal.digitChars d.digits).length - 1 + d.exponent.toNat) < 10 ^ 1024 := by
    rw [Nat.pow_add]
    exact Nat.lt_of_le_of_lt (Nat.mul_le_mul_right _ hlow) hlt
  have hlength := (Nat.pow_lt_pow_iff_right (by decide)).mp hpow
  rw [List.length_append, List.length_replicate, maxDigits]
  omega

-- Digits with a point are read as a double.
theorem carries_point {whole fraction : List CodePoint}
    (h : ofFloat x = .finite negative mantissa exponent)
    (hpoint : (Decimal.shortest mantissa exponent).hasPoint = true)
    (hwire : (Decimal.shortest mantissa exponent).wire = whole ++ char '.' :: fraction)
    (hpointed : Decimal.Pointed (Decimal.shortest mantissa exponent) whole fraction)
    (hread : (if negative
      then -Float.ofScientific (digitsValue (whole ++ fraction)) true fraction.length
      else Float.ofScientific (digitsValue (whole ++ fraction)) true fraction.length) = x) :
    Carries (.float x) negative (whole ++ char '.' :: fraction) := by
  have hhead : ∃ c rest, whole ++ char '.' :: fraction = c :: rest ∧ c.isDigit = true := by
    obtain ⟨c, rest, rfl, hc⟩ := head_digit hpointed.whole_ne hpointed.whole_digits
    exact ⟨c, rest ++ char '.' :: fraction, rfl, hc⟩
  refine ⟨by rw [wire_float h, hwire], hhead, ?_, ⟨negative, whole, some fraction⟩, ?_, ?_⟩
  · intro c hc
    simp only [List.mem_append, List.mem_cons] at hc
    rcases hc with hc | rfl | hc
    · exact .inl (hpointed.whole_digits c hc)
    · exact .inr rfl
    · exact .inl (hpointed.fraction_digits c hc)
  · obtain ⟨c, rest, hcons, hc⟩ := hhead
    rw [Numeral.ofChars?_signed (by rw [hcons]; simpa using hc)]
    exact Numeral.unsigned?_point hpointed.whole_digits hpointed.whole_ne
      hpointed.fraction_digits hpointed.fraction_ne
  · rw [echo_float h, if_pos hpoint, ← hread]
    rfl

-- Zero is written with a point and keeps its sign.
theorem carries_zero (h : ofFloat x = .finite negative 0 exponent)
    (hx : x = Float.ofModel (Float.Model.pack (.zero (signOf negative)))) :
    Carries (.float x) negative [char '0', char '.', char '0'] := by
  have hzero : Decimal.shortest 0 exponent = ⟨0, 0⟩ := rfl
  have hwire : (Decimal.shortest 0 exponent).wire = [char '0'] ++ char '.' :: [char '0'] := by
    rw [hzero]
    decide
  have hpointed : Decimal.Pointed (Decimal.shortest 0 exponent) [char '0'] [char '0'] := by
    have hpositional : (Decimal.mk 0 0).positional = [char '0'] := by decide
    have hwhole : Decimal.Pointed ⟨0, 0⟩ (Decimal.mk 0 0).positional [char '0'] :=
      Decimal.pointed_whole (Int.le_refl 0)
    rwa [hpositional] at hwhole
  have hread : Float.ofScientific (digitsValue [char '0', char '0']) true 1 =
      Float.ofModel (Float.Model.pack (.zero .positive)) := by decide
  have hneg : -Float.ofModel (Float.Model.pack (.zero .positive)) =
      Float.ofModel (Float.Model.pack (.zero .negative)) := by decide
  apply carries_point h (Decimal.hasPoint_shortest_zero exponent) hwire hpointed
  rw [hx]
  cases negative with
  | true => exact (congrArg (- ·) hread).trans hneg
  | false => exact hread

theorem carries_pointed {whole fraction : List CodePoint}
    (h : ofFloat x = .finite negative mantissa exponent) (hcanonical : Canonical mantissa exponent)
    (hx : x = Float.ofModel
      (Float.Model.pack (.finite (signOf negative) mantissa exponent hcanonical.pos)))
    (hpoint : (Decimal.shortest mantissa exponent).hasPoint = true)
    (hwire : (Decimal.shortest mantissa exponent).wire = whole ++ char '.' :: fraction)
    (hpointed : Decimal.Pointed (Decimal.shortest mantissa exponent) whole fraction) :
    Carries (.float x) negative (whole ++ char '.' :: fraction) := by
  apply carries_point h hpoint hwire hpointed
  rw [read_pointed hcanonical hpointed, hx]
  cases negative with
  | true => exact neg_finite hcanonical
  | false => rfl

theorem carries_whole (h : ofFloat x = .finite negative mantissa exponent)
    (hcanonical : Canonical mantissa exponent)
    (hpoint : (Decimal.shortest mantissa exponent).hasPoint = false) :
    Carries (.float x) negative (Decimal.shortest mantissa exponent).wire := by
  obtain ⟨hwhole, hwire⟩ := Decimal.wire_whole hpoint
  have hdigits : ∀ c ∈ (Decimal.shortest mantissa exponent).wire, c.isDigit = true := by
    rw [hwire]
    exact Decimal.isDigit_append (fun _ => Decimal.isDigit_digitChars)
      fun _ => Decimal.isDigit_replicate
  have hne : (Decimal.shortest mantissa exponent).wire ≠ [] := by
    rw [hwire]
    simp [Decimal.digitChars_ne_nil]
  have hhead := head_digit hne hdigits
  refine ⟨wire_float h, hhead, fun c hc => .inl (hdigits c hc),
    ⟨negative, (Decimal.shortest mantissa exponent).wire, none⟩, ?_, ?_⟩
  · obtain ⟨c, rest, hcons, hc⟩ := hhead
    rw [Numeral.ofChars?_signed (by rw [hcons]; simpa using hc)]
    exact Numeral.unsigned?_whole hdigits hne
  · have hlength : (Decimal.shortest mantissa exponent).wire.length ≤ maxDigits := by
      rw [hwire]
      exact length_whole_le hcanonical (Rounding.admits_shortest hcanonical) hwhole
    have hvalue : digitsValue (Decimal.shortest mantissa exponent).wire =
        (Decimal.shortest mantissa exponent).whole := by
      rw [hwire, digitsValue_append, Decimal.digitsValue_digitChars, digitsValue_replicate_zero,
        List.length_replicate]
      rfl
    rw [echo_float h, hpoint, Numeral.value, readDigits, if_pos hlength, hvalue]
    rfl

-- The integer that a double without a point comes back as has the digits of the double.
theorem wire_int_whole (hcanonical : Canonical mantissa exponent)
    (hpoint : (Decimal.shortest mantissa exponent).hasPoint = false) :
    (Number.int (if negative then -((Decimal.shortest mantissa exponent).whole : Int)
      else (Decimal.shortest mantissa exponent).whole)).wire =
        .ok (signed negative (Decimal.shortest mantissa exponent).wire) := by
  obtain ⟨hwhole, hwire⟩ := Decimal.wire_whole hpoint
  have hadmits := Rounding.admits_shortest hcanonical
  have hlength := length_whole_le hcanonical hadmits hwhole
  rw [hwire]
  rw [← Decimal.value_whole hwhole] at hadmits
  have hpos : 0 < (Decimal.shortest mantissa exponent).whole := by
    exact_mod_cast pos_of_admits hcanonical hadmits
  generalize Decimal.shortest mantissa exponent = d at *
  have hdigits : Decimal.digitChars d.whole =
      Decimal.digitChars d.digits ++ List.replicate d.exponent.toNat (char '0') :=
    Decimal.digitChars_mul_tenPow (Nat.pos_of_mul_pos_right hpos) _
  rw [← hdigits] at hlength ⊢
  have hlt (limit : Nat) (h : (Decimal.digitChars d.whole).length ≤ limit) :
      d.whole < tenPow limit :=
    calc d.whole < 10 ^ (Decimal.digitChars d.whole).length := Decimal.lt_pow_length d.whole
      _ ≤ tenPow limit := Nat.pow_le_pow_right (by decide) h
  have hchars (i : Int) (hi : i.natAbs = d.whole) :
      intChars i = .ok (signed (decide (i < 0)) (Decimal.digitChars d.whole)) := by
    rw [intChars, hi, if_pos (hlt maxDigits hlength)]
  rw [wire]
  cases negative with
  | true =>
      have hsign : decide (-(d.whole : Int) < 0) = true := by simpa using hpos
      rw [if_pos rfl, hchars _ (by simp), hsign]
  | false =>
      have hsign : decide ((d.whole : Int) < 0) = false := by simp
      rw [if_neg (by simp), hchars _ (by simp), hsign]

end Doubles

-- Every number that is written is read as its echo.
theorem exists_carries {n : Number} (h : n.IsCarried) :
    ∃ negative digits, Carries n negative digits := by
  cases n with
  | int i =>
      obtain ⟨digits, numeral, hwire, hne, hdigits, hread, hvalue⟩ := read_intChars h
      exact ⟨_, digits, hwire, head_digit hne hdigits, fun c hc => .inl (hdigits c hc), numeral,
        hread, hvalue⟩
  | float x =>
      obtain ⟨negative, mantissa, exponent, hfinite⟩ := exists_ofFloat h
      rcases of_ofFloat hfinite with ⟨rfl, hx⟩ | ⟨hcanonical, hx⟩
      · exact ⟨negative, _, carries_zero hfinite hx⟩
      · cases hpoint : (Decimal.shortest mantissa exponent).hasPoint with
        | true =>
            obtain ⟨whole, fraction, hwire, hpointed⟩ := Decimal.wire_point hpoint
            exact ⟨negative, _, carries_pointed hfinite hcanonical hx hpoint hwire hpointed⟩
        | false => exact ⟨negative, _, carries_whole hfinite hcanonical hpoint⟩
  | nan label => cases h

-- What comes back after a number was written is written the same way.
theorem wire_echo (n : Number) : n.echo.wire = n.wire := by
  cases n with
  | int i => rfl
  | nan label => rfl
  | float x =>
      cases hfloat : ofFloat x with
      | nan => simp only [echo, hfloat]
      | infinite negative => simp only [echo, hfloat]
      | finite negative mantissa exponent =>
          rw [echo_float hfloat]
          rcases of_ofFloat hfloat with ⟨rfl, -⟩ | ⟨hcanonical, -⟩
          · rw [if_pos (Decimal.hasPoint_shortest_zero exponent)]
          · cases hpoint : (Decimal.shortest mantissa exponent).hasPoint with
            | true => rfl
            | false => exact (wire_int_whole hcanonical hpoint).trans (wire_float hfloat).symm

theorem isFinite_echo (n : Number) : n.echo.isFinite = n.isFinite := by
  cases n with
  | int i => rfl
  | nan label => rfl
  | float x =>
      cases hfloat : ofFloat x with
      | nan => simp only [echo, hfloat]
      | infinite negative => simp only [echo, hfloat]
      | finite negative mantissa exponent =>
          have hfinite : (Number.float x).isFinite = true := by simp only [isFinite, hfloat]
          rw [echo_float hfloat, hfinite]
          split_ifs <;> first | rfl | exact hfinite

end Number

end FrameNotation
