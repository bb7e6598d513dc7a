import FrameNotation.Proofs.Number.Quotient
import Mathlib.Tactic.FieldSimp
import Mathlib.Tactic.Positivity
import Mathlib.Algebra.Order.Field.Power
import Mathlib.Data.Rat.Cast.Order
import Mathlib.Algebra.Order.Field.Rat

namespace FrameNotation

-- A rational that rounds to the double.
structure Rounding.Admits (r : Rounding) (value : ℚ) : Prop where
  low_le : r.low * 2 ^ r.exponent ≤ value
  le_high : value ≤ r.high * 2 ^ r.exponent
  strict : r.closed = false → r.low * 2 ^ r.exponent < value ∧ value < r.high * 2 ^ r.exponent

namespace Binary

open Float.Model Float.Model.UnpackedFloat

variable {num den mantissa shift : Nat} {exponent least : Int}

-- A value counted in whole numbers.
theorem around_of_admits (hden : 0 < den)
    (h : (Rounding.ofParts mantissa (least + shift)).Admits (num / den * 2 ^ least)) :
    Around (.ofParts mantissa (least + shift)) (4 * num) (den * 2 ^ shift) := by
  have hpow : (0 : ℚ) < 2 ^ least := by positivity
  have hpos : (0 : ℚ) < den := by exact_mod_cast hden
  have hunits (units : ℕ) : (units : ℚ) * 2 ^ (least + shift - 2) =
      (units * (den * 2 ^ shift) : ℕ) / (4 * den) * 2 ^ least := by
    rw [zpow_sub₀ (by norm_num), zpow_add₀ (by norm_num)]
    push_cast
    field_simp
    norm_num
  have hvalue : (num : ℚ) / den * 2 ^ least = (4 * num : ℕ) / (4 * den) * 2 ^ least := by
    push_cast
    field_simp
  obtain ⟨hlow, hhigh, hstrict⟩ := h
  have hexponent : (Rounding.ofParts mantissa (least + shift)).exponent = least + shift - 2 := rfl
  have hfour : (0 : ℚ) < 4 * den := by positivity
  rw [hexponent, hunits, hvalue, mul_le_mul_iff_left₀ hpow, div_le_div_iff_of_pos_right hfour,
    Nat.cast_le] at hlow hhigh
  rw [hexponent, hunits, hvalue, hunits, mul_lt_mul_iff_left₀ hpow, mul_lt_mul_iff_left₀ hpow,
    div_lt_div_iff_of_pos_right hfour, div_lt_div_iff_of_pos_right hfour, Nat.cast_lt,
    Nat.cast_lt] at hstrict
  exact ⟨hlow, hhigh, hstrict⟩

-- The power of two below a quotient, from those around its parts.
theorem pow_mul_le_shiftLeft {m₁ m₂ extra bits : Nat} (h₁ : 0 < m₁)
    (hbits : bits + m₂.log2 + 1 = m₁.log2 + extra) : 2 ^ bits * m₂ ≤ m₁ <<< extra := by
  have hlow : 2 ^ m₁.log2 ≤ m₁ := Nat.log2_self_le (by omega)
  have hhigh : m₂ ≤ 2 ^ (m₂.log2 + 1) := Nat.le_of_lt Nat.lt_log2_self
  calc 2 ^ bits * m₂ ≤ 2 ^ bits * 2 ^ (m₂.log2 + 1) := Nat.mul_le_mul_left _ hhigh
    _ = 2 ^ m₁.log2 * 2 ^ extra := by rw [← Nat.pow_add, ← Nat.pow_add, ← hbits, Nat.add_assoc]
    _ ≤ m₁ * 2 ^ extra := Nat.mul_le_mul_right _ hlow
    _ = m₁ <<< extra := (Nat.shiftLeft_eq m₁ extra).symm

theorem lt_of_admits {value : ℚ} (hcanonical : Canonical mantissa exponent)
    (h : (Rounding.ofParts mantissa exponent).Admits value) : value < 2 ^ (53 + exponent) := by
  have hhigh : value ≤ (4 * mantissa + 2 : ℕ) * 2 ^ (exponent - 2) := h.le_high
  have hm : 4 * mantissa + 2 < 2 ^ 55 := by
    have hlt := hcanonical.lt_double
    rw [topBit_value] at hlt
    omega
  have hpow : (0 : ℚ) < 2 ^ (exponent - 2) := by positivity
  calc value ≤ (4 * mantissa + 2 : ℕ) * 2 ^ (exponent - 2) := hhigh
    _ < (2 ^ 55 : ℕ) * 2 ^ (exponent - 2) := mul_lt_mul_of_pos_right (by exact_mod_cast hm) hpow
    _ = 2 ^ (53 + exponent) := by
        rw [zpow_sub₀ (by norm_num), zpow_add₀ (by norm_num)]
        norm_num
        ring

-- The top bit of the quotient is no higher than that of a double to which it rounds.
theorem add_lt_of_admits {bits : Nat} (hden : 0 < den) (hcanonical : Canonical mantissa exponent)
    (hpow : 2 ^ bits * den ≤ num)
    (h : (Rounding.ofParts mantissa exponent).Admits (num / den * 2 ^ least)) :
    bits + least < 53 + exponent := by
  have hlow : (2 : ℚ) ^ (bits + least : Int) ≤ num / den * 2 ^ least := by
    have hpos : (0 : ℚ) < den := by exact_mod_cast hden
    rw [zpow_add₀ (by norm_num), zpow_natCast]
    refine mul_le_mul_of_nonneg_right ?_ (by positivity)
    rw [le_div_iff₀ hpos]
    exact_mod_cast hpow
  exact (zpow_lt_zpow_iff_right₀ (by norm_num : (1 : ℚ) < 2)).mp
    (lt_of_le_of_lt hlow (lt_of_admits hcanonical h))

-- The quotient of two doubles is the double to which the exact quotient rounds.
theorem div_eq {m₁ m₂ : Nat} {e₁ e₂ : Int} (h₁ : 0 < m₁) (h₂ : 0 < m₂)
    (hcanonical : Canonical mantissa exponent)
    (h : (Rounding.ofParts mantissa exponent).Admits (m₁ / m₂ * 2 ^ (e₁ - e₂))) :
    UnpackedFloat.div Format.binary64 (.finite .positive m₁ e₁ h₁) (.finite .positive m₂ e₂ h₂) =
      .finite .positive mantissa exponent hcanonical.pos := by
  let total := totalExponent m₁ e₁ - totalExponent m₂ e₂
  let least := min (e₁ - e₂) (Format.binary64.targetExponent total)
  have hleast : least ≤ e₁ - e₂ := Int.min_le_left _ _
  have htarget : least ≤ Format.binary64.targetExponent total := Int.min_le_right _ _
  obtain ⟨extra, hextra⟩ : ∃ extra : Nat, e₁ - e₂ = least + extra :=
    ⟨(e₁ - e₂ - least).toNat, by omega⟩
  have hnum : (e₁ - e₂ - least).toNat = extra := by omega
  have hvalue : (m₁ : ℚ) / m₂ * 2 ^ (e₁ - e₂) = (m₁ <<< extra : ℕ) / m₂ * 2 ^ least := by
    rw [hextra, Nat.shiftLeft_eq, zpow_add₀ (by norm_num)]
    push_cast
    rw [zpow_natCast]
    ring
  rw [hvalue] at h
  have hbounds : least ≤ Format.binary64.targetExponent (totalExponent (m₁ <<< extra / m₂) least) ∧
      least ≤ exponent := by
    rw [targetExponent_eq] at htarget
    by_cases hsmall : total - 53 ≤ leastExponent
    · have hmin := hcanonical.least_le
      rw [targetExponent_eq]
      omega
    · obtain ⟨bits, hbits⟩ : ∃ bits : Nat, total - 1 - least = bits :=
        ⟨(total - 1 - least).toNat, by omega⟩
      have htotal : total = m₁.log2 + 1 + e₁ - (m₂.log2 + 1 + e₂) := rfl
      have hpow : 2 ^ bits * m₂ ≤ m₁ <<< extra := pow_mul_le_shiftLeft h₁ (by omega)
      have hlog : bits ≤ (m₁ <<< extra / m₂).log2 := le_log2_div h₂ hpow
      have hplace := add_lt_of_admits h₂ hcanonical hpow h
      rw [targetExponent_eq, totalExponent]
      omega
  obtain ⟨shift, rfl⟩ : ∃ shift : Nat, exponent = least + shift :=
    ⟨(exponent - least).toNat, by omega⟩
  have hdiv : divCore Format.binary64 m₁ e₁ m₂ e₂ = (m₁ <<< extra / m₂, least,
      accuracyOfFraction (m₁ <<< extra % m₂) m₂) := by
    rw [← hnum]
    rfl
  simp only [UnpackedFloat.div, hdiv]
  exact roundWithAccuracy_eq h₂ hcanonical hbounds.1 (around_of_admits h₂ h)

-- A canonical double that is exact needs no rounding.
theorem roundWithAccuracy_exact {sign : Sign} (h : Canonical mantissa exponent) :
    roundWithAccuracy Format.binary64 sign mantissa exponent .exact =
      .finite sign mantissa exponent h.pos := by
  rw [roundWithAccuracy, shiftToTargetExponent_canonical h]
  simp only [roundedMantissa_ofMantissaAndAccuracy, Accuracy.roundToNearestEven,
    shiftToTargetExponent_canonical h]
  exact dif_neg (Nat.ne_of_gt h.pos)

-- A whole number that fits the mantissa is shifted until its top bit is in place.
theorem canonical_shiftLeft {n : Nat} (hpos : 0 < n) (hlt : n < 2 ^ 53) :
    Canonical (n <<< (52 - n.log2)) ((n.log2 : Int) - 52) := by
  have hlog : n.log2 ≤ 52 := log2_le hlt
  have hlow : 2 ^ n.log2 ≤ n := Nat.log2_self_le (by omega)
  have hhigh : n < 2 ^ (n.log2 + 1) := Nat.lt_log2_self
  have hpow : 0 < 2 ^ (52 - n.log2) := Nat.two_pow_pos _
  have htop : 2 ^ n.log2 * 2 ^ (52 - n.log2) = topBit := by
    rw [← Nat.pow_add, show n.log2 + (52 - n.log2) = 52 by omega]
    rfl
  rw [Nat.shiftLeft_eq]
  refine ⟨Nat.mul_pos hpos hpow, ?_, ?_, fun _ => ?_, ?_⟩
  · have hmul := Nat.mul_lt_mul_of_pos_right hhigh hpow
    rw [Nat.pow_succ] at hmul
    linarith
  · simp only [leastExponent]
    omega
  · rw [← htop]
    exact Nat.mul_le_mul_right _ hlow
  · simp only [greatestExponent]
    omega

theorem ofNat_eq {n : Nat} (hpos : 0 < n) (hlt : n < 2 ^ 53) :
    UnpackedFloat.ofNat Format.binary64 n =
      .finite .positive (n <<< (52 - n.log2)) ((n.log2 : Int) - 52)
        (canonical_shiftLeft hpos hlt).pos := by
  have hlog : n.log2 ≤ 52 := log2_le hlt
  have htarget : Format.binary64.targetExponent (totalExponent n 0) = (n.log2 : Int) - 52 := by
    rw [targetExponent_eq, totalExponent]
    simp only [leastExponent]
    omega
  have hshift : decreaseExponent n 0 ((n.log2 : Int) - 52) =
      (n <<< (52 - n.log2), (n.log2 : Int) - 52) := by
    rw [decreaseExponent, show ((0 : Int) - (n.log2 - 52)).toNat = 52 - n.log2 by omega]
    congr 1
    omega
  have hcompare : compare (n : Int) 0 = .gt := Int.compare_eq_gt.mpr (by omega)
  rw [UnpackedFloat.ofNat, UnpackedFloat.ofInt, UnpackedFloat.normalize, hcompare]
  simp only [Int.toNat_natCast, UnpackedFloat.round, htarget, hshift]
  exact roundWithAccuracy_exact (canonical_shiftLeft hpos hlt)

theorem unpack_toUInt64 {n : Nat} (hpos : 0 < n) (hlt : n < 2 ^ 53) :
    n.toUInt64.toFloat.toModel.unpack =
      .finite .positive (n <<< (52 - n.log2)) ((n.log2 : Int) - 52)
        (canonical_shiftLeft hpos hlt).pos := by
  have hnat : n.toUInt64.toNat = n := by
    simp only [Nat.toUInt64, UInt64.toNat_ofNat']
    omega
  have hmodel : n.toUInt64.toFloat.toModel.unpack =
      (Float.Model.pack (UnpackedFloat.ofNat Format.binary64 n.toUInt64.toNat)).unpack := rfl
  rw [hmodel, hnat, ofNat_eq hpos hlt, unpack_pack (canonical_shiftLeft hpos hlt)]

-- Such a number becomes a double without loss.
theorem unpack_toFloat {n : Nat} (hpos : 0 < n) (hlt : n < 2 ^ 53) :
    ∃ m e hm, n.toUInt64.toFloat.toModel.unpack = .finite .positive m e hm ∧
      (m : ℚ) * 2 ^ e = n := by
  have hlog : n.log2 ≤ 52 := log2_le hlt
  refine ⟨_, _, _, unpack_toUInt64 hpos hlt, ?_⟩
  rw [Nat.shiftLeft_eq, show (n.log2 : Int) - 52 = -((52 - n.log2 : ℕ) : Int) by omega,
    zpow_neg, zpow_natCast]
  push_cast
  field_simp

-- A power of ten in the table is exact.
def isPowerOfTen (k : Nat) : UnpackedFloat → Bool
  | .finite .positive m e _ => decide (m * 2 ^ e.toNat = 10 ^ k * 2 ^ (-e).toNat)
  | _ => false

theorem isPowerOfTen_table : ∀ k : Fin 23,
    isPowerOfTen k (Float.exactlyRepresentablePowersOfTen[k]).toModel.unpack = true := by
  decide

theorem zpow_eq_div {a : ℚ} (ha : a ≠ 0) (k : Int) : a ^ k = a ^ k.toNat / a ^ (-k).toNat := by
  have hsplit : k = k.toNat - (-k).toNat := by omega
  calc a ^ k = a ^ ((k.toNat : Int) - (-k).toNat) := by rw [← hsplit]
    _ = a ^ k.toNat / a ^ (-k).toNat := by rw [zpow_sub₀ ha, zpow_natCast, zpow_natCast]

theorem of_isPowerOfTen {k : Nat} {f : UnpackedFloat} (h : isPowerOfTen k f = true) :
    ∃ m e hm, f = .finite .positive m e hm ∧ (m : ℚ) * 2 ^ e = 10 ^ k := by
  cases f with
  | infinity _ => cases h
  | notANumber => cases h
  | zero _ => cases h
  | finite sign m e hm =>
      cases sign with
      | negative => cases h
      | positive =>
          refine ⟨m, e, hm, rfl, ?_⟩
          have hvalue : m * 2 ^ e.toNat = 10 ^ k * 2 ^ (-e).toNat := of_decide_eq_true h
          rw [zpow_eq_div (by norm_num), ← mul_div_assoc, div_eq_iff (by positivity)]
          exact_mod_cast hvalue

variable {n places : Nat}

-- A decimal that rounds to a positive double is not too small for its digits.
theorem places_le_of_admits (hcanonical : Canonical mantissa exponent)
    (h : (Rounding.ofParts mantissa exponent).Admits (n / 10 ^ places)) :
    places ≤ 2048 + n.log2 := by
  have hlow : (2 : ℚ) ^ (-1075 : Int) ≤ n / 10 ^ places := by
    have hunits : (2 : ℚ) ≤ (Rounding.ofParts mantissa exponent).low := by
      have hle := le_low mantissa exponent
      have hpos := hcanonical.pos
      exact_mod_cast show 2 ≤ (Rounding.ofParts mantissa exponent).low by omega
    have hleast := hcanonical.least_le
    calc (2 : ℚ) ^ (-1075 : Int) = 2 * 2 ^ (-1076 : Int) := by
          rw [show (-1075 : Int) = 1 + -1076 by norm_num, zpow_add₀ (by norm_num), zpow_one]
      _ ≤ 2 * 2 ^ (exponent - 2) := by
          refine mul_le_mul_of_nonneg_left (zpow_le_zpow_right₀ (by norm_num) ?_) (by norm_num)
          simp only [leastExponent] at hleast
          omega
      _ ≤ (Rounding.ofParts mantissa exponent).low * 2 ^ (exponent - 2) :=
          mul_le_mul_of_nonneg_right hunits (by positivity)
      _ ≤ n / 10 ^ places := h.low_le
  have hten : (2 : ℚ) ^ places ≤ 10 ^ places := pow_le_pow_left₀ (by norm_num) (by norm_num) _
  have hn : (n : ℚ) < 2 ^ (n.log2 + 1) := by exact_mod_cast Nat.lt_log2_self
  have hscaled : (10 : ℚ) ^ places ≤ n * 2 ^ (1075 : Int) := by
    have hmul := mul_le_mul_of_nonneg_right ((le_div_iff₀ (by positivity)).mp hlow)
      (by positivity : (0 : ℚ) ≤ 2 ^ (1075 : Int))
    rwa [mul_right_comm, ← zpow_add₀ (by norm_num), show (-1075 + 1075 : Int) = 0 by norm_num,
      zpow_zero, one_mul] at hmul
  have hpow : (2 : ℚ) ^ (places : Int) < 2 ^ ((n.log2 + 1 : ℕ) + 1075 : Int) := by
    rw [zpow_add₀ (by norm_num), zpow_natCast, zpow_natCast]
    calc (2 : ℚ) ^ places ≤ 10 ^ places := hten
      _ ≤ n * 2 ^ (1075 : Int) := hscaled
      _ < 2 ^ (n.log2 + 1) * 2 ^ (1075 : Int) := mul_lt_mul_of_pos_right hn (by positivity)
  have hlt := (zpow_lt_zpow_iff_right₀ (by norm_num : (1 : ℚ) < 2)).mp hpow
  omega

-- A decimal is read as the double to which it rounds. Small decimals are divided as doubles, and
-- the others as whole numbers.
theorem ofScientific_eq (hn : 0 < n) (hplaces : 0 < places)
    (hcanonical : Canonical mantissa exponent)
    (h : (Rounding.ofParts mantissa exponent).Admits (n / 10 ^ places)) :
    Float.ofScientific n true places =
      Float.ofModel (Float.Model.pack (.finite .positive mantissa exponent hcanonical.pos)) := by
  rw [Float.ofScientific]
  by_cases hsmall : n < 2 ^ 53 ∧ places ≤ 22
  · rw [dif_pos hsmall]
    obtain ⟨m₁, e₁, h₁, hunpack₁, hvalue₁⟩ := unpack_toFloat hn hsmall.1
    obtain ⟨m₂, e₂, h₂, hunpack₂, hvalue₂⟩ :=
      of_isPowerOfTen (isPowerOfTen_table ⟨places, by omega⟩)
    have hquotient : (m₁ : ℚ) / m₂ * 2 ^ (e₁ - e₂) = n / 10 ^ places := by
      rw [← hvalue₁, ← hvalue₂, zpow_sub₀ (by norm_num)]
      field_simp
    have hdiv := div_eq h₁ h₂ hcanonical (hquotient ▸ h)
    rw [← hunpack₁, ← hunpack₂] at hdiv
    exact congrArg (fun f => Float.ofModel (Float.Model.pack f)) hdiv
  · rw [dif_neg hsmall]
    have hlimit := places_le_of_admits hcanonical h
    have hbits : (2 : Int) ^ Format.binary64.exponentBits = 2048 := rfl
    have hquotient : (n : ℚ) / (10 ^ places : ℕ) * 2 ^ ((0 : Int) - 0) = n / 10 ^ places := by simp
    have hdiv := div_eq hn (Nat.pow_pos (by decide : 0 < 10)) hcanonical (hquotient ▸ h)
    have hread : UnpackedFloat.ofScientific Format.binary64 n (-places) =
        .finite .positive mantissa exponent hcanonical.pos := by
      rw [UnpackedFloat.ofScientific, dif_neg (by omega), if_neg (by omega), if_neg (by omega),
        if_neg (by omega), ← hdiv]
      simp only [neg_neg, Int.toNat_natCast]
    rw [if_pos rfl, Int.negOfNat_eq]
    exact congrArg (fun f => Float.ofModel (Float.Model.pack f)) hread

end Binary

end FrameNotation
