import FrameNotation.Number.Decimal
import FrameNotation.Number.Fixed
import FrameNotation.Proofs.Number.Double
import Mathlib.Tactic.SplitIfs
import Mathlib.Tactic.Linarith
import Mathlib.Tactic.Ring

namespace FrameNotation.Binary

open Float.Model Float.Model.UnpackedFloat

variable {num den m : Nat}

-- A quotient of which only its first bit after the point is kept, and whether anything follows.
def extendedQuotient (num den : Nat) : ExtendedMantissa :=
  .ofMantissaAndAccuracy (num / den) (accuracyOfFraction (num % den) den)

theorem extendedQuotient_eq (hden : 0 < den) : extendedQuotient num den =
    ⟨num / den, decide (den ≤ 2 * (num % den)),
      decide (num % den ≠ 0 ∧ 2 * (num % den) ≠ den)⟩ := by
  rw [extendedQuotient, accuracyOfFraction]
  by_cases hrest : num % den = 0
  · simp [hrest, ExtendedMantissa.ofMantissaAndAccuracy]
    omega
  · rw [if_neg hrest]
    rcases Nat.lt_trichotomy (2 * (num % den)) den with hlt | heq | hgt
    · rw [Nat.compare_eq_lt.mpr hlt]
      simp [ExtendedMantissa.ofMantissaAndAccuracy, hrest]
      omega
    · rw [Nat.compare_eq_eq.mpr heq]
      simp [ExtendedMantissa.ofMantissaAndAccuracy, heq]
    · rw [Nat.compare_eq_gt.mpr hgt]
      simp [ExtendedMantissa.ofMantissaAndAccuracy, hrest]
      omega

-- A shift by one bit halves the quotient.
theorem shiftRightOne_extendedQuotient (hden : 0 < den) :
    (extendedQuotient num den).shiftRightOne = extendedQuotient num (den * 2) := by
  have hdiv : num / (den * 2) = num / den / 2 := (Nat.div_div_eq_div_mul _ _ _).symm
  have hmod : num % (den * 2) = num % den + den * (num / den % 2) := Nat.mod_mul
  have hlt := Nat.mod_lt num hden
  rw [extendedQuotient_eq hden, extendedQuotient_eq (by omega), hdiv, hmod]
  generalize num % den = rest at hlt ⊢
  rcases Nat.mod_two_eq_zero_or_one (num / den) with hbit | hbit
  · simp only [ExtendedMantissa.shiftRightOne, hbit, ExtendedMantissa.mk.injEq]
    refine ⟨trivial, ?_, ?_⟩
    · simp
      omega
    · rw [Bool.eq_iff_iff]
      simp
      omega
  · simp only [ExtendedMantissa.shiftRightOne, hbit, ExtendedMantissa.mk.injEq]
    refine ⟨trivial, ?_, ?_⟩
    · simp
      omega
    · rw [Bool.eq_iff_iff]
      simp
      omega

theorem shiftRight_extendedQuotient (hden : 0 < den) (shift : Nat) :
    extendedQuotient num den >>> shift = extendedQuotient num (den * 2 ^ shift) := by
  induction shift with
  | zero => simp [HShiftRight.hShiftRight, Nat.repeat]
  | succ shift ih =>
    have hpos : 0 < den * 2 ^ shift := Nat.mul_pos hden (Nat.two_pow_pos shift)
    rw [Nat.pow_succ, ← Nat.mul_assoc, ← shiftRightOne_extendedQuotient hpos, ← ih]
    rfl

theorem roundedMantissa_ofMantissaAndAccuracy {accuracy : Accuracy} :
    (ExtendedMantissa.ofMantissaAndAccuracy m accuracy).roundedMantissa =
      accuracy.roundToNearestEven m := by
  rcases accuracy with _ | (_ | _ | _) <;> rfl

theorem roundedMantissa_extendedQuotient (hden : 0 < den) :
    (extendedQuotient num den).roundedMantissa = roundDiv num den := by
  rw [extendedQuotient, roundedMantissa_ofMantissaAndAccuracy, accuracyOfFraction, roundDiv]
  by_cases hrest : num % den = 0
  · rw [if_pos hrest, if_pos (by omega)]
    rfl
  · rw [if_neg hrest]
    rcases Nat.lt_trichotomy (2 * (num % den)) den with hlt | heq | hgt
    · rw [Nat.compare_eq_lt.mpr hlt, if_pos hlt]
      rfl
    · rw [Nat.compare_eq_eq.mpr heq, if_neg (by omega), if_neg (by omega)]
      simp only [Accuracy.roundToNearestEven]
      split_ifs <;> omega
    · rw [Nat.compare_eq_gt.mpr hgt, if_neg (by omega), if_pos hgt]
      rfl

-- A whole number at most half away from the quotient is its rounding, unless it is odd and exactly
-- half away.
theorem roundDiv_eq (hden : 0 < den) (hlow : 2 * m * den ≤ 2 * num + den)
    (hhigh : 2 * num ≤ 2 * m * den + den)
    (hodd : m % 2 = 1 → 2 * m * den < 2 * num + den ∧ 2 * num < 2 * m * den + den) :
    roundDiv num den = m := by
  have hlt := Nat.mod_lt num hden
  have hnum : 2 * num = 2 * (num / den) * den + 2 * (num % den) := by
    have hdiv := Nat.div_add_mod num den
    linarith
  have hcases : num / den = m ∨ num / den + 1 = m := by
    have hle : num / den < m + 1 := by
      by_contra hq
      have hmul : (m + 1) * den ≤ num / den * den := Nat.mul_le_mul_right den (by omega)
      have hrest := Nat.zero_le (num % den)
      linarith
    have hge : m < num / den + 2 := by
      by_contra hq
      have hmul : (num / den + 2) * den ≤ m * den := Nat.mul_le_mul_right den (by omega)
      linarith
    omega
  rw [roundDiv]
  generalize num % den = rest at *
  rcases hcases with rfl | rfl
  · generalize 2 * (num / den) * den = scaled at *
    split_ifs <;> omega
  · have hscaled : 2 * (num / den + 1) * den = 2 * (num / den) * den + 2 * den := by ring
    rw [hscaled] at hlow hhigh hodd
    generalize 2 * (num / den) * den = scaled at *
    split_ifs <;> omega

section Rounding

variable {exponent least : Int} {shift : Nat} {sign : Sign}

theorem topBit_eq : topBit = 2 ^ 52 := rfl

theorem targetExponent_eq (total : Int) :
    Format.binary64.targetExponent total = max (total - 53) leastExponent := rfl

theorem targetExponent_canonical (h : Canonical m exponent) :
    Format.binary64.targetExponent (totalExponent m exponent) = exponent := by
  have hhigh : m.log2 ≤ 52 := log2_le h.lt_double
  have hleast := h.least_le
  rw [targetExponent_eq, totalExponent]
  by_cases hexponent : exponent = leastExponent
  · omega
  · have hlow : 52 ≤ m.log2 := (Nat.le_log2 (by have := h.pos; omega)).mpr (h.normal hexponent)
    omega

-- A mantissa that is canonical already is not shifted.
theorem shiftToTargetExponent_canonical (h : Canonical m exponent) :
    shiftToTargetExponent Format.binary64 m exponent .exact =
      (.ofMantissaAndAccuracy m .exact, exponent) := by
  rw [shiftToTargetExponent, targetExponent_canonical h, shiftToExponent]
  simp [HShiftRight.hShiftRight, Nat.repeat]

theorem shiftToTargetExponent_quotient (hden : 0 < den)
    (htarget : Format.binary64.targetExponent (totalExponent (num / den) least) =
      least + shift) :
    shiftToTargetExponent Format.binary64 (num / den) least
        (accuracyOfFraction (num % den) den) =
      (extendedQuotient num (den * 2 ^ shift), least + shift) := by
  rw [shiftToTargetExponent, htarget, shiftToExponent]
  have hshift : (least + shift - least).toNat = shift := by omega
  rw [hshift, ← shiftRight_extendedQuotient hden]
  rfl

-- The quotient `num / den` lies between the ends of the interval, in its unit.
structure Around (r : FrameNotation.Rounding) (num den : Nat) : Prop where
  low_le : r.low * den ≤ num
  le_high : num ≤ r.high * den
  strict : r.closed = false → r.low * den < num ∧ num < r.high * den

theorem le_low (m : Nat) (exponent : Int) :
    4 * m ≤ (FrameNotation.Rounding.ofParts m exponent).low + 2 := by
  simp only [FrameNotation.Rounding.ofParts]
  split_ifs <;> omega

theorem roundDiv_of_around (hden : 0 < den)
    (h : Around (.ofParts m exponent) (4 * num) den) : roundDiv num den = m := by
  have hlow : 4 * m * den ≤ (FrameNotation.Rounding.ofParts m exponent).low * den + 2 * den := by
    rw [← Nat.add_mul]
    exact Nat.mul_le_mul_right den (le_low m exponent)
  have hhigh : (FrameNotation.Rounding.ofParts m exponent).high * den = 4 * m * den + 2 * den := by
    simp only [FrameNotation.Rounding.ofParts]
    ring
  refine roundDiv_eq hden ?_ ?_ fun hodd => ?_
  · have hge := h.low_le
    linarith
  · have hle := h.le_high
    linarith
  · have hclosed : (FrameNotation.Rounding.ofParts m exponent).closed = false := by
      simp [FrameNotation.Rounding.ofParts, hodd]
    obtain ⟨hgt, hlt⟩ := h.strict hclosed
    constructor <;> linarith

-- A mantissa that became too long by one bit is shifted back.
theorem shiftToTargetExponent_double (h : leastExponent ≤ exponent) :
    shiftToTargetExponent Format.binary64 (2 * topBit) exponent .exact =
      (⟨topBit, false, false⟩, exponent + 1) := by
  have htarget : Format.binary64.targetExponent (totalExponent (2 * topBit) exponent) =
      exponent + 1 := by
    rw [targetExponent_eq, totalExponent, show (2 * topBit).log2 = 53 from rfl]
    omega
  rw [shiftToTargetExponent, htarget, shiftToExponent,
    show (exponent + 1 - exponent).toNat = 1 by omega]
  rfl

theorem lt_of_around (hcanonical : Canonical m exponent) (hden : 0 < den)
    (h : Around (.ofParts m exponent) (4 * num) den) : num < 2 * topBit * den := by
  have hle : 4 * num ≤ (4 * m + 2) * den := h.le_high
  have hm : 4 * m + 4 ≤ 4 * (2 * topBit) := by
    have hlt := hcanonical.lt_double
    omega
  have hmul : (4 * m + 4) * den ≤ 4 * (2 * topBit) * den := Nat.mul_le_mul_right den hm
  linarith

-- A double around a quotient in the binade below it is a power of two.
theorem eq_topBit_of_around (hcanonical : Canonical m exponent) (hden : 0 < den)
    (hexponent : exponent ≠ leastExponent)
    (h : Around (.ofParts m exponent) (4 * num) den) (hbelow : num < topBit * den) :
    m = topBit ∧ 4 * topBit * den ≤ 4 * num + den := by
  have hnormal := hcanonical.normal hexponent
  have hlow := h.low_le
  have hm : m = topBit := by
    have hmul : 4 * m * den ≤ (FrameNotation.Rounding.ofParts m exponent).low * den + 2 * den := by
      rw [← Nat.add_mul]
      exact Nat.mul_le_mul_right den (le_low m exponent)
    by_contra hne
    have hmul' : (topBit + 1) * den ≤ m * den := Nat.mul_le_mul_right den (by omega)
    linarith
  refine ⟨hm, ?_⟩
  have hvalue : (FrameNotation.Rounding.ofParts m exponent).low + 1 = 4 * topBit := by
    simp only [FrameNotation.Rounding.ofParts, hm]
    rw [if_pos ⟨trivial, hexponent⟩]
    have hpos : 0 < topBit := by decide
    omega
  rw [← hvalue]
  linarith

theorem log2_div_le {k : Nat} (hden : 0 < den) (h : num < 2 ^ (k + 1) * den) :
    (num / den).log2 ≤ k := by
  apply log2_le
  exact (Nat.div_lt_iff_lt_mul hden).mpr h

theorem le_log2_div {k : Nat} (hden : 0 < den) (h : 2 ^ k * den ≤ num) :
    k ≤ (num / den).log2 := by
  have hquotient : 2 ^ k ≤ num / den := (Nat.le_div_iff_mul_le hden).mpr h
  have hpos : 0 < 2 ^ k := Nat.two_pow_pos k
  exact (Nat.le_log2 (by omega)).mpr hquotient

-- A quotient in the binade of the double is cut at the exponent of the double.
theorem roundWithAccuracy_within (hden : 0 < den) (hcanonical : Canonical m (least + shift))
    (htarget : Format.binary64.targetExponent (totalExponent (num / den) least) = least + shift)
    (h : Around (.ofParts m (least + shift)) (4 * num) (den * 2 ^ shift)) :
    roundWithAccuracy Format.binary64 sign (num / den) least (accuracyOfFraction (num % den) den) =
      .finite sign m (least + shift) hcanonical.pos := by
  have hscaled : 0 < den * 2 ^ shift := Nat.mul_pos hden (Nat.two_pow_pos shift)
  rw [roundWithAccuracy, shiftToTargetExponent_quotient hden htarget]
  simp only [roundedMantissa_extendedQuotient hscaled, roundDiv_of_around hscaled h,
    shiftToTargetExponent_canonical hcanonical]
  exact dif_neg (Nat.ne_of_gt hcanonical.pos)

-- Just below a power of two the quotient has one bit more at first, and its rounding is shifted
-- back.
theorem roundWithAccuracy_below (hden : 0 < den) (hcanonical : Canonical topBit (least + shift))
    (hleast : least ≤ Format.binary64.targetExponent (totalExponent (num / den) least))
    (hexponent : least + shift ≠ leastExponent) (hbelow : num < topBit * (den * 2 ^ shift))
    (habove : 4 * topBit * (den * 2 ^ shift) ≤ 4 * num + den * 2 ^ shift) :
    roundWithAccuracy Format.binary64 sign (num / den) least (accuracyOfFraction (num % den) den) =
      .finite sign topBit (least + shift) hcanonical.pos := by
  have hge := hcanonical.least_le
  have hscaled : 0 < den * 2 ^ shift := Nat.mul_pos hden (Nat.two_pow_pos shift)
  have hlog : (num / den).log2 = 51 + shift := by
    apply Nat.le_antisymm
    · apply log2_div_le hden
      rw [show 51 + shift + 1 = 52 + shift by omega, Nat.pow_add, ← topBit_eq]
      linarith
    · apply le_log2_div hden
      rw [Nat.pow_add]
      rw [topBit_eq] at habove
      linarith
  have htarget : Format.binary64.targetExponent (totalExponent (num / den) least) =
      least + shift - 1 := by
    rw [targetExponent_eq, totalExponent, hlog]
    omega
  obtain ⟨shift, rfl⟩ : ∃ k, shift = k + 1 := ⟨shift - 1, by omega⟩
  have hsplit : den * 2 ^ (shift + 1) = 2 * (den * 2 ^ shift) := by ring
  rw [hsplit] at hbelow habove
  have hround : roundDiv num (den * 2 ^ shift) = 2 * topBit := by
    refine roundDiv_eq (by omega) ?_ ?_ fun hodd => ?_
    · linarith
    · linarith
    · omega
  have hdouble : shiftToTargetExponent Format.binary64 (2 * topBit) (least + shift) .exact =
      (⟨topBit, false, false⟩, least + shift + 1) := shiftToTargetExponent_double (by omega)
  have hquotient : shiftToTargetExponent Format.binary64 (num / den) least
      (accuracyOfFraction (num % den) den) =
        (extendedQuotient num (den * 2 ^ shift), least + shift) :=
    shiftToTargetExponent_quotient hden (by rw [htarget]; omega)
  rw [roundWithAccuracy, hquotient]
  simp only [roundedMantissa_extendedQuotient (show 0 < den * 2 ^ shift by omega), hround,
    hdouble]
  rw [dif_neg (by decide)]
  congr 1
  omega

-- Rounding gives the double around which the quotient lies.
theorem roundWithAccuracy_eq (hden : 0 < den) (hcanonical : Canonical m (least + shift))
    (hleast : least ≤ Format.binary64.targetExponent (totalExponent (num / den) least))
    (h : Around (.ofParts m (least + shift)) (4 * num) (den * 2 ^ shift)) :
    roundWithAccuracy Format.binary64 sign (num / den) least (accuracyOfFraction (num % den) den) =
      .finite sign m (least + shift) hcanonical.pos := by
  have hscaled : 0 < den * 2 ^ shift := Nat.mul_pos hden (Nat.two_pow_pos shift)
  have hge := hcanonical.least_le
  have hlog : (num / den).log2 ≤ 52 + shift := by
    apply log2_div_le hden
    have hlt := lt_of_around hcanonical hscaled h
    rw [show 52 + shift + 1 = 53 + shift by omega, Nat.pow_add, show 2 ^ 53 = 2 * topBit from rfl]
    linarith
  by_cases hbinade : least + shift = leastExponent ∨ topBit * (den * 2 ^ shift) ≤ num
  · apply roundWithAccuracy_within hden hcanonical ?_ h
    rw [targetExponent_eq, totalExponent]
    rcases hbinade with hexponent | hbinade
    · omega
    · have hbits : 52 + shift ≤ (num / den).log2 := by
        apply le_log2_div hden
        rw [Nat.pow_add, ← topBit_eq]
        linarith
      omega
  · rw [not_or] at hbinade
    obtain ⟨hexponent, hbelow⟩ := hbinade
    obtain ⟨rfl, habove⟩ := eq_topBit_of_around hcanonical hscaled hexponent h (by omega)
    exact roundWithAccuracy_below hden hcanonical hleast hexponent (by omega) habove

end Rounding

end FrameNotation.Binary
