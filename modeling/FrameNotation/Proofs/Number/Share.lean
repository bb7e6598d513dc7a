import FrameNotation.Proofs.Number.Shortest
import FrameNotation.Similarity.Frames

namespace FrameNotation

namespace Binary

open Float.Model Float.Model.UnpackedFloat

variable {mantissa : Nat} {exponent : Int} {sign : Sign}

theorem canonical_one : Canonical topBit (-52) := by
  refine ⟨by decide, by decide, by decide, fun _ => Nat.le_refl _, by decide⟩

theorem one_eq : (1.0 : Float) =
    Float.ofModel (Float.Model.pack (.finite .positive topBit (-52) canonical_one.pos)) := by
  decide +kernel

-- A double is rounded to itself.
theorem admits_self (h : 0 < mantissa) :
    (Rounding.ofParts mantissa exponent).Admits (mantissa * 2 ^ exponent) := by
  have hpow : (0 : ℚ) < 2 ^ (exponent - 2) := by positivity
  have hvalue : (mantissa : ℚ) * 2 ^ exponent = (4 * mantissa : ℕ) * 2 ^ (exponent - 2) := by
    rw [zpow_sub₀ (by norm_num)]
    push_cast
    ring
  have hlow : (Rounding.ofParts mantissa exponent).low < 4 * mantissa := by
    simp only [Rounding.ofParts]
    split_ifs <;> omega
  have hhigh : 4 * mantissa < (Rounding.ofParts mantissa exponent).high := by
    simp only [Rounding.ofParts]
    omega
  have hexponent : (Rounding.ofParts mantissa exponent).exponent = exponent - 2 := rfl
  have hbelow : ((Rounding.ofParts mantissa exponent).low : ℚ) * 2 ^ (exponent - 2) <
      mantissa * 2 ^ exponent := by
    rw [hvalue]
    exact mul_lt_mul_of_pos_right (by exact_mod_cast hlow) hpow
  have habove : (mantissa : ℚ) * 2 ^ exponent <
      (Rounding.ofParts mantissa exponent).high * 2 ^ (exponent - 2) := by
    rw [hvalue]
    exact mul_lt_mul_of_pos_right (by exact_mod_cast hhigh) hpow
  rw [← hexponent] at hbelow habove
  exact Rounding.admits_of_lt hbelow habove

-- A finite double other than zero goes into itself once.
theorem div_self_finite (hpos : 0 < mantissa) :
    UnpackedFloat.div Format.binary64 (.finite sign mantissa exponent hpos)
        (.finite sign mantissa exponent hpos) =
      .finite .positive topBit (-52) canonical_one.pos := by
  have hne : (mantissa : ℚ) ≠ 0 := by exact_mod_cast Nat.ne_of_gt hpos
  have hone : (mantissa : ℚ) / mantissa * 2 ^ (exponent - exponent) =
      topBit * 2 ^ (-52 : Int) := by
    rw [div_self hne, Int.sub_self, zpow_zero, topBit_value]
    norm_num
  have hdiv := div_eq hpos hpos canonical_one (hone ▸ admits_self canonical_one.pos)
  cases sign with
  | positive => exact hdiv
  | negative => exact hdiv

theorem div_self_of_finite {x : Float} {hpos : 0 < mantissa}
    (h : x.toModel.unpack = .finite sign mantissa exponent hpos) : x / x = 1.0 := by
  have hdiv : x / x = Float.ofModel (Float.Model.pack
      (UnpackedFloat.div Format.binary64 x.toModel.unpack x.toModel.unpack)) := rfl
  rw [hdiv, h, div_self_finite hpos, one_eq]

-- The share of a double in itself is one, or it is no number at all.
theorem div_self_cases (x : Float) : x / x = 1.0 ∨ x / x = 0.0 / 0.0 := by
  have hdiv : x / x = Float.ofModel (Float.Model.pack
      (UnpackedFloat.div Format.binary64 x.toModel.unpack x.toModel.unpack)) := rfl
  have hnan : (0.0 / 0.0 : Float) = Float.ofModel (Float.Model.pack .notANumber) := by
    decide +kernel
  cases hunpack : x.toModel.unpack with
  | finite => exact .inl (div_self_of_finite hunpack)
  | infinity => exact .inr (by rw [hdiv, hunpack, hnan]; rfl)
  | notANumber => exact .inr (by rw [hdiv, hunpack, hnan]; rfl)
  | zero => exact .inr (by rw [hdiv, hunpack, hnan]; rfl)

-- A positive double stays what it is, taken once.
theorem mul_one_finite (h : Canonical mantissa exponent) :
    UnpackedFloat.mul Format.binary64 (.finite .positive mantissa exponent h.pos)
        (.finite .positive topBit (-52) canonical_one.pos) =
      .finite .positive mantissa exponent h.pos := by
  have hexponent : exponent - 52 + (52 : Nat) = exponent := by omega
  have hshifted : Canonical mantissa (exponent - 52 + (52 : Nat)) := by rwa [hexponent]
  have htarget : exponent - 52 ≤
      Format.binary64.targetExponent (totalExponent (mantissa * topBit / 1) (exponent - 52)) := by
    have hbits : 52 ≤ (mantissa * topBit / 1).log2 := by
      apply le_log2_div Nat.one_pos
      rw [← topBit_eq, Nat.mul_one]
      exact Nat.le_mul_of_pos_left _ h.pos
    rw [targetExponent_eq, totalExponent]
    omega
  have hvalue : (mantissa : ℚ) * 2 ^ (exponent - 52 + (52 : Nat)) =
      (mantissa * topBit : ℕ) / (1 : ℕ) * 2 ^ (exponent - 52) := by
    rw [zpow_add₀ (by norm_num), topBit_value]
    push_cast
    ring
  have haround := around_of_admits Nat.one_pos (hvalue ▸ admits_self hshifted.pos)
  have hround : roundWithAccuracy Format.binary64 .positive (mantissa * topBit / 1)
      (exponent - 52) (accuracyOfFraction (mantissa * topBit % 1) 1) =
        .finite .positive mantissa (exponent - 52 + (52 : Nat)) hshifted.pos :=
    roundWithAccuracy_eq Nat.one_pos hshifted htarget haround
  simp only [Nat.mod_one, Nat.div_one, hexponent] at hround
  exact hround

-- A count below the double of the top bit is a finite double other than zero.
theorem unpack_ofNat {n : Nat} (hpos : 0 < n) (hlt : n < 2 ^ 53) :
    ∃ m e hm, (Float.ofNat n).toModel.unpack = .finite .positive m e hm := by
  have hcanonical := canonical_shiftLeft hpos hlt
  have hone : (Float.exactlyRepresentablePowersOfTen[0]).toModel.unpack =
      .finite .positive topBit (-52) canonical_one.pos := by
    have htable : Float.exactlyRepresentablePowersOfTen[0] = 1.0 := by decide +kernel
    rw [htable, one_eq]
    exact unpack_pack canonical_one
  have hproduct : (Float.ofNat n).toModel.unpack =
      (Float.Model.pack (UnpackedFloat.mul Format.binary64 n.toUInt64.toFloat.toModel.unpack
        (Float.exactlyRepresentablePowersOfTen[0]).toModel.unpack)).unpack := by
    change (Float.ofScientific n false 0).toModel.unpack = _
    rw [Float.ofScientific, dif_pos ⟨hlt, by omega⟩]
    rfl
  rw [hproduct, unpack_toUInt64 hpos hlt, hone, mul_one_finite hcanonical, unpack_pack hcanonical]
  exact ⟨_, _, _, rfl⟩

end Binary

theorem ratio_self_cases (n : Nat) : ratio n n = 1.0 ∨ ratio n n = 0.0 / 0.0 :=
  Binary.div_self_cases _

theorem ratio_self {n : Nat} (hpos : 0 < n) (hlt : n < 2 ^ 53) : ratio n n = 1.0 := by
  obtain ⟨m, e, hm, hunpack⟩ := Binary.unpack_ofNat hpos hlt
  exact Binary.div_self_of_finite hunpack

end FrameNotation
