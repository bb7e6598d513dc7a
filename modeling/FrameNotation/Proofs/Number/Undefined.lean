import FrameNotation.Proofs.Number.Nearest
import FrameNotation.Number.Basic

namespace FrameNotation.Binary

open Float.Model Float.Model.UnpackedFloat

variable {bits : BitVec Format.binary64.numBits} {f : UnpackedFloat} {x : Float}

-- The bits of no number have the greatest scale and a fraction.
theorem unpack_eq_nan_iff : UnpackedFloat.unpack Format.binary64 bits = .notANumber ↔
    (unpackExponent bits).toNat = 2047 ∧ (unpackMantissa bits).toNat ≠ 0 := by
  have htop : unpackExponent bits = -1#_ ↔ (unpackExponent bits).toNat = 2047 :=
    BitVec.toNat_inj.symm.trans Iff.rfl
  have hfraction : unpackMantissa bits = 0#_ ↔ (unpackMantissa bits).toNat = 0 :=
    BitVec.toNat_inj.symm.trans Iff.rfl
  rw [← htop, Ne, ← hfraction, UnpackedFloat.unpack]
  split_ifs <;> simp_all

theorem ofFloat_eq_nan_iff : ofFloat x = .nan ↔ x.toModel.unpack = .notANumber := by
  obtain ⟨bits, hnat, hunpack⟩ := exists_bits x
  rw [hunpack, unpack_eq_nan_iff]
  simp only [ofFloat, hnat, ← toNat_unpackExponent, ← toNat_unpackMantissa]
  rw [scaleLimit_value]
  split_ifs with htop hfraction hzero
  · simp [hfraction]
  · simp [htop, hfraction]
  · simp [hzero]
  · simp [htop]

theorem standing_eq_nowhere_iff :
    (Number.float x).standing = .nowhere ↔ x.toModel.unpack = .notANumber := by
  rw [← ofFloat_eq_nan_iff, Number.standing]
  cases ofFloat x with
  | nan => simp
  | infinite negative => cases negative <;> simp
  | finite => simp

theorem unpack_packComponents_ne_nan {sign : Sign}
    {scale : BitVec Format.binary64.exponentBits}
    {fraction : BitVec Format.binary64.mantissaBitsWithoutImplicit}
    (h : scale.toNat = 2047 → fraction.toNat = 0) :
    UnpackedFloat.unpack Format.binary64 (packComponents Format.binary64 sign scale fraction) ≠
      .notANumber := by
  rw [Ne, unpack_eq_nan_iff, unpackExponent_packComponents, unpackMantissa_packComponents]
  exact fun hnan => hnan.2 (h hnan.1)

-- What is a number stays one when it is packed, if need be as an infinity.
theorem unpack_pack_ne_nan (h : f ≠ .notANumber) :
    (Float.Model.pack f).unpack ≠ .notANumber := by
  have hpack : (Float.Model.pack f).unpack =
      UnpackedFloat.unpack Format.binary64 (UnpackedFloat.pack Format.binary64 f) := rfl
  rw [hpack]
  cases f with
  | notANumber => exact absurd rfl h
  | infinity sign => exact unpack_packComponents_ne_nan fun _ => rfl
  | zero sign => exact unpack_packComponents_ne_nan fun _ => rfl
  | finite sign mantissa exponent hpos =>
      simp only [UnpackedFloat.pack]
      split_ifs with hoverflow
      · exact unpack_packComponents_ne_nan fun _ => rfl
      · refine unpack_packComponents_ne_nan fun htop => ?_
        have hlimit : 2 ^ Format.binary64.exponentBits = 2048 := rfl
        rw [BitVec.toNat_ofNat, hlimit] at htop
        rw [hlimit] at hoverflow
        omega
      · exact unpack_packComponents_ne_nan fun htop => absurd htop (by decide)

-- Rounding always gives a number.
theorem roundWithAccuracy_ne_nan {sign : Sign} {mantissa : Nat} {exponent : Int}
    {accuracy : Accuracy} :
    roundWithAccuracy Format.binary64 sign mantissa exponent accuracy ≠ .notANumber := by
  intro h
  unfold roundWithAccuracy at h
  simp only at h
  split at h <;> cases h

section Finite

variable {g : UnpackedFloat} {sign : Sign} {mantissa : Nat} {exponent : Int} {hpos : 0 < mantissa}

-- A number times a finite one, or divided by it, is a number.
theorem mul_finite_ne_nan (h : f ≠ .notANumber)
    (hfinite : g = .finite sign mantissa exponent hpos) :
    UnpackedFloat.mul Format.binary64 f g ≠ .notANumber := by
  subst hfinite
  cases f with
  | notANumber => exact absurd rfl h
  | finite => exact roundWithAccuracy_ne_nan
  | _ => exact nofun

theorem div_finite_ne_nan (h : f ≠ .notANumber)
    (hfinite : g = .finite sign mantissa exponent hpos) :
    UnpackedFloat.div Format.binary64 f g ≠ .notANumber := by
  subst hfinite
  cases f with
  | notANumber => exact absurd rfl h
  | finite => exact roundWithAccuracy_ne_nan
  | _ => exact nofun

end Finite

theorem unpack_toUInt64_ne_nan {n : Nat} (h : n < 2 ^ 53) :
    n.toUInt64.toFloat.toModel.unpack ≠ .notANumber := by
  rcases Nat.eq_zero_or_pos n with rfl | hpos
  · exact nofun
  · rw [unpack_toUInt64 hpos h]
    exact nofun

theorem ofScientific_ne_nan (n : Nat) (scale : Int) :
    UnpackedFloat.ofScientific Format.binary64 n scale ≠ .notANumber := by
  unfold UnpackedFloat.ofScientific
  split_ifs
  · exact nofun
  · exact nofun
  · exact nofun
  · exact mul_finite_ne_nan nofun rfl
  · exact div_finite_ne_nan nofun rfl

-- Digits and a scale always stand for a number, if need be for an infinity.
theorem unpack_ofScientific_ne_nan (n : Nat) (negative : Bool) (scale : Nat) :
    (Float.ofScientific n negative scale).toModel.unpack ≠ .notANumber := by
  rw [Float.ofScientific]
  by_cases hsmall : n < 2 ^ 53 ∧ scale ≤ 22
  · rw [dif_pos hsmall]
    have hcount := unpack_toUInt64_ne_nan hsmall.1
    obtain ⟨m, e, hm, hpower, -⟩ :=
      of_isPowerOfTen (isPowerOfTen_table ⟨scale, Nat.lt_succ_of_le hsmall.2⟩)
    cases negative with
    | true => exact unpack_pack_ne_nan (div_finite_ne_nan hcount hpower)
    | false => exact unpack_pack_ne_nan (mul_finite_ne_nan hcount hpower)
  · rw [dif_neg hsmall]
    exact unpack_pack_ne_nan (ofScientific_ne_nan n _)

theorem neg_ne_nan (h : f ≠ .notANumber) : f.neg ≠ .notANumber := by
  cases f with
  | notANumber => exact absurd rfl h
  | _ => exact nofun

theorem unpack_neg_eq_nan_iff :
    (-x).toModel.unpack = .notANumber ↔ x.toModel.unpack = .notANumber := by
  have hneg : (-x).toModel.unpack = (Float.Model.pack x.toModel.unpack.neg).unpack := rfl
  rw [hneg]
  constructor
  · intro h
    by_contra hnumber
    exact unpack_pack_ne_nan (neg_ne_nan hnumber) h
  · intro h
    rw [h]
    rfl

end FrameNotation.Binary
