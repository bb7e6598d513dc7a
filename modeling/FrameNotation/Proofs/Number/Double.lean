import FrameNotation.Number.Binary
import FrameNotation.Proofs.Number.Digits
import Mathlib

-- Mathlib as a whole: no smaller part of it brings the lemmas on packed and unpacked floats.

namespace FrameNotation.Binary

open Float.Model Float.Model.UnpackedFloat

variable {bits : BitVec Format.binary64.numBits} {mantissa : Nat} {exponent : Int} {sign : Sign}

theorem topBit_value : topBit = 4503599627370496 := rfl

theorem signBit_value : twoPow 63 = 9223372036854775808 := rfl

theorem scaleLimit_value : twoPow 11 = 2048 := rfl

-- The greatest exponent of a finite double.
def greatestExponent : Int := 971

-- The mantissa and the exponent of a positive double.
structure Canonical (mantissa : Nat) (exponent : Int) : Prop where
  pos : 0 < mantissa
  lt_double : mantissa < 2 * topBit
  least_le : leastExponent ≤ exponent
  normal : exponent ≠ leastExponent → topBit ≤ mantissa
  le_greatest : exponent ≤ greatestExponent

def signOf (negative : Bool) : Sign := if negative then .negative else .positive

theorem log2_le {n k : Nat} (h : n < 2 ^ (k + 1)) : n.log2 ≤ k := by
  by_cases hn : n = 0
  · simp [hn]
  · have hlt := (Nat.log2_lt hn).mpr h
    omega

section Parts

theorem toNat_unpackMantissa : (unpackMantissa bits).toNat = bits.toNat % topBit := by
  rw [unpackMantissa, BitVec.toNat_cast, BitVec.extractLsb_toNat, Nat.shiftRight_zero]
  rfl

theorem toNat_unpackExponent :
    (unpackExponent bits).toNat = bits.toNat / topBit % twoPow 11 := by
  rw [unpackExponent, BitVec.toNat_cast, BitVec.extractLsb_toNat, Nat.shiftRight_eq_div_pow]
  rfl

theorem toNat_unpackSign : (unpackSign bits).toNat = bits.toNat / twoPow 63 := by
  have hlt : bits.toNat < 2 ^ 64 := bits.isLt
  rw [unpackSign, BitVec.toNat_cast, BitVec.extractLsb_toNat, Nat.shiftRight_eq_div_pow]
  exact Nat.mod_eq_of_lt (by simp only [Nat.sub_self]; omega)

-- The sign in front of the bits as a truth value.
theorem ofBitVec_unpackSign :
    Sign.ofBitVec (unpackSign bits) = signOf (decide (twoPow 63 ≤ bits.toNat)) := by
  have hlt : bits.toNat < 2 ^ 64 := bits.isLt
  have hbit : (unpackSign bits).toNat = bits.toNat / twoPow 63 := toNat_unpackSign
  rw [signBit_value] at hbit ⊢
  by_cases hnegative : 9223372036854775808 ≤ bits.toNat
  · have hone : unpackSign bits = 1#1 := by
      apply BitVec.eq_of_toNat_eq
      rw [hbit]
      simp
      omega
    simp [hone, hnegative, signOf, Sign.ofBitVec]
  · have hzero : unpackSign bits = 0#1 := by
      apply BitVec.eq_of_toNat_eq
      rw [hbit]
      simp
      omega
    simp [hzero, hnegative, signOf, Sign.ofBitVec]

end Parts

section Packing

variable {scale : BitVec Format.binary64.exponentBits}
variable {fraction : BitVec Format.binary64.mantissaBitsWithoutImplicit}

theorem bias_eq : (Format.binary64.exponentBias : Int) = 1023 := rfl

theorem fractionBits_eq : (Format.binary64.mantissaBitsWithoutImplicit : Int) = 52 := rfl

theorem toNat_one_append : (1#1 ++ fraction).toNat = topBit + fraction.toNat := by
  rw [BitVec.toNat_append, ← Nat.shiftLeft_add_eq_or_of_lt fraction.isLt]
  rfl

theorem log2_normal (h : Canonical mantissa exponent) (hnormal : topBit ≤ mantissa) :
    mantissa.log2 = 52 := by
  have hpos := h.pos
  exact Nat.le_antisymm (log2_le h.lt_double) ((Nat.le_log2 (by omega)).mpr hnormal)

theorem log2_subnormal (hsubnormal : mantissa < topBit) : mantissa.log2 ≤ 51 :=
  log2_le hsubnormal

-- The bits of a canonical double, by whether its mantissa has the top bit.
theorem pack_finite (h : Canonical mantissa exponent) :
    UnpackedFloat.pack Format.binary64 (.finite sign mantissa exponent h.pos) =
      packComponents Format.binary64 sign
        (if topBit ≤ mantissa then BitVec.ofNat _ (exponent + 1075).toNat else 0)
        (BitVec.ofNat _ mantissa) := by
  have hleast := h.least_le
  have hgreatest := h.le_greatest
  have hbiased : exponent + Format.binary64.exponentBias +
      Format.binary64.mantissaBitsWithoutImplicit = exponent + 1075 := by
    rw [bias_eq, fractionBits_eq]
    omega
  have hfinite : ¬2 ^ Format.binary64.exponentBits ≤ (exponent + 1075).toNat + 1 := by
    rw [show 2 ^ Format.binary64.exponentBits = 2048 from rfl]
    simp only [leastExponent, greatestExponent] at hleast hgreatest
    omega
  have hbits : Format.binary64.mantissaBits = 53 := rfl
  simp only [UnpackedFloat.pack, hbiased, if_neg hfinite]
  by_cases hnormal : topBit ≤ mantissa
  · rw [if_pos (by rw [log2_normal h hnormal, hbits]), if_pos hnormal]
  · have hlog := log2_subnormal (Nat.lt_of_not_le hnormal)
    rw [if_neg (by omega), if_neg hnormal]
    rfl

theorem finite_congr {m : Nat} {e : Int} (hm : 0 < m) (hpos : 0 < mantissa)
    (hmantissa : m = mantissa) (hexponent : e = exponent) :
    UnpackedFloat.finite sign m e hm = .finite sign mantissa exponent hpos := by
  subst hmantissa hexponent
  rfl

-- A double whose scale is neither the least nor the greatest has the top bit.
theorem unpack_normal (hzero : (unpackExponent bits).toNat ≠ 0)
    (htop : (unpackExponent bits).toNat ≠ 2047) :
    UnpackedFloat.unpack Format.binary64 bits =
      .finite (Sign.ofBitVec (unpackSign bits)) (topBit + (unpackMantissa bits).toNat)
        ((unpackExponent bits).toNat - 1075) (Nat.add_pos_left (by decide) _) := by
  rw [UnpackedFloat.unpack]
  rw [if_neg (fun h => htop (by rw [h]; rfl)), if_neg (fun h => hzero (by rw [h]; rfl))]
  apply finite_congr _ _ toNat_one_append
  rw [bias_eq, fractionBits_eq]
  omega

-- At the least scale there is no top bit.
theorem unpack_subnormal (hzero : (unpackExponent bits).toNat = 0) (hpos : 0 < mantissa)
    (hmantissa : (unpackMantissa bits).toNat = mantissa) :
    UnpackedFloat.unpack Format.binary64 bits =
      .finite (Sign.ofBitVec (unpackSign bits)) mantissa leastExponent hpos := by
  have hscale : unpackExponent bits = 0#_ := BitVec.eq_of_toNat_eq (by rw [hzero]; rfl)
  have hfraction : unpackMantissa bits ≠ 0#_ := by
    intro h
    rw [h] at hmantissa
    simp at hmantissa
    omega
  rw [UnpackedFloat.unpack]
  rw [if_neg (by rw [hscale]; decide), if_pos hscale, dif_neg hfraction]
  apply finite_congr _ hpos hmantissa
  rw [hzero, bias_eq, fractionBits_eq]
  rfl

theorem unpack_zero (hzero : (unpackExponent bits).toNat = 0)
    (hmantissa : (unpackMantissa bits).toNat = 0) :
    UnpackedFloat.unpack Format.binary64 bits = .zero (Sign.ofBitVec (unpackSign bits)) := by
  have hscale : unpackExponent bits = 0#_ := BitVec.eq_of_toNat_eq (by rw [hzero]; rfl)
  have hfraction : unpackMantissa bits = 0#_ := BitVec.eq_of_toNat_eq (by rw [hmantissa]; rfl)
  rw [UnpackedFloat.unpack]
  rw [if_neg (by rw [hscale]; decide), if_pos hscale, dif_pos hfraction]

-- What is packed comes back.
theorem unpack_pack (h : Canonical mantissa exponent) :
    (Float.Model.pack (.finite sign mantissa exponent h.pos)).unpack =
      .finite sign mantissa exponent h.pos := by
  have hleast := h.least_le
  have hgreatest := h.le_greatest
  have hlt := h.lt_double
  simp only [leastExponent, greatestExponent] at hleast hgreatest
  rw [topBit_value] at hlt
  have hunpack : (Float.Model.pack (.finite sign mantissa exponent h.pos)).unpack =
      UnpackedFloat.unpack Format.binary64
        (UnpackedFloat.pack Format.binary64 (.finite sign mantissa exponent h.pos)) := rfl
  rw [hunpack, pack_finite h]
  generalize hfraction :
    BitVec.ofNat Format.binary64.mantissaBitsWithoutImplicit mantissa = fraction
  have hvalue : fraction.toNat = mantissa % topBit := by
    rw [← hfraction]
    exact BitVec.toNat_ofNat _ _
  by_cases hnormal : topBit ≤ mantissa
  · rw [if_pos hnormal]
    generalize hscale : BitVec.ofNat Format.binary64.exponentBits (exponent + 1075).toNat = scale
    have hscaled : scale.toNat = (exponent + 1075).toNat := by
      rw [← hscale, BitVec.toNat_ofNat, show 2 ^ Format.binary64.exponentBits = 2048 from rfl]
      omega
    have hsum : topBit + fraction.toNat = mantissa := by
      rw [hvalue, topBit_value]
      rw [topBit_value] at hnormal
      omega
    rw [unpack_normal, unpackSign_packComponents, Sign.ofBitVec_toBitVec]
    · refine finite_congr _ _ ?_ ?_
      · rw [unpackMantissa_packComponents, hsum]
      · rw [unpackExponent_packComponents]
        omega
    · rw [unpackExponent_packComponents]
      omega
    · rw [unpackExponent_packComponents]
      omega
  · have hexponent : leastExponent = exponent :=
      Decidable.not_not.mp fun hne => hnormal (h.normal (Ne.symm hne))
    rw [if_neg hnormal, unpack_subnormal _ h.pos, unpackSign_packComponents, Sign.ofBitVec_toBitVec]
    · exact finite_congr _ _ rfl hexponent
    · rw [unpackMantissa_packComponents, hvalue]
      exact Nat.mod_eq_of_lt (by omega)
    · rw [unpackExponent_packComponents]
      rfl

theorem eq_pack_unpack (x : Float) : x = Float.ofModel (Float.Model.pack x.toModel.unpack) :=
  x.ofBits_toBits.symm

-- The bits that a double is read off and that it unpacks from.
theorem exists_bits (x : Float) : ∃ bits : BitVec Format.binary64.numBits,
    x.toBits.toNat = bits.toNat ∧
      x.toModel.unpack = UnpackedFloat.unpack Format.binary64 bits :=
  ⟨x.toModel.toBits.toBitVec, rfl, rfl⟩

-- What is read off the bits of a finite double is what they unpack to: zero or a canonical double.
theorem unpack_of_ofFloat {x : Float} {negative : Bool}
    (h : ofFloat x = .finite negative mantissa exponent) :
    (mantissa = 0 ∧ x.toModel.unpack = .zero (signOf negative)) ∨
      ∃ hcanonical : Canonical mantissa exponent,
        x.toModel.unpack = .finite (signOf negative) mantissa exponent hcanonical.pos := by
  obtain ⟨bits, hnat, hunpack⟩ := exists_bits x
  have hfraction : (unpackMantissa bits).toNat < topBit := (unpackMantissa bits).isLt
  have hscale : (unpackExponent bits).toNat < 2048 := (unpackExponent bits).isLt
  simp only [ofFloat, hnat, ← toNat_unpackExponent, ← toNat_unpackMantissa] at h
  rw [scaleLimit_value] at h
  rw [hunpack]
  split_ifs at h with htop hnan hzero
  · injection h with hsign hmantissa hexponent
    by_cases hpos : mantissa = 0
    · left
      rw [unpack_zero hzero (hmantissa.trans hpos), ofBitVec_unpackSign, hsign]
      exact ⟨hpos, rfl⟩
    · have hcanonical : Canonical mantissa exponent := by
        refine ⟨by omega, by omega, Int.le_of_eq hexponent,
          fun hne => absurd hexponent.symm hne, ?_⟩
        rw [← hexponent]
        decide
      refine .inr ⟨hcanonical, ?_⟩
      rw [unpack_subnormal hzero hcanonical.pos hmantissa, ofBitVec_unpackSign, hsign]
      exact finite_congr _ _ rfl hexponent
  · injection h with hsign hmantissa hexponent
    simp only [leastExponent] at hexponent
    have hcanonical : Canonical mantissa exponent := by
      refine ⟨?_, by omega, ?_, fun _ => by omega, ?_⟩
      · have htop := topBit_value
        omega
      · simp only [leastExponent]
        omega
      · simp only [greatestExponent]
        omega
    refine .inr ⟨hcanonical, ?_⟩
    rw [unpack_normal hzero htop, ofBitVec_unpackSign, hsign]
    exact finite_congr _ _ hmantissa (by omega)

-- A finite double is zero or canonical.
theorem of_ofFloat {x : Float} {negative : Bool}
    (h : ofFloat x = .finite negative mantissa exponent) :
    (mantissa = 0 ∧ x = Float.ofModel (Float.Model.pack (.zero (signOf negative)))) ∨
      ∃ hcanonical : Canonical mantissa exponent,
        x = Float.ofModel
          (Float.Model.pack (.finite (signOf negative) mantissa exponent hcanonical.pos)) := by
  rcases unpack_of_ofFloat h with ⟨hzero, hunpack⟩ | ⟨hcanonical, hunpack⟩
  · exact .inl ⟨hzero, hunpack ▸ eq_pack_unpack x⟩
  · exact .inr ⟨hcanonical, hunpack ▸ eq_pack_unpack x⟩

end Packing

end FrameNotation.Binary
