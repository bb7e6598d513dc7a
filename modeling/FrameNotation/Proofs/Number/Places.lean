import FrameNotation.Proofs.Number.Wire

namespace FrameNotation

namespace Decimal

variable {d : Decimal} {digits steps limit : Nat} {exponent : Int}

-- The first digit stands at the leading place.
theorem pow_leading_le_value (h : 0 < d.digits) : (10 : ℚ) ^ d.leading ≤ d.value := by
  have hlength : 0 < (digitChars d.digits).length := Decimal.length_digitChars_pos
  have hdigits : ((10 ^ ((digitChars d.digits).length - 1) : ℕ) : ℚ) ≤ d.digits := by
    exact_mod_cast pow_length_le h
  have hleading : d.leading = ((digitChars d.digits).length - 1 : ℕ) + d.exponent := by
    rw [leading]
    omega
  rw [value, hleading, zpow_add₀ (by norm_num), zpow_natCast]
  exact mul_le_mul_of_nonneg_right (by exact_mod_cast hdigits) (by positivity)

theorem value_lt_pow_leading (d : Decimal) : d.value < (10 : ℚ) ^ (d.leading + 1) := by
  have hdigits : (d.digits : ℚ) < ((10 ^ (digitChars d.digits).length : ℕ) : ℚ) := by
    exact_mod_cast lt_pow_length d.digits
  have hleading : d.leading + 1 = ((digitChars d.digits).length : ℕ) + d.exponent := by
    rw [leading]
    omega
  rw [value, hleading, zpow_add₀ (by norm_num), zpow_natCast]
  exact mul_lt_mul_of_pos_right (by exact_mod_cast hdigits) (by positivity)

theorem le_exponent_trimmed (digits : Nat) (exponent : Int) (steps : Nat) :
    exponent ≤ (trimmed digits exponent steps).exponent := by
  induction steps generalizing digits exponent with
  | zero => exact Int.le_refl _
  | succ steps ih =>
      unfold trimmed
      split_ifs
      · have hnext := ih (digits / 10) (exponent + 1)
        omega
      · exact Int.le_refl _

-- A decimal below the limit of places is written with a point.
theorem hasPoint_of_lt (hpos : 0 < d.value) (h : d.value < 10 ^ 16) : d.hasPoint = true := by
  by_cases hexponent : d.exponent < 0
  · simp [hasPoint, hexponent]
  · have hdigits : 0 < d.digits := by
      rw [value, mul_pos_iff_of_pos_right (by positivity)] at hpos
      exact_mod_cast hpos
    have hleading : d.leading < 16 := by
      have hlt : (10 : ℚ) ^ d.leading < 10 ^ (16 : Int) :=
        (pow_leading_le_value hdigits).trans_lt (by exact_mod_cast h)
      exact (zpow_lt_zpow_iff_right₀ (by norm_num)).mp hlt
    have hlength : 0 < (digitChars d.digits).length := Decimal.length_digitChars_pos
    have hplace : leastPlace ≤ d.leading := by
      rw [leastPlace, leading]
      omega
    simp [hasPoint, isPositional, placeLimit, hplace, hleading]

-- A whole decimal from the limit of places on is not.
theorem hasPoint_of_le (hexponent : 0 ≤ d.exponent) (h : 10 ^ 16 ≤ d.value) :
    d.hasPoint = false := by
  have hleading : 16 ≤ d.leading := by
    have hlt : (10 : ℚ) ^ (16 : Int) < 10 ^ (d.leading + 1) :=
      lt_of_le_of_lt (by exact_mod_cast h) (value_lt_pow_leading d)
    have hplace := (zpow_lt_zpow_iff_right₀ (by norm_num : (1 : ℚ) < 10)).mp hlt
    omega
  simp [hasPoint, isPositional, placeLimit, not_lt.mpr hleading, hexponent]

end Decimal

namespace Rounding

open Binary

variable {r : Rounding} {k : Int} {n mantissa : Nat} {exponent : Int} {value : ℚ}

theorem lt_pow_leading (r : Rounding) :
    (r.value : ℚ) * 2 ^ r.exponent < 10 ^ (r.leading + 1) := by
  rw [value_eq_div, leading]
  have hden : 0 < twoPow (-r.exponent).toNat := Nat.two_pow_pos _
  generalize r.value * twoPow r.exponent.toNat = num at *
  generalize twoPow (-r.exponent).toNat = den at *
  have hden' : (0 : ℚ) < den := by exact_mod_cast hden
  rw [div_lt_iff₀ hden']
  split_ifs with hguess
  · rw [Int.sub_add_cancel, zpow_eq_div (by norm_num), div_mul_eq_mul_div,
      lt_div_iff₀ (by positivity)]
    simp only [tenPow_eq] at hguess
    rw [mul_comm ((10 : ℚ) ^ _)]
    exact_mod_cast hguess
  · have hhigh : (num : ℚ) < 10 ^ (Decimal.digitChars num).length := by
      exact_mod_cast Decimal.lt_pow_length num
    have hlow : (10 : ℚ) ^ ((Decimal.digitChars den).length - 1) ≤ den := by
      exact_mod_cast Decimal.pow_length_le hden
    have hlength : 0 < (Decimal.digitChars den).length := Decimal.length_digitChars_pos
    generalize (Decimal.digitChars num).length = digits at *
    generalize (Decimal.digitChars den).length = digits' at *
    calc (num : ℚ) < 10 ^ digits := hhigh
      _ = 10 ^ ((digits : Int) - digits' + 1) * 10 ^ (digits' - 1) := by
          rw [← zpow_natCast, ← zpow_natCast, ← zpow_add₀ (by norm_num)]
          congr 1
          omega
      _ ≤ 10 ^ ((digits : Int) - digits' + 1) * den :=
          mul_le_mul_of_nonneg_left hlow (by positivity)

-- A grid on which the leading place stands has no number for the double below that place.
theorem pow_leading_le_of_onGrid? (hvalue : 0 < r.value) (h : r.onGrid? k = some n)
    (hk : k ≤ r.leading) : (10 : ℚ) ^ r.leading ≤ n * 10 ^ k := by
  obtain ⟨-, habove⟩ := between_neighbours r k
  have hgrid : (0 : ℚ) < 10 ^ k := by positivity
  have hle : r.binaryScaled k r.value / r.decimalScaled k 1 ≤ n := by
    simp only [onGrid?] at h
    split at h
    · injection h with h
      split_ifs at h <;> omega
    · injection h with h
      omega
    · injection h with h
      omega
    · cases h
  generalize r.binaryScaled k r.value / r.decimalScaled k 1 = below at *
  obtain ⟨places, hplaces⟩ : ∃ places : Nat, r.leading = places + k :=
    ⟨(r.leading - k).toNat, by omega⟩
  have hlt : (10 : ℚ) ^ places * 10 ^ k < (below + 1 : ℕ) * 10 ^ k := by
    rw [← zpow_natCast, ← zpow_add₀ (by norm_num), ← hplaces]
    exact (pow_leading_le hvalue).trans_lt habove
  have hbelow : 10 ^ places < below + 1 := by
    exact_mod_cast lt_of_mul_lt_mul_right hlt hgrid.le
  rw [hplaces, zpow_add₀ (by norm_num), zpow_natCast]
  refine mul_le_mul_of_nonneg_right ?_ hgrid.le
  exact_mod_cast (Nat.le_of_lt_succ hbelow).trans hle

-- What rounds to a double below the limit of places is below it itself.
theorem lt_limit_of_admits (hcanonical : Canonical mantissa exponent)
    (h : (mantissa : ℚ) * 2 ^ exponent < 10 ^ 16)
    (hadmits : (ofParts mantissa exponent).Admits value) : value < 10 ^ 16 := by
  rcases lt_trichotomy exponent 1 with hsmall | rfl | hlarge
  · calc value < 2 ^ (53 + exponent) := lt_of_admits hcanonical hadmits
      _ ≤ 2 ^ ((53 : ℕ) : Int) := zpow_le_zpow_right₀ (by norm_num) (by omega)
      _ < 10 ^ 16 := by norm_num
  · have hmantissa : mantissa * 2 < 10 ^ 16 := by
      rw [zpow_one] at h
      exact_mod_cast h
    have hhalf : value ≤ (2 * mantissa + 1 : ℕ) := by
      have hhigh : value ≤ (4 * mantissa + 2 : ℕ) * 2 ^ ((1 : Int) - 2) := hadmits.le_high
      norm_num at hhigh
      push_cast
      linarith
    exact hhalf.trans_lt (by exact_mod_cast (by omega : 2 * mantissa + 1 < 10 ^ 16))
  · have hnormal : topBit ≤ mantissa :=
      hcanonical.normal (by rw [leastExponent]; omega)
    rw [topBit_value] at hnormal
    have hpow : (2 : ℚ) ^ (2 : Int) ≤ 2 ^ exponent := zpow_le_zpow_right₀ (by norm_num) (by omega)
    have hmantissa : (4503599627370496 : ℚ) ≤ mantissa := by exact_mod_cast hnormal
    have hlow : (4503599627370496 : ℚ) * 2 ^ (2 : Int) ≤ mantissa * 2 ^ exponent :=
      mul_le_mul hmantissa hpow (by positivity) (by positivity)
    norm_num at hlow
    linarith

-- The shortest decimal of a double is written with a point exactly below the limit of places.
theorem hasPoint_shortest_iff (h : Canonical mantissa exponent) :
    (Decimal.shortest mantissa exponent).hasPoint = true ↔
      (mantissa : ℚ) * 2 ^ exponent < 10 ^ 16 := by
  have hadmits := admits_shortest h
  constructor
  · intro hpoint
    by_contra hlarge
    rw [not_lt] at hlarge
    obtain ⟨n, more, hmore, hn, hshortest⟩ := exists_onGrid?_shortest h
    have hpos : 0 < (ofParts mantissa exponent).value := Nat.mul_pos (by decide) h.pos
    have hvalue : ((ofParts mantissa exponent).value : ℚ) *
        2 ^ (ofParts mantissa exponent).exponent = mantissa * 2 ^ exponent := by
      simp only [ofParts]
      rw [zpow_sub₀ (by norm_num)]
      push_cast
      ring
    have hleading : 16 ≤ (ofParts mantissa exponent).leading := by
      have hlt := lt_of_le_of_lt hlarge (hvalue ▸ lt_pow_leading _)
      have hplace := (zpow_lt_zpow_iff_right₀ (by norm_num : (1 : ℚ) < 10)).mp
        (lt_of_eq_of_lt (zpow_natCast (10 : ℚ) 16) hlt)
      omega
    have hexponent := Decimal.le_exponent_trimmed n
      ((ofParts mantissa exponent).leading - more) 18
    have hleast : (10 : ℚ) ^ 16 ≤ (Decimal.shortest mantissa exponent).value := by
      rw [hshortest, Decimal.value_trimmed]
      calc (10 : ℚ) ^ 16 = 10 ^ ((16 : ℕ) : Int) := (zpow_natCast _ _).symm
        _ ≤ 10 ^ (ofParts mantissa exponent).leading :=
            zpow_le_zpow_right₀ (by norm_num) (by omega)
        _ ≤ n * 10 ^ ((ofParts mantissa exponent).leading - more) :=
            pow_leading_le_of_onGrid? hpos hn (by omega)
    have hwhole : 0 ≤ (Decimal.shortest mantissa exponent).exponent := by
      rw [hshortest]
      omega
    rw [Decimal.hasPoint_of_le hwhole hleast] at hpoint
    cases hpoint
  · intro hsmall
    exact Decimal.hasPoint_of_lt (Number.pos_of_admits h hadmits)
      (lt_limit_of_admits h hsmall hadmits)

end Rounding

end FrameNotation
