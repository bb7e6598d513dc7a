import FrameNotation.Proofs.Number.Nearest

namespace FrameNotation

-- The rational that a decimal stands for.
def Decimal.value (d : Decimal) : ℚ := d.digits * 10 ^ d.exponent

theorem Decimal.lt_pow_length (n : Nat) : n < 10 ^ (Decimal.digitChars n).length :=
  (length_digitChars_le_iff length_digitChars_pos).mp (Nat.le_refl _)

theorem Decimal.pow_length_le {n : Nat} (hn : 0 < n) :
    10 ^ ((Decimal.digitChars n).length - 1) ≤ n := by
  rcases Nat.eq_zero_or_pos ((Decimal.digitChars n).length - 1) with hzero | hpos
  · rw [hzero]
    exact hn
  · by_contra hlt
    have hle := (length_digitChars_le_iff hpos).mpr (Nat.lt_of_not_le hlt)
    omega

namespace Rounding

open Binary

variable {r : Rounding} {k : Int} {n units : Nat}

-- Both scaled numbers are counted in the same unit.
theorem scaled_eq (r : Rounding) (k : Int) : ∃ unit : ℚ, 0 < unit ∧
    (∀ units, (r.binaryScaled k units : ℚ) = units * 2 ^ r.exponent * unit) ∧
      ∀ n, (r.decimalScaled k n : ℚ) = n * 10 ^ k * unit := by
  refine ⟨2 ^ (-r.exponent).toNat * 10 ^ (-k).toNat, by positivity, fun units => ?_, fun n => ?_⟩
  · rw [zpow_eq_div (by norm_num) r.exponent]
    simp only [binaryScaled, twoPow_eq, tenPow_eq]
    push_cast
    field_simp
  · rw [zpow_eq_div (by norm_num) k]
    simp only [decimalScaled, twoPow_eq, tenPow_eq]
    push_cast
    field_simp

-- The check by whole numbers tells which decimals round to the double.
theorem contains_iff : r.contains k n = true ↔ r.Admits (n * 10 ^ k) := by
  obtain ⟨unit, hunit, hbinary, hdecimal⟩ := scaled_eq r k
  have hle (a b : ℕ) : a ≤ b ↔ (a : ℚ) ≤ b := Nat.cast_le.symm
  have hlt (a b : ℕ) : a < b ↔ (a : ℚ) < b := Nat.cast_lt.symm
  unfold contains
  cases hclosed : r.closed with
  | true =>
      simp only [if_true, decide_eq_true_eq, hle, hbinary, hdecimal, mul_le_mul_iff_left₀ hunit]
      exact ⟨fun h => ⟨h.1, h.2, by simp [hclosed]⟩, fun h => ⟨h.low_le, h.le_high⟩⟩
  | false =>
      simp only [Bool.false_eq_true, if_false, decide_eq_true_eq, hlt, hbinary, hdecimal,
        mul_lt_mul_iff_left₀ hunit]
      exact ⟨fun h => ⟨le_of_lt h.1, le_of_lt h.2, fun _ => h⟩, fun h => h.strict hclosed⟩

theorem admits_of_onGrid? (h : r.onGrid? k = some n) : r.Admits (n * 10 ^ k) := by
  rw [← contains_iff]
  simp only [onGrid?] at h
  split at h
  · rename_i hbelow habove
    injection h with h
    subst h
    split_ifs <;> assumption
  · rename_i hbelow _
    injection h with h
    subst h
    exact hbelow
  · rename_i _ habove
    injection h with h
    subst h
    exact habove
  · cases h

theorem admits_of_lt {value : ℚ} (hlow : r.low * 2 ^ r.exponent < value)
    (hhigh : value < r.high * 2 ^ r.exponent) : r.Admits value :=
  ⟨le_of_lt hlow, le_of_lt hhigh, fun _ => ⟨hlow, hhigh⟩⟩

-- The value lies between two neighbours on the grid.
theorem between_neighbours (r : Rounding) (k : Int) :
    let below := r.binaryScaled k r.value / r.decimalScaled k 1
    (below : ℚ) * 10 ^ k ≤ r.value * 2 ^ r.exponent ∧
      (r.value : ℚ) * 2 ^ r.exponent < (below + 1 : ℕ) * 10 ^ k := by
  intro below
  obtain ⟨unit, hunit, hbinary, hdecimal⟩ := scaled_eq r k
  have hone : 0 < r.decimalScaled k 1 := by
    have hpos : (0 : ℚ) < r.decimalScaled k 1 := by
      rw [hdecimal]
      positivity
    exact_mod_cast hpos
  have hmul (n : ℕ) : r.decimalScaled k n = n * r.decimalScaled k 1 := by
    simp only [decimalScaled]
    ring
  have hbelow : r.decimalScaled k below ≤ r.binaryScaled k r.value := by
    rw [hmul]
    exact Nat.div_mul_le_self _ _
  have habove : r.binaryScaled k r.value < r.decimalScaled k (below + 1) := by
    rw [hmul]
    exact Nat.lt_mul_of_div_lt (Nat.lt_succ_self _) hone
  have hbelow' : (r.decimalScaled k below : ℚ) ≤ r.binaryScaled k r.value := by
    exact_mod_cast hbelow
  have habove' : (r.binaryScaled k r.value : ℚ) < r.decimalScaled k (below + 1) := by
    exact_mod_cast habove
  rw [hbinary, hdecimal] at hbelow' habove'
  exact ⟨le_of_mul_le_mul_right hbelow' hunit, lt_of_mul_lt_mul_right habove' (le_of_lt hunit)⟩

-- On a grid that is finer than the interval, the nearer neighbour rounds to the double.
theorem onGrid?_ne_none
    (hlow : (10 : ℚ) ^ k < 2 * (r.value - r.low) * 2 ^ r.exponent)
    (hhigh : (10 : ℚ) ^ k < 2 * (r.high - r.value) * 2 ^ r.exponent) : r.onGrid? k ≠ none := by
  obtain ⟨hbelow, habove⟩ := between_neighbours r k
  have hgrid : (0 : ℚ) < 10 ^ k := by positivity
  simp only [onGrid?]
  generalize r.binaryScaled k r.value / r.decimalScaled k 1 = below at *
  push_cast at habove
  have hnear : r.contains k below = true ∨ r.contains k (below + 1) = true := by
    rw [contains_iff, contains_iff]
    push_cast
    by_cases hhalf : r.value * 2 ^ r.exponent - below * 10 ^ k ≤ (10 : ℚ) ^ k / 2
    · exact .inl (admits_of_lt (by linarith) (by linarith))
    · exact .inr (admits_of_lt (by linarith) (by linarith))
  rcases hnear with hcontains | hcontains
  · rw [hcontains]
    cases r.contains k (below + 1) <;> simp
  · rw [hcontains]
    cases r.contains k below <;> simp

-- The quotient whose leading place is looked for.
theorem value_eq_div (r : Rounding) : (r.value : ℚ) * 2 ^ r.exponent =
    (r.value * twoPow r.exponent.toNat : ℕ) / (twoPow (-r.exponent).toNat : ℕ) := by
  rw [zpow_eq_div (by norm_num)]
  simp only [twoPow_eq]
  push_cast
  ring

-- The first digit of the value stands at this place.
theorem pow_leading_le (hvalue : 0 < r.value) :
    (10 : ℚ) ^ r.leading ≤ r.value * 2 ^ r.exponent := by
  rw [value_eq_div, leading]
  have hnum : 0 < r.value * twoPow r.exponent.toNat := Nat.mul_pos hvalue (Nat.two_pow_pos _)
  have hden : 0 < twoPow (-r.exponent).toNat := Nat.two_pow_pos _
  generalize r.value * twoPow r.exponent.toNat = num at *
  generalize twoPow (-r.exponent).toNat = den at *
  have hden' : (0 : ℚ) < den := by exact_mod_cast hden
  rw [le_div_iff₀ hden']
  split_ifs with hguess
  · have hlow : (10 : ℚ) ^ ((Decimal.digitChars num).length - 1) ≤ num := by
      exact_mod_cast Decimal.pow_length_le hnum
    have hhigh : (den : ℚ) ≤ 10 ^ (Decimal.digitChars den).length := by
      exact_mod_cast Nat.le_of_lt (Decimal.lt_pow_length den)
    have hlength : 0 < (Decimal.digitChars num).length := Decimal.length_digitChars_pos
    generalize (Decimal.digitChars num).length = digits at *
    generalize (Decimal.digitChars den).length = digits' at *
    calc (10 : ℚ) ^ ((digits : Int) - digits' - 1) * den
        ≤ 10 ^ ((digits : Int) - digits' - 1) * 10 ^ digits' :=
          mul_le_mul_of_nonneg_left hhigh (by positivity)
      _ = 10 ^ (digits - 1) := by
          rw [← zpow_natCast, ← zpow_natCast, ← zpow_add₀ (by norm_num)]
          congr 1
          omega
      _ ≤ num := hlow
  · rw [Nat.not_lt] at hguess
    rw [zpow_eq_div (by norm_num), div_mul_eq_mul_div, div_le_iff₀ (by positivity)]
    simp only [tenPow_eq] at hguess
    rw [mul_comm]
    exact_mod_cast hguess

end Rounding

theorem Decimal.value_trimmed (digits : Nat) (exponent : Int) (steps : Nat) :
    (Decimal.trimmed digits exponent steps).value = digits * 10 ^ exponent := by
  induction steps generalizing digits exponent with
  | zero => rfl
  | succ steps ih =>
      unfold Decimal.trimmed
      split_ifs with hzero
      · have hdigits : (digits : ℚ) = (digits / 10 : ℕ) * 10 := by
          exact_mod_cast show digits = digits / 10 * 10 by omega
        rw [ih, hdigits, zpow_add₀ (by norm_num)]
        norm_num
        ring
      · rfl

namespace Rounding

open Binary

variable {mantissa : Nat} {exponent : Int}

-- The distance to the lower end is smaller below a power of two, which itself is small enough.
theorem exists_gap (h : Canonical mantissa exponent) : ∃ gap : Nat,
    (ofParts mantissa exponent).low + gap = 4 * mantissa ∧ gap ≤ 2 ∧
      4 * mantissa < 2 * gap * 10 ^ 16 := by
  have hpos := h.pos
  have hlt := h.lt_double
  rw [topBit_value] at hlt
  simp only [ofParts]
  split_ifs with htop
  · rw [topBit_value] at htop
    exact ⟨1, by omega, by omega, by omega⟩
  · exact ⟨2, by omega, by omega, by omega⟩

-- Seventeen digits are enough for every double.
theorem onGrid?_seventeen (h : Canonical mantissa exponent) :
    (ofParts mantissa exponent).onGrid? ((ofParts mantissa exponent).leading - 16) ≠ none := by
  have hlead : (10 : ℚ) ^ ((ofParts mantissa exponent).leading - 16) * 10 ^ 16 ≤
      (4 * mantissa : ℕ) * 2 ^ (ofParts mantissa exponent).exponent := by
    rw [zpow_sub₀ (by norm_num), show (10 : ℚ) ^ (16 : Int) = 10 ^ 16 from zpow_natCast 10 16,
      div_mul_cancel₀ _ (by norm_num)]
    exact pow_leading_le (Nat.mul_pos (by decide) h.pos)
  obtain ⟨gap, hlow, hgap, hsmall⟩ := exists_gap h
  generalize (ofParts mantissa exponent).leading - 16 = k at *
  have hscale : (0 : ℚ) < 2 ^ (ofParts mantissa exponent).exponent := by positivity
  have hfine : (10 : ℚ) ^ k < 2 * gap * 2 ^ (ofParts mantissa exponent).exponent := by
    have hsmall' : ((4 * mantissa : ℕ) : ℚ) < 2 * gap * 10 ^ 16 := by exact_mod_cast hsmall
    have hmul := mul_lt_mul_of_pos_right hsmall' hscale
    refine lt_of_mul_lt_mul_right (a := (10 : ℚ) ^ 16) ?_ (by norm_num)
    calc (10 : ℚ) ^ k * 10 ^ 16 ≤ (4 * mantissa : ℕ) * 2 ^ (ofParts mantissa exponent).exponent :=
          hlead
      _ < 2 * gap * 10 ^ 16 * 2 ^ (ofParts mantissa exponent).exponent := hmul
      _ = 2 * gap * 2 ^ (ofParts mantissa exponent).exponent * 10 ^ 16 := by ring
  have hvalue : ((ofParts mantissa exponent).value : ℚ) =
      (ofParts mantissa exponent).low + gap := by
    exact_mod_cast hlow.symm
  have hhigh : ((ofParts mantissa exponent).high : ℚ) = (ofParts mantissa exponent).value + 2 := by
    exact_mod_cast rfl
  refine onGrid?_ne_none ?_ ?_
  · rw [hvalue, add_sub_cancel_left]
    exact hfine
  · have hgap' : (gap : ℚ) ≤ 2 := by exact_mod_cast hgap
    rw [hhigh, add_sub_cancel_left]
    have hmul := mul_le_mul_of_nonneg_right hgap' (le_of_lt hscale)
    linarith

-- The shortest decimal lies on a grid of which seventeen digits at most reach below the first.
theorem exists_onGrid?_shortest (h : Canonical mantissa exponent) : ∃ (n more : Nat), more ≤ 16 ∧
    (ofParts mantissa exponent).onGrid? ((ofParts mantissa exponent).leading - more) = some n ∧
      Decimal.shortest mantissa exponent =
        .trimmed n ((ofParts mantissa exponent).leading - more) 18 := by
  have hpos := h.pos
  rw [Decimal.shortest, if_neg (by omega), shortest]
  cases hfound : (List.range 17).findSome? fun more : Nat =>
      ((ofParts mantissa exponent).onGrid? ((ofParts mantissa exponent).leading - more)).map
        fun n => (n, (ofParts mantissa exponent).leading - more) with
  | none =>
      have hnone := List.findSome?_eq_none_iff.mp hfound 16 (by decide)
      exact absurd (Option.map_eq_none_iff.mp hnone) (onGrid?_seventeen h)
  | some found =>
      obtain ⟨more, hrange, hmore⟩ := List.exists_of_findSome?_eq_some hfound
      obtain ⟨n, hn, rfl⟩ := Option.map_eq_some_iff.mp hmore
      exact ⟨n, more, Nat.le_of_lt_succ (List.mem_range.mp hrange), hn, rfl⟩

-- The shortest decimal of a double reads back as the double.
theorem admits_shortest (h : Canonical mantissa exponent) :
    (ofParts mantissa exponent).Admits (Decimal.shortest mantissa exponent).value := by
  obtain ⟨n, more, -, hn, hshortest⟩ := exists_onGrid?_shortest h
  rw [hshortest, Decimal.value_trimmed]
  exact admits_of_onGrid? hn

end Rounding

end FrameNotation
