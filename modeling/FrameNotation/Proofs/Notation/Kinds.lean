import FrameNotation.Proofs.Notation.Unambiguous
import FrameNotation.Proofs.Number.Places

namespace FrameNotation.Number

open Binary

variable {x : Float} {n : Number} {i : Int} {negative : Bool} {mantissa limit : Nat}
variable {exponent : Int} {text : Str}

-- The number lies between a limit and its opposite, and is neither of them.
def LiesWithin (limit : Nat) (n : Number) : Prop :=
  (int (-limit)).less n = true ∧ n.less (int limit) = true

theorem liesWithin_iff (h : ofFloat x = .finite negative mantissa exponent) :
    (float x).LiesWithin limit ↔ (mantissa : ℚ) * 2 ^ exponent < limit := by
  have hquotient : (mantissa : ℚ) * 2 ^ exponent < limit ↔
      mantissa * twoPow exponent.toNat < limit * twoPow (-exponent).toNat := by
    rw [zpow_eq_div (by norm_num), ← mul_div_assoc, div_lt_iff₀ (by positivity)]
    simp only [twoPow_eq]
    exact_mod_cast Iff.rfl
  have hunit : ((twoPow 0 : ℕ) : Int) = 1 := rfl
  rw [hquotient]
  simp only [LiesWithin, less, standing, h, Standing.less, decide_eq_true_eq, hunit, mul_one]
  rw [← Nat.cast_mul]
  generalize mantissa * twoPow exponent.toNat = numerator
  generalize twoPow (-exponent).toNat = scale
  have hlimit : (limit : Int) * scale = (limit * scale : ℕ) := (Nat.cast_mul _ _).symm
  rw [Int.neg_mul, hlimit]
  cases negative <;> simp only [if_true, if_false, Bool.false_eq_true] <;> omega

theorem hasPoint_iff_liesWithin (h : ofFloat x = .finite negative mantissa exponent) :
    (Decimal.shortest mantissa exponent).hasPoint = true ↔ (float x).LiesWithin (tenPow 16) := by
  have hlimit : (tenPow 16 : ℚ) = 10 ^ 16 := by norm_num [tenPow_eq]
  rw [liesWithin_iff h, hlimit]
  rcases of_ofFloat h with ⟨rfl, -⟩ | ⟨hcanonical, -⟩
  · exact iff_of_true (Decimal.hasPoint_shortest_zero exponent) (by norm_num)
  · exact Rounding.hasPoint_shortest_iff hcanonical

-- A double keeps its kind below the limit of places, and loses it from there on.
theorem echo_of_liesWithin (hfinite : (float x).isFinite = true)
    (h : (float x).LiesWithin (tenPow 16)) : (float x).echo = float x := by
  obtain ⟨negative, mantissa, exponent, hx⟩ := exists_ofFloat hfinite
  rw [echo_float hx, if_pos ((hasPoint_iff_liesWithin hx).mpr h)]

theorem echo_of_not_liesWithin (hfinite : (float x).isFinite = true)
    (h : ¬(float x).LiesWithin (tenPow 16)) : ∃ j, (float x).echo = int j := by
  obtain ⟨negative, mantissa, exponent, hx⟩ := exists_ofFloat hfinite
  rw [echo_float hx, if_neg (mt (hasPoint_iff_liesWithin hx).mp h)]
  exact ⟨_, rfl⟩

-- A number that is written is read as its echo, and its echo is written the same way.
theorem exists_write (h : n.IsCarried) : ∃ text, (Value.number n).write = .ok text ∧
    Value.ofText text = .ok (.number n.echo) ∧ (Value.number n.echo).write = .ok text := by
  obtain ⟨cs, hwrite, hwritten⟩ := written_number h
  have hread := hwritten.reads (cs.length + 1) (Nat.lt_succ_self _)
  exact ⟨Str.ofList cs, map_eq_ok.mpr ⟨cs, hwrite, rfl⟩,
    by rw [Value.ofText, Value.read, Str.toList_ofList, hread]; rfl,
    map_eq_ok.mpr ⟨cs, number_echo hwrite, rfl⟩⟩

theorem ofText_written (h : (Value.number n).write = .ok text) :
    Value.ofText text = .ok (.number n.echo) := by
  obtain ⟨cs, hcs, -⟩ := map_eq_ok.mp h
  obtain ⟨again, hagain, hread, -⟩ := exists_write (isCarried_of_number hcs)
  cases h.symm.trans hagain
  exact hread

-- Integers of not too many digits are read as they were, and so are finite doubles below the limit
-- of places. From there on a double shares its text with the integer it is read as.
theorem ofText_write_kind (hfinite : (float x).isFinite = true)
    (hdigits : i.natAbs < tenPow maxDigits) :
    (∃ text, (Value.number (int i)).write = .ok text ∧
      Value.ofText text = .ok (.number (int i))) ∧
    ∃ text, (Value.number (float x)).write = .ok text ∧
      ((float x).LiesWithin (tenPow 16) → Value.ofText text = .ok (.number (float x)) ∧
        ∀ j, (Value.number (int j)).write ≠ .ok text) ∧
      (¬(float x).LiesWithin (tenPow 16) → ∃ j, Value.ofText text = .ok (.number (int j)) ∧
        (Value.number (int j)).write = .ok text) := by
  have hint : (int i).IsCarried := hdigits
  have hfloat : (float x).IsCarried := hfinite
  obtain ⟨digits, hwritten, hback, -⟩ := exists_write hint
  obtain ⟨text, hwrite, hread, hsame⟩ := exists_write hfloat
  refine ⟨⟨digits, hwritten, hback⟩, text, hwrite, fun hwithin => ?_, fun hbeyond => ?_⟩
  · rw [echo_of_liesWithin hfinite hwithin] at hread
    refine ⟨hread, fun j hj => ?_⟩
    cases hread.symm.trans (ofText_written hj)
  · obtain ⟨j, hj⟩ := echo_of_not_liesWithin hfinite hbeyond
    rw [hj] at hread hsame
    exact ⟨j, hread, hsame⟩

theorem ofText_write_kind_steep : (float 90.5).isFinite = true ∧
    (90 : Int).natAbs < tenPow maxDigits ∧ (float 90.5).LiesWithin (tenPow 16) ∧
    (∃ text, (Value.number (int 90)).write = .ok text ∧
      Value.ofText text = .ok (.number (int 90))) ∧
    ∃ text, (Value.number (float 90.5)).write = .ok text ∧
      Value.ofText text = .ok (.number (float 90.5)) ∧
      ∀ j, (Value.number (int j)).write ≠ .ok text := by
  have hfinite : (float 90.5).isFinite = true := by decide
  have hdigits : (90 : Int).natAbs < tenPow maxDigits := by decide +kernel
  have hwithin : (float 90.5).LiesWithin (tenPow 16) := ⟨by decide, by decide⟩
  obtain ⟨hint, text, hwrite, hkind, -⟩ := ofText_write_kind hfinite hdigits
  exact ⟨hfinite, hdigits, hwithin, hint, text, hwrite, hkind hwithin⟩

-- The first double without a point is read as an integer, and that integer has the same text.
theorem not_ofText_write_large : (float 1e16).isFinite = true ∧
    (Value.number (float 1e16)).write = .ok "10000000000000000" ∧
    (Value.number (int 10000000000000000)).write = .ok "10000000000000000" ∧
    ∀ x, Value.ofText "10000000000000000" ≠ .ok (.number (float x)) := by
  have hfinite : (float 1e16).isFinite = true := by decide
  have hecho : (float 1e16).echo = int 10000000000000000 := by decide
  have hdigits : (Value.number (float 1e16)).write = .ok "10000000000000000" := by rfl
  have hcarried : (float 1e16).IsCarried := hfinite
  obtain ⟨text, hwrite, hread, hsame⟩ := exists_write hcarried
  cases hdigits.symm.trans hwrite
  rw [hecho] at hread hsame
  refine ⟨hfinite, hdigits, hsame, fun x hx => ?_⟩
  cases hread.symm.trans hx

end FrameNotation.Number
