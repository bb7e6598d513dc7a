import FrameNotation.Number.Numeral
import FrameNotation.Proofs.Success
import Mathlib.Algebra.Ring.Nat
import Mathlib.Data.List.TakeWhile
import Mathlib.Tactic.Ring
import Mathlib.Tactic.SplitIfs

namespace FrameNotation

open Text

variable {cs whole fraction : List CodePoint} {c : CodePoint} {negative : Bool} {n : Nat}

theorem twoPow_eq : twoPow n = 2 ^ n := rfl

theorem tenPow_eq : tenPow n = 10 ^ n := rfl

-- The digits of ASCII.
def CodePoint.isDigit : CodePoint → Bool
  | char c => c.isDigit
  | surrogate _ => false

theorem CodePoint.isDigit_iff :
    c.isDigit = true ↔ ∃ digit : Char, digit.isDigit = true ∧ c = digit := by
  cases c with
  | char digit => simp [isDigit]
  | surrogate => simp [isDigit]

theorem CodePoint.isAlphanum_of_isDigit (h : c.isDigit = true) : c.isAlphanum = true := by
  obtain ⟨digit, hdigit, rfl⟩ := isDigit_iff.mp h
  simp [isAlphanum, Char.isAlphanum, hdigit]

namespace Text

-- An ASCII digit stands for its distance from zero.
theorem decimalDigit?_of_isDigit (h : c.isDigit = true) :
    decimalDigit? c = some (c.toNat - '0'.toNat) := by
  obtain ⟨digit, hdigit, rfl⟩ := CodePoint.isDigit_iff.mp h
  obtain ⟨hlow, hhigh⟩ := Char.isDigit_iff_toNat.mp hdigit
  have hzero : decimalZeros.find? (fun first =>
      decide (first ≤ (char digit).toNat ∧ (char digit).toNat < first + 10)) = some 0x30 := by
    rw [decimalZeros, List.find?_cons_of_pos]
    have hnine : '9'.toNat = 57 := rfl
    have hzero : '0'.toNat = 48 := rfl
    rw [decide_eq_true_eq, CodePoint.toNat_char]
    omega
  simp only [decimalDigit?, hzero, Option.map_some]
  rfl

theorem isDecimalDigit_of_isDigit (h : c.isDigit = true) : isDecimalDigit c = true := by
  rw [isDecimalDigit, decimalDigit?_of_isDigit h]
  rfl

theorem digitsValue_map {digits : List Char} (h : ∀ c ∈ digits, c.isDigit = true) :
    digitsValue (digits.map char) = Nat.ofDigitChars 10 digits 0 := by
  have hfold (start : Nat) : (digits.map char).foldl
      (fun value c => value * 10 + (decimalDigit? c).getD 0) start =
        Nat.ofDigitChars 10 digits start := by
    induction digits generalizing start with
    | nil => rfl
    | cons c rest ih =>
        have hc : (char c).isDigit = true := h c (by simp)
        rw [List.map_cons, List.foldl_cons, ih (fun d hd => h d (by simp [hd])),
          decimalDigit?_of_isDigit hc, Option.getD_some, Nat.ofDigitChars_cons, Nat.mul_comm]
        rfl
  exact hfold 0

theorem digitsValue_append {ds : List CodePoint} :
    digitsValue (cs ++ ds) = digitsValue cs * 10 ^ ds.length + digitsValue ds := by
  have hfold (start : Nat) : ds.foldl (fun value c => value * 10 + (decimalDigit? c).getD 0) start =
      start * 10 ^ ds.length + digitsValue ds := by
    induction ds generalizing start with
    | nil => simp [digitsValue]
    | cons c rest ih =>
        have hrest := ih (0 * 10 + (decimalDigit? c).getD 0)
        rw [digitsValue, List.foldl_cons, List.foldl_cons, hrest, ih, List.length_cons,
          Nat.pow_succ']
        ring
  rw [digitsValue, List.foldl_append]
  exact hfold _

theorem digitsValue_replicate_zero {count : Nat} :
    digitsValue (List.replicate count (char '0')) = 0 := by
  induction count with
  | zero => rfl
  | succ count ih =>
      rw [List.replicate_succ', digitsValue_append, ih]
      rfl

end Text

theorem Decimal.isDigit_digitChars (h : c ∈ Decimal.digitChars n) : c.isDigit = true :=
  have ⟨_, hdigit, heq⟩ := List.mem_map.mp h
  heq ▸ Nat.isDigit_of_mem_toDigits (by decide) (by decide) hdigit

theorem Str.toList_ofString_toString : (ofString (toString n)).toList = Decimal.digitChars n :=
  congrArg (List.map char) Nat.toList_repr

-- A name with a number at its end has only its own characters and digits.
theorem forall_mem_numbered {holds : CodePoint → Prop} {start : Str} (index : Nat)
    (hstart : ∀ c ∈ start.toList, holds c) (hdigit : ∀ c, c.isDigit = true → holds c) :
    ∀ c ∈ (start ++ toString index).toList, holds c := by
  intro c hc
  rw [Str.toList_append, Str.toList_ofString_toString] at hc
  rcases List.mem_append.mp hc with hc | hc
  · exact hstart c hc
  · exact hdigit c (Decimal.isDigit_digitChars hc)

theorem Decimal.digitChars_ne_nil : Decimal.digitChars n ≠ [] :=
  fun h => Nat.toDigits_ne_nil (List.map_eq_nil_iff.mp h)

@[simp] theorem Decimal.digitsValue_digitChars :
    digitsValue (Decimal.digitChars n) = n := by
  rw [digitChars, digitsValue_map fun _ => Nat.isDigit_of_mem_toDigits (by decide) (by decide),
    Nat.ofDigitChars_ten_toDigits]

-- A name with a number at its end tells the number.
theorem numbered_inj {start : Str} {index other : Nat}
    (h : start ++ toString index = start ++ toString other) : index = other := by
  have hsame := congrArg Str.toList ((Str.append_right_inj start).mp h)
  rw [Str.toList_ofString_toString, Str.toList_ofString_toString] at hsame
  rw [← Decimal.digitsValue_digitChars (n := index), hsame, Decimal.digitsValue_digitChars]

theorem Decimal.length_digitChars_le_iff {k : Nat} (hk : 0 < k) :
    (Decimal.digitChars n).length ≤ k ↔ n < tenPow k := by
  rw [digitChars, List.length_map, Nat.length_toDigits_le_iff (by decide) hk, tenPow_eq]

theorem Decimal.length_digitChars_pos : 0 < (Decimal.digitChars n).length :=
  List.length_pos_of_ne_nil digitChars_ne_nil

theorem decimalDigit?_lt {c : CodePoint} {digit : Nat} (h : decimalDigit? c = some digit) :
    digit < 10 := by
  obtain ⟨first, hfirst, rfl⟩ := Option.map_eq_some_iff.mp h
  have hrange := List.find?_some hfirst
  rw [decide_eq_true_eq] at hrange
  omega

theorem digitsValue_lt (cs : List CodePoint) : digitsValue cs < 10 ^ cs.length := by
  have hfold (start : Nat) : cs.foldl (fun value c => value * 10 + (decimalDigit? c).getD 0) start <
      (start + 1) * 10 ^ cs.length := by
    induction cs generalizing start with
    | nil => simp
    | cons c rest ih =>
        have hdigit : (decimalDigit? c).getD 0 < 10 := by
          cases hc : decimalDigit? c with
          | none => decide
          | some digit => exact decimalDigit?_lt hc
        have hstep : start * 10 + (decimalDigit? c).getD 0 + 1 ≤ (start + 1) * 10 := by omega
        rw [List.foldl_cons, List.length_cons, Nat.pow_succ', ← Nat.mul_assoc]
        exact Nat.lt_of_lt_of_le (ih _) (Nat.mul_le_mul_right _ hstep)
  have hzero := hfold 0
  rwa [Nat.zero_add, Nat.one_mul] at hzero

-- A number that is read has no more digits than may be read.
theorem lt_tenPow_of_readDigits (h : readDigits cs = .ok n) : n < tenPow maxDigits := by
  unfold readDigits at h
  split at h
  · rename_i hlength
    cases h
    have hten : 10 ^ cs.length ≤ 10 ^ maxDigits := Nat.pow_le_pow_right (by decide) hlength
    rw [tenPow_eq]
    exact (digitsValue_lt cs).trans_le hten
  · cases h

namespace Numeral

theorem unsigned?_whole (hwhole : ∀ c ∈ whole, c.isDigit = true) (hne : whole ≠ []) :
    unsigned? negative whole = some ⟨negative, whole, none⟩ := by
  have hdigits : ∀ c ∈ whole, isDecimalDigit c = true :=
    fun c hc => isDecimalDigit_of_isDigit (hwhole c hc)
  have htake : whole.takeWhile isDecimalDigit = whole := List.takeWhile_eq_self_iff.mpr hdigits
  have hdrop : whole.dropWhile isDecimalDigit = [] := List.dropWhile_eq_nil_iff.mpr hdigits
  simp [unsigned?, htake, hdrop, hne]

theorem unsigned?_point (hwhole : ∀ c ∈ whole, c.isDigit = true) (hne : whole ≠ [])
    (hfraction : ∀ c ∈ fraction, c.isDigit = true) (hne' : fraction ≠ []) :
    unsigned? negative (whole ++ char '.' :: fraction) = some ⟨negative, whole, some fraction⟩ := by
  have hdigits : ∀ c ∈ whole, isDecimalDigit c = true :=
    fun c hc => isDecimalDigit_of_isDigit (hwhole c hc)
  have hpoint : isDecimalDigit '.' = false := by decide
  have htake : (whole ++ char '.' :: fraction).takeWhile isDecimalDigit = whole := by
    rw [List.takeWhile_append_of_pos hdigits, List.takeWhile_cons_of_neg (by simp [hpoint]),
      List.append_nil]
  have hdrop : (whole ++ char '.' :: fraction).dropWhile isDecimalDigit = char '.' :: fraction := by
    rw [List.dropWhile_append_of_pos hdigits, List.dropWhile_cons_of_neg (by simp [hpoint])]
  have hall : fraction.all isDecimalDigit = true :=
    List.all_eq_true.mpr fun c hc => isDecimalDigit_of_isDigit (hfraction c hc)
  simp [unsigned?, htake, hdrop, hne, hne', hall]

-- A minus in front of digits is the sign.
theorem ofChars?_signed (hdigit : ∀ c, cs.head? = some c → c.isDigit = true) :
    ofChars? (Number.signed negative cs) = unsigned? negative cs := by
  cases negative with
  | true => rfl
  | false =>
      rw [Number.signed, if_neg (by simp), ofChars?]
      rintro rest rfl
      exact absurd (hdigit '-' rfl) (by decide)

end Numeral

namespace Number

-- The numeral of an integer reads back as the integer.
theorem read_intChars {i : Int} (h : i.natAbs < tenPow maxDigits) :
    ∃ digits numeral, intChars i = .ok (signed (decide (i < 0)) digits) ∧ digits ≠ [] ∧
      (∀ c ∈ digits, c.isDigit = true) ∧
      Numeral.ofChars? (signed (decide (i < 0)) digits) = some numeral ∧
      numeral.value = .ok (.int i) := by
  have hdigits : ∀ c ∈ Decimal.digitChars i.natAbs, c.isDigit = true :=
    fun _ => Decimal.isDigit_digitChars
  refine ⟨Decimal.digitChars i.natAbs, ⟨decide (i < 0), Decimal.digitChars i.natAbs, none⟩,
    ?_, Decimal.digitChars_ne_nil, hdigits, ?_, ?_⟩
  · rw [intChars, if_pos h]
  · rw [Numeral.ofChars?_signed fun c hc => hdigits c (List.mem_of_head? hc),
      Numeral.unsigned?_whole hdigits Decimal.digitChars_ne_nil]
  · have hlength : (Decimal.digitChars i.natAbs).length ≤ maxDigits :=
      (Decimal.length_digitChars_le_iff (by decide)).mpr h
    have hvalue : (if decide (i < 0) then -(i.natAbs : Int) else i.natAbs) = i := by
      split
      · rename_i hi
        rw [decide_eq_true_eq] at hi
        omega
      · rename_i hi
        rw [decide_eq_true_eq] at hi
        omega
    rw [Numeral.value, readDigits, if_pos hlength, Decimal.digitsValue_digitChars]
    simp only [ok_bind, pure_eq_ok, map_ok, hvalue]

end Number

end FrameNotation
