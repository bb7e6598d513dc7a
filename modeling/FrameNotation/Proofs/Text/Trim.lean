import FrameNotation.Text.Blank
import Mathlib.Data.List.TakeWhile
import Mathlib.Tactic.SplitIfs

namespace FrameNotation.Text

variable {cs : List CodePoint} {c : CodePoint}

-- Letters and digits lie between the digit zero and the last small letter.
theorem toNat_of_isAlphanum (h : c.isAlphanum = true) : 0x30 ≤ c.toNat ∧ c.toNat ≤ 0x7a := by
  obtain ⟨c, rfl, h⟩ : ∃ d, c = char d ∧ d.isAlphanum = true := by
    cases c with
    | char d => exact ⟨d, rfl, h⟩
    | surrogate _ => cases h
  have hranges : (decide (c.val ≥ 65 ∧ c.val ≤ 90) || c.val ≥ 97 && c.val ≤ 122 ||
      c.val ≥ 48 && c.val ≤ 57) = true := h
  have hnat : c.val.toNat = c.toNat := rfl
  rw [CodePoint.toNat_char]
  simp only [Bool.or_eq_true, Bool.and_eq_true, decide_eq_true_eq, ge_iff_le,
    UInt32.le_iff_toNat_le, hnat, UInt32.reduceToNat] at hranges
  omega

theorem isBlank_eq_false (hlow : 0x21 ≤ c.toNat) (hhigh : c.toNat ≤ 0x7e) :
    isBlank c = false := by
  simp [isBlank, Ranges.contains, blankRanges]
  omega

theorem isBlank_of_isAlphanum (h : c.isAlphanum = true) : isBlank c = false := by
  obtain ⟨hlow, hhigh⟩ := toNat_of_isAlphanum h
  exact isBlank_eq_false (by omega) (by omega)

theorem trimEnd_cons {rest : List CodePoint} : trimEnd (c :: rest) =
    if trimEnd rest = [] then if isBlank c then [] else [c] else c :: trimEnd rest := by
  rw [trimEnd]
  split <;> simp_all

-- What is cut off at the end is blank.
theorem exists_eq_trimEnd (cs : List CodePoint) :
    ∃ after, cs = trimEnd cs ++ after ∧ after.all isBlank = true := by
  induction cs with
  | nil => exact ⟨[], rfl, rfl⟩
  | cons c rest ih =>
      obtain ⟨after, hrest, hafter⟩ := ih
      rw [trimEnd_cons]
      split_ifs with hnil hblank
      · rw [hnil] at hrest
        exact ⟨c :: rest, rfl, by simpa [hblank, hrest] using hafter⟩
      · rw [hnil] at hrest
        exact ⟨after, by rw [hrest]; rfl, hafter⟩
      · exact ⟨after, by rw [List.cons_append, ← hrest], hafter⟩

theorem getLast?_trimEnd (h : (trimEnd cs).getLast? = some c) : isBlank c = false := by
  induction cs with
  | nil => cases h
  | cons d rest ih =>
      rw [trimEnd_cons] at h
      split_ifs at h with hnil hblank
      · cases h
      · cases h
        simpa using hblank
      · rw [List.getLast?_cons_of_ne_nil hnil] at h
        exact ih h

theorem trimEnd_eq_self (h : ∀ c, cs.getLast? = some c → isBlank c = false) :
    trimEnd cs = cs := by
  induction cs with
  | nil => rfl
  | cons d rest ih =>
      rw [trimEnd_cons]
      cases rest with
      | nil => simp [trimEnd, h d rfl]
      | cons e more =>
          rw [ih fun c hc => h c (by rw [List.getLast?_cons_cons, hc]), if_neg (by simp)]

theorem exists_eq_trimStart (cs : List CodePoint) :
    ∃ before, cs = before ++ trimStart cs ∧ before.all isBlank = true :=
  ⟨cs.takeWhile isBlank, List.takeWhile_append_dropWhile.symm, List.all_takeWhile⟩

theorem trimStart_eq_self (h : ∀ c, cs.head? = some c → isBlank c = false) :
    trimStart cs = cs := by
  cases cs with
  | nil => rfl
  | cons c rest => simp [trimStart, h c rfl]

-- Only blanks are cut off.
theorem exists_eq_trim (cs : List CodePoint) : ∃ before after, cs = before ++ trim cs ++ after ∧
    before.all isBlank = true ∧ after.all isBlank = true := by
  obtain ⟨before, hstart, hbefore⟩ := exists_eq_trimStart cs
  obtain ⟨after, hend, hafter⟩ := exists_eq_trimEnd (trimStart cs)
  refine ⟨before, after, ?_, hbefore, hafter⟩
  rw [trim, List.append_assoc, ← hend]
  exact hstart

-- A text without blanks at its ends stays as it is.
theorem trim_eq_self (hhead : ∀ c, cs.head? = some c → isBlank c = false)
    (hlast : ∀ c, cs.getLast? = some c → isBlank c = false) : trim cs = cs := by
  rw [trim, trimStart_eq_self hhead, trimEnd_eq_self hlast]

theorem trimEnd_append_blanks {after : List CodePoint} (hafter : after.all isBlank = true) :
    trimEnd (cs ++ after) = trimEnd cs := by
  induction cs with
  | nil =>
      induction after with
      | nil => rfl
      | cons c rest ih =>
          rw [List.all_cons, Bool.and_eq_true_iff] at hafter
          have hrest : trimEnd rest = [] := ih hafter.2
          rw [List.nil_append, trimEnd_cons, hrest, if_pos rfl, if_pos hafter.1]
          rfl
  | cons c rest ih => rw [List.cons_append, trimEnd_cons, ih, trimEnd_cons]

-- Blanks around a text do not show once it is trimmed.
theorem trim_between {before after : List CodePoint} (hbefore : before.all isBlank = true)
    (hafter : after.all isBlank = true) : trim (before ++ cs ++ after) = trim cs := by
  rw [List.all_eq_true] at hbefore
  rw [trim, trim, List.append_assoc, trimStart, List.dropWhile_append_of_pos hbefore,
    List.dropWhile_append, trimStart]
  split
  · rename_i hcs
    rw [List.isEmpty_iff.mp hcs, List.dropWhile_eq_nil_iff.mpr (List.all_eq_true.mp hafter)]
  · exact trimEnd_append_blanks hafter

theorem trim_trim : trim (trim cs) = trim cs := by
  obtain ⟨before, after, hcs, hbefore, hafter⟩ := exists_eq_trim cs
  calc
    trim (trim cs) = trim (before ++ trim cs ++ after) := (trim_between hbefore hafter).symm
    _ = trim cs := by rw [← hcs]

theorem trim_eq_nil_iff : trim cs = [] ↔ cs.all isBlank = true := by
  constructor
  · intro h
    obtain ⟨before, after, hcs, hbefore, hafter⟩ := exists_eq_trim cs
    rw [hcs, h, List.append_nil, List.all_append, hbefore, hafter]
    rfl
  · intro h
    rw [trim, trimStart, List.dropWhile_eq_nil_iff.mpr (List.all_eq_true.mp h)]
    rfl

theorem trim_space_cons : trim (char ' ' :: cs) = trim cs := by
  simp [trim, trimStart, show isBlank ' ' = true from rfl]

end FrameNotation.Text
