import FrameNotation.Number.Lenient
import FrameNotation.Proofs.Number.Undefined

namespace FrameNotation.Lenient

open Text Float.Model

variable {cs plain word : List CodePoint} {x : Float} {i : Int}

-- What may stand before a number.
def signs : List (List CodePoint) := [[], [char '+'], [char '-']]

-- A text that stands for no number: the word for it in any case, with a sign or without, and
-- margins around it.
def SpellsNaN (cs : List CodePoint) : Prop :=
  ∃ front sign word back, cs = front ++ (sign ++ word) ++ back ∧
    front.all isMargin = true ∧ back.all isMargin = true ∧
      sign ∈ signs ∧ word.map CodePoint.toLower = ("nan" : Str).toList

theorem exists_eq_unpadded (cs : List CodePoint) : ∃ front back, cs = front ++ unpadded cs ++ back ∧
    front.all isMargin = true ∧ back.all isMargin = true := by
  refine ⟨cs.takeWhile isMargin, ((cs.dropWhile isMargin).reverse.takeWhile isMargin).reverse, ?_,
    List.all_takeWhile, by rw [List.all_reverse, List.all_takeWhile]⟩
  rw [unpadded, List.append_assoc, ← List.reverse_append, List.takeWhile_append_dropWhile,
    List.reverse_reverse, List.takeWhile_append_dropWhile]

-- What the text behind the sign of a double is read as.
def size? (cs : List CodePoint) : Option Float :=
  if isWord "inf" cs || isWord "infinity" cs then some (1.0 / 0.0)
  else if isWord "nan" cs then some (0.0 / 0.0)
  else magnitude? cs

theorem float?_eq (cs : List CodePoint) : float? cs =
    (withoutUnderscores? false (unpadded cs)).bind fun plain =>
      (size? (unsigned plain).2).map fun y => if (unsigned plain).1 then -y else y := by
  unfold float? size?
  cases withoutUnderscores? false (unpadded cs) with
  | none => rfl
  | some plain =>
      dsimp only [Option.bind_eq_bind, Option.bind_some]
      split_ifs
      · rfl
      · rfl
      · rfl
      · rfl
      · cases magnitude? (unsigned plain).2 <;> rfl
      · cases magnitude? (unsigned plain).2 <;> rfl

theorem unpack_magnitude?_ne_nan (h : magnitude? cs = some x) :
    x.toModel.unpack ≠ .notANumber := by
  unfold magnitude? at h
  dsimp only [Option.bind_eq_bind] at h
  split_ifs at h
  obtain ⟨exponent, -, h⟩ := Option.bind_eq_some_iff.mp h
  cases h
  exact Binary.unpack_ofScientific_ne_nan _ _ _

-- Only the word for no number is read as one.
theorem size?_eq_nan_iff (h : size? cs = some x) :
    x.toModel.unpack = .notANumber ↔ isWord "nan" cs = true := by
  unfold size? at h
  split_ifs at h with hinfinite hnan
  · cases h
    have hnumber : (Number.float (1.0 / 0.0)).standing ≠ .nowhere := by decide +kernel
    refine iff_of_false (fun hnan => hnumber (Binary.standing_eq_nowhere_iff.mpr hnan)) ?_
    intro hnan
    simp_all [isWord]
  · cases h
    exact iff_of_true (Binary.standing_eq_nowhere_iff.mp (by decide +kernel)) hnan
  · exact iff_of_false (unpack_magnitude?_ne_nan h) hnan

-- Without a digit in what is left, there was no underscore to take away.
theorem eq_of_withoutUnderscores? {afterDigit : Bool}
    (h : withoutUnderscores? afterDigit cs = some plain)
    (hdigits : ∀ c ∈ plain, isDecimalDigit c = false) : cs = plain := by
  induction afterDigit, cs using withoutUnderscores?.induct generalizing plain with
  | case1 =>
      cases h
      rfl
  | case2 afterDigit c rest hdigit _ =>
      rw [withoutUnderscores?, if_pos hdigit] at h
      obtain ⟨others, -, rfl⟩ := Option.map_eq_some_iff.mp h
      rw [hdigits c List.mem_cons_self, Bool.and_false] at hdigit
      cases hdigit
  | case3 afterDigit c rest hdigit =>
      rw [withoutUnderscores?, if_neg hdigit] at h
      cases h
  | case4 => cases h
  | case5 afterDigit c rest hpair hlast ih =>
      rw [withoutUnderscores?] at h
      · obtain ⟨others, hothers, rfl⟩ := Option.map_eq_some_iff.mp h
        rw [ih hothers fun d hd => hdigits d (List.mem_cons_of_mem c hd)]
      · exact hpair
      · exact hlast

theorem withoutUnderscores?_eq_self {afterDigit : Bool} (h : char '_' ∉ cs) :
    withoutUnderscores? afterDigit cs = some cs := by
  induction cs generalizing afterDigit with
  | nil => rfl
  | cons c rest ih =>
      rw [List.mem_cons, not_or] at h
      rw [withoutUnderscores?, ih h.2]
      · rfl
      · exact fun _ _ hc _ => h.1 hc.symm
      · exact fun hc _ => h.1 hc.symm

section Spelling

theorem toLower_cases {c d : CodePoint} (h : c.toLower = d) : c = d ∨ c.toNat + 32 = d.toNat := by
  cases c with
  | surrogate => exact .inl h
  | char c =>
      subst h
      simp only [CodePoint.toLower, Char.toLower]
      split
      · rename_i hupper
        right
        have hle : c.val.toNat ≤ 90 := hupper.2
        have hadd : (c.val + 32).toNat = c.val.toNat + 32 := by
          rw [UInt32.toNat_add]
          exact Nat.mod_eq_of_lt (show c.val.toNat + 32 < 4294967296 by omega)
        exact hadd.symm
      · exact .inl rfl

def nanLetters : List CodePoint := [char 'n', char 'N', char 'a', char 'A']

theorem mem_nanLetters {c : CodePoint} (h : word.map CodePoint.toLower = ("nan" : Str).toList)
    (hc : c ∈ word) :
    c ∈ nanLetters := by
  have hlower : c.toLower ∈ ("nan" : Str).toList := h ▸ List.mem_map_of_mem hc
  have hcases : c.toLower = 'n' ∨ c.toLower = 'a' := by
    have hletters : c.toLower ∈ [char 'n', char 'a', char 'n'] := hlower
    simp only [List.mem_cons, List.not_mem_nil, or_false] at hletters
    tauto
  rcases hcases with hn | ha
  · rcases toLower_cases hn with rfl | hupper
    · decide
    · cases CodePoint.toNat_inj.mp (Nat.add_right_cancel hupper : c.toNat = (char 'N').toNat)
      decide
  · rcases toLower_cases ha with rfl | hupper
    · decide
    · cases CodePoint.toNat_inj.mp (Nat.add_right_cancel hupper : c.toNat = (char 'A').toNat)
      decide

theorem plain_nanLetters : ∀ c ∈ [char '+', char '-'] ++ nanLetters,
    isMargin c = false ∧ isDecimalDigit c = false ∧ c ≠ '_' := by
  intro c hc
  simp only [nanLetters, List.cons_append, List.nil_append, List.mem_cons, List.not_mem_nil,
    or_false] at hc
  rcases hc with rfl | rfl | rfl | rfl | rfl | rfl <;> exact ⟨by decide, by decide, by decide⟩

-- A sign and letters of the word are neither margins nor digits, and no underscores.
theorem plain_signed {sign : List CodePoint} (hsign : sign ∈ signs)
    (hword : ∀ c ∈ word, c ∈ nanLetters) :
    ∀ c ∈ sign ++ word, isMargin c = false ∧ isDecimalDigit c = false ∧ c ≠ '_' := by
  intro c hc
  rcases List.mem_append.mp hc with hc | hc
  · have hletter : c ∈ [char '+', char '-'] := by
      simp only [signs, List.mem_cons, List.not_mem_nil, or_false] at hsign
      rcases hsign with rfl | rfl | rfl <;> simp_all
    exact plain_nanLetters c (List.mem_append_left _ hletter)
  · exact plain_nanLetters c (List.mem_append_right _ (hword c hc))

theorem unsigned_signed {sign : List CodePoint} (hsign : sign ∈ signs)
    (hword : ∀ c ∈ word, c ∈ nanLetters) : (unsigned (sign ++ word)).2 = word := by
  simp only [signs, List.mem_cons, List.not_mem_nil, or_false] at hsign
  rcases hsign with rfl | rfl | rfl
  · rw [List.nil_append]
    unfold unsigned
    split
    · exact absurd (hword '-' List.mem_cons_self) (by decide)
    · exact absurd (hword '+' List.mem_cons_self) (by decide)
    · rfl
  · rfl
  · rfl

theorem dropWhile_isMargin_eq_self (h : ∀ c ∈ cs, isMargin c = false) :
    cs.dropWhile isMargin = cs := by
  cases cs with
  | nil => rfl
  | cons c rest => exact List.dropWhile_cons_of_neg (by simp [h c List.mem_cons_self])

theorem unpadded_between {front back : List CodePoint} (hfront : front.all isMargin = true)
    (hback : back.all isMargin = true) (h : ∀ c ∈ cs, isMargin c = false) :
    unpadded (front ++ cs ++ back) = cs := by
  rw [List.all_eq_true] at hfront hback
  rw [unpadded, List.append_assoc, List.dropWhile_append_of_pos hfront]
  cases cs with
  | nil =>
      rw [List.nil_append, List.dropWhile_eq_nil_iff.mpr hback]
      rfl
  | cons c rest =>
      have hrest : ∀ d ∈ (c :: rest).reverse, isMargin d = false :=
        fun d hd => h d (List.mem_reverse.mp hd)
      rw [List.cons_append, List.dropWhile_cons_of_neg (by simp [h c List.mem_cons_self]),
        ← List.cons_append, List.reverse_append,
        List.dropWhile_append_of_pos fun d hd => hback d (List.mem_reverse.mp hd),
        dropWhile_isMargin_eq_self hrest, List.reverse_reverse]

theorem unsigned_eq (cs : List CodePoint) : ∃ sign ∈ signs, cs = sign ++ (unsigned cs).2 := by
  unfold unsigned
  split
  · exact ⟨[char '-'], by decide, rfl⟩
  · exact ⟨[char '+'], by decide, rfl⟩
  · exact ⟨[], by decide, rfl⟩

-- The spellings of no number are read as a double that is none.
theorem exists_float?_of_spellsNaN (h : SpellsNaN cs) :
    ∃ x, float? cs = some x ∧ x.toModel.unpack = .notANumber := by
  obtain ⟨front, sign, word, back, rfl, hfront, hback, hsign, hword⟩ := h
  have hplain := plain_signed hsign fun c => mem_nanLetters hword
  have hunderscore : char '_' ∉ sign ++ word := fun hc => (hplain '_' hc).2.2 rfl
  have hunsigned := unsigned_signed hsign fun c => mem_nanLetters hword
  have hisWord : isWord "nan" word = true := by rw [isWord, hword, beq_self_eq_true]
  have hsize : ∃ y, size? word = some y := by
    unfold size?
    split_ifs
    · exact ⟨_, rfl⟩
    · exact ⟨_, rfl⟩
  obtain ⟨y, hy⟩ := hsize
  have hnan := (size?_eq_nan_iff hy).mpr hisWord
  refine ⟨if (unsigned (sign ++ word)).1 then -y else y, ?_, ?_⟩
  · rw [float?_eq, unpadded_between hfront hback fun c hc => (hplain c hc).1,
      withoutUnderscores?_eq_self hunderscore, Option.bind_some, hunsigned, hy]
    rfl
  · split_ifs
    · exact Binary.unpack_neg_eq_nan_iff.mpr hnan
    · exact hnan

-- A text is read as a double that is no number exactly if it spells one.
theorem float?_eq_nan_iff (h : float? cs = some x) :
    (Number.float x).standing = .nowhere ↔ SpellsNaN cs := by
  rw [Binary.standing_eq_nowhere_iff]
  constructor
  · intro hnan
    rw [float?_eq] at h
    obtain ⟨plain, hplain, h⟩ := Option.bind_eq_some_iff.mp h
    obtain ⟨y, hy, rfl⟩ := Option.map_eq_some_iff.mp h
    have hsize : y.toModel.unpack = .notANumber := by
      split_ifs at hnan
      · exact Binary.unpack_neg_eq_nan_iff.mp hnan
      · exact hnan
    have hword : (unsigned plain).2.map CodePoint.toLower = ("nan" : Str).toList :=
      beq_iff_eq.mp ((size?_eq_nan_iff hy).mp hsize)
    obtain ⟨sign, hsign, hsigned⟩ := unsigned_eq plain
    have hdigits : ∀ c ∈ plain, isDecimalDigit c = false := by
      rw [hsigned]
      exact fun c hc => (plain_signed hsign (fun c => mem_nanLetters hword) c hc).2.1
    obtain ⟨front, back, hcs, hfront, hback⟩ := exists_eq_unpadded cs
    rw [eq_of_withoutUnderscores? hplain hdigits, hsigned] at hcs
    exact ⟨front, sign, _, back, hcs, hfront, hback, hsign, hword⟩
  · intro hspells
    obtain ⟨y, hy, hnan⟩ := exists_float?_of_spellsNaN hspells
    cases h.symm.trans hy
    exact hnan

end Spelling

theorem lt_of_toOption {size : Nat} (h : (readDigits cs).toOption = some size) :
    size < tenPow maxDigits := by
  cases hdigits : readDigits cs with
  | ok n =>
      rw [hdigits] at h
      cases h
      exact lt_tenPow_of_readDigits hdigits
  | error cause =>
      rw [hdigits] at h
      cases h

-- The digits of an integer that is read are no more than may be written.
theorem natAbs_lt_of_int? (h : int? cs = some i) : i.natAbs < tenPow maxDigits := by
  unfold int? at h
  dsimp only [Option.bind_eq_bind] at h
  obtain ⟨plain, -, h⟩ := Option.bind_eq_some_iff.mp h
  split_ifs at h with hdigits hnegative
  · obtain ⟨size, hsize, h⟩ := Option.bind_eq_some_iff.mp h
    cases h
    rw [Int.natAbs_neg]
    exact lt_of_toOption hsize
  · obtain ⟨size, hsize, h⟩ := Option.bind_eq_some_iff.mp h
    cases h
    exact lt_of_toOption hsize

end FrameNotation.Lenient
