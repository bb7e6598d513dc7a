import FrameNotation.Notation.Writer
import FrameNotation.Proofs.Success
import Mathlib.Tactic.SplitIfs

namespace FrameNotation

open Text Writer

variable {cs name value : List CodePoint} {c : CodePoint}

namespace Writer

@[simp] theorem escaped_nil : escaped [] = [] := rfl

theorem escaped_special (hc : c = '\\' ∨ c = '"') :
    escaped (c :: cs) = char '\\' :: c :: escaped cs := by
  rw [escaped, if_pos (by simpa using hc)]

theorem escaped_ordinary (hescape : c ≠ '\\') (hquote : c ≠ '"') :
    escaped (c :: cs) = c :: escaped cs := by
  rw [escaped, if_neg (by simp [hescape, hquote])]

-- A text that can stand bare inside notation without being cut.
def isClean (cs : List CodePoint) : Bool := !cs.any forcesQuotes && !holdsComment cs

theorem isClean_iff :
    isClean cs = true ↔ (∀ c ∈ cs, forcesQuotes c = false) ∧ holdsComment cs = false := by
  simp [isClean]

theorem forcesQuotes_eq_false : forcesQuotes c = false ↔ isBlank c = false ∧ c ≠ ':' ∧ c ≠ '(' ∧
    c ≠ ')' ∧ c ≠ '[' ∧ c ≠ ']' ∧ c ≠ '"' ∧ c ≠ '\\' ∧ c ≠ ',' := by
  simp [forcesQuotes]

theorem isClean_of_needsQuotes (h : needsQuotes cs = false) : isClean cs = true := by
  simp only [needsQuotes, Bool.or_eq_false_iff] at h
  simp [isClean, h.1.1.1.1.2, h.1.1.1.2]

theorem holdsComment_cons (h : holdsComment (c :: cs) = false) :
    (c = '/' → cs.head? ≠ some (char '/')) ∧ holdsComment cs = false := by
  by_cases hslash : c = '/' ∧ cs.head? = some (char '/')
  · obtain ⟨rfl, hhead⟩ := hslash
    obtain ⟨rest, rfl⟩ := List.head?_eq_some_iff.mp hhead
    simp [holdsComment] at h
  · rw [holdsComment] at h
    · exact ⟨fun hc hhead => hslash ⟨hc, hhead⟩, h⟩
    · rintro rest rfl rfl
      exact hslash ⟨rfl, rfl⟩

theorem withoutFinalNewline_eq_self (h : cs.getLast? ≠ some (char '\n')) :
    withoutFinalNewline cs = cs := by
  rw [withoutFinalNewline, if_neg h]

theorem withoutFinalNewline_cases (cs : List CodePoint) :
    cs = withoutFinalNewline cs ∨ cs = withoutFinalNewline cs ++ [char '\n'] := by
  unfold withoutFinalNewline
  split_ifs with hlast
  · obtain ⟨before, rfl⟩ := List.getLast?_eq_some_iff.mp hlast
    rw [List.dropLast_concat]
    exact .inr rfl
  · exact .inl rfl

-- A clean name is a role name.
theorem isRoleName_of_isClean (h : isClean cs = true) (hcs : cs ≠ []) : isRoleName cs = true := by
  obtain ⟨hchars, hcomment⟩ := isClean_iff.mp h
  have hlast : cs.getLast? ≠ some (char '\n') := by
    intro hlast
    have hnewline := hchars '\n' (List.mem_of_getLast? hlast)
    exact absurd hnewline (by decide)
  simp only [isRoleName, withoutFinalNewline_eq_self hlast, hcomment]
  simpa [hcs] using hchars

end Writer

namespace Token

-- Taking away the backslashes undoes putting them.
theorem unescape_escaped (cs : List CodePoint) : unescape (escaped cs) = cs := by
  induction cs with
  | nil => rfl
  | cons c rest ih =>
      by_cases hc : c = '\\' ∨ c = '"'
      · rw [escaped_special hc, unescape, ih]
      · rw [not_or] at hc
        rw [escaped_ordinary hc.1 hc.2, unescape, ih]
        rintro _ _ rfl
        exact absurd rfl hc.1

theorem unescape_eq_self (h : char '\\' ∉ cs) : unescape cs = cs := by
  induction cs with
  | nil => rfl
  | cons c rest ih =>
      rw [List.mem_cons, not_or] at h
      rw [unescape, ih h.2]
      rintro _ _ rfl
      exact absurd rfl h.1

theorem upToFinalQuote?_escaped (cs : List CodePoint) :
    upToFinalQuote? (escaped cs ++ [char '"']) = some (escaped cs) := by
  induction cs with
  | nil => rfl
  | cons c rest ih =>
      by_cases hc : c = '\\' ∨ c = '"'
      · rw [escaped_special hc, List.cons_append, List.cons_append, upToFinalQuote?, ih]
        rfl
      · rw [not_or] at hc
        rw [escaped_ordinary hc.1 hc.2, List.cons_append, upToFinalQuote?, ih]
        · rfl
        · rintro rfl
          exact absurd rfl hc.2
        · rintro rfl
          exact absurd rfl hc.2
        · rintro _ _ rfl
          exact absurd rfl hc.1
        · rintro rfl
          exact absurd rfl hc.1

-- A quoted text is one string, up to its last quote.
theorem quotedContent?_quote (cs : List CodePoint) :
    quotedContent? (quote cs) = some (escaped cs) :=
  upToFinalQuote?_escaped cs

theorem quotedContent?_eq_none (h : cs.head? ≠ some (char '"')) : quotedContent? cs = none := by
  rw [quotedContent?]
  rintro rest rfl
  exact h rfl

@[simp] theorem enclosed?_group {first last : CodePoint} :
    enclosed? first last (first :: cs ++ [last]) = some cs := by
  simp [enclosed?]

theorem enclosed?_eq_none {first last : CodePoint} (h : cs.head? ≠ some first) :
    enclosed? first last cs = none := by
  cases cs with
  | nil => rfl
  | cons c rest =>
      have hc : c ≠ first := fun hc => h (by rw [hc]; rfl)
      simp [enclosed?, hc]

theorem isRoleChar_eq_true : isRoleChar c = true ↔ c ≠ '(' ∧ c ≠ ')' ∧ c ≠ '[' ∧ c ≠ ']' ∧
    c ≠ '"' ∧ c ≠ '\\' ∧ c ≠ ':' := by
  simp [isRoleChar]

theorem roleSplit?_append (h : ∀ c ∈ name, isRoleChar c = true) :
    roleSplit? (name ++ char ':' :: value) = some (name, value) := by
  rw [roleSplit?, List.dropWhile_append_of_pos h, List.takeWhile_append_of_pos h]
  simp [isRoleChar]

-- A split token is put together again by the colon.
theorem roleSplit?_eq_some (h : roleSplit? cs = some (name, value)) :
    cs = name ++ char ':' :: value ∧ ∀ c ∈ name, isRoleChar c = true := by
  unfold roleSplit? at h
  split at h
  · rename_i rest hrest
    cases h
    refine ⟨?_, List.all_eq_true.mp List.all_takeWhile⟩
    rw [← hrest, List.takeWhile_append_dropWhile]
  · cases h

@[simp] theorem frameType_name (type : FrameType) : frameType type.name.toList = .ok type := by
  cases type <;> rfl

end Token

end FrameNotation
