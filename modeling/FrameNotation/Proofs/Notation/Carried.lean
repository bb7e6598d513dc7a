import FrameNotation.Notation.Reader
import FrameNotation.Proofs.Frame.Parts
import FrameNotation.Proofs.Notation.Written
import FrameNotation.Proofs.Number.Wire
import FrameNotation.Proofs.Text.Trim

namespace FrameNotation

open Text Writer Layout

namespace Value

mutual

-- How deep the notation of a value nests. A reference may bring groups of its own.
def depth : Value → Nat
  | .text s => if isBareReference s.toList then Nesting.peak .start s.toList else 0
  | .array items => depthOfItems items + 1
  | .frame ⟨_, attributes⟩ => depthOfEntries attributes + 1
  | _ => 0

def depthOfItems : List Value → Nat
  | [] => 0
  | item :: rest => max (depth item) (depthOfItems rest)

def depthOfEntries : List (Str × Value) → Nat
  | [] => 0
  | (_, content) :: rest => max (depth content) (depthOfEntries rest)

end

end Value

-- How deep the groups inside the parentheses of a frame nest.
def Node.depth (frame : Frame) : Nat := Value.depthOfEntries frame.attributes

namespace Writer

-- A text that comes back as it was, wherever it is written. A reference is written bare, so its own
-- brackets have to be balanced, and a newline at its end would be lost.
def IsStable (cs : List CodePoint) : Prop :=
  isBareReference cs = true →
    Nesting.walk .start cs = .ok .start ∧ cs.getLast? ≠ some (char '\n')

instance {cs : List CodePoint} : Decidable (IsStable cs) := inferInstanceAs (Decidable (_ → _))

-- A role name that notation carries.
def IsPlainRole (name : Str) : Prop := name.toList ≠ [] ∧ isClean name.toList = true

instance {name : Str} : Decidable (IsPlainRole name) := inferInstanceAs (Decidable (_ ∧ _))

end Writer

-- The values that come back after they were written.
def Limits.carried : Limits where
  number := Number.IsCarried
  text s := IsStable s.toList
  role := IsPlainRole
  void := True

-- Strings in written text are no references, for those are never quoted.
def writtenRule : Strand.Rule := ⟨false, fun content => !isBareReference content⟩

-- What is known about the notation of a value, so that it can stand in other notation.
structure Written (value : Value) (cs : List CodePoint) : Prop where
  spans : Strand.Spans writtenRule cs
  whole : Nesting.Whole value.depth cs
  head : ∃ c, cs.head? = some c ∧ isBlank c = false
  last : ∃ c, cs.getLast? = some c ∧ isBlank c = false
  reads : ∀ levels, cs.length < levels →
    Reader.value levels cs = .ok (value.rebuilt Number.echo)

variable {cs : List CodePoint} {value : Value}

theorem Written.trim_eq (h : Written value cs) : trim cs = cs := by
  obtain ⟨c, hc, hhead⟩ := h.head
  obtain ⟨d, hd, hlast⟩ := h.last
  refine trim_eq_self (fun e he => ?_) fun e he => ?_
  · rw [hc] at he
    cases he
    exact hhead
  · rw [hd] at he
    cases he
    exact hlast

section Scalars

-- A token that starts with no bracket once it is trimmed is read as a scalar.
theorem read_scalar {levels : Nat} {token : List CodePoint} (htrim : trim token = cs)
    (hne : cs ≠ [])
    (hround : cs.head? ≠ some (char '(')) (hsquare : cs.head? ≠ some (char '['))
    (hscalar : Token.scalar cs = .ok value) : Reader.value (levels + 1) token = .ok value := by
  have hempty : cs.isEmpty = false := by simpa using hne
  simp only [Reader.value, htrim, hempty, Token.enclosed?_eq_none hround,
    Token.enclosed?_eq_none hsquare, hscalar]
  rfl

-- No blank stands at the ends of ordinary characters.
theorem ends_of_forall (hne : cs ≠ []) (hcs : ∀ c ∈ cs, isBlank c = false) :
    (∃ c, cs.head? = some c ∧ isBlank c = false) ∧
      ∃ c, cs.getLast? = some c ∧ isBlank c = false := by
  refine ⟨⟨cs.head hne, List.head?_eq_some_head hne, hcs _ (List.head_mem hne)⟩,
    ⟨cs.getLast hne, List.getLast?_eq_some_getLast hne, hcs _ (List.getLast_mem hne)⟩⟩

theorem trim_of_forall (hcs : ∀ c ∈ cs, isBlank c = false) : trim cs = cs :=
  trim_eq_self (fun c hc => hcs c (List.mem_of_head? hc))
    fun c hc => hcs c (List.mem_of_getLast? hc)

theorem written_clean (hclean : isClean cs = true) (hne : cs ≠ [])
    (hscalar : Token.scalar cs = .ok (value.rebuilt Number.echo)) : Written value cs := by
  have hchars := (isClean_iff.mp hclean).1
  have hblank : ∀ c ∈ cs, isBlank c = false :=
    fun c hc => (forcesQuotes_eq_false.mp (hchars c hc)).1
  have hhead {c : CodePoint} (hc : forcesQuotes c = true) : cs.head? ≠ some c := by
    intro h
    have hfalse := hchars c (List.mem_of_head? h)
    rw [hc] at hfalse
    cases hfalse
  obtain ⟨hfirst, hlast⟩ := ends_of_forall hne hblank
  refine ⟨Strand.spans_clean hne hclean, Nesting.whole_clean hclean, hfirst, hlast, ?_⟩
  intro levels hlevels
  obtain ⟨levels, rfl⟩ : ∃ n, levels = n + 1 := ⟨levels - 1, by omega⟩
  exact read_scalar (trim_of_forall hblank) hne (hhead (by decide)) (hhead (by decide)) hscalar

theorem written_bool (b : Bool) :
    Written (.bool b) (if b then ("true" : Str) else "false").toList := by
  cases b <;> exact written_clean (by decide) (by decide) rfl

theorem isClean_of_forall (hcs : ∀ c ∈ cs, c.isDigit = true ∨ c = '.' ∨ c = '-') :
    isClean cs = true := by
  have hnot {c d : CodePoint} (hc : c ∈ cs) (hd : d.isDigit = false ∧ d ≠ '.' ∧ d ≠ '-') :
      c ≠ d := by
    rintro rfl
    rcases hcs c hc with h | h | h
    · rw [hd.1] at h
      cases h
    · exact hd.2.1 h
    · exact hd.2.2 h
  refine isClean_iff.mpr ⟨fun c hc => forcesQuotes_eq_false.mpr ⟨?_, hnot hc (by decide),
    hnot hc (by decide), hnot hc (by decide), hnot hc (by decide), hnot hc (by decide),
    hnot hc (by decide), hnot hc (by decide), hnot hc (by decide)⟩,
    holdsComment_eq_false fun hslash => hnot hslash (by decide) rfl⟩
  rcases hcs c hc with h | rfl | rfl
  · exact isBlank_of_isAlphanum (CodePoint.isAlphanum_of_isDigit h)
  · rfl
  · rfl

theorem isClean_of_carries {n : Number} {negative : Bool} {digits : List CodePoint}
    (h : n.Carries negative digits) : isClean (Number.signed negative digits) = true := by
  apply isClean_of_forall
  intro d hd
  cases negative with
  | true =>
      rcases List.mem_cons.mp hd with rfl | hd
      · exact .inr (.inr rfl)
      · exact (h.digit_or_point d hd).imp id .inl
  | false => exact (h.digit_or_point d hd).imp id .inl

theorem written_number {n : Number} (h : n.IsCarried) :
    ∃ cs, Writer.number n = .ok cs ∧ Written (.number n) cs := by
  obtain ⟨negative, digits, hcarries⟩ := Number.exists_carries h
  obtain ⟨c, rest, rfl, hc⟩ := hcarries.head_digit
  obtain ⟨numeral, hread, hvalue⟩ := hcarries.reads
  have hfinite : n.isFinite = true := by
    cases n with
    | int i => rfl
    | float x => exact h
    | nan label => exact h
  refine ⟨Number.signed negative (c :: rest), ?_, written_clean ?_ ?_ ?_⟩
  · rw [Writer.number, if_pos hfinite, hcarries.wire_eq]
    rfl
  · exact isClean_of_carries hcarries
  · cases negative <;> simp [Number.signed]
  · have hquote : (Number.signed negative (c :: rest)).head? ≠ some (char '"') := by
      cases negative with
      | true => simp [Number.signed]
      | false =>
          intro hhead
          cases hhead
          exact absurd hc (by decide)
    rw [Token.scalar, Token.quotedContent?_eq_none hquote]
    simp only [hread, hvalue]
    rfl

-- A numeral starts with a digit or a minus.
theorem ofChars?_eq_none {c : CodePoint} (hminus : c ≠ '-') (hdigit : isDecimalDigit c = false) :
    Numeral.ofChars? (c :: cs) = none := by
  have htake : (c :: cs).takeWhile isDecimalDigit = [] :=
    List.takeWhile_cons_of_neg (by simp [hdigit])
  rw [Numeral.ofChars?, Numeral.unsigned?, htake]
  · rfl
  · rintro rest h
    exact hminus (List.cons_eq_cons.mp h).1

-- No numeral starts with a mark.
theorem ofChars?_mark (rest : List CodePoint) : Numeral.ofChars? (referenceMark :: rest) = none :=
  ofChars?_eq_none (by decide) (by decide)

theorem written_reference {s : Str} (hbare : isBareReference s.toList = true)
    (hwalk : Nesting.walk .start s.toList = .ok .start)
    (hlast : s.toList.getLast? ≠ some (char '\n')) :
    Written (.text s) s.toList := by
  obtain ⟨rest, hchars, hcs⟩ := isBareReference_cases hbare
  have hspans : Strand.Spans writtenRule s.toList := Strand.spans_reference hbare (.inr hlast)
  have hcs : s.toList = referenceMark :: rest := by
    rcases hcs with hcs | hcs
    · exact hcs
    · rw [hcs] at hlast
      exact absurd List.getLast?_concat hlast
  rw [← hcs] at hchars
  have hne : s.toList ≠ [] := by simp [hcs]
  have hblank : ∀ c ∈ s.toList, isBlank c = false := fun c hc => (hchars c hc).1
  have hdepth : (Value.text s).depth = Nesting.peak .start s.toList := by
    rw [Value.depth, if_pos hbare]
  obtain ⟨hfirst, hfinal⟩ := ends_of_forall hne hblank
  refine ⟨hspans, ?_, hfirst, hfinal, ?_⟩
  · rw [hdepth]
    exact Nesting.Level.whole ⟨hwalk, Nat.le_refl _⟩
      fun c hc => ⟨hblank c hc, (hchars c hc).2.2.2.2⟩
  · intro levels hlevels
    obtain ⟨levels, rfl⟩ : ∃ n, levels = n + 1 := ⟨levels - 1, by omega⟩
    refine read_scalar (trim_of_forall hblank) hne ?_ ?_ ?_
    · simp [hcs, referenceMark]
    · simp [hcs, referenceMark]
    · have hquote : Token.quotedContent? s.toList = none :=
        Token.quotedContent?_eq_none (by simp [hcs, referenceMark])
      have htext : Str.ofList s.toList = s := Str.ofList_toList
      rw [Token.scalar, hquote, hcs, ofChars?_mark]
      simp only [← hcs, htext]
      simp [hcs, referenceMark, Value.rebuilt]

theorem written_quote {s : Str} (hbare : isBareReference s.toList = false) :
    Written (.text s) (quote s.toList) := by
  have hends : (∃ c, (quote s.toList).head? = some c ∧ isBlank c = false) ∧
      ∃ c, (quote s.toList).getLast? = some c ∧ isBlank c = false :=
    ⟨⟨'"', rfl, rfl⟩, ⟨'"', List.getLast?_concat, rfl⟩⟩
  have htrim : trim (quote s.toList) = quote s.toList := by
    refine trim_eq_self (fun c hc => ?_) fun c hc => ?_
    · cases hc
      rfl
    · rw [quote, List.getLast?_concat] at hc
      cases hc
      rfl
  refine ⟨Strand.spans_quote (by simp [writtenRule, hbare]), Nesting.whole_quote,
    hends.1, hends.2, ?_⟩
  intro levels hlevels
  obtain ⟨levels, rfl⟩ : ∃ n, levels = n + 1 := ⟨levels - 1, by omega⟩
  apply read_scalar htrim (by simp [quote]) (by simp [quote]) (by simp [quote])
  rw [Token.scalar, Token.quotedContent?_quote]
  simp only [Token.unescape_escaped, Str.ofList_toList]
  rfl

theorem written_bare {s : Str} (hbare : needsQuotes s.toList = false) :
    Written (.text s) s.toList := by
  have hclean := isClean_of_needsQuotes hbare
  have hchars := (isClean_iff.mp hclean).1
  simp only [needsQuotes, Bool.or_eq_false_iff, decide_eq_false_iff_not] at hbare
  obtain ⟨⟨⟨⟨⟨hne, -⟩, -⟩, hnumeral⟩, htrue⟩, hfalse⟩ := hbare
  have hquote : s.toList.head? ≠ some (char '"') := by
    intro hhead
    have hc := hchars '"' (List.mem_of_head? hhead)
    exact absurd hc (by decide)
  have hescape : char '\\' ∉ s.toList := fun hc => absurd (hchars _ hc) (by decide)
  apply written_clean hclean (by simpa using hne)
  rw [Token.scalar, Token.quotedContent?_eq_none hquote]
  simp only [Option.isSome_eq_false_iff, Option.isNone_iff_eq_none] at hnumeral
  simp only [hnumeral, if_neg htrue, if_neg hfalse, Token.unescape_eq_self hescape,
    Str.ofList_toList, ite_self]
  rfl

theorem written_text {s : Str} (h : IsStable s.toList) :
    Written (.text s) (Writer.text s.toList) := by
  unfold Writer.text
  split_ifs with hbare hquotes
  · exact written_reference hbare (h hbare).1 (h hbare).2
  · exact written_quote (by simpa using hbare)
  · exact written_bare (by simpa using hquotes)

end Scalars

end FrameNotation
