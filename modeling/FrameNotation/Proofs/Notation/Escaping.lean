import FrameNotation.Proofs.Notation.Carried
import FrameNotation.Proofs.Notation.Spacing

namespace FrameNotation

open Text Layout

variable {cs more init : List CodePoint} {c : CodePoint} {levels : Nat}

-- A text with a backslash in front of each of its characters.
def backslashed (cs : List CodePoint) : List CodePoint := cs.flatMap fun c => [char '\\', c]

@[simp] theorem backslashed_nil : backslashed [] = [] := rfl

@[simp] theorem backslashed_cons : backslashed (c :: cs) = char '\\' :: c :: backslashed cs := rfl

theorem backslashed_append : backslashed (cs ++ more) = backslashed cs ++ backslashed more :=
  List.flatMap_append

theorem uncommented_backslashed : uncommented .outside (backslashed cs ++ more) =
    backslashed cs ++ uncommented .outside more := by
  induction cs with
  | nil => rfl
  | cons c cs ih =>
      simp only [backslashed_cons, List.cons_append, ← ih]
      rfl

theorem collapsed_backslashed : collapsed .outside (backslashed cs ++ more) =
    backslashed cs ++ collapsed .outside more := by
  induction cs with
  | nil => rfl
  | cons c cs ih =>
      simp only [backslashed_cons, List.cons_append, ← ih]
      rfl

-- No separator cuts the text, whatever its characters are.
theorem through_backslashed {separates : CodePoint → Bool} (hseparates : separates '\\' = false) :
    Nesting.through separates .start (backslashed cs) = .ok .start := by
  induction cs with
  | nil => rfl
  | cons c cs ih =>
      have hescape : Nesting.through separates .start [char '\\', c] = .ok .start := by
        rw [Nesting.through_cons_ok (by simp [hseparates]) rfl, Nesting.through_cons_ok ?_ rfl]
        · rfl
        · rintro ⟨hstart, -⟩
          cases hstart
      exact Nesting.through_trans hescape ih

theorem unescape_backslashed :
    Token.unescape (backslashed cs ++ more) = cs ++ Token.unescape more := by
  induction cs with
  | nil => rfl
  | cons c cs ih =>
      simp only [backslashed_cons, List.cons_append, ← ih]
      rfl

-- A token that starts with a backslash is a bare text.
theorem scalar_backslash : Token.scalar (char '\\' :: cs) =
    .ok (.text (Str.ofList (Token.unescape (char '\\' :: cs)))) := by
  have hquote : Token.quotedContent? (char '\\' :: cs) = none := rfl
  have hnumeral : Numeral.ofChars? (char '\\' :: cs) = none :=
    ofChars?_eq_none (by decide) (by decide)
  rw [Token.scalar, hquote, hnumeral]
  simp [referenceMark]

-- A backslash is no blank, so a text whose last character is none is not trimmed.
theorem trim_backslashed {last : CodePoint} (hlast : isBlank last = false)
    (hmore : (char '\\' :: more).getLast? = some last) :
    trim (backslashed cs ++ char '\\' :: more) = backslashed cs ++ char '\\' :: more := by
  refine trim_eq_self (fun c hc => ?_) fun c hc => ?_
  · cases cs <;> cases hc <;> rfl
  · rw [List.getLast?_append, hmore] at hc
    cases hc
    exact hlast

-- Trimming parts a blank at the end of a text from its backslash.
theorem trim_backslashed_concat : trim (backslashed (cs ++ [c])) =
    backslashed cs ++ char '\\' :: if isBlank c then [] else [c] := by
  have hconcat : backslashed (cs ++ [c]) = [] ++ (backslashed cs ++ [char '\\']) ++ [c] := by
    simp [backslashed_append]
  split_ifs with hc
  · rw [hconcat, trim_between rfl (by simp [hc])]
    exact trim_backslashed rfl rfl
  · rw [backslashed_append]
    exact trim_backslashed (Bool.eq_false_of_not_eq_true hc) rfl

-- A value with a backslash in front of every character is the text of these characters, but for a
-- blank at the end, for which its backslash is read.
theorem value_backslashed_concat : Reader.value (levels + 1) (backslashed (cs ++ [c])) =
    .ok (.text (Str.ofList (cs ++ [if isBlank c then char '\\' else c]))) := by
  obtain ⟨rest, hrest⟩ : ∃ rest, trim (backslashed (cs ++ [c])) = char '\\' :: rest := by
    rw [trim_backslashed_concat]
    cases cs <;> exact ⟨_, rfl⟩
  have htext : Token.unescape (char '\\' :: rest) = cs ++ [if isBlank c then char '\\' else c] := by
    rw [← hrest, trim_backslashed_concat, unescape_backslashed]
    split_ifs <;> rfl
  refine read_scalar hrest (List.cons_ne_nil _ _) (by simp) (by simp) ?_
  rw [scalar_backslash, htext]

-- The notation of an answer whose content has a backslash in front of each of its characters.
def backslashedAnswer (cs : List CodePoint) : List CodePoint :=
  char '(' :: (("answer content:" : Str).toList ++ backslashed cs) ++ [char ')']

theorem canonical_backslashedAnswer : canonical (backslashedAnswer cs) = backslashedAnswer cs := by
  have huncommented : uncommented .outside (backslashedAnswer cs) = backslashedAnswer cs := by
    have hfront : uncommented .outside (backslashedAnswer cs) =
        ("(answer content:" : Str).toList ++
          uncommented .outside (backslashed cs ++ [char ')']) := rfl
    rw [hfront, uncommented_backslashed]
    rfl
  have hcollapsed : collapsed .outside (backslashedAnswer cs) = backslashedAnswer cs := by
    have hfront : collapsed .outside (backslashedAnswer cs) =
        ("(answer content:" : Str).toList ++
          collapsed .outside (backslashed cs ++ [char ')']) := rfl
    rw [hfront, collapsed_backslashed]
    rfl
  rw [canonical, stripComments, huncommented, collapseBlanks, hcollapsed]
  exact trim_group .round _

theorem tokens_backslashedAnswer : tokens (("answer content:" : Str).toList ++ backslashed cs) =
    .ok [("answer" : Str).toList, ("content:" : Str).toList ++ backslashed cs] := by
  have hrole : Nesting.through isBlank .start ("content:" : Str).toList = .ok .start := rfl
  have hcut : Nesting.cut isBlank .start
      (("answer" : Str).toList ++ char ' ' :: (("content:" : Str).toList ++ backslashed cs)) =
        .ok [("answer" : Str).toList, ("content:" : Str).toList ++ backslashed cs] := by
    rw [Nesting.cut_cons_separator rfl rfl,
      Nesting.cut_piece (Nesting.through_trans hrole (through_backslashed rfl))]
    rfl
  exact tokens_of_cut hcut

theorem read_backslashedAnswer_concat : Node.read (backslashedAnswer (cs ++ [c])) =
    .ok ⟨.text "answer",
      [("content", .text (Str.ofList (cs ++ [if isBlank c then char '\\' else c])))]⟩ := by
  have hsplit : Token.roleSplit? (("content:" : Str).toList ++ backslashed (cs ++ [c])) =
      some (("content" : Str).toList, backslashed (cs ++ [c])) := by
    have hchars : ∀ d ∈ ("content" : Str).toList, Token.isRoleChar d = true :=
      List.all_eq_true.mp rfl
    exact Token.roleSplit?_append hchars
  have hcolon :
      Token.hasRoleColon (("content:" : Str).toList ++ backslashed (cs ++ [c])) = true := by
    rw [Token.hasRoleColon, hsplit]
    rfl
  have hform : Token.form (("content:" : Str).toList ++ backslashed (cs ++ [c])) =
      .assigns ("content" : Str).toList (backslashed (cs ++ [c])) := by
    have hvalue : (backslashed (cs ++ [c])).isEmpty = false := by
      rw [backslashed_append]
      simp
    rw [Token.form, hsplit]
    simp only [hvalue]
    rfl
  have htype : Token.frameType ("answer" : Str).toList = .ok .answer := rfl
  rw [Node.read, Reader.frame, canonical_backslashedAnswer, backslashedAnswer,
    Token.enclosed?_group]
  simp only [Reader.frameBody, tokens_backslashedAnswer, mapError_ok, ok_bind, htype, Reader.roles,
    List.any_cons, hcolon, Bool.true_or, if_true, Reader.explicitRoles, hform,
    value_backslashed_concat]
  rfl

-- A backslash escapes exactly one character, whatever it is, except for a blank at the end of a
-- value: an answer whose content has a backslash in front of each character is read as the answer
-- with these characters exactly if the last one is no blank.
theorem read_backslashedAnswer_iff (hcs : cs ≠ []) :
    Node.read (backslashedAnswer cs) =
        .ok ⟨.text "answer", [("content", .text (Str.ofList cs))]⟩ ↔
      ∀ last, cs.getLast? = some last → isBlank last = false := by
  obtain ⟨init, c, rfl⟩ : ∃ init c, cs = init ++ [c] :=
    ⟨cs.dropLast, cs.getLast hcs, (List.dropLast_concat_getLast hcs).symm⟩
  rw [read_backslashedAnswer_concat]
  constructor
  · intro h last hlast
    rw [List.getLast?_concat] at hlast
    cases hlast
    rw [← Bool.not_eq_true]
    intro hc
    rw [if_pos hc] at h
    simp only [Except.ok.injEq, Node.mk.injEq, List.cons.injEq, Prod.mk.injEq, Value.text.injEq,
      Str.ofList_inj, List.append_cancel_left_eq, true_and, and_true] at h
    rw [← h] at hc
    exact absurd hc (by decide)
  · intro h
    rw [h c List.getLast?_concat]
    rfl

theorem read_backslashedAnswer_brackets : ("a //\"[(" : Str).toList ≠ [] ∧
    backslashedAnswer ("a //\"[(" : Str).toList =
      ("(answer content:\\a\\ \\/\\/\\\"\\[\\()" : Str).toList ∧
      Node.read (backslashedAnswer ("a //\"[(" : Str).toList) =
        .ok ⟨.text "answer", [("content", .text "a //\"[(")]⟩ := by
  have hcs : ("a //\"[(" : Str).toList ≠ [] := by decide
  refine ⟨hcs, rfl, (read_backslashedAnswer_iff hcs).mpr fun last hlast => ?_⟩
  cases hlast
  rfl

-- Of an escaped blank at the end the backslash is left.
theorem not_read_backslashedAnswer_blank : [char ' '] ≠ [] ∧
    backslashedAnswer [char ' '] = ("(answer content:\\ )" : Str).toList ∧
      Node.read (backslashedAnswer [char ' ']) = .ok ⟨.text "answer", [("content", .text "\\")]⟩ ∧
      Node.read (backslashedAnswer [char ' ']) ≠
        .ok ⟨.text "answer", [("content", .text " ")]⟩ := by
  have hread : Node.read (backslashedAnswer [char ' ']) =
      .ok ⟨.text "answer", [("content", .text "\\")]⟩ := rfl
  refine ⟨List.cons_ne_nil _ _, rfl, hread, ?_⟩
  rw [hread]
  simp

end FrameNotation
