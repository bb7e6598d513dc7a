import FrameNotation.Proofs.Frame.Children
import FrameNotation.Proofs.Notation.Writable
import FrameNotation.Proofs.Reference.Readable
import FrameNotation.Proofs.Validation

namespace FrameNotation

open Text

variable {name : Str} {names : List Str} {frame : Frame} {type : FrameType}

-- A name has no number of more digits than are read. A newline after the number is not looked at.
def ReadsAsItem (name : Str) : Prop :=
  ∀ digits : List CodePoint, digits.all isDecimalDigit = true →
    name.toList = itemMark.toList ++ digits ∨
      name.toList = itemMark.toList ++ digits ++ [char '\n'] →
      digits.length ≤ maxDigits

theorem withoutFinalNewline_numbered {cs digits : List CodePoint}
    (hdigits : digits.all isDecimalDigit = true) :
    cs = itemMark.toList ++ digits ∨ cs = itemMark.toList ++ digits ++ [char '\n'] ↔
      Writer.withoutFinalNewline cs = itemMark.toList ++ digits := by
  constructor
  · rintro (rfl | rfl)
    · apply Writer.withoutFinalNewline_eq_self
      intro hlast
      rcases List.mem_append.mp (List.mem_of_getLast? hlast) with hmem | hmem
      · revert hmem
        decide
      · have hdigit := List.all_eq_true.mp hdigits _ hmem
        revert hdigit
        decide
    · rw [Writer.withoutFinalNewline, if_pos List.getLast?_concat, List.dropLast_concat]
  · intro h
    exact h ▸ Writer.withoutFinalNewline_cases cs

theorem exists_itemNumber?_iff : (∃ number, itemNumber? name = .ok number) ↔ ReadsAsItem name := by
  have hread {digits : List CodePoint} : (∃ number, (if digits.isEmpty || !digits.all isDecimalDigit
      then .ok none else (readDigits digits).map some : Except Mishap (Option Nat)) = .ok number) ↔
        (digits.all isDecimalDigit = true → digits.length ≤ maxDigits) := by
    by_cases hall : digits.all isDecimalDigit = true
    · cases digits with
      | nil => simp
      | cons first others =>
          rw [if_neg (by simpa using hall), exists_map_iff, exists_readDigits_iff]
          simp [hall]
    · simp [hall]
  simp only [itemNumber?, ReadsAsItem]
  rw [← Writer.withoutFinalNewline]
  by_cases hmark : itemMark.toList.isPrefixOf (Writer.withoutFinalNewline name.toList) = true
  · obtain ⟨number, hnumber⟩ := List.isPrefixOf_iff_prefix.mp hmark
    have hdrop : (itemMark.toList ++ number).drop itemMark.length = number := rfl
    rw [if_pos hmark, ← hnumber, hdrop, hread]
    constructor
    · intro h digits hall hdigits
      rw [withoutFinalNewline_numbered hall, ← hnumber] at hdigits
      obtain rfl := List.append_cancel_left hdigits
      exact h hall
    · intro h hall
      exact h number hall ((withoutFinalNewline_numbered hall).mpr hnumber.symm)
  · rw [if_neg hmark]
    refine iff_of_true ⟨_, rfl⟩ fun digits hall hdigits => ?_
    rw [(withoutFinalNewline_numbered hall).mp hdigits] at hmark
    exact (hmark (List.isPrefixOf_iff_prefix.mpr (List.prefix_append _ _))).elim

-- A name has to be far longer than any number of items before its own number cannot be read.
theorem exists_itemNumber? (h : name.toList.length ≤ itemMark.length + maxDigits) :
    ∃ number, itemNumber? name = .ok number := by
  refine exists_itemNumber?_iff.mpr fun digits _ hname => ?_
  have hmark : itemMark.toList.length = itemMark.length := Str.length_toList
  rcases hname with hname | hname <;>
    simp only [hname, List.length_append, List.length_cons, List.length_nil] at h <;> omega

theorem exists_itemNumbers_iff : (∃ numbers, itemNumbers names = .ok numbers) ↔
    ∀ name ∈ names, ∃ number, itemNumber? name = .ok number := by
  induction names with
  | nil => exact iff_of_true ⟨[], rfl⟩ (by simp)
  | cons name rest ih =>
      rw [List.forall_mem_cons, ← ih, itemNumbers]
      exact exists_bind_iff fun _ => exists_bind_pure_iff

namespace Node

-- What validation demands of a frame's roles. What it misses in other types is only a warning.
def Meets (frame : Frame) : FrameType → Prop
  | .event => frame.fills "action" = true
  | .state => frame.fills "entity" = true
  | .error => frame.fills "code" = true ∧ frame.fills "message" = true
  | .list => ∃ numbers, itemNumbers (Entries.names frame.attributes) = .ok numbers
  | .query | .answer | .entity => True

-- A frame of a known type that has the roles it needs.
def FitsType (frame : Frame) : Prop := ∃ type, frame.knownType = .ok (some type) ∧ frame.Meets type

theorem noError_problemIf {condition : Bool} {problem : Problem} :
    (∀ issue ∈ own (problemIf condition problem), issue.isError = false) ↔
      (condition = true → problem.severity ≠ .error) := by
  cases condition <;> simp [own, problemIf, Issue.isError]

theorem noError_numberingProblems {numbers : List Nat} :
    ∀ issue ∈ own (numberingProblems numbers), issue.isError = false := by
  unfold numberingProblems
  split_ifs <;> simp [own, Issue.isError, Problem.severity]

theorem errorFree_typeProblems :
    ErrorFree ((typeProblems frame).map own) ↔ frame.FitsType := by
  unfold FitsType typeProblems
  cases hknown : frame.knownType with
  | error mishap => simp [ErrorFree, bind, Except.bind, Except.map]
  | ok known =>
      cases known with
      | none =>
          rw [ok_bind, errorFree_map]
          simp [bind_eq_ok, own, Issue.isError, Problem.severity]
      | some type =>
          simp only [ok_bind, errorFree_map, Except.ok.injEq, Option.some.injEq, exists_eq_left']
          cases type with
          | list =>
              simp only [bind_eq_ok, pure_eq_ok, Except.ok.injEq]
              constructor
              · rintro ⟨_, ⟨numbers, hnumbers, -⟩, -⟩
                exact ⟨numbers, hnumbers⟩
              · rintro ⟨numbers, hnumbers⟩
                exact ⟨_, ⟨numbers, hnumbers, rfl⟩, noError_numberingProblems⟩
          | error =>
              simp only [pure_eq_ok, Except.ok.injEq, exists_eq_left', own, List.map_append,
                List.forall_mem_append]
              rw [← own, ← own, noError_problemIf, noError_problemIf]
              simp [Problem.severity, Meets]
          | _ => simp [noError_problemIf, Problem.severity, Meets]

-- The frames at which validation looks: the frame itself, and those that stand in the attributes of
-- such frames, or in arrays there, at no greater depth.
def Sees : Frame → Frame → Prop :=
  Relation.ReflTransGen fun outer inner => ∃ depth ≤ 1, outer.Shows depth inner

-- What holds of a frame by what it has itself and by the frames in it, as far as validation looks,
-- holds exactly if each frame at which it looks has it.
theorem iff_forall_sees {holds has : Frame → Prop}
    (h : ∀ frame : Frame, holds frame ↔
      has frame ∧ ∀ depth ≤ 1, ∀ inner, frame.Shows depth inner → holds inner) :
    holds frame ↔ ∀ inner, frame.Sees inner → has inner := by
  constructor
  · intro hframe inner hsees
    have hinner : holds inner := by
      induction hsees with
      | refl => exact hframe
      | tail _ hshows ih =>
          obtain ⟨depth, hdepth, hshows⟩ := hshows
          exact ((h _).mp ih).2 depth hdepth _ hshows
    exact ((h inner).mp hinner).1
  · intro hsees
    induction frame using Node.induction with
    | step frame ih =>
        have hinner : ∀ depth ≤ 1, ∀ inner, frame.Shows depth inner →
            (∀ seen, inner.Sees seen → has seen) → holds inner := (forall_children_iff _).mp ih
        refine (h frame).mpr ⟨hsees frame .refl, fun depth hdepth inner hshows => ?_⟩
        refine hinner depth hdepth inner hshows fun seen hseen => ?_
        exact hsees seen (.head ⟨depth, hdepth, hshows⟩ hseen)

-- A frame is valid exactly if each frame that validation looks at fits its type and resolves its
-- own references.
theorem isValid_iff_sees :
    frame.IsValid ↔ ∀ inner, frame.Sees inner → inner.FitsType ∧ inner.OwnResolve := by
  refine iff_forall_sees fun frame => ?_
  rw [isValid_iff, errorFree_typeProblems, and_assoc, and_comm (a := frame.OwnResolve)]

end Node

end FrameNotation
