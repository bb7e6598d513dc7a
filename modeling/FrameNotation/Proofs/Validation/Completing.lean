import FrameNotation.Proofs.Frame.Display
import FrameNotation.Proofs.Reference.Readable
import FrameNotation.Proofs.Validation.Located
import FrameNotation.Proofs.Validation.Seen

namespace FrameNotation

open Text

variable {references : List Str} {frame : Frame} {places : List (Descent × Frame)}

-- Types that can be looked up and, as they may be unknown, named in a message.
def Value.ReadsAsType : Value → Prop
  | .array _ | .record _ | .frame _ => False
  | .number n => ∀ i : Int, n = .int i → i.natAbs < tenPow maxDigits
  | .null | .bool _ | .text _ => True

theorem exists_typeProblems_iff : (∃ problems, typeProblems frame = .ok problems) ↔
    frame.type.ReadsAsType ∧
      (frame.type = .text FrameType.list.name →
        ∀ name ∈ Entries.names frame.attributes, ReadsAsItem name) := by
  obtain ⟨type, attributes⟩ := frame
  unfold typeProblems
  cases type with
  | text typeName =>
      rw [Node.knownType, ok_bind]
      cases hknown : FrameType.ofName? typeName with
      | none =>
          refine iff_of_true ⟨_, rfl⟩ ⟨trivial, ?_⟩
          rintro ⟨⟩
          cases hknown
      | some known =>
          obtain rfl := eq_name_of_ofName? hknown
          cases known with
          | list =>
              rw [exists_bind_pure_iff, exists_itemNumbers_iff]
              simp [exists_itemNumber?_iff, Value.ReadsAsType]
          | _ => exact iff_of_true ⟨_, rfl⟩ ⟨trivial, by simp [FrameType.name]⟩
  | number n =>
      rw [Node.knownType, ok_bind, exists_bind_pure_iff]
      refine Value.exists_display_number_iff.trans ?_
      simp [Value.ReadsAsType]
  | null | bool => exact iff_of_true ⟨_, rfl⟩ ⟨trivial, nofun⟩
  | array | record | frame => exact iff_of_false nofun fun h => h.1

theorem exists_referenceProblems_iff :
    (∃ problems, referenceProblems frame references = .ok problems) ↔
      ∀ reference ∈ references, ∃ found, resolve reference (.frame frame) = .ok found := by
  induction references with
  | nil => exact iff_of_true ⟨_, rfl⟩ (by simp)
  | cons reference rest ih =>
      rw [List.forall_mem_cons, ← ih, referenceProblems]
      exact exists_bind_iff fun _ => exists_bind_pure_iff

theorem exists_gathered_iff : (∃ issues, gathered places = .ok issues) ↔
    ∀ place ∈ places, ∃ issues, place.2.issues = .ok issues := by
  induction places with
  | nil => exact iff_of_true ⟨_, rfl⟩ (by simp)
  | cons place rest ih =>
      rw [List.forall_mem_cons, ← ih, gathered]
      exact exists_bind_iff fun _ => exists_bind_pure_iff

namespace Node

-- A frame of which validation can read all that it reads: the type, the numbers in the names of a
-- list's items, the indices in the paths of references, and the names of which arrays are asked.
structure IsReadable (frame : Frame) : Prop where
  type : frame.type.ReadsAsType
  items : frame.type = .text FrameType.list.name →
    ∀ name ∈ Entries.names frame.attributes, ReadsAsItem name
  indices : ∀ reference, frame.Cites reference → ∀ cs, reference.toList = referenceMark :: cs →
    ∀ digits, Path.Meets cs (.index digits) → digits.length ≤ maxDigits
  keys : ∀ reference, frame.Cites reference → ∀ path, pathOf reference = .ok (some path) →
    ∀ name, (Value.frame frame).Asks path name → ReadsAsKey name

theorem exists_issues_iff : (∃ issues, frame.issues = .ok issues) ↔ frame.IsReadable ∧
    ∀ depth ≤ 1, ∀ inner, frame.Shows depth inner → ∃ issues, inner.issues = .ok issues := by
  have hown : frame.IsReadable ↔ (∃ problems, typeProblems frame = .ok problems) ∧
      ∃ problems, referenceProblems frame frame.ownReferences = .ok problems := by
    rw [exists_typeProblems_iff, exists_referenceProblems_iff]
    simp only [mem_ownReferences_iff, exists_resolve_iff]
    constructor
    · intro h
      exact ⟨⟨h.type, h.items⟩, fun reference hcites =>
        ⟨h.indices reference hcites, h.keys reference hcites⟩⟩
    · rintro ⟨⟨htype, hitems⟩, hreferences⟩
      exact ⟨htype, hitems, fun reference hcites => (hreferences reference hcites).1,
        fun reference hcites => (hreferences reference hcites).2⟩
  have hinner : (∃ nested, issuesOfEntries frame.attributes = .ok nested) ↔
      ∀ depth ≤ 1, ∀ inner, frame.Shows depth inner → ∃ issues, inner.issues = .ok issues := by
    rw [issuesOfEntries_eq, exists_gathered_iff]
    exact forall_children_iff fun inner => ∃ issues, inner.issues = .ok issues
  rw [hown, ← hinner]
  obtain ⟨type, attributes⟩ := frame
  rw [Node.issues, exists_bind_iff fun _ => exists_bind_iff fun _ => exists_bind_pure_iff]
  exact ⟨fun h => ⟨⟨h.1, h.2.2⟩, h.2.1⟩, fun h => ⟨h.1.1, h.2, h.1.2⟩⟩

-- Validation comes to its end exactly if every frame at which it looks can be read.
theorem exists_validate_iff : (∃ report, frame.validate = .ok report) ↔
    ∀ inner, frame.Sees inner → inner.IsReadable := by
  rw [validate, exists_bind_pure_iff]
  exact iff_forall_sees fun _ => exists_issues_iff

-- A query that asks an array for a digit that forms no numeral.
def taggedQuery : Frame :=
  ⟨.text "query", [("tags", .array [.text "tea"]), ("target", .text "$tags.²")]⟩

theorem not_exists_validate_taggedQuery : ¬∃ report, taggedQuery.validate = .ok report := by
  have hissues : taggedQuery.issues = .error (.notDecimal "²") := by decide +kernel
  rw [validate, hissues]
  rintro ⟨report, hreport⟩
  cases hreport

end Node

end FrameNotation
