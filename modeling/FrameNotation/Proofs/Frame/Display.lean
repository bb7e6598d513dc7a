import FrameNotation.Frame.Display
import FrameNotation.Proofs.Frame.Nested
import FrameNotation.Proofs.Success

namespace FrameNotation.Value

variable {n : Number} {value : Value} {items : List Value} {entries : List (Str × Value)}
variable {inFrame : Bool}

-- A number stands in a value: in an item, in an entry, or in the type or an attribute of a frame.
inductive Mentions (n : Number) : Value → Prop
  | number : Mentions n (.number n)
  | item {items : List Value} {item : Value} (hitem : item ∈ items) (h : Mentions n item) :
      Mentions n (.array items)
  | entry {entries : List (Str × Value)} {entry : Str × Value} (hentry : entry ∈ entries)
      (h : Mentions n entry.2) : Mentions n (.record entries)
  | frameType {node : Frame} (h : Mentions n node.type) : Mentions n (.frame node)
  | frameEntry {node : Frame} {entry : Str × Value} (hentry : entry ∈ node.attributes)
      (h : Mentions n entry.2) : Mentions n (.frame node)

-- No integer in a value has more digits than one that is written out may have.
def KeepsDigits (value : Value) : Prop :=
  ∀ i : Int, value.Mentions (.int i) → i.natAbs < tenPow maxDigits

theorem keepsDigits_number :
    (number n).KeepsDigits ↔ ∀ i : Int, n = .int i → i.natAbs < tenPow maxDigits := by
  constructor
  · rintro h i rfl
    exact h i .number
  · rintro h i ⟨⟩
    exact h i rfl

theorem keepsDigits_array : (array items).KeepsDigits ↔ ∀ item ∈ items, item.KeepsDigits := by
  constructor
  · intro h item hitem i hi
    exact h i (.item hitem hi)
  · intro h i hi
    cases hi with
    | item hitem hi => exact h _ hitem i hi

theorem keepsDigits_record :
    (record entries).KeepsDigits ↔ ∀ entry ∈ entries, entry.2.KeepsDigits := by
  constructor
  · intro h entry hentry i hi
    exact h i (.entry hentry hi)
  · intro h i hi
    cases hi with
    | entry hentry hi => exact h _ hentry i hi

theorem keepsDigits_frame {node : Frame} : (frame node).KeepsDigits ↔
    node.type.KeepsDigits ∧ ∀ entry ∈ node.attributes, entry.2.KeepsDigits := by
  constructor
  · intro h
    exact ⟨fun i hi => h i (.frameType hi), fun entry hentry i hi => h i (.frameEntry hentry hi)⟩
  · rintro ⟨htype, hattributes⟩ i hi
    cases hi with
    | frameType hi => exact htype i hi
    | frameEntry hentry hi => exact hattributes _ hentry i hi

-- Items and entries can be shown exactly if each of them can.
theorem exists_displayItems_iff : (∃ parts, displayItems inFrame items = .ok parts) ↔
    ∀ item ∈ items, ∃ part, item.display inFrame = .ok part := by
  induction items with
  | nil => exact ⟨nofun, fun _ => ⟨[], rfl⟩⟩
  | cons item rest ih =>
      rw [List.forall_mem_cons, ← ih, displayItems]
      exact exists_bind_iff fun _ => exists_bind_pure_iff

theorem exists_displayEntries_iff : (∃ parts, displayEntries inFrame entries = .ok parts) ↔
    ∀ entry ∈ entries, ∃ part, entry.2.display inFrame = .ok part := by
  induction entries with
  | nil => exact ⟨nofun, fun _ => ⟨[], rfl⟩⟩
  | cons entry rest ih =>
      rw [List.forall_mem_cons, ← ih, displayEntries]
      exact exists_bind_iff fun _ => exists_bind_pure_iff

theorem exists_intChars_iff {i : Int} :
    (∃ digits, Number.intChars i = .ok digits) ↔ i.natAbs < tenPow maxDigits := by
  unfold Number.intChars
  split
  · exact iff_of_true ⟨_, rfl⟩ ‹_›
  · exact iff_of_false nofun ‹_›

theorem exists_display_number_iff : (∃ text, n.display = .ok text) ↔
    ∀ i : Int, n = .int i → i.natAbs < tenPow maxDigits := by
  cases n with
  | int i =>
      rw [Number.display, exists_map_iff, exists_intChars_iff]
      constructor
      · rintro h _ ⟨⟩
        exact h
      · intro h
        exact h i rfl
  | float x => exact iff_of_true ⟨_, rfl⟩ nofun
  | nan label => exact iff_of_true ⟨_, rfl⟩ nofun

-- A value can be shown exactly if all of its integers can.
theorem exists_display_iff : (∃ text, value.display inFrame = .ok text) ↔ value.KeepsDigits := by
  induction value using Value.induction generalizing inFrame with
  | null => exact iff_of_true ⟨_, rfl⟩ fun _ h => nomatch h
  | bool b => exact iff_of_true ⟨_, rfl⟩ fun _ h => nomatch h
  | text s => exact iff_of_true ⟨_, rfl⟩ fun _ h => nomatch h
  | number n => exact exists_display_number_iff.trans keepsDigits_number.symm
  | array items ih =>
      rw [keepsDigits_array, display, exists_bind_pure_iff, exists_displayItems_iff]
      exact forall₂_congr fun item hitem => ih item hitem
  | record entries ih =>
      rw [keepsDigits_record, display, exists_bind_pure_iff, exists_displayEntries_iff]
      exact forall₂_congr fun entry hentry => ih entry hentry
  | frame node htype hattributes =>
      obtain ⟨type, attributes⟩ := node
      rw [keepsDigits_frame, display, exists_bind_iff fun _ => exists_bind_pure_iff, htype,
        exists_displayEntries_iff]
      exact and_congr_right fun _ => forall₂_congr fun entry hentry => hattributes entry hentry

end FrameNotation.Value
