import FrameNotation.Frame.Value
import Mathlib.Logic.Relation

namespace FrameNotation

-- Induction from what stands in a value to the value.
@[elab_as_elim]
theorem Value.induction {motive : Value → Prop} (null : motive .null)
    (bool : ∀ b, motive (.bool b)) (number : ∀ n, motive (.number n))
    (text : ∀ s, motive (.text s))
    (array : ∀ items, (∀ item ∈ items, motive item) → motive (.array items))
    (record : ∀ entries, (∀ entry ∈ entries, motive entry.2) → motive (.record entries))
    (frame : ∀ node : Frame, motive node.type → (∀ entry ∈ node.attributes, motive entry.2) →
      motive (.frame node)) :
    ∀ value, motive value
  | .null => null
  | .bool b => bool b
  | .number n => number n
  | .text s => text s
  | .array items => array items fun item _ =>
      Value.induction null bool number text array record frame item
  | .record entries => record entries fun (_, content) _ =>
      Value.induction null bool number text array record frame content
  | .frame ⟨type, attributes⟩ => frame ⟨type, attributes⟩
      (Value.induction null bool number text array record frame type) fun (_, content) _ =>
        Value.induction null bool number text array record frame content
termination_by value => sizeOf value
decreasing_by
  all_goals simp_wf
  · have hlt := List.sizeOf_lt_of_mem ‹_ ∈ items›
    omega
  · have hlt := List.sizeOf_lt_of_mem ‹_ ∈ entries›
    simp only [Prod.mk.sizeOf_spec] at hlt
    omega
  · omega
  · have hlt := List.sizeOf_lt_of_mem ‹_ ∈ attributes›
    simp only [Prod.mk.sizeOf_spec] at hlt
    omega

-- A value shows a frame if it is that frame, or if it is an array with an item that shows it. The
-- depth is the number of arrays around the frame.
inductive Value.Shows : Nat → Value → Frame → Prop
  | frame (node : Frame) : Shows 0 (.frame node) node
  | array {depth : Nat} {items : List Value} {item : Value} {inner : Frame} (hitem : item ∈ items)
      (hshown : Shows depth item inner) : Shows (depth + 1) (.array items) inner

namespace Value

variable {depth : Nat} {inner node : Frame} {items : List Value}

@[simp] theorem shows_frame : (frame node).Shows depth inner ↔ depth = 0 ∧ inner = node := by
  constructor
  · rintro ⟨⟩
    exact ⟨rfl, rfl⟩
  · rintro ⟨rfl, rfl⟩
    exact .frame inner

@[simp] theorem shows_array : (array items).Shows depth inner ↔
    ∃ below, depth = below + 1 ∧ ∃ item ∈ items, item.Shows below inner := by
  constructor
  · intro h
    cases h with
    | array hitem hshown => exact ⟨_, rfl, _, hitem, hshown⟩
  · rintro ⟨below, rfl, item, hitem, hshown⟩
    exact .array hitem hshown

@[simp] theorem not_shows_text {s : Str} : ¬(text s).Shows depth inner := nofun

-- What stands in no array within an array.
theorem exists_shows_le_one {value : Value} : (∃ depth ≤ 1, value.Shows depth inner) ↔
    value = .frame inner ∨ ∃ items, value = .array items ∧ .frame inner ∈ items := by
  constructor
  · rintro ⟨depth, hdepth, h⟩
    cases h with
    | frame => exact .inl rfl
    | array hitem hshown =>
        cases hshown with
        | frame => exact .inr ⟨_, rfl, hitem⟩
        | array => omega
  · rintro (rfl | ⟨items, rfl, hitem⟩)
    · exact ⟨0, by omega, .frame inner⟩
    · exact ⟨1, by omega, .array hitem (.frame inner)⟩

end Value

namespace Node

variable {frame outer inner : Frame} {depth : Nat}

-- One frame shows another in one of its attributes.
def Shows (depth : Nat) (outer inner : Frame) : Prop :=
  ∃ entry ∈ outer.attributes, entry.2.Shows depth inner

def ShowsSomewhere (outer inner : Frame) : Prop := ∃ depth, outer.Shows depth inner

-- The inner frame stands anywhere inside the outer one, through attributes and arrays.
def Nests : Frame → Frame → Prop := Relation.TransGen ShowsSomewhere

-- The frame itself, or one that stands inside it.
def Reaches : Frame → Frame → Prop := Relation.ReflTransGen ShowsSomewhere

-- A list of frames that holds every frame that one of them shows holds all that is reached.
theorem mem_of_reaches {frames : List Frame} (hframe : frame ∈ frames)
    (hclosed : ∀ outer ∈ frames, ∀ depth inner, outer.Shows depth inner → inner ∈ frames)
    (h : frame.Reaches outer) : outer ∈ frames := by
  induction h with
  | refl => exact hframe
  | tail _ hshows ih =>
      obtain ⟨depth, hshows⟩ := hshows
      exact hclosed _ ih depth _ hshows

end Node

namespace Value

variable {holds : Frame → Prop} {node : Frame} {items : List Value}

-- What holds of every frame in a value, through attributes and arrays of any depth.
def EveryFrame (holds : Frame → Prop) (value : Value) : Prop :=
  ∀ depth outer inner, value.Shows depth outer → outer.Reaches inner → holds inner

theorem everyFrame_array :
    (array items).EveryFrame holds ↔ ∀ item ∈ items, item.EveryFrame holds := by
  constructor
  · intro h item hitem depth outer inner hshows
    exact h (depth + 1) outer inner (.array hitem hshows)
  · intro h depth outer inner hshows
    obtain ⟨below, -, item, hitem, hshows⟩ := shows_array.mp hshows
    exact h item hitem below outer inner hshows

theorem everyFrame_iff_reaches :
    (frame node).EveryFrame holds ↔ ∀ inner, node.Reaches inner → holds inner := by
  constructor
  · intro h inner
    exact h 0 node inner (.frame node)
  · intro h depth outer inner hshows
    obtain ⟨-, rfl⟩ := shows_frame.mp hshows
    exact h inner

theorem everyFrame_frame : (frame node).EveryFrame holds ↔
    holds node ∧ ∀ entry ∈ node.attributes, entry.2.EveryFrame holds := by
  rw [everyFrame_iff_reaches]
  constructor
  · intro h
    refine ⟨h node .refl, fun entry hentry depth outer inner hshows hreaches => ?_⟩
    exact h inner (.head ⟨depth, entry, hentry, hshows⟩ hreaches)
  · rintro ⟨hnode, hentries⟩ inner hreaches
    rcases hreaches.cases_head with rfl | ⟨outer, ⟨depth, entry, hentry, hshows⟩, hreaches⟩
    · exact hnode
    · exact hentries entry hentry depth outer inner hshows hreaches

end Value

end FrameNotation
