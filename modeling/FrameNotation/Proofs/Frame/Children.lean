import FrameNotation.Proofs.Frame.Nested
import FrameNotation.Proofs.Frame.Reordered

namespace FrameNotation

-- A step from a frame to one that stands in it: to an attribute, or to an item of an array that is
-- an attribute.
inductive Descent
  | role (name : Str)
  | item (name : Str) (index : Nat)
deriving DecidableEq

def Descent.written : Descent → Str
  | .role name => name
  | .item name index => name ++ "[" ++ toString index ++ "]"

def Descent.name : Descent → Str
  | .role name | .item name _ => name

-- A step leads from an entry to a frame in it.
inductive Enters : Str × Value → Descent → Frame → Prop
  | role (name : Str) (node : Frame) : Enters (name, .frame node) (.role name) node
  | item (name : Str) {items : List Value} {index : Nat} {node : Frame}
      (hitem : items[index]? = some (.frame node)) :
      Enters (name, .array items) (.item name index) node

-- Steps lead from a frame to one inside it, where no step leads to the frame itself.
inductive Node.Leads : Frame → List Descent → Frame → Prop
  | here (frame : Frame) : Leads frame [] frame
  | into {frame node inner : Frame} {entry : Str × Value} {step : Descent} {steps : List Descent}
      (hentry : entry ∈ frame.attributes) (henters : Enters entry step node)
      (h : Leads node steps inner) : Leads frame (step :: steps) inner

-- The frames to which one step leads, in order.
def itemChildren (name : Str) (start : Nat) (items : List Value) : List (Descent × Frame) :=
  (items.zipIdx start).filterMap fun
    | (.frame node, index) => some (.item name index, node)
    | _ => none

def entryChildren : Str × Value → List (Descent × Frame)
  | (name, .frame node) => [(.role name, node)]
  | (name, .array items) => itemChildren name 0 items
  | _ => []

def children (attributes : List (Str × Value)) : List (Descent × Frame) :=
  attributes.flatMap entryChildren

variable {name : Str} {start : Nat} {item : Value} {items : List Value} {step : Descent}
variable {entry : Str × Value} {attributes : List (Str × Value)} {node : Frame}

theorem itemChildren_cons : itemChildren name start (item :: items) =
    (match item with
      | .frame node => [(.item name start, node)]
      | _ => []) ++ itemChildren name (start + 1) items := by
  cases item <;> rfl

theorem mem_itemChildren : (step, node) ∈ itemChildren name 0 items ↔
    Enters (name, .array items) step node := by
  have hitem : (step, node) ∈ itemChildren name 0 items ↔
      ∃ index, items[index]? = some (.frame node) ∧ step = .item name index := by
    rw [itemChildren, List.mem_filterMap]
    constructor
    · rintro ⟨⟨item, index⟩, hmem, hstep⟩
      rw [List.mem_zipIdx_iff_getElem?] at hmem
      cases item with
      | frame other =>
          cases hstep
          exact ⟨index, hmem, rfl⟩
      | _ => cases hstep
    · rintro ⟨index, hmem, rfl⟩
      exact ⟨(.frame node, index), List.mem_zipIdx_iff_getElem?.mpr hmem, rfl⟩
  rw [hitem]
  constructor
  · rintro ⟨index, hmem, rfl⟩
    exact .item name hmem
  · rintro ⟨⟩
    exact ⟨_, by assumption, rfl⟩

theorem nodup_itemChildren : ((itemChildren name start items).map Prod.fst).Nodup := by
  have hindices : (items.zipIdx start).Pairwise fun a b => a.2 ≠ b.2 := by
    have hrange : ((items.zipIdx start).map Prod.snd).Nodup := by
      rw [List.zipIdx_map_snd]
      exact List.nodup_range'
    exact List.pairwise_map.mp hrange
  rw [List.Nodup, List.pairwise_map, itemChildren, List.pairwise_filterMap]
  refine hindices.imp ?_
  rintro ⟨a, i⟩ ⟨b, j⟩ hne child hchild other hother
  cases a <;> cases hchild
  cases b <;> cases hother
  exact fun hstep => hne (Descent.item.inj hstep).2

theorem mem_entryChildren : (step, node) ∈ entryChildren entry ↔ Enters entry step node := by
  obtain ⟨name, content⟩ := entry
  cases content with
  | frame other =>
      constructor
      · intro h
        cases List.mem_singleton.mp h
        exact .role name _
      · rintro ⟨⟩
        exact List.mem_singleton_self _
  | array items => exact mem_itemChildren
  | _ => exact iff_of_false List.not_mem_nil nofun

theorem mem_children :
    (step, node) ∈ children attributes ↔ ∃ entry ∈ attributes, Enters entry step node := by
  simp only [children, List.mem_flatMap, mem_entryChildren]

theorem Enters.name_eq (h : Enters entry step node) : step.name = entry.1 := by
  cases h <;> rfl

-- A step leads to what stands in no array within an array.
theorem exists_enters_iff :
    (∃ step, Enters entry step node) ↔ ∃ depth ≤ 1, entry.2.Shows depth node := by
  rw [Value.exists_shows_le_one]
  obtain ⟨name, content⟩ := entry
  constructor
  · rintro ⟨step, henters⟩
    cases henters with
    | role => exact .inl rfl
    | item _ hitem => exact .inr ⟨_, rfl, List.mem_of_getElem? hitem⟩
  · rintro (rfl | ⟨items, rfl, hitem⟩)
    · exact ⟨.role name, .role name node⟩
    · obtain ⟨index, hindex⟩ := List.getElem?_of_mem hitem
      exact ⟨.item name index, .item name hindex⟩

theorem forall_children_iff (holds : Frame → Prop) :
    (∀ place ∈ children node.attributes, holds place.2) ↔
      ∀ depth ≤ 1, ∀ inner, node.Shows depth inner → holds inner := by
  constructor
  · rintro h depth hdepth inner ⟨entry, hentry, hshows⟩
    obtain ⟨step, henters⟩ := exists_enters_iff.mpr ⟨depth, hdepth, hshows⟩
    exact h (step, inner) (mem_children.mpr ⟨entry, hentry, henters⟩)
  · rintro h ⟨step, inner⟩ hplace
    obtain ⟨entry, hentry, henters⟩ := mem_children.mp hplace
    obtain ⟨depth, hdepth, hshows⟩ := exists_enters_iff.mp ⟨step, henters⟩
    exact h depth hdepth inner ⟨entry, hentry, hshows⟩

theorem nodup_entryChildren : ((entryChildren entry).map Prod.fst).Nodup := by
  obtain ⟨name, content⟩ := entry
  cases content with
  | frame node => exact List.nodup_singleton _
  | array items => exact nodup_itemChildren
  | _ => exact List.nodup_nil

-- With distinct names no step leads to two frames.
theorem nodup_children (h : (Entries.names attributes).Nodup) :
    ((children attributes).map Prod.fst).Nodup := by
  rw [children, List.map_flatMap, List.nodup_flatMap]
  refine ⟨fun entry _ => nodup_entryChildren, (List.pairwise_map.mp h).imp ?_⟩
  intro entry other hne step hstep hother
  obtain ⟨⟨_, node⟩, hchild, rfl⟩ := List.mem_map.mp hstep
  obtain ⟨⟨_, another⟩, hanother, hsame⟩ := List.mem_map.mp hother
  have hname := (mem_entryChildren.mp hchild).name_eq
  have hotherName := (mem_entryChildren.mp hanother).name_eq
  exact hne (hname.symm.trans ((congrArg Descent.name hsame).symm.trans hotherName))

-- Induction from the frames to which one step leads.
@[elab_as_elim]
theorem Node.induction {motive : Frame → Prop}
    (step : ∀ frame : Frame,
      (∀ place ∈ children frame.attributes, motive place.2) → motive frame) (frame : Frame) :
    motive frame := by
  have hshown (value : Value) : ∀ depth inner, value.Shows depth inner → motive inner := by
    induction value using Value.induction with
    | array items ih =>
        intro depth inner hshows
        obtain ⟨below, -, item, hitem, hshows⟩ := Value.shows_array.mp hshows
        exact ih item hitem below inner hshows
    | frame node _ ih =>
        intro depth inner hshows
        obtain ⟨-, rfl⟩ := Value.shows_frame.mp hshows
        refine step inner ((forall_children_iff motive).mpr ?_)
        rintro depth - other ⟨entry, hentry, hshows⟩
        exact ih entry hentry depth other hshows
    | _ =>
        intro depth inner hshows
        cases hshows
  exact hshown (.frame frame) 0 frame (.frame frame)

end FrameNotation
