import FrameNotation.Proofs.Frame.Nested
import FrameNotation.Proofs.Reference.Substitution

namespace FrameNotation

variable {nested strict : Bool} {reference : Str} {frame owner : Frame} {value : Value}
variable {items : List Value} {entries : List (Str × Value)}

theorem referencesOfItems_eq :
    referencesOfItems nested items = items.flatMap (Value.references nested) := by
  induction items with
  | nil => rfl
  | cons item rest ih => rw [referencesOfItems, ih, List.flatMap_cons]

theorem referencesOfEntries_eq : referencesOfEntries nested entries =
    entries.flatMap fun entry => entry.2.references nested := by
  induction entries with
  | nil => rfl
  | cons entry rest ih => rw [referencesOfEntries, ih, List.flatMap_cons]

theorem mem_referencesOfItems : reference ∈ referencesOfItems nested items ↔
    ∃ item ∈ items, reference ∈ item.references nested := by
  rw [referencesOfItems_eq, List.mem_flatMap]

theorem mem_referencesOfEntries : reference ∈ referencesOfEntries nested entries ↔
    ∃ entry ∈ entries, reference ∈ entry.2.references nested := by
  rw [referencesOfEntries_eq, List.mem_flatMap]

-- A reference stands in a value, outside the frames in it.
inductive Value.Cites (reference : Str) : Value → Prop
  | text (h : isReference reference = true) : Cites reference (.text reference)
  | item {items : List Value} {item : Value} (hitem : item ∈ items) (h : Cites reference item) :
      Cites reference (.array items)

theorem Value.mem_references_iff : reference ∈ value.references false ↔ value.Cites reference := by
  induction value using Value.induction with
  | text s =>
      rw [Value.references]
      constructor
      · intro h
        split_ifs at h with hreference
        · cases List.mem_singleton.mp h
          exact .text hreference
        · cases h
      · rintro ⟨hreference⟩
        rw [if_pos hreference]
        exact List.mem_singleton_self reference
  | array items ih =>
      rw [Value.references, mem_referencesOfItems]
      constructor
      · rintro ⟨item, hitem, h⟩
        exact .item hitem ((ih item hitem).mp h)
      · intro h
        cases h with
        | item hitem h => exact ⟨_, hitem, (ih _ hitem).mpr h⟩
  | _ => exact iff_of_false (by simp [Value.references]) (by rintro ⟨⟩)

namespace Node

theorem mem_ownReferences : reference ∈ frame.ownReferences ↔
    ∃ entry ∈ frame.attributes, reference ∈ entry.2.references false := by
  rw [ownReferences, List.mem_eraseDups, mem_referencesOfEntries]

-- A reference of the frame's own.
def Cites (frame : Frame) (reference : Str) : Prop :=
  ∃ entry ∈ frame.attributes, entry.2.Cites reference

theorem mem_ownReferences_iff : reference ∈ frame.ownReferences ↔ frame.Cites reference := by
  simp only [mem_ownReferences, Value.mem_references_iff, Cites]

-- A reference that stands for something in a frame.
def Resolves (frame : Frame) (reference : Str) : Prop :=
  ∃ value, resolve reference (.frame frame) = .ok (some value)

def OwnResolve (frame : Frame) : Prop := ∀ reference ∈ frame.ownReferences, frame.Resolves reference

end Node

theorem replacement_of_resolves (h : owner.Resolves reference) :
    ∃ result, replacement strict owner reference = .ok result := by
  obtain ⟨value, hvalue⟩ := h
  exact ⟨value, replacement_eq_ok.mpr (.inl hvalue)⟩

theorem replacement_of_unresolved (h : resolve reference (.frame owner) = .ok none) :
    replacement true owner reference = .error (.fault (.unresolved reference owner.type)) := by
  rw [replacement, h]
  rfl

-- Substitution goes through if the references of a value resolve in the frame around it, and those
-- of each frame that is reached from it in that frame.
theorem Value.exists_substituted
    (hown : ∀ reference ∈ value.references false, owner.Resolves reference)
    (hinner : ∀ depth outer inner, value.Shows depth outer → outer.Reaches inner →
      inner.OwnResolve) :
    ∃ result, value.substituted strict owner = .ok result := by
  induction value using Value.induction generalizing owner with
  | null => exact ⟨_, rfl⟩
  | bool b => exact ⟨_, rfl⟩
  | number n => exact ⟨_, rfl⟩
  | record entries _ => exact ⟨_, rfl⟩
  | text s =>
      rw [Value.substituted]
      by_cases hreference : isReference s
      · rw [if_pos hreference]
        exact replacement_of_resolves (hown s (by simp [Value.references, hreference]))
      · rw [if_neg hreference]
        exact ⟨_, rfl⟩
  | array items ih =>
      have hitems : ∀ item ∈ items, ∃ result, item.substituted strict owner = .ok result := by
        intro item hitem
        apply ih item hitem
        · intro reference hreference
          exact hown reference (mem_referencesOfItems.mpr ⟨item, hitem, hreference⟩)
        · intro depth outer inner hshows
          exact hinner (depth + 1) outer inner (.array hitem hshows)
      obtain ⟨results, hresults⟩ := exists_forall₂ hitems
      exact ⟨.array results, Value.substituted_array.mpr ⟨results, rfl, hresults⟩⟩
  | frame node _ ih =>
      -- the references of a nested frame count in it and no longer in the owner
      have hentries :
          ∀ entry ∈ node.attributes, ∃ result, entry.2.substituted strict node = .ok result := by
        intro entry hentry
        apply ih entry hentry
        · intro reference hreference
          exact hinner 0 node node (.frame node) .refl reference
            (Node.mem_ownReferences.mpr ⟨entry, hentry, hreference⟩)
        · intro depth outer inner hshows hreaches
          exact hinner 0 node inner (.frame node) (.head ⟨depth, entry, hentry, hshows⟩ hreaches)
      have hresolved : ∃ resolved, node.resolveAll strict = .ok resolved := by
        obtain ⟨results, hresults⟩ := Entries.Aligned.exists_of_forall
          (fun (content result : Value) => content.substituted strict node = .ok result) hentries
        exact ⟨⟨node.type, results⟩, Node.resolveAll_eq_ok.mpr ⟨rfl, hresults⟩⟩
      obtain ⟨resolved, hresolved⟩ := hresolved
      exact ⟨.frame resolved, Value.substituted_frame.mpr ⟨resolved, rfl, hresolved⟩⟩

-- Strict resolution goes through if every frame that is reached resolves its own references.
theorem Node.exists_resolveAll (h : ∀ inner, frame.Reaches inner → inner.OwnResolve) :
    ∃ resolved, frame.resolveAll strict = .ok resolved := by
  have hvalue : ∃ result, (Value.frame frame).substituted strict frame = .ok result := by
    apply Value.exists_substituted
    · intro reference hreference
      cases hreference
    · intro depth outer inner hshows hreaches
      obtain ⟨-, rfl⟩ := Value.shows_frame.mp hshows
      exact h inner hreaches
  obtain ⟨_, hresult⟩ := hvalue
  obtain ⟨resolved, -, hresolved⟩ := Value.substituted_frame.mp hresult
  exact ⟨resolved, hresolved⟩

end FrameNotation
