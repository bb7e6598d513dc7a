import FrameNotation.Proofs.Compression.Width

namespace FrameNotation

open Compression

variable {entries : Entries Value} {frame : Frame} {leaf value : Value}

-- A frame whose own roles are compressed: no attribute is null, a query has one action and two
-- targets at most, and no item of a list is the same as one before it. Roles are counted by their
-- names.
structure Node.IsNormal (frame : Frame) : Prop where
  full : ∀ entry ∈ frame.attributes, entry.2 ≠ .null
  actions : frame.type = .text "query" →
    (Entries.names (actionsOf frame.attributes)).toFinset.card ≤ 1
  targets : frame.type = .text "query" →
    (Entries.names (targetsOf frame.attributes)).toFinset.card ≤ 2
  items : frame.type = .text "list" → frame.items.Pairwise fun a b => isSameItem a b = false

theorem Compression.card_names_le_one {action : Str} (h : ∀ entry ∈ entries, entry.1 = action) :
    (Entries.names entries).toFinset.card ≤ 1 := by
  refine Finset.card_le_one_iff_subset_singleton.mpr ⟨action, fun name hname => ?_⟩
  obtain ⟨entry, hentry, rfl⟩ := List.mem_map.mp (List.mem_toFinset.mp hname)
  exact Finset.mem_singleton.mpr (h entry hentry)

theorem Node.isNormal_compress (frame : Frame) : frame.compress.IsNormal := by
  constructor
  · exact fun _ => ne_null_of_mem_compress
  · intro htype
    obtain ⟨action, haction⟩ := exists_action (compressEntries frame.attributes)
    rw [compress_attributes, ← compress_type, htype]
    exact card_names_le_one fun entry hentry =>
      haction entry (actionsOf_foldTargets _ entry hentry)
  · intro htype
    have hfew := length_targetsOf_foldTargets (keepOneAction (compressEntries frame.attributes))
    rw [compress_attributes, ← compress_type, htype]
    exact (List.toFinset_card_le _).trans ((List.length_map Prod.fst).trans_le hfew)
  · intro htype
    rw [items_compress_list (by rw [← compress_type, htype])]
    exact pairwise_distinctItems [] _

-- A value stands in another one: as the value itself, in an item of an array or in an attribute.
inductive Value.StandsIn (part : Value) : Value → Prop
  | self : StandsIn part part
  | item {items : List Value} {item : Value} (hitem : item ∈ items) (h : StandsIn part item) :
      StandsIn part (.array items)
  | entry {node : Frame} {entry : Str × Value} (hentry : entry ∈ node.attributes)
      (h : StandsIn part entry.2) : StandsIn part (.frame node)

namespace Value

-- Truth values, numbers and texts.
def isLeaf : Value → Bool
  | .bool _ | .number _ | .text _ => true
  | _ => false

theorem keeps_standsIn (hleaf : leaf.isLeaf = true) (node : Frame) :
    Keeps fun entry => leaf.StandsIn entry.2 → leaf.StandsIn (.frame node) := by
  constructor
  · intro items hitems h
    cases h with
    | self => cases hleaf
    | item hitem h =>
        obtain ⟨name, hstands, -⟩ := hitems _ hitem
        exact hstands h
  · intro name content index h
    exact h

-- Compression makes up no leaf.
theorem standsIn_of_compress (hleaf : leaf.isLeaf = true) (h : leaf.StandsIn value.compress) :
    leaf.StandsIn value := by
  induction value using Value.induction with
  | array items ih =>
      rw [compress, compressItems_eq] at h
      cases h with
      | self => cases hleaf
      | item hitem h =>
          obtain ⟨source, hsource, rfl⟩ := List.mem_map.mp hitem
          exact .item hsource (ih source hsource h)
  | frame node _ ih =>
      rw [compress_frame] at h
      cases h with
      | self => cases hleaf
      | entry hentry h =>
          refine Node.forall_compress (keeps_standsIn hleaf node) ?_ _ hentry h
          intro source hsource hstands
          exact .entry hsource (ih source hsource hstands)
  | _ => exact h

end Value

-- Every frame in a compressed one is normal, at any depth of attributes and arrays, and every leaf
-- stood in the frame before.
theorem Node.normalForm_compress (frame : Frame) :
    (∀ inner, frame.compress.Reaches inner → inner.IsNormal) ∧
      ∀ leaf : Value, leaf.isLeaf = true → leaf.StandsIn (.frame frame.compress) →
        leaf.StandsIn (.frame frame) := by
  have hany : (Value.frame frame).EveryFrame fun _ => True := fun _ _ _ _ _ => trivial
  have hnormal := Value.everyFrame_compress (fun node _ => isNormal_compress node) hany
  rw [Value.compress_frame, Value.everyFrame_iff_reaches] at hnormal
  refine ⟨hnormal, fun leaf hleaf h => ?_⟩
  rw [← Value.compress_frame] at h
  exact Value.standsIn_of_compress hleaf h

end FrameNotation
