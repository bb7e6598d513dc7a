import FrameNotation.Proofs.Compression.Arranged
import FrameNotation.Proofs.Frame.Nested

namespace FrameNotation

open Compression

variable {attributes : List (Str × Value)} {entries : Entries Value} {entry : Str × Value}
variable {type value : Value} {frame : Frame}

@[simp] theorem Value.compress_frame (node : Frame) :
    (Value.frame node).compress = .frame node.compress := by
  rw [Value.compress]

@[simp] theorem Node.compress_type (frame : Frame) : frame.compress.type = frame.type := by
  cases frame
  rw [Node.compress]

theorem Node.compress_attributes (frame : Frame) : frame.compress.attributes =
    rearranged frame.type (compressEntries frame.attributes) := by
  cases frame
  rw [Node.compress]

@[simp] theorem isVoid_compress (value : Value) : isVoid value.compress = isVoid value := by
  cases value with
  | array items =>
      rw [Value.compress, compressItems_eq]
      cases items <;> rfl
  | _ => rfl

-- A frame without null attributes and without empty arrays among its attributes.
def Node.IsFull (frame : Frame) : Prop := ∀ entry ∈ frame.attributes, isVoid entry.2 = false

-- A frame with nothing to drop and nothing to rearrange.
structure Node.IsCompressed (frame : Frame) : Prop where
  arranged : Arranged frame.type frame.attributes
  full : frame.IsFull

namespace Compression

theorem mem_compressEntries (h : entry ∈ compressEntries attributes) :
    ∃ source ∈ attributes, entry = (source.1, source.2.compress) := by
  rw [compressEntries_eq] at h
  obtain ⟨source, hsource, rfl⟩ := List.mem_map.mp h
  exact ⟨source, List.mem_of_mem_filter hsource, rfl⟩

theorem isVoid_of_mem_compressEntries (h : entry ∈ compressEntries attributes) :
    isVoid entry.2 = false := by
  rw [compressEntries_eq] at h
  obtain ⟨source, hsource, rfl⟩ := List.mem_map.mp h
  simpa using List.of_mem_filter hsource

theorem mem_dedupeItems (h : entry ∈ dedupeItems entries) : ∃ source ∈ entries,
    entry.2 = source.2 := by
  rcases dedupeItems_cases entries with ⟨-, hself⟩ | ⟨-, hdeduped⟩
  · rw [hself] at h
    exact ⟨entry, h, rfl⟩
  · rw [hdeduped, List.mem_append] at h
    rcases h with h | h
    · exact ⟨entry, List.mem_of_mem_filter h, rfl⟩
    · obtain ⟨item, hitem, rfl⟩ := List.mem_map.mp h
      have hvalue := distinctItems_subset item.1 (List.fst_mem_of_mem_zipIdx hitem)
      obtain ⟨source, hsource, hsame⟩ := List.mem_map.mp hvalue
      exact ⟨source, List.mem_of_mem_filter hsource, hsame.symm⟩

-- The one void attribute that rearranging makes is a list of targets none of which holds.
theorem eq_targetList_of_isVoid (hentries : ∀ entry ∈ entries, isVoid entry.2 = false)
    (h : entry ∈ rearranged type entries) (hvoid : isVoid entry.2 = true) :
    type = .text "query" ∧ entry = (targetListRole, .array []) := by
  have hfull {source : Str × Value} (hsource : source ∈ entries) : isVoid source.2 ≠ true := by
    rw [hentries source hsource]
    exact Bool.false_ne_true
  rcases rearranged_cases type entries with ⟨htype, hsame⟩ | ⟨-, hsame⟩ | ⟨-, -, hsame⟩ <;>
    rw [hsame] at h
  · refine ⟨htype, ?_⟩
    rcases foldTargets_cases (keepOneAction entries) with ⟨-, hself⟩ | ⟨-, hfolded⟩
    · rw [hself] at h
      exact absurd hvoid (hfull (keepOneAction_subset entry h))
    · rw [hfolded, List.mem_append, List.mem_singleton] at h
      rcases h with h | rfl
      · exact absurd hvoid (hfull (keepOneAction_subset entry (List.mem_of_mem_filter h)))
      · simpa [isVoid] using hvoid
  · obtain ⟨source, hsource, hsame⟩ := mem_dedupeItems h
    exact absurd (hsame ▸ hvoid) (hfull hsource)
  · exact absurd hvoid (hfull h)

theorem compressEntries_eq_self_iff : compressEntries attributes = attributes ↔
    ∀ entry ∈ attributes, isVoid entry.2 = false ∧ entry.2.compress = entry.2 := by
  constructor
  · intro h
    have hfull : ∀ entry ∈ attributes, isVoid entry.2 = false := by
      intro entry hentry
      rw [← h] at hentry
      exact isVoid_of_mem_compressEntries hentry
    rw [compressEntries_eq, List.filter_eq_self.mpr fun entry hentry => by simp [hfull entry hentry]]
      at h
    nth_rewrite 2 [← List.map_id attributes] at h
    intro entry hentry
    exact ⟨hfull entry hentry, congrArg Prod.snd (List.map_inj_left.mp h entry hentry)⟩
  · intro h
    rw [compressEntries_eq, List.filter_eq_self.mpr fun entry hentry => by simp [h entry hentry]]
    nth_rewrite 2 [← List.map_id attributes]
    apply List.map_congr_left
    intro entry hentry
    rw [(h entry hentry).2, id]

theorem length_targetsOf_compressEntries_le (attributes : List (Str × Value)) :
    (targetsOf (compressEntries attributes)).length ≤ (targetsOf attributes).length := by
  rw [compressEntries_eq, targetsOf, List.filter_map, List.length_map]
  exact (List.filter_sublist.filter _).length_le

theorem length_compressEntries_le (attributes : List (Str × Value)) :
    (compressEntries attributes).length ≤ attributes.length := by
  rw [compressEntries_eq, List.length_map]
  exact List.length_filter_le _ _

-- Whatever holds of all parts of a frame's attributes holds of them after rearranging.
theorem keeps_everyFrame (holds : Frame → Prop) :
    Keeps fun entry => entry.2.EveryFrame holds := by
  constructor
  · intro items hitems
    refine Value.everyFrame_array.mpr fun item hitem => ?_
    obtain ⟨_, hitem, -⟩ := hitems item hitem
    exact hitem
  · intro _ _ _ h
    exact h

end Compression

-- What holds of the attributes of a frame, each with its value compressed, holds of those of the
-- compressed frame.
theorem Node.forall_compress {holds : Str × Value → Prop} (hkeeps : Keeps holds)
    (h : ∀ source ∈ frame.attributes, holds (source.1, source.2.compress)) :
    ∀ entry ∈ frame.compress.attributes, holds entry := by
  rw [Node.compress_attributes]
  apply rearranged_forall hkeeps
  intro entry hentry
  obtain ⟨source, hsource, rfl⟩ := mem_compressEntries hentry
  exact h source hsource

namespace Value

-- What the compression of each frame has, every frame in the compression of a value has.
theorem everyFrame_compress {given holds : Frame → Prop}
    (hnode : ∀ node, given node → holds node.compress) (h : value.EveryFrame given) :
    value.compress.EveryFrame holds := by
  induction value using Value.induction with
  | array items ih =>
      rw [everyFrame_array] at h
      rw [compress, compressItems_eq, everyFrame_array]
      intro item hitem
      obtain ⟨source, hsource, rfl⟩ := List.mem_map.mp hitem
      exact ih source hsource (h source hsource)
  | frame node _ ih =>
      obtain ⟨hgiven, hentries⟩ := everyFrame_frame.mp h
      rw [compress_frame, everyFrame_frame]
      refine ⟨hnode node hgiven, Node.forall_compress (keeps_everyFrame holds) ?_⟩
      exact fun source hsource => ih source hsource (hentries source hsource)
  | _ =>
      intro depth outer inner hshows
      cases hshows

theorem compress_eq_self_iff : value.compress = value ↔ value.EveryFrame Node.IsCompressed := by
  induction value using Value.induction with
  | array items ih =>
      rw [everyFrame_array, compress, compressItems_eq, array.injEq]
      nth_rewrite 2 [← List.map_id items]
      rw [List.map_inj_left]
      exact forall₂_congr ih
  | frame node _ ih =>
      rw [compress_frame, frame.injEq, everyFrame_frame]
      constructor
      · intro h
        have hattributes := (Node.compress_attributes node).symm.trans (congrArg Node.attributes h)
        have harranged := arranged_rearranged node.type (compressEntries node.attributes)
        rw [hattributes] at harranged
        have hself : compressEntries node.attributes = node.attributes := by
          rcases rearranged_eq_self_or_lt node.type (compressEntries node.attributes) with hsame | hlt
          · exact hsame.symm.trans hattributes
          · have hle := length_compressEntries_le node.attributes
            rw [hattributes] at hlt
            omega
        have hentries := compressEntries_eq_self_iff.mp hself
        refine ⟨⟨harranged, fun entry hentry => (hentries entry hentry).1⟩, fun entry hentry => ?_⟩
        exact (ih entry hentry).mp (hentries entry hentry).2
      · rintro ⟨⟨harranged, hfull⟩, hentries⟩
        have hself : compressEntries node.attributes = node.attributes := by
          apply compressEntries_eq_self_iff.mpr
          intro entry hentry
          exact ⟨hfull entry hentry, (ih entry hentry).mpr (hentries entry hentry)⟩
        cases node
        rw [Node.compress, hself, harranged.rearranged_eq]
  | _ =>
      refine iff_of_true rfl fun depth outer inner hshows => ?_
      cases hshows

theorem everyFrame_arranged (value : Value) :
    value.compress.EveryFrame fun node => Arranged node.type node.attributes := by
  have hany : value.EveryFrame fun _ => True := fun _ _ _ _ _ => trivial
  refine everyFrame_compress (fun node _ => ?_) hany
  rw [Node.compress_attributes, Node.compress_type]
  exact arranged_rearranged _ _

-- Compressing leaves no void attribute but the list of a query's targets none of which holds.
theorem everyFrame_targetList (value : Value) : value.compress.EveryFrame fun node =>
    ∀ entry ∈ node.attributes, isVoid entry.2 = true →
      node.type = .text "query" ∧ entry = (targetListRole, .array []) := by
  have hany : value.EveryFrame fun _ => True := fun _ _ _ _ _ => trivial
  refine everyFrame_compress (fun node _ entry hentry hvoid => ?_) hany
  rw [Node.compress_attributes] at hentry
  rw [Node.compress_type]
  exact eq_targetList_of_isVoid (fun _ => isVoid_of_mem_compressEntries) hentry hvoid

end Value

namespace Node

-- Where roles are arranged already, no targets are folded.
theorem isFull_compress (h : Arranged frame.type frame.attributes) : frame.compress.IsFull := by
  intro entry hentry
  by_contra hvoid
  rw [Bool.not_eq_false] at hvoid
  rw [compress_attributes] at hentry
  obtain ⟨htype, -⟩ :=
    eq_targetList_of_isVoid (fun _ => isVoid_of_mem_compressEntries) hentry hvoid
  obtain ⟨type, attributes⟩ := frame
  cases h with
  | query action _ htargets =>
      have hkept := ((keepOneAction_sublist (compressEntries attributes)).filter
        fun entry => isTargetRole entry.1).length_le
      have hle := length_targetsOf_compressEntries_le attributes
      have hfew : (targetsOf (keepOneAction (compressEntries attributes))).length ≤ 2 :=
        hkept.trans (hle.trans htargets)
      have hunfolded : entry ∈ keepOneAction (compressEntries attributes) := by
        rcases foldTargets_cases (keepOneAction (compressEntries attributes)) with
          ⟨-, hself⟩ | ⟨hmany, -⟩
        · exact hself ▸ hentry
        · omega
      rw [isVoid_of_mem_compressEntries (keepOneAction_subset entry hunfolded)] at hvoid
      cases hvoid
  | list => simp at htype
  | other hquery => exact hquery htype

-- Compressing once more changes nothing, unless the first time has left a query with an empty list
-- of targets. The second time drops it, and a third time never changes anything.
theorem compress_compress_iff (frame : Frame) :
    (frame.compress.compress = frame.compress ↔ ∀ inner, frame.compress.Reaches inner →
      inner.type = .text "query" → (targetListRole, .array []) ∉ inner.attributes) ∧
    frame.compress.compress.compress = frame.compress.compress := by
  have harranged := Value.everyFrame_arranged (.frame frame)
  rw [Value.compress_frame] at harranged
  have hself (node : Frame) : node.compress = node ↔ (Value.frame node).EveryFrame IsCompressed := by
    rw [← Value.compress_eq_self_iff, Value.compress_frame, Value.frame.injEq]
  constructor
  · rw [hself, Value.everyFrame_iff_reaches]
    constructor
    · intro h inner hreaches _ hmem
      cases (h inner hreaches).full _ hmem
    · intro h inner hreaches
      refine ⟨Value.everyFrame_iff_reaches.mp harranged inner hreaches, fun entry hentry => ?_⟩
      by_contra hvoid
      rw [Bool.not_eq_false] at hvoid
      have hlists := Value.everyFrame_targetList (.frame frame)
      rw [Value.compress_frame, Value.everyFrame_iff_reaches] at hlists
      obtain ⟨htype, rfl⟩ := hlists inner hreaches entry hentry hvoid
      exact h inner hreaches htype hentry
  · have hcompressed : (Value.frame frame.compress).compress.EveryFrame IsCompressed := by
      refine Value.everyFrame_compress (fun node hnode => ⟨?_, isFull_compress hnode⟩) harranged
      rw [compress_attributes, compress_type]
      exact arranged_rearranged _ _
    rw [hself, ← Value.compress_frame]
    exact hcompressed

-- A query for nothing in three ways.
def blankQuery : Frame :=
  ⟨.text "query", [("target", .text ""), ("object", .text ""), ("target_2", .text "")]⟩

theorem not_compress_compress_blankQuery :
    blankQuery.compress.attributes = [(targetListRole, .array [])] ∧
      blankQuery.compress.compress.attributes = [] ∧
        blankQuery.compress.compress.same blankQuery.compress = false :=
  ⟨rfl, rfl, rfl⟩

end Node

end FrameNotation
