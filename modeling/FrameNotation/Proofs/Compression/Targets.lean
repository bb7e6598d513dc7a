import FrameNotation.Proofs.Compression.Repeated

namespace FrameNotation

open Compression

variable {attributes : List (Str × Value)} {entries : Entries Value} {type : Value}
variable {name : Str}

namespace Compression

theorem isActionRole_eq_false (h : isTargetRole name = true) : isActionRole name = false := by
  have hmark {mark : Str} (hstart : startsWith mark name = true) :
      mark.toList <+: name.toList :=
    List.isPrefixOf_iff_prefix.mp hstart
  rw [← Bool.not_eq_true]
  intro haction
  rcases Bool.or_eq_true_iff.mp h with htarget | hobject
  · exact absurd (List.prefix_or_prefix_of_prefix (hmark haction) (hmark htarget)) (by decide)
  · exact absurd (List.prefix_or_prefix_of_prefix (hmark haction) (hmark hobject)) (by decide)

theorem targetsOf_keepOneAction (entries : Entries Value) :
    targetsOf (keepOneAction entries) = targetsOf entries := by
  rcases keepOneAction_cases entries with ⟨-, hself⟩ | ⟨source, -, hkept⟩
  · rw [hself]
  · rw [hkept, targetsOf, List.filter_filter]
    apply List.filter_congr
    intro entry _
    cases hrole : isTargetRole entry.1 with
    | false => rfl
    | true => simp [isActionRole_eq_false hrole]

theorem targetsOf_compressEntries (attributes : List (Str × Value)) :
    targetsOf (compressEntries attributes) =
      ((targetsOf attributes).filter fun entry => !isVoid entry.2).map
        fun entry => (entry.1, entry.2.compress) := by
  rw [compressEntries_eq, targetsOf, targetsOf, List.filter_map, List.filter_comm]
  rfl

theorem compressEntries_eq_nil_iff : compressEntries attributes = [] ↔
    ∀ entry ∈ attributes, isVoid entry.2 = true := by
  simp [compressEntries_eq]

theorem keepOneAction_eq_nil_iff : keepOneAction entries = [] ↔ entries = [] := by
  rcases keepOneAction_cases entries with ⟨-, hself⟩ | ⟨source, hsource, hkept⟩
  · rw [hself]
  · have hmem : source ∈ entries := List.mem_of_mem_filter hsource
    refine iff_of_false (fun hnil => ?_) (List.ne_nil_of_mem hmem)
    rw [hkept, List.filter_eq_nil_iff] at hnil
    exact hnil source hmem (by simp)

theorem foldTargets_eq_nil_iff : foldTargets entries = [] ↔ entries = [] := by
  rcases foldTargets_cases entries with ⟨-, hself⟩ | ⟨hmany, hfolded⟩
  · rw [hself]
  · refine iff_of_false (by simp [hfolded]) ?_
    rintro rfl
    simp [targetsOf] at hmany

theorem distinctItems_eq_nil_iff {values : List Value} :
    distinctItems [] values = [] ↔ values = [] := by
  cases values <;> simp [distinctItems]

theorem dedupeItems_eq_nil_iff : dedupeItems entries = [] ↔ entries = [] := by
  rcases dedupeItems_cases entries with ⟨-, hself⟩ | ⟨hfewer, hdeduped⟩
  · rw [hself]
  · have hitems : (itemsOf entries).map Prod.snd ≠ [] := by
      intro hnil
      rw [List.map_eq_nil_iff.mp hnil] at hfewer
      simp at hfewer
    refine iff_of_false (fun hnil => ?_) ?_
    · rw [hdeduped, List.append_eq_nil_iff, List.map_eq_nil_iff, List.zipIdx_eq_nil_iff,
        distinctItems_eq_nil_iff] at hnil
      exact hitems hnil.2
    · rintro rfl
      exact hitems rfl

-- Rearranging never takes the last attribute away.
theorem rearranged_eq_nil_iff : rearranged type entries = [] ↔ entries = [] := by
  rcases rearranged_cases type entries with ⟨-, hsame⟩ | ⟨-, hsame⟩ | ⟨-, -, hsame⟩ <;> rw [hsame]
  · rw [foldTargets_eq_nil_iff, keepOneAction_eq_nil_iff]
  · exact dedupeItems_eq_nil_iff

end Compression

-- A value that holds after its compression: in a frame, some attribute has to be left.
def Value.isTelling : Value → Bool
  | .frame node => node.attributes.any fun entry => !isVoid entry.2
  | value => value.holds

theorem Value.holds_compress (value : Value) : value.compress.holds = value.isTelling := by
  cases value with
  | array items =>
      rw [compress, compressItems_eq]
      cases items <;> rfl
  | frame node =>
      rw [compress_frame, holds, Node.compress_attributes, isTelling, Bool.eq_iff_iff,
        Bool.not_eq_true', ← Bool.not_eq_true, List.isEmpty_iff, rearranged_eq_nil_iff,
        compressEntries_eq_nil_iff]
      simp
  | _ => rfl

namespace Node

-- The targets of a frame that are not void.
def targets (frame : Frame) : Entries Value :=
  (targetsOf frame.attributes).filter fun entry => !isVoid entry.2

-- Of more than two targets of a query one stays, the list of those that hold after their
-- compression, in their order. It is the list of all of them exactly if all of them hold.
theorem targetsOf_compress_iff (frame : Frame) (htype : frame.type = .text "query")
    (hmany : 2 < frame.targets.length) :
    targetsOf frame.compress.attributes = [(targetListRole,
        .array ((frame.targets.filter fun target => target.2.isTelling).map (·.2.compress)))] ∧
      (targetsOf frame.compress.attributes =
          [(targetListRole, .array (frame.targets.map (·.2.compress)))] ↔
        ∀ target ∈ frame.targets, target.2.isTelling = true) := by
  have hkept : targetsOf (keepOneAction (compressEntries frame.attributes)) =
      frame.targets.map fun target => (target.1, target.2.compress) := by
    rw [targetsOf_keepOneAction, targetsOf_compressEntries]
    rfl
  have hvalues : ((frame.targets.map fun target => (target.1, target.2.compress)).map
      Prod.snd).filter Value.holds =
        (frame.targets.filter fun target => target.2.isTelling).map (·.2.compress) := by
    rw [List.map_map, List.filter_map]
    congr 1
    exact List.filter_congr fun target _ => Value.holds_compress target.2
  have hfolded : targetsOf frame.compress.attributes = [(targetListRole,
      .array ((frame.targets.filter fun target => target.2.isTelling).map (·.2.compress)))] := by
    rw [compress_attributes, htype]
    rcases foldTargets_cases (keepOneAction (compressEntries frame.attributes)) with
      ⟨hfew, -⟩ | ⟨-, hfolded⟩
    · rw [hkept, List.length_map] at hfew
      omega
    · have hrole : isTargetRole targetListRole = true := by decide
      rw [hkept, hvalues] at hfolded
      rw [rearranged_query, hfolded, targetsOf, List.filter_append, List.filter_filter]
      simp [hrole]
  refine ⟨hfolded, ?_⟩
  rw [hfolded, List.singleton_inj, Prod.mk_right_inj, Value.array.injEq]
  constructor
  · intro h
    have hlength := congrArg List.length h
    rw [List.length_map, List.length_map] at hlength
    exact List.length_filter_eq_length_iff.mp hlength
  · intro h
    rw [List.filter_eq_self.mpr h]

-- A query for a described entity, for two things at once and for what an older list names.
def errandQuery : Frame :=
  ⟨.text "query", [("action", .text "fetch"),
    ("target", .frame ⟨.text "entity", [("name", .text "tea"), ("tags", .array [])]⟩),
    ("object", .array [.text "milk", .number (.int 0)]), ("target_list", .array [.text "cup"]),
    ("object_2", .null)]⟩

theorem targetsOf_compress_errandQuery :
    errandQuery.type = .text "query" ∧ 2 < errandQuery.targets.length ∧
      (∀ target ∈ errandQuery.targets, target.2.isTelling = true) ∧
        targetsOf errandQuery.compress.attributes = [(targetListRole, .array [
          .frame ⟨.text "entity", [("name", .text "tea")]⟩,
          .array [.text "milk", .number (.int 0)], .array [.text "cup"]])] := by
  have hmany : 2 < errandQuery.targets.length := by decide
  have htelling : ∀ target ∈ errandQuery.targets, target.2.isTelling = true := by decide
  exact ⟨rfl, hmany, htelling, (targetsOf_compress_iff errandQuery rfl hmany).2.mpr htelling⟩

-- A query whose first target is a number that counts nothing.
def countdownQuery : Frame :=
  ⟨.text "query",
    [("target", .number (.int 0)), ("object", .text "milk"), ("target_2", .text "tea")]⟩

theorem not_targetsOf_compress_countdownQuery :
    countdownQuery.type = .text "query" ∧ 2 < countdownQuery.targets.length ∧
      targetsOf countdownQuery.compress.attributes ≠
        [(targetListRole, .array (countdownQuery.targets.map (·.2.compress)))] := by
  have hlost : targetsOf countdownQuery.compress.attributes =
      [(targetListRole, .array [.text "milk", .text "tea"])] := rfl
  refine ⟨rfl, by decide, ?_⟩
  rw [hlost]
  intro h
  simp [countdownQuery, targets, targetsOf, isTargetRole, startsWith, isVoid] at h

end Node

end FrameNotation
