import FrameNotation.Proofs.Frame.Children
import FrameNotation.Proofs.Reference
import FrameNotation.Validation.Report

namespace FrameNotation

-- A search that comes to its end and finds no error.
def ErrorFree (result : Except Mishap (List Issue)) : Prop :=
  ∃ issues, result = .ok issues ∧ ∀ issue ∈ issues, issue.isError = false

instance (result : Except Mishap (List Issue)) : Decidable (ErrorFree result) :=
  match result with
  | .ok issues => decidable_of_iff (∀ issue ∈ issues, issue.isError = false) (by simp [ErrorFree])
  | .error _ => isFalse (by simp [ErrorFree])

section ErrorFree

variable {α : Type} {first : Except Mishap α} {second : Except Mishap (List Issue)}

@[simp] theorem errorFree_ok {issues : List Issue} :
    ErrorFree (.ok issues) ↔ ∀ issue ∈ issues, issue.isError = false := by
  simp [ErrorFree]

theorem errorFree_bind {next : α → Except Mishap (List Issue)} :
    ErrorFree (first >>= next) ↔ ∃ a, first = .ok a ∧ ErrorFree (next a) := by
  cases first with
  | ok a => simp
  | error e => simp [ErrorFree, bind, Except.bind]

theorem errorFree_map {told : α → List Issue} :
    ErrorFree (first.map told) ↔
      ∃ a, first = .ok a ∧ ∀ issue ∈ told a, issue.isError = false := by
  cases first <;> simp [ErrorFree, Except.map]

-- Two searches one after the other, where what the first finds is told as issues.
theorem errorFree_append (told : α → List Issue) :
    ErrorFree (first >>= fun a => second >>= fun issues => pure (told a ++ issues)) ↔
      ErrorFree (first.map told) ∧ ErrorFree second := by
  simp only [errorFree_bind, errorFree_map, pure_eq_ok, errorFree_ok, List.forall_mem_append]
  constructor
  · rintro ⟨a, rfl, issues, rfl, htold, hissues⟩
    exact ⟨⟨a, rfl, htold⟩, issues, rfl, hissues⟩
  · rintro ⟨⟨a, rfl, htold⟩, issues, rfl, hissues⟩
    exact ⟨a, rfl, issues, rfl, htold, hissues⟩

-- The way to a frame does not make an error of what is none.
theorem errorFree_under {found : Except Mishap (List Issue)} {step : Str} :
    ErrorFree (found.map fun issues => issues.map (·.under step)) ↔ ErrorFree found := by
  rw [errorFree_map]
  simp only [List.forall_mem_map]
  rfl

end ErrorFree

variable {frame inner : Frame} {name : Str} {start : Nat} {items : List Value}
variable {attributes : List (Str × Value)} {references : List Str}
variable {places others : List (Descent × Frame)}

-- The issues of frames to which a step leads, one frame after the other.
def gathered : List (Descent × Frame) → Except Mishap (List Issue)
  | [] => .ok []
  | (step, node) :: rest => do
    let found ← node.issues
    let others ← gathered rest
    return found.map (·.under step.written) ++ others

theorem gathered_append : gathered (places ++ others) =
    gathered places >>= fun found => gathered others >>= fun rest => pure (found ++ rest) := by
  induction places with
  | nil => cases hothers : gathered others <;> simp [gathered, hothers, bind, Except.bind]
  | cons place rest ih =>
      obtain ⟨step, node⟩ := place
      rw [List.cons_append, gathered, gathered, ih]
      cases node.issues with
      | error mishap => rfl
      | ok found =>
          cases gathered rest with
          | error mishap => rfl
          | ok others' => cases gathered others <;> simp [bind, Except.bind, pure, Except.pure]

theorem issuesOfItems_eq : issuesOfItems name start items =
    gathered (itemChildren name start items) := by
  induction items generalizing start with
  | nil => rw [issuesOfItems, itemChildren, List.zipIdx_nil, List.filterMap_nil, gathered]
  | cons item rest ih =>
      rw [itemChildren_cons]
      cases item with
      | frame node =>
          rw [issuesOfItems, ih]
          rfl
      | _ => simpa only [issuesOfItems, List.nil_append] using ih

-- Validation looks at the frames to which one step leads, in order, and at nothing else.
theorem issuesOfEntries_eq : issuesOfEntries attributes = gathered (children attributes) := by
  induction attributes with
  | nil => rw [issuesOfEntries, children, List.flatMap_nil, gathered]
  | cons entry rest ih =>
      obtain ⟨name, content⟩ := entry
      rw [children, List.flatMap_cons, ← children]
      cases content with
      | frame node =>
          rw [issuesOfEntries, ih]
          rfl
      | array items =>
          rw [issuesOfEntries, ih, issuesOfItems_eq, entryChildren, gathered_append]
      | _ => simpa only [issuesOfEntries, entryChildren, List.nil_append] using ih

theorem errorFree_gathered :
    ErrorFree (gathered places) ↔ ∀ place ∈ places, ErrorFree place.2.issues := by
  induction places with
  | nil => simp [gathered]
  | cons place rest ih =>
      rw [gathered, errorFree_append, errorFree_under, ih, List.forall_mem_cons]

-- Frames are looked at as attributes and as items of arrays that are attributes.
theorem errorFree_issuesOfEntries : ErrorFree (issuesOfEntries frame.attributes) ↔
    ∀ depth ≤ 1, ∀ inner, frame.Shows depth inner → ErrorFree inner.issues := by
  rw [issuesOfEntries_eq, errorFree_gathered]
  exact forall_children_iff fun inner => ErrorFree inner.issues

-- Every reference that does not resolve is an error.
theorem errorFree_referenceProblems : ErrorFree ((referenceProblems frame references).map own) ↔
    ∀ reference ∈ references, frame.Resolves reference := by
  induction references with
  | nil => simp [referenceProblems, own]
  | cons reference rest ih =>
      rw [List.forall_mem_cons, ← ih, referenceProblems]
      constructor
      · intro h
        obtain ⟨_, hproblems, hfree⟩ := errorFree_map.mp h
        obtain ⟨value, hvalue, hproblems⟩ := bind_eq_ok.mp hproblems
        obtain ⟨others, hothers, hproblems⟩ := bind_eq_ok.mp hproblems
        cases value with
        | none =>
            cases hproblems
            have herror := hfree ⟨[], .unresolved reference⟩ (by simp [own])
            simp [Issue.isError, Problem.severity] at herror
        | some value =>
            cases hproblems
            exact ⟨⟨value, hvalue⟩, errorFree_map.mpr ⟨others, hothers, hfree⟩⟩
      · rintro ⟨⟨value, hvalue⟩, hrest⟩
        obtain ⟨others, hothers, hfree⟩ := errorFree_map.mp hrest
        rw [hvalue, hothers]
        exact errorFree_ok.mpr hfree

namespace Node

-- Validation comes to its end and reports no error.
def IsValid (frame : Frame) : Prop :=
  ∃ report, frame.validate = .ok report ∧ report.isValid = true

theorem isValid_iff_errorFree : frame.IsValid ↔ ErrorFree frame.issues := by
  cases hissues : frame.issues with
  | error mishap => simp [IsValid, ErrorFree, validate, hissues, bind, Except.bind]
  | ok issues => simp [IsValid, validate, hissues, Report.isValid]

instance (frame : Frame) : Decidable frame.IsValid := decidable_of_iff _ isValid_iff_errorFree.symm

theorem errorFree_issues : ErrorFree frame.issues ↔ ErrorFree ((typeProblems frame).map own) ∧
    ErrorFree (issuesOfEntries frame.attributes) ∧
      ErrorFree ((referenceProblems frame frame.ownReferences).map own) := by
  obtain ⟨type, attributes⟩ := frame
  rw [issues]
  simp only [errorFree_bind, errorFree_map, pure_eq_ok, errorFree_ok, List.forall_mem_append]
  constructor
  · rintro ⟨roles, hroles, nested, hnested, references, hreferences, ⟨howns, hnests⟩, hrefers⟩
    exact ⟨⟨roles, hroles, howns⟩, ⟨nested, hnested, hnests⟩, references, hreferences, hrefers⟩
  · rintro ⟨⟨roles, hroles, howns⟩, ⟨nested, hnested, hnests⟩, references, hreferences, hrefers⟩
    exact ⟨roles, hroles, nested, hnested, references, hreferences, ⟨howns, hnests⟩, hrefers⟩

-- A frame is valid exactly if its roles are what its type asks for, if the frames in its attributes
-- and in their items are valid, and if its references resolve.
theorem isValid_iff : frame.IsValid ↔ ErrorFree ((typeProblems frame).map own) ∧
    (∀ depth ≤ 1, ∀ inner, frame.Shows depth inner → inner.IsValid) ∧ frame.OwnResolve := by
  rw [isValid_iff_errorFree, errorFree_issues, errorFree_issuesOfEntries,
    errorFree_referenceProblems]
  simp only [isValid_iff_errorFree]
  exact Iff.rfl

-- Validity all the way down: whatever stands inside is valid, and every reference resolves.
structure IsSound (frame : Frame) : Prop where
  nested : ∀ inner, frame.Nests inner → inner.IsValid
  resolved : ∃ resolved, frame.resolveAll true = .ok resolved

-- Validity goes from a frame to all that is reached, if it does so where frames stand in arrays
-- within arrays. Validation does not look there.
theorem isValid_of_reaches (h : frame.IsValid)
    (hhidden : ∀ outer inner depth, frame.Reaches outer → 2 ≤ depth → outer.Shows depth inner →
      inner.IsValid)
    (hreaches : frame.Reaches inner) : inner.IsValid := by
  induction hreaches with
  | refl => exact h
  | tail hreaches hshows ih =>
      obtain ⟨depth, hshows⟩ := hshows
      obtain ⟨-, hseen, -⟩ := isValid_iff.mp ih
      by_cases hdepth : depth ≤ 1
      · exact hseen depth hdepth _ hshows
      · exact hhidden _ _ depth hreaches (by omega) hshows

-- A valid frame is sound exactly if every frame that stands in an array within an array is valid,
-- wherever it is reached.
theorem isSound_iff (h : frame.IsValid) : frame.IsSound ↔
    ∀ outer inner depth, frame.Reaches outer → 2 ≤ depth → outer.Shows depth inner →
      inner.IsValid := by
  constructor
  · intro hsound outer inner depth hreaches _ hshows
    exact hsound.nested inner (.tail' hreaches ⟨depth, hshows⟩)
  · intro hhidden
    constructor
    · intro inner hnests
      exact isValid_of_reaches h hhidden hnests.to_reflTransGen
    · apply exists_resolveAll
      intro inner hreaches
      obtain ⟨-, -, hresolve⟩ := isValid_iff.mp (isValid_of_reaches h hhidden hreaches)
      exact hresolve

def innerEvent : Frame := ⟨.text "event", [("action", .text "ask"), ("agent", .text "$action")]⟩

-- An event in an array within an array, with a reference of its own.
def layeredEvent : Frame :=
  ⟨.text "event", [("action", .text "$status"), ("object", .array [.array [.frame innerEvent]]),
    ("status", .text "open")]⟩

theorem isSound_layeredEvent : layeredEvent.IsValid ∧
    (∀ outer inner depth, layeredEvent.Reaches outer → 2 ≤ depth → outer.Shows depth inner →
      inner.IsValid) ∧ layeredEvent.IsSound := by
  have hvalid : layeredEvent.IsValid := by decide +kernel
  have hinner : ∀ outer ∈ [layeredEvent, innerEvent], ∀ depth inner, outer.Shows depth inner →
      inner = innerEvent := by
    simp only [Node.Shows, layeredEvent, innerEvent, List.forall_mem_cons]
    simp
  have hhidden (outer inner : Frame) (depth : Nat) (hreaches : layeredEvent.Reaches outer)
      (_ : 2 ≤ depth) (hshows : outer.Shows depth inner) : inner.IsValid := by
    have houter : outer ∈ [layeredEvent, innerEvent] := by
      apply mem_of_reaches (List.mem_cons_self ..) ?_ hreaches
      intro outer houter depth inner hshows
      simp [hinner outer houter depth inner hshows]
    rw [hinner outer houter depth inner hshows]
    decide +kernel
  exact ⟨hvalid, hhidden, (isSound_iff hvalid).mpr hhidden⟩

def danglingQuery : Frame := ⟨.text "query", [("target", .text "$nope")]⟩

-- A query in an array within an array, with a reference to nothing.
def coveringQuery : Frame :=
  ⟨.text "query", [("target", .array [.array [.frame danglingQuery]])]⟩

-- The query around the other one is valid, and its references cannot all be resolved.
theorem not_isSound_coveringQuery : coveringQuery.IsValid ∧
    coveringQuery.Nests danglingQuery ∧ ¬danglingQuery.IsValid ∧
      coveringQuery.resolveAll true = .error (.fault (.unresolved "$nope" (.text "query"))) := by
  have hpath : pathOf "$nope" = .ok (some [.key "nope"]) := by decide +kernel
  have hnone : resolve "$nope" (.frame danglingQuery) = .ok none := by
    rw [resolve, hpath]
    rfl
  have hframe (owner : Frame) : (Value.frame danglingQuery).substituted true owner =
      .error (.fault (.unresolved "$nope" (.text "query"))) := by
    have hvalue : (Value.text "$nope").substituted true danglingQuery =
        .error (.fault (.unresolved "$nope" (.text "query"))) := by
      rw [Value.substituted, if_pos (by decide), replacement_of_unresolved hnone]
      rfl
    rw [danglingQuery] at hvalue ⊢
    rw [Value.substituted, substitutedEntries, hvalue]
    rfl
  have hitems (owner : Frame) : substitutedItems true owner [.frame danglingQuery] =
      .error (.fault (.unresolved "$nope" (.text "query"))) := by
    rw [substitutedItems, hframe]
    rfl
  refine ⟨by decide +kernel, ?_, by decide +kernel, ?_⟩
  · exact .single ⟨2, _, List.mem_singleton.mpr rfl, by simp⟩
  · rw [resolveAll, coveringQuery, substitutedEntries, Value.substituted, substitutedItems,
      Value.substituted, hitems]
    rfl

end Node

end FrameNotation
