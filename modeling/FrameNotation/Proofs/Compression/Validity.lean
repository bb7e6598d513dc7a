import FrameNotation.Proofs.Compression.Repeated
import FrameNotation.Proofs.Validation.Seen

namespace FrameNotation

open Compression Text

variable {attributes : List (Str × Value)} {entries : Entries Value} {name : Str}
variable {entry : Str × Value} {value : Value} {frame inner : Frame} {depth : Nat}

@[simp] theorem isNull_compress (value : Value) : value.compress.isNull = value.isNull := by
  cases value <;> rfl

@[simp] theorem isPresent_compress (value : Value) :
    value.compress.isPresent = value.isPresent := by
  cases value with
  | array items =>
      rw [Value.compress, compressItems_eq]
      cases items <;> rfl
  | _ => rfl

theorem isVoid_of_isPresent (h : value.isPresent = true) : isVoid value = false := by
  cases value with
  | array items => simpa [isVoid, Value.isPresent] using h
  | _ => simp_all [isVoid, Value.isPresent]

-- The first attribute under a name is kept if it is not void.
theorem get?_compressEntries
    (h : ∀ value, Entries.get? attributes name = some value → isVoid value = false) :
    Entries.get? (compressEntries attributes) name =
      (Entries.get? attributes name).map Value.compress := by
  induction attributes with
  | nil => rfl
  | cons entry rest ih =>
      rw [Entries.get?_cons] at h ⊢
      rw [compressEntries]
      by_cases hname : name = entry.1
      · rw [if_pos hname] at h ⊢
        rw [h entry.2 rfl, if_neg Bool.false_ne_true, Entries.get?_cons, if_pos hname,
          Option.map_some]
      · rw [if_neg hname] at h ⊢
        split_ifs
        · exact ih h
        · rw [Entries.get?_cons, if_neg hname, ih h]

-- Compression leaves the references that count in a value itself.
theorem mem_references_compress {reference : Str} :
    reference ∈ value.compress.references false ↔ reference ∈ value.references false := by
  induction value using Value.induction with
  | array items ih =>
      rw [Value.compress, compressItems_eq, Value.references, Value.references,
        mem_referencesOfItems, mem_referencesOfItems]
      simp only [List.mem_map, exists_exists_and_eq_and]
      exact exists_congr fun item => and_congr_right (ih item)
  | frame node => simp [Value.references]
  | _ => rfl

theorem Value.shows_compress : value.compress.Shows depth inner ↔
    ∃ source, value.Shows depth source ∧ inner = source.compress := by
  induction value using Value.induction generalizing depth with
  | array items ih =>
      rw [compress, compressItems_eq]
      simp only [shows_array, List.mem_map, exists_exists_and_eq_and]
      constructor
      · rintro ⟨below, hdepth, item, hitem, hshows⟩
        obtain ⟨source, hsource, hinner⟩ := (ih item hitem).mp hshows
        exact ⟨source, ⟨below, hdepth, item, hitem, hsource⟩, hinner⟩
      · rintro ⟨source, ⟨below, hdepth, item, hitem, hsource⟩, hinner⟩
        exact ⟨below, hdepth, item, hitem, (ih item hitem).mpr ⟨source, hsource, hinner⟩⟩
  | frame node _ _ => simp [and_assoc]
  | _ =>
      constructor
      · intro h
        cases h
      · rintro ⟨_, h, -⟩
        cases h

namespace Compression

-- Deduplicated items have their own names, or the numbers of fewer items than there were.
theorem name_dedupeItems (h : entry ∈ dedupeItems entries) :
    entry.1 ∈ Entries.names entries ∨
      ∃ index < entries.length, entry.1 = itemMark ++ toString index := by
  rcases dedupeItems_cases entries with ⟨-, hself⟩ | ⟨hfewer, hdeduped⟩
  · rw [hself] at h
    exact .inl (List.mem_map_of_mem h)
  · rw [hdeduped, List.mem_append] at h
    rcases h with h | h
    · exact .inl (List.mem_map_of_mem (List.mem_of_mem_filter h))
    · obtain ⟨⟨item, index⟩, hitem, rfl⟩ := List.mem_map.mp h
      have hindex := List.snd_lt_of_mem_zipIdx hitem
      have hitems : (itemsOf entries).length ≤ entries.length := List.length_filter_le _ _
      exact .inr ⟨index, by omega, rfl⟩

theorem get?_keepOneAction (h : isActionRole name = false) :
    Entries.get? (keepOneAction entries) name = Entries.get? entries name := by
  rcases keepOneAction_cases entries with ⟨-, hself⟩ | ⟨source, -, hkept⟩
  · rw [hself]
  · rw [hkept]
    exact Entries.get?_filter (fun role => !isActionRole role || decide (role = source.1))
      (by simp [h])

theorem get?_foldTargets (h : isTargetRole name = false) :
    Entries.get? (foldTargets entries) name = Entries.get? entries name := by
  rcases foldTargets_cases entries with ⟨-, hself⟩ | ⟨-, hfolded⟩
  · rw [hself]
  · have hne : name ≠ targetListRole := by
      rintro rfl
      exact absurd h (by decide)
    rw [hfolded, Entries.get?_append, Entries.get?_cons, if_neg hne,
      Entries.get?_filter (fun role => !isTargetRole role) (by simp [h])]
    exact Option.or_none ..

theorem get?_dedupeItems (h : isItemRole name = false) :
    Entries.get? (dedupeItems entries) name = Entries.get? entries name := by
  rcases dedupeItems_cases entries with ⟨-, hself⟩ | ⟨-, hdeduped⟩
  · rw [hself]
  · have hnone : Entries.get? (((distinctItems [] ((itemsOf entries).map Prod.snd)).zipIdx 1).map
        fun item => (itemMark ++ toString item.2, item.1)) name = none := by
      apply Entries.get?_eq_none
      intro hmem
      obtain ⟨_, hitem, rfl⟩ := List.mem_map.mp hmem
      obtain ⟨item, -, rfl⟩ := List.mem_map.mp hitem
      rw [isItemRole_item] at h
      cases h
    rw [hdeduped, Entries.get?_append, hnone,
      Entries.get?_filter (fun role => !isItemRole role) (by simp [h])]
    exact Option.or_none ..

end Compression

-- Compression leaves a role where it is, and at most compresses what stands under it.
def Node.Leaves (frame : Frame) (name : Str) : Prop :=
  Entries.get? frame.compress.attributes name =
    (Entries.get? frame.attributes name).map Value.compress

-- Compression leaves every role that is not void, apart from the actions and targets of a query and
-- the items of a list.
theorem Node.leaves_of_apart
    (hfull : ∀ value, Entries.get? frame.attributes name = some value → isVoid value = false)
    (hquery : frame.type = .text "query" → isActionRole name = false ∧ isTargetRole name = false)
    (hlist : frame.type = .text "list" → isItemRole name = false) : frame.Leaves name := by
  rw [Leaves, compress_attributes, ← get?_compressEntries hfull]
  rcases rearranged_cases frame.type (compressEntries frame.attributes) with
    ⟨htype, hsame⟩ | ⟨htype, hsame⟩ | ⟨-, -, hsame⟩ <;> rw [hsame]
  · obtain ⟨haction, htarget⟩ := hquery htype
    rw [get?_foldTargets htarget, get?_keepOneAction haction]
  · rw [get?_dedupeItems (hlist htype)]

namespace Node

variable {type : FrameType}

theorem shows_of_shows_compress (hdepth : depth ≤ 1) (h : frame.compress.Shows depth inner) :
    ∃ source, (∃ below ≤ 1, frame.Shows below source) ∧ inner = source.compress := by
  -- folding puts no frame deeper than into one array that is looked at
  have hkeeps : Keeps fun entry => ∀ depth ≤ 1, ∀ inner, entry.2.Shows depth inner →
      ∃ source, (∃ below ≤ 1, frame.Shows below source) ∧ inner = source.compress := by
    constructor
    · intro items hitems depth hdepth inner hshows
      obtain ⟨below, rfl, item, hitem, hshows⟩ := Value.shows_array.mp hshows
      obtain ⟨_, hitem, -⟩ := hitems item hitem
      exact hitem below (by omega) inner hshows
    · intro _ _ _ hentry
      exact hentry
  obtain ⟨entry, hentry, hshows⟩ := h
  refine forall_compress hkeeps ?_ entry hentry depth hdepth inner hshows
  intro source hsource depth hdepth inner hshows
  obtain ⟨shown, hshown, rfl⟩ := Value.shows_compress.mp hshows
  exact ⟨shown, ⟨depth, hdepth, source, hsource, hshown⟩, rfl⟩

-- Validation of a compressed frame looks at compressed frames only.
theorem exists_of_sees_compress (h : frame.compress.Sees inner) :
    ∃ source, frame.Sees source ∧ inner = source.compress := by
  induction h with
  | refl => exact ⟨frame, .refl, rfl⟩
  | tail _ hshows ih =>
      obtain ⟨outer, hsees, rfl⟩ := ih
      obtain ⟨depth, hdepth, hshows⟩ := hshows
      obtain ⟨source, hsource, rfl⟩ := shows_of_shows_compress hdepth hshows
      exact ⟨source, hsees.tail hsource, rfl⟩

-- Compression makes up no reference.
theorem mem_ownReferences_of_compress {reference : Str}
    (h : reference ∈ frame.compress.ownReferences) : reference ∈ frame.ownReferences := by
  have hkeeps : Keeps fun entry => ∀ reference ∈ entry.2.references false,
      reference ∈ frame.ownReferences := by
    constructor
    · intro items hitems reference hreference
      obtain ⟨item, hitem, hreference⟩ := mem_referencesOfItems.mp hreference
      obtain ⟨_, hitem, -⟩ := hitems item hitem
      exact hitem reference hreference
    · intro _ _ _ hentry
      exact hentry
  obtain ⟨entry, hentry, hreference⟩ := mem_ownReferences.mp h
  refine forall_compress hkeeps ?_ entry hentry reference hreference
  intro source hsource reference hreference
  exact mem_ownReferences.mpr ⟨source, hsource, mem_references_compress.mp hreference⟩

-- Frames other than queries and lists lose their void attributes and nothing else.
theorem fills_compress {role : Str} (hquery : frame.type ≠ .text "query")
    (hlist : frame.type ≠ .text "list") (h : frame.fills role = true) :
    frame.compress.fills role = true := by
  rw [fills, getOrNull] at h ⊢
  cases hvalue : Entries.get? frame.attributes role with
  | none =>
      rw [hvalue] at h
      cases h
  | some value =>
      rw [hvalue, Option.getD_some] at h
      have hleaves : frame.Leaves role := by
        apply leaves_of_apart
        · intro found hfound
          cases hvalue.symm.trans hfound
          exact isVoid_of_isPresent h
        · exact fun htype => absurd htype hquery
        · exact fun htype => absurd htype hlist
      rw [hleaves, hvalue, Option.map_some, Option.getD_some, isPresent_compress]
      exact h

theorem type_eq_of_knownType (h : frame.knownType = .ok (some type)) :
    frame.type = .text type.name := by
  unfold knownType at h
  split at h
  · rename_i typeName htype
    rw [htype, eq_name_of_ofName? (Except.ok.inj h)]
  · cases h
  · cases h
  · cases h
  · cases h

theorem exists_itemNumbers_compress (hlist : frame.type = .text "list")
    (h : ∃ numbers, itemNumbers (Entries.names frame.attributes) = .ok numbers)
    (hcount : frame.attributes.length ≤ tenPow maxDigits) :
    ∃ numbers, itemNumbers (Entries.names frame.compress.attributes) = .ok numbers := by
  rw [exists_itemNumbers_iff] at h ⊢
  intro name hname
  obtain ⟨entry, hentry, rfl⟩ := List.mem_map.mp hname
  rw [compress_attributes, hlist] at hentry
  rcases name_dedupeItems hentry with hold | ⟨index, hindex, hnew⟩
  · obtain ⟨kept, hkept, hsame⟩ := List.mem_map.mp hold
    obtain ⟨source, hsource, rfl⟩ := mem_compressEntries hkept
    rw [← hsame]
    exact h source.1 (List.mem_map_of_mem hsource)
  · have hle := length_compressEntries_le frame.attributes
    have hdigits : (Decimal.digitChars index).length ≤ maxDigits :=
      (Decimal.length_digitChars_le_iff (by decide)).mpr (by omega)
    rw [hnew]
    apply exists_itemNumber?
    rw [Str.toList_append, List.length_append, Str.toList_ofString_toString, Str.length_toList]
    exact Nat.add_le_add_left hdigits _

-- A frame that fits its type does so after compression, unless a list has more items than can be
-- numbered.
theorem fitsType_compress (h : frame.FitsType)
    (hcount : frame.attributes.length ≤ tenPow maxDigits) : frame.compress.FitsType := by
  obtain ⟨type, hknown, hmeets⟩ := h
  have htype := type_eq_of_knownType hknown
  refine ⟨type, by rw [knownType, compress_type]; exact hknown, ?_⟩
  have hother (hquery : type ≠ .query) (hlist : type ≠ .list) {role : Str} :
      frame.fills role = true → frame.compress.fills role = true := by
    apply fills_compress
    all_goals
      rw [htype]
      cases type <;> simp_all [FrameType.name]
  cases type with
  | event => exact hother nofun nofun hmeets
  | state => exact hother nofun nofun hmeets
  | error => exact hmeets.imp (hother nofun nofun) (hother nofun nofun)
  | list => exact exists_itemNumbers_compress htype hmeets hcount
  | _ => trivial

end Node

-- A path on whose way a frame is asked for a role that compression drops, folds or renumbers.
inductive Value.Diverts : Value → List Segment → Prop
  | role {node : Frame} {name : Str} (rest : List Segment) (h : ¬node.Leaves name) :
      Diverts (.frame node) (.key name :: rest)
  | step {current next : Value} {segment : Segment} {rest : List Segment}
      (hstep : current.step segment = .ok (some next)) (h : Diverts next rest) :
      Diverts current (segment :: rest)

theorem filter_map_compress (found : Option Value) :
    (found.map Value.compress).filter (fun value => !value.isNull) =
      (found.filter fun value => !value.isNull).map Value.compress := by
  rw [Option.filter_map]
  congr 2
  funext value
  rw [Function.comp, isNull_compress]

-- A step into an array, or to a role that compression leaves, leads to the same place. Other values
-- stay as they are.
theorem Value.step_compress {current next : Value} {segment : Segment}
    (hleaves : ∀ node name, current = .frame node → segment = .key name → node.Leaves name)
    (h : current.step segment = .ok (some next)) :
    current.compress.step segment = .ok (some next.compress) ∨ current.compress = current := by
  cases current with
  | array items =>
      left
      rw [compress, compressItems_eq]
      cases segment with
      | index position =>
          simp only [step, map_ok, Except.ok.injEq] at h ⊢
          rw [List.getElem?_map, filter_map_compress, h, Option.map_some]
      | key name =>
          simp only [step, map_eq_ok] at h ⊢
          obtain ⟨_, ⟨index, hindex, rfl⟩, h⟩ := h
          refine ⟨_, ⟨index, hindex, rfl⟩, ?_⟩
          cases index with
          | none => cases h
          | some position =>
              rw [Option.bind_some] at h ⊢
              rw [List.getElem?_map, filter_map_compress, h, Option.map_some]
  | frame node =>
      left
      cases segment with
      | key name =>
          have hname := hleaves node name rfl rfl
          simp only [compress_frame, step, map_ok, Except.ok.injEq] at h ⊢
          rw [hname, filter_map_compress, h, Option.map_some]
      | index position => cases h
  | _ => exact .inr rfl

-- Any other path leads to something after compression too.
theorem Value.exists_follow_compress {current : Value} {path : List Segment}
    (hpath : ¬current.Diverts path) (h : ∃ value, current.follow path = .ok (some value)) :
    ∃ value, current.compress.follow path = .ok (some value) := by
  induction path generalizing current with
  | nil => exact ⟨current.compress, rfl⟩
  | cons segment rest ih =>
      obtain ⟨value, hvalue⟩ := h
      rw [follow] at hvalue
      obtain ⟨found, hstep, hvalue⟩ := bind_eq_ok.mp hvalue
      cases found with
      | none => cases hvalue
      | some next =>
          obtain ⟨result, hresult⟩ :=
            ih (fun hdiverts => hpath (.step hstep hdiverts)) ⟨value, hvalue⟩
          have hleaves (node : Frame) (name : Str) (hcurrent : current = .frame node)
              (hsegment : segment = .key name) : node.Leaves name := by
            subst hcurrent hsegment
            by_contra hrole
            exact hpath (.role rest hrole)
          rcases step_compress hleaves hstep with hcompressed | hself
          · refine ⟨result, ?_⟩
            rw [follow, hcompressed]
            exact hresult
          · refine ⟨value, ?_⟩
            rw [hself, follow, hstep]
            exact hvalue

namespace Node

-- A reference whose path no role diverts resolves after compression if it did so before.
theorem resolves_compress {reference : Str}
    (hpath : ∀ path, pathOf reference = .ok (some path) → ¬(Value.frame frame).Diverts path)
    (h : frame.Resolves reference) : frame.compress.Resolves reference := by
  obtain ⟨value, hvalue⟩ := h
  obtain ⟨found, hfound, hvalue⟩ := bind_eq_ok.mp hvalue
  cases found with
  | none => cases hvalue
  | some path =>
      obtain ⟨result, hresult⟩ := Value.exists_follow_compress (hpath path hfound) ⟨value, hvalue⟩
      refine ⟨result, ?_⟩
      rw [resolve, hfound, ← Value.compress_frame]
      exact hresult

-- A valid frame stays valid exactly if the references that compression diverts still resolve, in
-- every frame at which validation looks. No frame may have more roles than a number can count that
-- can be read.
theorem isValid_compress_iff (h : frame.IsValid)
    (hcount : ∀ inner, frame.Sees inner → inner.attributes.length ≤ tenPow maxDigits) :
    frame.compress.IsValid ↔ ∀ inner, frame.Sees inner → frame.compress.Sees inner.compress →
      ∀ reference ∈ inner.compress.ownReferences,
        (∃ path, pathOf reference = .ok (some path) ∧ (Value.frame inner).Diverts path) →
          inner.compress.Resolves reference := by
  rw [isValid_iff_sees] at h ⊢
  constructor
  · intro hvalid inner _ hsees reference hreference _
    exact (hvalid inner.compress hsees).2 reference hreference
  · intro hdiverted outer hsees
    obtain ⟨inner, hinner, rfl⟩ := exists_of_sees_compress hsees
    obtain ⟨hfits, hresolve⟩ := h inner hinner
    refine ⟨fitsType_compress hfits (hcount inner hinner), fun reference hreference => ?_⟩
    by_cases hpath : ∃ path, pathOf reference = .ok (some path) ∧
        (Value.frame inner).Diverts path
    · exact hdiverted inner hinner hsees reference hreference hpath
    · apply resolves_compress
      · intro path hfound hdiverts
        exact hpath ⟨path, hfound, hdiverts⟩
      · exact hresolve reference (mem_ownReferences_of_compress hreference)

-- A query with three targets, which compression folds, and a reference.
def servingQuery (reference : Str) : Frame :=
  ⟨.text "query", [("target", .text "tea"), ("object", .text "milk"),
    (targetListRole, .text "cake"), ("agent", .text reference)]⟩

-- The last target has the name of the list into which they are folded, so the reference to it
-- resolves to that list.
theorem isValid_compress_servingQuery : (servingQuery "$target_list").IsValid ∧
    (∀ inner, (servingQuery "$target_list").Sees inner →
      inner.attributes.length ≤ tenPow maxDigits) ∧
        (servingQuery "$target_list").compress.IsValid := by
  have hvalid : (servingQuery "$target_list").IsValid := by decide +kernel
  have honly {inner : Frame} (hsees : (servingQuery "$target_list").Sees inner) :
      inner = servingQuery "$target_list" := by
    rcases hsees.cases_head with rfl | ⟨_, ⟨_, _, _, hentry, hshows⟩, _⟩
    · rfl
    · simp only [servingQuery, List.mem_cons, List.not_mem_nil, or_false] at hentry
      rcases hentry with rfl | rfl | rfl | rfl <;> cases hshows
  have hcount (inner : Frame) (hsees : (servingQuery "$target_list").Sees inner) :
      inner.attributes.length ≤ tenPow maxDigits := by
    have hlength : inner.attributes.length = 4 := by rw [honly hsees]; rfl
    have hlimit : 10 ^ 1 ≤ 10 ^ maxDigits := Nat.pow_le_pow_right (by decide) (by decide)
    rw [hlength, tenPow_eq]
    omega
  refine ⟨hvalid, hcount, (isValid_compress_iff hvalid hcount).mpr ?_⟩
  intro inner hsees _ reference hreference _
  rw [honly hsees] at hreference ⊢
  have hown : (servingQuery "$target_list").compress.ownReferences =
      (["$target_list"] : List Str) := by
    decide +kernel
  rw [hown, List.mem_singleton] at hreference
  have hpath : pathOf "$target_list" = .ok (some [.key targetListRole]) := by decide +kernel
  refine ⟨.array [.text "tea", .text "milk", .text "cake"], ?_⟩
  rw [hreference, resolve, hpath]
  rfl

-- Nothing has the name of any other target after compression.
theorem not_isValid_compress_servingQuery :
    (servingQuery "$object").IsValid ∧ ¬(servingQuery "$object").compress.IsValid := by
  decide +kernel

end Node

end FrameNotation
