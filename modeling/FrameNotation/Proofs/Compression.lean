import FrameNotation.Compression
import FrameNotation.Proofs.Frame.Entries
import FrameNotation.Proofs.Notation.Writable

namespace FrameNotation

open Text Writer Compression

variable {attributes : List (Str × Value)} {entries : Entries Value}

namespace Compression

-- What holds of all attributes, of every array of values of attributes that hold, and of every
-- value of an attribute under an item's number, holds of the attributes after a rearrangement.
structure Keeps (holds : Str × Value → Prop) : Prop where
  folded : ∀ items, (∀ item ∈ items, ∃ name, holds (name, item) ∧ item.holds = true) →
    holds (targetListRole, .array items)
  numbered : ∀ name content index, holds (name, content) →
    holds (itemMark ++ toString (index : Nat), content)

variable {holds : Str × Value → Prop}

theorem distinctItems_subset {kept values : List Value} :
    ∀ value ∈ distinctItems kept values, value ∈ values := by
  induction values generalizing kept with
  | nil => simp [distinctItems]
  | cons first rest ih =>
      intro value hvalue
      unfold distinctItems at hvalue
      split at hvalue
      · exact List.mem_cons_of_mem first (ih value hvalue)
      · rcases List.mem_cons.mp hvalue with rfl | hvalue
        · exact List.mem_cons_self
        · exact List.mem_cons_of_mem first (ih value hvalue)

theorem renumbered_forall {values : List Value} {index : Nat} (hkeeps : Keeps holds)
    (hentries : ∀ entry ∈ entries, holds entry)
    (hvalues : ∀ value ∈ values, ∃ name, holds (name, value)) :
    ∀ entry ∈ renumbered index entries values, holds entry := by
  induction values generalizing index entries with
  | nil => exact hentries
  | cons value rest ih =>
      refine ih (fun entry hentry => ?_) fun other hother => hvalues other (by simp [hother])
      rcases Entries.mem_put hentry with rfl | hentry
      · obtain ⟨name, hname⟩ := hvalues value (by simp)
        exact hkeeps.numbered name value index hname
      · exact hentries entry hentry

theorem keepOneAction_subset : ∀ entry ∈ keepOneAction entries, entry ∈ entries := by
  intro entry hentry
  simp only [keepOneAction] at hentry
  split at hentry
  · exact hentry
  · exact List.mem_of_mem_filter hentry

theorem foldTargets_forall (hkeeps : Keeps holds) (h : ∀ entry ∈ entries, holds entry) :
    ∀ entry ∈ foldTargets entries, holds entry := by
  intro entry hentry
  simp only [foldTargets] at hentry
  split at hentry
  · exact h entry hentry
  · rcases Entries.mem_put hentry with rfl | hentry
    · apply hkeeps.folded _
      intro item hitem
      obtain ⟨htarget, hholds⟩ := List.mem_filter.mp hitem
      obtain ⟨source, hsource, rfl⟩ := List.mem_map.mp htarget
      exact ⟨source.1, h source (List.mem_of_mem_filter hsource), hholds⟩
    · exact h entry (List.mem_of_mem_filter hentry)

theorem dedupeItems_forall (hkeeps : Keeps holds) (h : ∀ entry ∈ entries, holds entry) :
    ∀ entry ∈ dedupeItems entries, holds entry := by
  intro entry hentry
  simp only [dedupeItems] at hentry
  split at hentry
  · exact h entry hentry
  · refine renumbered_forall hkeeps (fun other hother => h other (List.mem_of_mem_filter hother))
      (fun value hvalue => ?_) entry hentry
    obtain ⟨source, hsource, rfl⟩ := List.mem_map.mp (distinctItems_subset value hvalue)
    exact ⟨source.1, h source (List.mem_of_mem_filter hsource)⟩

theorem rearranged_query : rearranged (.text "query") entries =
    foldTargets (keepOneAction entries) :=
  rfl

-- Queries and lists are rearranged, other frames stay.
theorem rearranged_cases (type : Value) (entries : Entries Value) :
    (type = .text "query" ∧ rearranged type entries = foldTargets (keepOneAction entries)) ∨
    (type = .text "list" ∧ rearranged type entries = dedupeItems entries) ∨
    (type ≠ .text "query" ∧ type ≠ .text "list" ∧ rearranged type entries = entries) := by
  cases type with
  | text name =>
      simp only [rearranged, ne_eq, Value.text.injEq]
      split_ifs with hquery hlist
      · exact .inl ⟨hquery, rfl⟩
      · exact .inr (.inl ⟨hlist, rfl⟩)
      · exact .inr (.inr ⟨hquery, hlist, rfl⟩)
  | _ => simp [rearranged]

theorem rearranged_forall {type : Value} (hkeeps : Keeps holds)
    (h : ∀ entry ∈ entries, holds entry) : ∀ entry ∈ rearranged type entries, holds entry := by
  rcases rearranged_cases type entries with ⟨-, hsame⟩ | ⟨-, hsame⟩ | ⟨-, -, hsame⟩ <;> rw [hsame]
  · exact foldTargets_forall hkeeps fun entry hentry => h entry (keepOneAction_subset entry hentry)
  · exact dedupeItems_forall hkeeps h
  · exact h

end Compression

theorem isPlainRole_item (index : Nat) : IsPlainRole (itemMark ++ toString index) := by
  have hmark : IsPlainRole itemMark := by decide
  have hslash : char '/' ∉ itemMark.toList := by decide
  have hchars : ∀ c ∈ (itemMark ++ toString index).toList, forcesQuotes c = false ∧ c ≠ '/' := by
    refine forall_mem_numbered index (fun c hc => ⟨(isClean_iff.mp hmark.2).1 c hc, ?_⟩)
      fun c hc => ⟨?_, ?_⟩
    · exact fun hchar => hslash (hchar ▸ hc)
    · refine forcesQuotes_eq_false.mpr ⟨isBlank_of_isAlphanum (CodePoint.isAlphanum_of_isDigit hc),
        ?_, ?_, ?_, ?_, ?_, ?_, ?_, ?_⟩ <;>
      · rintro rfl
        exact absurd hc (by decide)
    · rintro rfl
      exact absurd hc (by decide)
  refine ⟨by simp, isClean_iff.mpr ⟨fun c hc => (hchars c hc).1, ?_⟩⟩
  exact holdsComment_eq_false fun hslash => (hchars _ hslash).2 rfl

theorem item_ne_discriminant (index : Nat) : itemMark ++ toString index ≠ discriminant := by
  intro hname
  have hhead := congrArg (fun s : Str => s.toList.head?) hname
  simp [itemMark, discriminant] at hhead

-- An entry that can be written, or is left out.
def IsWritableEntry (entry : Str × Value) : Prop :=
  entry.2 ≠ .null → isRoleName entry.1.toList = true ∧ entry.2.IsWritable

theorem keeps_isWritableEntry : Keeps IsWritableEntry := by
  constructor
  · intro items hitems _
    have hrole : isRoleName targetListRole.toList = true := by decide
    refine ⟨hrole, .array items fun item hitem => ?_⟩
    obtain ⟨name, hentry, hholds⟩ := hitems item hitem
    refine (hentry ?_).2
    rintro rfl
    cases hholds
  · intro name content index hentry hne
    have hrole : isRoleName (itemMark ++ toString index).toList = true :=
      isRoleName_of_isClean (isPlainRole_item index).2 (isPlainRole_item index).1
    exact ⟨hrole, (hentry hne).2⟩

theorem compressItems_eq (items : List Value) : compressItems items = items.map Value.compress := by
  induction items with
  | nil => rfl
  | cons item rest ih => rw [compressItems, ih, List.map_cons]

theorem compressEntries_eq (attributes : List (Str × Value)) :
    compressEntries attributes = (attributes.filter fun entry => !isVoid entry.2).map
      fun entry => (entry.1, entry.2.compress) := by
  induction attributes with
  | nil => rfl
  | cons entry rest ih =>
      rw [compressEntries, List.filter_cons, ih]
      cases isVoid entry.2 <;> rfl

theorem ne_null_of_not_isVoid {value : Value} (h : isVoid value = false) : value ≠ .null := by
  rintro rfl
  cases h

-- What can be written can be written after its compression.
theorem Value.IsWritable.compress {value : Value} (h : value.IsWritable) :
    value.compress.IsWritable := by
  induction h with
  | bool b => exact .bool b
  | number n hnumber => exact .number n hnumber
  | text s => exact .text s
  | array items _ ih =>
      rw [Value.compress, compressItems_eq]
      refine .array _ fun item hitem => ?_
      obtain ⟨source, hsource, rfl⟩ := List.mem_map.mp hitem
      exact ih source hsource
  | frame type attributes hroles _ ih =>
      have hentries : ∀ entry ∈ rearranged (.text type.name) (compressEntries attributes),
          IsWritableEntry entry := by
        apply rearranged_forall keeps_isWritableEntry
        intro entry hentry _
        rw [compressEntries_eq] at hentry
        obtain ⟨source, hsource, rfl⟩ := List.mem_map.mp hentry
        obtain ⟨hmem, hvoid⟩ := List.mem_filter.mp hsource
        have hne : source.2 ≠ .null := ne_null_of_not_isVoid (by simpa using hvoid)
        exact ⟨hroles source hmem hne, ih source hmem hne⟩
      rw [Value.compress, Node.compress]
      exact .frame type _ (fun entry hentry hne => (hentries entry hentry hne).1)
        fun entry hentry hne => (hentries entry hentry hne).2

theorem nodup_renumbered {values : List Value} {index : Nat} (h : (Entries.names entries).Nodup) :
    (Entries.names (renumbered index entries values)).Nodup := by
  induction values generalizing index entries with
  | nil => exact h
  | cons value rest ih => exact ih (Entries.nodup_put h)

theorem nodup_filter {keep : Str × Value → Bool} (h : (Entries.names entries).Nodup) :
    (Entries.names (entries.filter keep)).Nodup :=
  h.sublist (List.Sublist.map _ List.filter_sublist)

theorem nodup_compressEntries (h : (Entries.names attributes).Nodup) :
    (Entries.names (compressEntries attributes)).Nodup := by
  have hfiltered : (Entries.names (attributes.filter fun entry => !isVoid entry.2)).Nodup :=
    nodup_filter h
  rw [compressEntries_eq, Entries.names, List.map_map]
  exact hfiltered

-- A rearrangement repeats no role.
theorem nodup_rearranged {type : Value} (h : (Entries.names entries).Nodup) :
    (Entries.names (rearranged type entries)).Nodup := by
  have hactions : (Entries.names (keepOneAction entries)).Nodup := by
    simp only [keepOneAction]
    split_ifs
    · exact h
    · exact nodup_filter h
  rcases rearranged_cases type entries with ⟨-, hsame⟩ | ⟨-, hsame⟩ | ⟨-, -, hsame⟩ <;> rw [hsame]
  · simp only [foldTargets]
    split_ifs
    · exact hactions
    · exact Entries.nodup_put (nodup_filter hactions)
  · simp only [dedupeItems]
    split_ifs
    · exact h
    · exact nodup_renumbered (nodup_filter h)
  · exact h

-- An entry of a frame within limits.
structure Limits.HasEntry (limits : Limits) (entry : Str × Value) : Prop where
  name : entry.1 ≠ discriminant
  void : entry.2 = .null → limits.void
  role : entry.2 ≠ .null → limits.role entry.1
  value : entry.2 ≠ .null → entry.2.Within limits

theorem keeps_hasEntry {limits : Limits} (hlist : limits.role targetListRole)
    (hitem : ∀ index : Nat, limits.role (itemMark ++ toString index)) : Keeps limits.HasEntry := by
  constructor
  · intro items hitems
    have hname : targetListRole ≠ discriminant := by decide
    refine ⟨hname, nofun, fun _ => hlist, fun _ => .array items fun item hmem => ?_⟩
    obtain ⟨name, hentry, hholds⟩ := hitems item hmem
    apply hentry.value
    rintro rfl
    cases hholds
  · intro name content index hentry
    exact ⟨item_ne_discriminant index, hentry.void, fun _ => hitem index, hentry.value⟩

-- Compression keeps to limits that admit the roles that it makes up.
theorem Value.Within.compress {limits : Limits} {value : Value} (h : value.Within limits)
    (hlist : limits.role targetListRole)
    (hitem : ∀ index : Nat, limits.role (itemMark ++ toString index)) :
    value.compress.Within limits := by
  induction h with
  | bool b => exact .bool b
  | number n hnumber => exact .number n hnumber
  | text s htext => exact .text s htext
  | array items _ ih =>
      rw [Value.compress, compressItems_eq]
      refine .array _ fun item hmem => ?_
      obtain ⟨source, hsource, rfl⟩ := List.mem_map.mp hmem
      exact ih source hsource
  | frame type attributes hnames hdiscriminant hvoid hroles _ ih =>
      have hentries : ∀ entry ∈ rearranged (.text type.name) (compressEntries attributes),
          limits.HasEntry entry := by
        apply rearranged_forall (keeps_hasEntry hlist hitem)
        intro entry hentry
        rw [compressEntries_eq] at hentry
        obtain ⟨source, hsource, rfl⟩ := List.mem_map.mp hentry
        obtain ⟨hmem, hpresent⟩ := List.mem_filter.mp hsource
        have hne : source.2 ≠ .null := ne_null_of_not_isVoid (by simpa using hpresent)
        have hwithin := ih source hmem hne
        refine ⟨?_, fun hnull => ?_, fun _ => hroles source hmem hne, fun _ => hwithin⟩
        · rintro hname
          have hsource : source.1 ∈ Entries.names attributes := List.mem_map_of_mem hmem
          exact hdiscriminant (hname ▸ hsource)
        · have hnot := isNull_of_within hwithin
          rw [isNull_eq_true.mpr hnull] at hnot
          cases hnot
      rw [Value.compress, Node.compress]
      refine .frame type _ (nodup_rearranged (nodup_compressEntries hnames)) (fun hmem => ?_)
        (fun entry hentry => (hentries entry hentry).void)
        (fun entry hentry => (hentries entry hentry).role)
        fun entry hentry => (hentries entry hentry).value
      obtain ⟨entry, hentry, hname⟩ := List.mem_map.mp hmem
      exact (hentries entry hentry).name hname

theorem isVoid_rebuilt (value : Value) : isVoid (value.rebuilt id) = isVoid value := by
  cases value with
  | array items =>
      rw [Value.rebuilt, rebuiltItems_eq]
      cases items <;> rfl
  | frame node =>
      cases node
      rfl
  | _ => rfl

theorem filter_present (attributes : List (Str × Value)) :
    (present attributes).filter (fun entry => !isVoid entry.2) =
      attributes.filter fun entry => !isVoid entry.2 := by
  rw [present, List.filter_filter]
  apply List.filter_congr
  intro entry _
  cases entry.2 <;> simp [isVoid, Value.isNull]

-- Null attributes make no difference to compression.
theorem Value.IsWritable.compress_rebuilt {value : Value} (h : value.IsWritable) :
    (value.rebuilt id).compress = value.compress := by
  induction h with
  | bool b => rfl
  | number n _ => rfl
  | text s => rfl
  | array items _ ih =>
      rw [Value.rebuilt, rebuiltItems_eq, Value.compress, Value.compress, compressItems_eq,
        compressItems_eq, List.map_map]
      exact congrArg Value.array (List.map_congr_left ih)
  | frame type attributes _ _ ih =>
      have hentries : compressEntries (Value.rebuiltEntries id attributes) =
          compressEntries attributes := by
        have hvoid : (fun entry : Str × Value => !isVoid entry.2) ∘
            (fun entry : Str × Value => (entry.1, entry.2.rebuilt id)) =
              fun entry => !isVoid entry.2 :=
          funext fun entry => congrArg not (isVoid_rebuilt entry.2)
        rw [compressEntries_eq, compressEntries_eq, rebuiltEntries_eq, List.filter_map, hvoid,
          filter_present, List.map_map]
        apply List.map_congr_left
        intro entry hentry
        obtain ⟨hmem, hpresent⟩ := List.mem_filter.mp hentry
        have hne : entry.2 ≠ .null := ne_null_of_not_isVoid (by simpa using hpresent)
        exact congrArg (Prod.mk entry.1) (ih entry hmem hne)
      rw [Value.rebuilt, Value.compress, Value.compress, Node.compress, Node.compress, hentries]

end FrameNotation
