import FrameNotation.Proofs.Frame.Entries
import FrameNotation.Proofs.Notation.Carried
import FrameNotation.Proofs.Notation.Grammar

namespace FrameNotation

open Text Writer Layout

variable {items : List Value} {parts : List (List CodePoint)} {levels : Nat}

theorem length_le_intercalate {joint part : List CodePoint} (h : part ∈ parts) :
    part.length ≤ (joint.intercalate parts).length := by
  induction parts with
  | nil => cases h
  | cons first rest ih =>
      cases rest with
      | nil =>
          rw [List.mem_singleton] at h
          simp [h]
      | cons second more =>
          rw [List.intercalate_cons_cons]
          simp only [List.length_append]
          rcases List.mem_cons.mp h with rfl | h
          · omega
          · have hrest := ih h
            omega

section Arrays

theorem depth_le_depthOfItems {item : Value} (h : item ∈ items) :
    item.depth ≤ Value.depthOfItems items := by
  induction items with
  | nil => cases h
  | cons first rest ih =>
      unfold Value.depthOfItems
      rcases List.mem_cons.mp h with rfl | h
      · exact Nat.le_max_left _ _
      · exact Nat.le_trans (ih h) (Nat.le_max_right _ _)

-- The written items of an array are found again between its commas.
theorem items_intercalate (h : List.Forall₂ Written items parts) :
    FrameNotation.items ([char ',', char ' '].intercalate parts) = .ok parts := by
  have hwritten (part : List CodePoint) (hpart : part ∈ parts) :
      trim part = part ∧ (∃ c, part.head? = some c ∧ isBlank c = false) ∧
        Nesting.through (· == ',') .start part = .ok .start := by
    obtain ⟨item, -, hitem⟩ := exists_mem_of_forall₂ h hpart
    exact ⟨hitem.trim_eq, hitem.head,
      hitem.whole.through_eq _ fun c hc => .inr (by simpa using hc)⟩
  cases parts with
  | nil => rfl
  | cons first rest =>
      obtain ⟨htrim, -, hthrough⟩ := hwritten first (by simp)
      have hcut : Nesting.cut (· == ',') .start ([char ',', char ' '].intercalate (first :: rest)) =
          .ok (first :: rest.map ([char ' '] ++ ·)) :=
        Nesting.cut_intercalate rfl rfl hthrough
          fun part hpart => (hwritten part (by simp [hpart])).2.2
      have htrimmed : (first :: rest.map ([char ' '] ++ ·)).map trim = first :: rest := by
        have hrest : rest.map (trim ∘ ([char ' '] ++ ·)) = rest.map id :=
          List.map_congr_left fun part hpart =>
            trim_space_cons.trans (hwritten part (by simp [hpart])).1
        rw [List.map_cons, htrim, List.map_map, hrest, List.map_id]
      have hitems := items_of_cut hcut
      rw [htrimmed] at hitems
      refine hitems fun hnil => ?_
      obtain ⟨-, ⟨c, hc, -⟩, -⟩ := hwritten [] hnil
      cases hc

theorem mapM_read (h : List.Forall₂ Written items parts)
    (hlevels : ∀ part ∈ parts, part.length < levels) :
    parts.mapM (fun part => Reader.value levels part) =
      .ok (Value.rebuiltItems Number.echo items) := by
  induction h with
  | nil => rfl
  | cons hfirst _ ih =>
      rw [List.mapM_cons, hfirst.reads _ (hlevels _ (by simp)), ok_bind,
        ih fun part hpart => hlevels part (by simp [hpart])]
      rfl

theorem spans_array {rule : Strand.Rule} (h : ∀ part ∈ parts, Strand.Spans rule part) :
    Strand.Spans rule (char '[' :: [char ',', char ' '].intercalate parts ++ [char ']']) := by
  apply Strand.spans_group .square
  cases parts with
  | nil => exact .inl rfl
  | cons first rest =>
      exact .inr (Strand.spans_intercalate (.inr rfl) (h first (by simp))
        fun part hpart => h part (by simp [hpart]))

theorem level_items {depth : Nat} (h : ∀ part ∈ parts, Nesting.Level depth part) :
    Nesting.Level depth ([char ',', char ' '].intercalate parts) := by
  cases parts with
  | nil => exact ⟨rfl, Nat.zero_le _⟩
  | cons first rest =>
      exact Nesting.level_intercalate (.inr rfl) (h first (by simp))
        fun part hpart => h part (by simp [hpart])

theorem written_array (h : List.Forall₂ Written items parts)
    (hdepth : Value.depthOfItems items < maxDepth) :
    Written (.array items) (char '[' :: [char ',', char ' '].intercalate parts ++ [char ']']) := by
  have hspans : ∀ part ∈ parts, Strand.Spans writtenRule part := by
    intro part hpart
    obtain ⟨item, -, hwritten⟩ := exists_mem_of_forall₂ h hpart
    exact hwritten.spans
  have hlevel : ∀ part ∈ parts, Nesting.Level (Value.depthOfItems items) part := by
    intro part hpart
    obtain ⟨item, hitem, hwritten⟩ := exists_mem_of_forall₂ h hpart
    exact hwritten.whole.toLevel.mono (depth_le_depthOfItems hitem)
  refine ⟨spans_array hspans, Nesting.whole_group .square (level_items hlevel) hdepth,
    ⟨'[', rfl, rfl⟩, ⟨']', List.getLast?_concat, rfl⟩, ?_⟩
  intro levels hlevels
  obtain ⟨levels, rfl⟩ : ∃ n, levels = n + 1 := ⟨levels - 1, by omega⟩
  have hlength (part : List CodePoint) (hpart : part ∈ parts) : part.length < levels := by
    have hle : part.length ≤ ([char ',', char ' '].intercalate parts).length :=
      length_le_intercalate hpart
    simp only [List.length_append, List.length_cons, List.length_nil] at hlevels
    omega
  generalize hcontent : [char ',', char ' '].intercalate parts = content at *
  have htrim : trim (char '[' :: content ++ [char ']']) = char '[' :: content ++ [char ']'] :=
    trim_group .square _
  have hempty : (char '[' :: content ++ [char ']']).isEmpty = false := rfl
  have hround : Token.enclosed? '(' ')' (char '[' :: content ++ [char ']']) = none :=
    Token.enclosed?_eq_none (by simp)
  have hitems : FrameNotation.items content = .ok parts := by
    rw [← hcontent]
    exact items_intercalate h
  simp only [Reader.value, htrim, hempty, hround, Token.enclosed?_group, hitems, mapError_ok,
    ok_bind, mapM_read h hlength]
  rfl

end Arrays

section Frames

variable {attributes : List (Str × Value)} {tokens : List (List CodePoint)}

-- A token that gives a role its value.
structure WrittenRole (entry : Str × Value) (token : List CodePoint) : Prop where
  role : IsPlainRole entry.1
  value : ∃ cs, token = entry.1.toList ++ char ':' :: cs ∧ Written entry.2 cs

-- The attributes that are written.
def present (attributes : List (Str × Value)) : List (Str × Value) :=
  attributes.filter fun entry => !entry.2.isNull

theorem rebuiltEntries_eq (number : Number → Number) (attributes : List (Str × Value)) :
    Value.rebuiltEntries number attributes =
      (present attributes).map fun entry => (entry.1, entry.2.rebuilt number) := by
  induction attributes with
  | nil => rfl
  | cons entry rest ih =>
      obtain ⟨name, content⟩ := entry
      rw [Value.rebuiltEntries, present, List.filter_cons, ih]
      cases content.isNull <;> rfl

theorem depth_le_depthOfEntries {entry : Str × Value} (h : entry ∈ attributes) :
    entry.2.depth ≤ Value.depthOfEntries attributes := by
  induction attributes with
  | nil => cases h
  | cons first rest ih =>
      unfold Value.depthOfEntries
      rcases List.mem_cons.mp h with rfl | h
      · exact Nat.le_max_left _ _
      · exact Nat.le_trans (ih h) (Nat.le_max_right _ _)

namespace WrittenRole

variable {entry : Str × Value} {token : List CodePoint}

theorem ne_nil (h : WrittenRole entry token) : token ≠ [] := by
  obtain ⟨cs, rfl, -⟩ := h.value
  simp

theorem spans (h : WrittenRole entry token) : Strand.Spans writtenRule token := by
  obtain ⟨cs, rfl, hwritten⟩ := h.value
  exact Strand.spans_role (Strand.spans_clean h.role.1 h.role.2) hwritten.spans

theorem level (h : WrittenRole entry token) : Nesting.Level entry.2.depth token := by
  obtain ⟨cs, rfl, hwritten⟩ := h.value
  have hcolon : Nesting.Level entry.2.depth [char ':'] :=
    Nesting.level_plain (List.all_eq_true.mp rfl)
  exact (Nesting.whole_clean h.role.2).toLevel.append (hcolon.append hwritten.whole.toLevel)

theorem through_eq (h : WrittenRole entry token) :
    Nesting.through isBlank .start token = .ok .start := by
  obtain ⟨cs, rfl, hwritten⟩ := h.value
  have hname : Nesting.through isBlank .start entry.1.toList = .ok .start :=
    (Nesting.whole_clean h.role.2 : Nesting.Whole 0 _).through_eq _ fun _ hc => .inl hc
  have hcolon : Nesting.through isBlank .start [char ':'] = .ok .start := rfl
  exact Nesting.through_trans hname
    (Nesting.through_trans hcolon (hwritten.whole.through_eq _ fun _ hc => .inl hc))

theorem form_eq (h : WrittenRole entry token) : ∃ cs, Written entry.2 cs ∧
    cs.length < token.length ∧ Token.hasRoleColon token = true ∧
      Token.form token = .assigns entry.1.toList cs := by
  obtain ⟨cs, rfl, hwritten⟩ := h.value
  have hchars := (isClean_iff.mp h.role.2).1
  have hrole : ∀ c ∈ entry.1.toList, Token.isRoleChar c = true := by
    intro c hc
    obtain ⟨-, h₁, h₂, h₃, h₄, h₅, h₆, h₇, -⟩ := forcesQuotes_eq_false.mp (hchars c hc)
    exact Token.isRoleChar_eq_true.mpr ⟨h₂, h₃, h₄, h₅, h₆, h₇, h₁⟩
  have htrim : trim entry.1.toList = entry.1.toList :=
    trim_of_forall fun c hc => (forcesQuotes_eq_false.mp (hchars c hc)).1
  have hname : entry.1.toList.isEmpty = false := by simpa using h.role.1
  have hcs : cs.isEmpty = false := by
    obtain ⟨c, hc, -⟩ := hwritten.head
    obtain ⟨rest, rfl⟩ := List.head?_eq_some_iff.mp hc
    rfl
  refine ⟨cs, hwritten, ?_, ?_, ?_⟩
  · simp only [List.length_append, List.length_cons]
    omega
  · rw [Token.hasRoleColon, Token.roleSplit?_append hrole]
    rfl
  · simp only [Token.form, Token.roleSplit?_append hrole, htrim, hname, hcs]
    rfl

end WrittenRole

-- Reading the tokens of distinct roles gives the entries in order.
theorem explicitRoles_eq {entries kept : List (Str × Value)} {index : Nat}
    (h : List.Forall₂ WrittenRole entries tokens)
    (hlevels : ∀ token ∈ tokens, token.length ≤ levels)
    (hnames : (Entries.names kept ++ Entries.names entries).Nodup) :
    Reader.explicitRoles (fun cs => Reader.value levels cs) index kept tokens =
      .ok (kept ++ entries.map fun entry => (entry.1, entry.2.rebuilt Number.echo)) := by
  induction h generalizing index kept with
  | nil => simp [Reader.explicitRoles]
  | @cons entry token entries tokens hfirst _ ih =>
      obtain ⟨cs, hwritten, hlength, -, hform⟩ := hfirst.form_eq
      have htoken := hlevels token (by simp)
      have hname : entry.1 ∉ Entries.names kept := by
        simp only [Entries.names, List.map_cons] at hnames ⊢
        intro hmem
        exact (List.nodup_append.mp hnames).2.2 _ hmem _ (by simp) rfl
      have hnames' : (Entries.names (kept ++ [(entry.1, entry.2.rebuilt Number.echo)]) ++
          Entries.names entries).Nodup := by
        simpa [Entries.names] using hnames
      rw [Reader.explicitRoles, hform]
      simp only [hwritten.reads levels (by omega), ok_bind, Str.ofList_toList,
        Entries.put_of_notMem _ hname]
      rw [ih (fun t ht => hlevels t (by simp [ht])) hnames']
      simp

-- The tokens of a written frame are found again between its blanks.
theorem tokens_intercalate {type : FrameType} {entries : List (Str × Value)}
    (h : List.Forall₂ WrittenRole entries tokens) :
    FrameNotation.tokens ([char ' '].intercalate (type.name.toList :: tokens)) =
      .ok (type.name.toList :: tokens) := by
  have hname : Nesting.through isBlank .start type.name.toList = .ok .start := by
    cases type <;> rfl
  have hcut : Nesting.cut isBlank .start ([char ' '].intercalate (type.name.toList :: tokens)) =
      .ok (type.name.toList :: tokens.map ([] ++ ·)) := by
    apply Nesting.cut_intercalate (by decide) rfl hname
    intro token htoken
    obtain ⟨entry, -, hwritten⟩ := exists_mem_of_forall₂ h htoken
    exact hwritten.through_eq
  have hfilter : (type.name.toList :: tokens).filter (fun piece => !piece.isEmpty) =
      type.name.toList :: tokens := by
    rw [List.filter_eq_self]
    intro token htoken
    rcases List.mem_cons.mp htoken with rfl | htoken
    · cases type <;> rfl
    · obtain ⟨entry, -, hwritten⟩ := exists_mem_of_forall₂ h htoken
      simpa using hwritten.ne_nil
  rw [FrameNotation.tokens, Nesting.pieces, hcut]
  simp only [List.nil_append, List.map_id', map_ok, hfilter]

theorem roles_eq {entries : List (Str × Value)} {typeName : Str}
    (h : List.Forall₂ WrittenRole entries tokens)
    (hlevels : ∀ token ∈ tokens, token.length ≤ levels) (hnames : (Entries.names entries).Nodup) :
    Reader.roles (fun cs => Reader.value levels cs) typeName tokens =
      .ok (entries.map fun entry => (entry.1, entry.2.rebuilt Number.echo)) := by
  unfold Reader.roles
  split
  · exact explicitRoles_eq h hlevels hnames
  · rename_i hcolon
    cases h with
    | nil => rfl
    | cons hfirst _ =>
        obtain ⟨-, -, -, htoken, -⟩ := hfirst.form_eq
        simp [htoken] at hcolon

-- The notation of a frame from the tokens of its attributes.
def frameText (type : FrameType) (tokens : List (List CodePoint)) : List CodePoint :=
  char '(' :: [char ' '].intercalate (type.name.toList :: tokens) ++ [char ')']

theorem spans_frameText {rule : Strand.Rule} {type : FrameType}
    (h : ∀ token ∈ tokens, Strand.Spans rule token) :
    Strand.Spans rule (frameText type tokens) := by
  have hname : Strand.Spans rule type.name.toList := by
    refine Strand.spans_clean ?_ ?_ <;> cases type <;> decide
  exact Strand.spans_group .round (.inr (Strand.spans_intercalate (.inl rfl) hname h))

-- The tokens of a written frame are gone through outside strings.
theorem spans_of_writtenRole {entries : List (Str × Value)}
    (h : List.Forall₂ WrittenRole entries tokens) :
    ∀ token ∈ tokens, Strand.Spans writtenRule token := by
  intro token htoken
  obtain ⟨entry, -, hwritten⟩ := exists_mem_of_forall₂ h htoken
  exact hwritten.spans

-- A written frame is read as the frame that was written.
theorem frame_frameText {type : FrameType}
    (h : List.Forall₂ WrittenRole (present attributes) tokens)
    (hnames : (Entries.names attributes).Nodup)
    (hdiscriminant : discriminant ∉ Entries.names attributes)
    (hlevels : (frameText type tokens).length ≤ levels) :
    Reader.frame (fun cs => Reader.value levels cs) (frameText type tokens) =
      .ok ⟨.text type.name, Value.rebuiltEntries Number.echo attributes⟩ := by
  have hcanonical : canonical (frameText type tokens) = frameText type tokens := by
    have hspans : Strand.Spans writtenRule (frameText type tokens) :=
      spans_frameText (spans_of_writtenRole h)
    obtain ⟨last, hrun, -⟩ := hspans none (by decide)
    rw [Strand.canonical_of_run rfl hrun]
    exact trim_group .round _
  have hsublist : (Entries.names (present attributes)).Sublist (Entries.names attributes) :=
    List.Sublist.map _ List.filter_sublist
  have htokens : ∀ token ∈ tokens, token.length ≤ levels := by
    intro token htoken
    have hle : token.length ≤ ([char ' '].intercalate (type.name.toList :: tokens)).length :=
      length_le_intercalate (by simp [htoken])
    simp only [frameText, List.length_append, List.length_cons] at hlevels
    omega
  have hwithout : Entries.without (Value.rebuiltEntries Number.echo attributes) [discriminant] =
      Value.rebuiltEntries Number.echo attributes := by
    rw [rebuiltEntries_eq, Entries.without, List.filter_eq_self]
    intro entry hentry
    obtain ⟨source, hsource, rfl⟩ := List.mem_map.mp hentry
    have hname : source.1 ∈ Entries.names attributes :=
      hsublist.subset (List.mem_map_of_mem hsource)
    have hne : source.1 ≠ discriminant := fun h => hdiscriminant (h ▸ hname)
    simpa using hne
  rw [Reader.frame, hcanonical, frameText, Token.enclosed?_group]
  simp only [Reader.frameBody, tokens_intercalate h, mapError_ok, ok_bind, Token.frameType_name,
    roles_eq h htokens (hnames.sublist hsublist), ← rebuiltEntries_eq, hwithout, pure_eq_ok]

-- What a written frame has between its parentheses leaves nothing open.
theorem level_frameContent {type : FrameType}
    (h : List.Forall₂ WrittenRole (present attributes) tokens) :
    Nesting.Level (Value.depthOfEntries attributes)
      ([char ' '].intercalate (type.name.toList :: tokens)) := by
  have hname : Nesting.Level (Value.depthOfEntries attributes) type.name.toList :=
    Nesting.level_plain (List.all_eq_true.mp (by cases type <;> rfl))
  apply Nesting.level_intercalate (.inl rfl) hname
  intro token htoken
  obtain ⟨entry, hentry, hwritten⟩ := exists_mem_of_forall₂ h htoken
  exact hwritten.level.mono (depth_le_depthOfEntries (List.mem_of_mem_filter hentry))

theorem written_frame {type : FrameType} (h : List.Forall₂ WrittenRole (present attributes) tokens)
    (hnames : (Entries.names attributes).Nodup)
    (hdiscriminant : discriminant ∉ Entries.names attributes)
    (hdepth : Value.depthOfEntries attributes < maxDepth) :
    Written (.frame ⟨.text type.name, attributes⟩) (frameText type tokens) := by
  refine ⟨spans_frameText (spans_of_writtenRole h),
    Nesting.whole_group .round (level_frameContent h) hdepth, ⟨'(', rfl, rfl⟩,
    ⟨')', List.getLast?_concat, rfl⟩, ?_⟩
  intro levels hlevels
  obtain ⟨levels, rfl⟩ : ∃ n, levels = n + 1 := ⟨levels - 1, by omega⟩
  have htrim : trim (frameText type tokens) = frameText type tokens := trim_group .round _
  have hempty : (frameText type tokens).isEmpty = false := rfl
  have hround : (Token.enclosed? '(' ')' (frameText type tokens)).isSome = true := by
    rw [frameText, Token.enclosed?_group]
    rfl
  have hlength : (frameText type tokens).length ≤ levels := by omega
  have hread := frame_frameText h hnames hdiscriminant hlength
  simp only [Reader.value, htrim, hempty, hround, hread]
  rfl

end Frames

section Values

theorem isNull_of_within {limits : Limits} {value : Value} (h : value.Within limits) :
    value.isNull = false := by
  cases h <;> rfl

theorem isNull_eq_true {value : Value} : value.isNull = true ↔ value = .null := by
  cases value <;> simp [Value.isNull]

-- Items that can be written one by one can be written, and what holds of each is kept.
theorem exists_values (holds : Value → List CodePoint → Prop)
    (h : ∀ item ∈ items, ∃ cs, Writer.value item = .ok cs ∧ holds item cs) :
    ∃ parts, Writer.values items = .ok parts ∧ List.Forall₂ holds items parts := by
  induction items with
  | nil => exact ⟨[], rfl, .nil⟩
  | cons item rest ih =>
      obtain ⟨cs, hcs, hholds⟩ := h item (by simp)
      obtain ⟨parts, hparts, hall⟩ := ih fun other hother => h other (by simp [hother])
      refine ⟨cs :: parts, ?_, .cons hholds hall⟩
      rw [Writer.values, hcs, ok_bind, hparts]
      rfl

theorem exists_roles (holds : Str × Value → List CodePoint → Prop)
    {attributes : List (Str × Value)}
    (hroles : ∀ entry ∈ attributes, entry.2 ≠ .null → isRoleName entry.1.toList = true)
    (hvalues : ∀ entry ∈ attributes, entry.2 ≠ .null →
      ∃ cs, Writer.value entry.2 = .ok cs ∧ holds entry cs) :
    ∃ tokens, Writer.roles attributes = .ok tokens ∧ List.Forall₂
      (fun entry token => ∃ cs, token = entry.1.toList ++ char ':' :: cs ∧ holds entry cs)
      (present attributes) tokens := by
  induction attributes with
  | nil => exact ⟨[], rfl, .nil⟩
  | cons entry rest ih =>
      obtain ⟨name, content⟩ := entry
      obtain ⟨tokens, htokens, hall⟩ := ih (fun other hother => hroles other (by simp [hother]))
        fun other hother => hvalues other (by simp [hother])
      rw [Writer.roles, present, List.filter_cons]
      cases hnull : content.isNull with
      | true => exact ⟨tokens, htokens, hall⟩
      | false =>
          have hne : content ≠ .null := by
            rintro rfl
            cases hnull
          have hrole : isRoleName name.toList = true := hroles (name, content) (by simp) hne
          obtain ⟨cs, hcs, hholds⟩ := hvalues (name, content) (by simp) hne
          refine ⟨(name.toList ++ char ':' :: cs) :: tokens, ?_, .cons ⟨cs, rfl, hholds⟩ hall⟩
          simp only [hrole, hcs, ok_bind, htokens]
          rfl

theorem exists_writtenRoles {attributes : List (Str × Value)}
    (hroles : ∀ entry ∈ attributes, entry.2 ≠ .null → IsPlainRole entry.1)
    (hvalues : ∀ entry ∈ attributes, entry.2 ≠ .null →
      ∃ cs, Writer.value entry.2 = .ok cs ∧ Written entry.2 cs) :
    ∃ tokens, Writer.roles attributes = .ok tokens ∧
      List.Forall₂ WrittenRole (present attributes) tokens := by
  have hclean (entry : Str × Value) (hentry : entry ∈ attributes) (hne : entry.2 ≠ .null) :
      isRoleName entry.1.toList = true :=
    isRoleName_of_isClean (hroles entry hentry hne).2 (hroles entry hentry hne).1
  obtain ⟨tokens, htokens, hall⟩ :=
    exists_roles (fun entry cs => IsPlainRole entry.1 ∧ Written entry.2 cs) hclean
      fun entry hentry hne => by
        obtain ⟨cs, hcs, hwritten⟩ := hvalues entry hentry hne
        exact ⟨cs, hcs, hroles entry hentry hne, hwritten⟩
  refine ⟨tokens, htokens, hall.imp ?_⟩
  rintro entry token ⟨cs, htoken, hrole, hwritten⟩
  exact ⟨hrole, cs, htoken, hwritten⟩

@[simp] theorem ofName?_name (type : FrameType) : FrameType.ofName? type.name = some type := by
  cases type <;> rfl

theorem frame_eq {type : FrameType} {attributes : List (Str × Value)}
    {tokens : List (List CodePoint)} (h : Writer.roles attributes = .ok tokens) :
    Writer.frame ⟨.text type.name, attributes⟩ = .ok (frameText type tokens) := by
  have htype : (Value.text type.name).text?.bind FrameType.ofName? = some type := ofName?_name type
  rw [Writer.frame, htype, h]
  rfl

-- Within the limits every value has a notation that is read back, wherever it stands.
theorem exists_written {value : Value} (h : value.Within .carried)
    (hdepth : value.depth ≤ maxDepth) :
    ∃ cs, Writer.value value = .ok cs ∧ Written value cs := by
  induction h with
  | bool b => exact ⟨_, rfl, written_bool b⟩
  | number n hnumber => exact written_number hnumber
  | text s hstable => exact ⟨_, rfl, written_text hstable⟩
  | array items hitems ih =>
      unfold Value.depth at hdepth
      obtain ⟨parts, hparts, hall⟩ := exists_values Written fun item hitem => ih item hitem (by
        have hle := depth_le_depthOfItems hitem
        omega)
      have hnull : items.any Value.isNull = false := by
        rw [List.any_eq_false]
        intro item hitem
        simp [isNull_of_within (hitems item hitem)]
      refine ⟨_, ?_, written_array hall (by omega)⟩
      rw [Writer.value, hnull, hparts]
      rfl
  | frame type attributes hnames hdiscriminant _ hroles _ ih =>
      unfold Value.depth at hdepth
      obtain ⟨tokens, htokens, hall⟩ := exists_writtenRoles hroles fun entry hentry hne =>
        ih entry hentry hne (by
          have hle := depth_le_depthOfEntries hentry
          omega)
      exact ⟨_, frame_eq htokens, written_frame hall hnames hdiscriminant (by omega)⟩

end Values

-- The frame that comes back after a frame was written.
def Node.reread (frame : Frame) : Frame :=
  ⟨frame.type, Value.rebuiltEntries Number.echo frame.attributes⟩

-- Within the limits a frame has a notation, which stands for the frame that comes back.
theorem Node.exists_frameText {frame : Frame} (h : frame.Within .carried)
    (hdepth : frame.depth ≤ maxDepth) :
    ∃ type tokens, frame.write = .ok (Str.ofList (frameText type tokens)) ∧
      Nesting.Level frame.depth ([char ' '].intercalate (type.name.toList :: tokens)) ∧
      Node.read (frameText type tokens) = .ok frame.reread := by
  cases h with
  | frame type attributes hnames hdiscriminant _ hroles hvalues =>
      obtain ⟨tokens, htokens, hall⟩ := exists_writtenRoles hroles fun entry hentry hne =>
        exists_written (hvalues entry hentry hne)
          (Nat.le_trans (depth_le_depthOfEntries hentry) hdepth)
      refine ⟨type, tokens, ?_, level_frameContent hall, ?_⟩
      · rw [Node.write, frame_eq htokens]
        rfl
      · exact frame_frameText hall hnames hdiscriminant (Nat.le_succ _)

theorem Node.exists_read_write {frame : Frame} (h : frame.Within .carried)
    (hdepth : frame.depth ≤ maxDepth) :
    ∃ text, frame.write = .ok text ∧ Node.ofText text = .ok frame.reread := by
  obtain ⟨type, tokens, hwrite, -, hread⟩ := Node.exists_frameText h hdepth
  exact ⟨_, hwrite, by rw [Node.ofText, Str.toList_ofList, hread]⟩

-- Integers, and texts that are no references.
def Limits.plain : Limits where
  number n := ∃ i : Int, n = .int i ∧ i.natAbs < tenPow maxDigits
  text s := isReference s = false
  role := IsPlainRole
  void := True

section Plain

variable {value : Value} {limits : Limits} {f g : Number → Number}

theorem isReference_of_isBareReference {s : Str} (h : isBareReference s.toList = true) :
    isReference s = true := by
  obtain ⟨rest, -, hs | hs⟩ := isBareReference_cases h
  · simp [isReference, hs]
  · simp [isReference, hs]

theorem rebuiltItems_eq (number : Number → Number) (items : List Value) :
    Value.rebuiltItems number items = items.map (Value.rebuilt number) := by
  induction items with
  | nil => rfl
  | cons item rest ih => rw [Value.rebuiltItems, ih, List.map_cons]

theorem mem_present {attributes : List (Str × Value)} {entry : Str × Value} :
    entry ∈ present attributes ↔ entry ∈ attributes ∧ entry.2 ≠ .null := by
  rw [present, List.mem_filter, Bool.not_eq_true', ← Bool.not_eq_true, isNull_eq_true]

-- Changes of the numbers that agree on the numbers of a value agree on the value.
theorem rebuilt_congr (h : value.Within limits) (hnumber : ∀ n, limits.number n → f n = g n) :
    value.rebuilt f = value.rebuilt g := by
  induction h with
  | bool b => rfl
  | number n hn => rw [Value.rebuilt, Value.rebuilt, hnumber n hn]
  | text s _ => rfl
  | array items _ ih =>
      rw [Value.rebuilt, Value.rebuilt, rebuiltItems_eq, rebuiltItems_eq, List.map_congr_left ih]
  | frame type attributes _ _ _ _ _ ih =>
      have hentries : Value.rebuiltEntries f attributes = Value.rebuiltEntries g attributes := by
        rw [rebuiltEntries_eq, rebuiltEntries_eq]
        apply List.map_congr_left
        intro entry hentry
        obtain ⟨hmem, hne⟩ := mem_present.mp hentry
        rw [ih entry hmem hne]
      rw [Value.rebuilt, Value.rebuilt, hentries]

-- Integers come back as they are.
theorem rebuilt_echo (h : value.Within limits) (hint : ∀ n, limits.number n → ∃ i, n = .int i) :
    value.rebuilt Number.echo = value.rebuilt id := by
  refine rebuilt_congr h fun n hn => ?_
  obtain ⟨i, rfl⟩ := hint n hn
  rfl

theorem carried_of_plain (h : value.Within .plain) : value.Within .carried := by
  refine h.mono ?_ (fun s hs hbare => ?_) (fun _ hrole => hrole) id
  · rintro _ ⟨i, rfl, hi⟩
    exact hi
  · have htrue := isReference_of_isBareReference hbare
    exact absurd (hs.symm.trans htrue) Bool.false_ne_true

-- Only null attributes get lost.
theorem reread_eq_pruned {frame : Frame} (h : frame.Within .plain) :
    frame.reread = frame.pruned := by
  have hecho := rebuilt_echo h fun _ ⟨i, hi, _⟩ => ⟨i, hi⟩
  cases frame
  exact Value.frame.inj hecho

end Plain

-- Reading undoes writing: a frame of integers, truth values and texts that are no references, with
-- frames and arrays of such values, comes back without its null attributes and else unchanged.
theorem Node.ofText_of_write {frame : Frame} (h : frame.Within .plain)
    (hdepth : frame.depth ≤ maxDepth) :
    ∃ text, frame.write = .ok text ∧ Node.ofText text = .ok frame.pruned := by
  obtain ⟨text, hwrite, hread⟩ := Node.exists_read_write (carried_of_plain h) hdepth
  exact ⟨text, hwrite, reread_eq_pruned h ▸ hread⟩

-- A nested frame with a text that holds quotes and a comment, and with look-alikes of one number.
theorem Node.ofText_of_write_query :
    (⟨.text "query", [("action", .text "say \"hi\" // now"), ("agent", .null),
      ("target", .array [.number (.int 1), .bool true, .text "1"])]⟩ : Frame).Within .plain ∧
    ∃ text, (⟨.text "query", [("action", .text "say \"hi\" // now"), ("agent", .null),
        ("target", .array [.number (.int 1), .bool true, .text "1"])]⟩ : Frame).write = .ok text ∧
      Node.ofText text = .ok ⟨.text "query", [("action", .text "say \"hi\" // now"),
        ("target", .array [.number (.int 1), .bool true, .text "1"])]⟩ := by
  have hone : Limits.plain.number (.int 1) := by
    refine ⟨1, rfl, ?_⟩
    rw [Int.natAbs_one, tenPow_eq]
    exact Nat.one_lt_pow (by decide) (by decide)
  have htarget : (Value.array [.number (.int 1), .bool true, .text "1"]).Within .plain := by
    refine .array _ fun item hitem => ?_
    simp only [List.mem_cons, List.not_mem_nil, or_false] at hitem
    rcases hitem with rfl | rfl | rfl
    · exact .number _ hone
    · exact .bool true
    · exact .text _ rfl
  have hframe : (⟨.text "query", [("action", .text "say \"hi\" // now"), ("agent", .null),
      ("target", .array [.number (.int 1), .bool true, .text "1"])]⟩ : Frame).Within .plain := by
    refine .frame .query _ (by decide) (by decide) (fun _ _ _ => trivial) ?_ ?_
    · intro entry hentry hne
      simp only [List.mem_cons, List.not_mem_nil, or_false] at hentry
      rcases hentry with rfl | rfl | rfl <;> exact ⟨by decide, by decide⟩
    · intro entry hentry hne
      simp only [List.mem_cons, List.not_mem_nil, or_false] at hentry
      rcases hentry with rfl | rfl | rfl
      · exact .text _ rfl
      · exact absurd rfl hne
      · exact htarget
  exact ⟨hframe, Node.ofText_of_write hframe (by decide)⟩

end FrameNotation
