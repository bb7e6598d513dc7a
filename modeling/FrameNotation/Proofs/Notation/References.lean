import FrameNotation.Proofs.Notation.Stable
import FrameNotation.Proofs.Notation.Writable

namespace FrameNotation

open Text Writer Layout

variable {cs : List CodePoint} {value : Value} {limits : Limits}

-- What holds of all written text, where a newline at the end of a reference counts as a blank.
def looseRule : Strand.Rule := ⟨true, writtenRule.holds⟩

namespace Layout.Strand

variable {rule : Rule} {s t : Strand}

theorem Rule.admits_of_tidy {previous : Option CodePoint} {c : CodePoint}
    (h : rule.tidy.admits previous c = true) : rule.admits previous c = true := by
  obtain ⟨hescape, hcomment, hblank⟩ := Rule.admits_iff.mp h
  refine Rule.admits_iff.mpr ⟨hescape, hcomment, hblank.imp id fun hspace => .inr ?_⟩
  exact hspace.resolve_left Bool.false_ne_true

theorem step_of_tidy {c : CodePoint} (h : step rule.tidy s c = some t) :
    step rule s c = some t := by
  cases s with
  | bare previous =>
      rw [step] at h ⊢
      by_cases hquote : c = '"'
      · rwa [if_pos hquote] at h ⊢
      · rw [if_neg hquote] at h ⊢
        split at h
        · rename_i hadmits
          rwa [if_pos (Rule.admits_of_tidy hadmits)]
        · cases h
  | string content => exact h
  | escape content => exact h

theorem run_of_tidy (h : run rule.tidy s cs = some t) : run rule s cs = some t := by
  induction cs generalizing s with
  | nil => exact h
  | cons c rest ih =>
      obtain ⟨next, hstep, hrest⟩ := Option.bind_eq_some_iff.mp h
      rw [run_cons, step_of_tidy hstep]
      exact ih hrest

theorem Spans.of_tidy (h : Spans rule.tidy cs) : Spans rule cs := by
  intro previous hprevious
  obtain ⟨last, hrun, hlast⟩ := h previous hprevious
  exact ⟨last, run_of_tidy hrun, hlast.imp (fun hany => absurd hany Bool.false_ne_true) id⟩

end Layout.Strand

section Writing

variable {items : List Value} {attributes : List (Str × Value)}
variable {parts tokens : List (List CodePoint)}

-- What a successful writing of the parts of a value says about them.
theorem values_eq_ok (h : Writer.values items = .ok parts) :
    List.Forall₂ (fun item part => Writer.value item = .ok part) items parts := by
  induction items generalizing parts with
  | nil => cases h; exact .nil
  | cons item rest ih =>
      unfold Writer.values at h
      obtain ⟨part, hpart, h⟩ := bind_eq_ok.mp h
      obtain ⟨others, hothers, h⟩ := bind_eq_ok.mp h
      cases h
      exact .cons hpart (ih hothers)

theorem roles_eq_ok (h : Writer.roles attributes = .ok tokens) :
    List.Forall₂ (fun entry token => isRoleName entry.1.toList = true ∧
      ∃ cs, Writer.value entry.2 = .ok cs ∧ token = entry.1.toList ++ char ':' :: cs)
      (present attributes) tokens := by
  induction attributes generalizing tokens with
  | nil => cases h; exact .nil
  | cons entry rest ih =>
      obtain ⟨name, content⟩ := entry
      unfold Writer.roles at h
      rw [present, List.filter_cons]
      split_ifs at h with hnull hrole
      · simp only [hnull]
        exact ih h
      · obtain ⟨part, hpart, h⟩ := bind_eq_ok.mp h
        obtain ⟨others, hothers, h⟩ := bind_eq_ok.mp h
        cases h
        simp only [hnull]
        exact .cons ⟨by simpa using hrole, part, hpart, rfl⟩ (ih hothers)

theorem frame_eq_ok {type : Value} (h : Writer.frame ⟨type, attributes⟩ = .ok cs) :
    ∃ known tokens, type.text?.bind FrameType.ofName? = some known ∧
      Writer.roles attributes = .ok tokens ∧ cs = frameText known tokens := by
  unfold Writer.frame at h
  split at h
  · cases h
  · rename_i known htype
    split at h
    · rename_i tokens htokens
      cases h
      exact ⟨known, tokens, htype, htokens, rfl⟩
    · cases h
    · cases h

theorem isRoleName_cases {name : List CodePoint} (h : isRoleName name = true) :
    ∃ clean, clean ≠ [] ∧ isClean clean = true ∧ (name = clean ∨ name = clean ++ [char '\n']) := by
  simp only [isRoleName, Bool.and_eq_true, Bool.not_eq_true', List.isEmpty_eq_false_iff] at h
  obtain ⟨⟨hne, hcomment⟩, hchars⟩ := h
  exact ⟨withoutFinalNewline name, hne, by simp [isClean, hcomment, hchars],
    withoutFinalNewline_cases name⟩

theorem spans_roleName {name : List CodePoint} (h : isRoleName name = true) :
    Strand.Spans looseRule name := by
  obtain ⟨clean, hclean, hchars, hname | hname⟩ := isRoleName_cases h
  · rw [hname]
    exact Strand.spans_clean hclean hchars
  · rw [hname]
    exact (Strand.spans_clean hclean hchars).newline rfl

-- Every written value can be gone through outside strings.
theorem spans_of_value (hwithin : value.Within limits) (h : Writer.value value = .ok cs) :
    Strand.Spans looseRule cs := by
  induction hwithin generalizing cs with
  | bool b =>
      cases h
      exact Strand.Spans.of_tidy (written_bool b).spans
  | number n hnumber =>
      unfold Writer.value at h
      obtain ⟨written, hwritten, hcs⟩ := written_number (isCarried_of_number h)
      cases h.symm.trans hwritten
      exact Strand.Spans.of_tidy hcs.spans
  | text s htext =>
      cases h
      unfold Writer.text
      split_ifs with hbare hquotes
      · exact Strand.spans_reference hbare (.inl rfl)
      · exact Strand.spans_quote (by simpa [looseRule, writtenRule] using hbare)
      · exact Strand.Spans.of_tidy (written_bare (by simpa using hquotes)).spans
  | array items hitems ih =>
      unfold Writer.value at h
      split_ifs at h with hnull
      obtain ⟨parts, hparts, h⟩ := bind_eq_ok.mp h
      cases h
      apply spans_array
      intro part hpart
      obtain ⟨item, hitem, hwritten⟩ := exists_mem_of_forall₂ (values_eq_ok hparts) hpart
      exact ih item hitem hwritten
  | frame type attributes hnames hdiscriminant hvoid hroles hvalues ih =>
      obtain ⟨known, tokens, -, htokens, rfl⟩ := frame_eq_ok h
      apply spans_frameText
      intro token htoken
      obtain ⟨entry, hentry, hrole, part, hpart, rfl⟩ :=
        exists_mem_of_forall₂ (roles_eq_ok htokens) htoken
      obtain ⟨hmem, hne⟩ := mem_present.mp hentry
      exact Strand.spans_role (spans_roleName hrole) (ih entry hmem hne hpart)

end Writing

-- Whatever comes back from written text is stable, and no deeper than notation can be.
theorem Node.stable_of_write {frame again : Frame} {text : Str} (h : frame.Within limits)
    (hwrite : frame.write = .ok text) (hread : Node.ofText text = .ok again) :
    again.Within .stable ∧ again.depth ≤ maxDepth := by
  obtain ⟨cs, hcs, rfl⟩ := map_eq_ok.mp hwrite
  obtain ⟨last, hrun, -⟩ := spans_of_value h hcs none (by decide)
  rw [Node.ofText, Str.toList_ofList] at hread
  exact Node.stable_of_read hrun hread

-- Integers and texts of any kind, without null.
def Limits.worded : Limits where
  number n := ∃ i : Int, n = .int i ∧ i.natAbs < tenPow maxDigits
  text _ := True
  role := IsPlainRole
  void := False

theorem present_eq_self {attributes : List (Str × Value)}
    (h : ∀ entry ∈ attributes, entry.2 ≠ .null) : present attributes = attributes := by
  rw [present, List.filter_eq_self]
  intro entry hentry
  rw [Bool.not_eq_true', ← Bool.not_eq_true, isNull_eq_true]
  exact h entry hentry

theorem rebuilt_id (h : value.Within limits) (hvoid : ¬limits.void) : value.rebuilt id = value := by
  induction h with
  | bool b => rfl
  | number n _ => rfl
  | text s _ => rfl
  | array items _ ih =>
      have hitems : items.map (Value.rebuilt id) = items.map id := List.map_congr_left ih
      rw [Value.rebuilt, rebuiltItems_eq, hitems, List.map_id]
  | frame type attributes _ _ hvoids _ _ ih =>
      have hne (entry : Str × Value) (hentry : entry ∈ attributes) : entry.2 ≠ .null :=
        fun hnull => hvoid (hvoids entry hentry hnull)
      have hentries : attributes.map (fun entry => (entry.1, entry.2.rebuilt id)) =
          attributes.map id :=
        List.map_congr_left fun entry hentry => by rw [ih entry hentry (hne entry hentry), id]
      rw [Value.rebuilt, rebuiltEntries_eq, present_eq_self hne, hentries, List.map_id]

theorem carried_of_worded (h : value.Within .worded) (hstable : value.Within .stable) :
    value.Within .carried := by
  refine h.and hstable ?_ (fun _ _ hs => hs) (fun _ hrole _ => hrole) fun _ _ => trivial
  rintro _ ⟨i, rfl, hi⟩ -
  exact hi

-- A frame of integers, truth values and texts of any kind, with frames and arrays of such values,
-- comes back exactly if each of its bare references has balanced brackets and no newline at its
-- end, and if nothing is too deep.
theorem Node.ofText_of_write_iff {frame : Frame} (h : frame.Within .worded) :
    (∃ text, frame.write = .ok text ∧ Node.ofText text = .ok frame) ↔
      frame.Within .stable ∧ frame.depth ≤ maxDepth := by
  constructor
  · rintro ⟨text, hwrite, hread⟩
    exact Node.stable_of_write h hwrite hread
  · rintro ⟨hstable, hdepth⟩
    obtain ⟨text, hwrite, hread⟩ := Node.exists_read_write (carried_of_worded h hstable) hdepth
    have hecho := rebuilt_echo h fun _ ⟨i, hi, _⟩ => ⟨i, hi⟩
    have hreread : frame.reread = frame := by
      cases frame
      exact Value.frame.inj (hecho.trans (rebuilt_id h id))
    exact ⟨text, hwrite, hreread ▸ hread⟩

-- References with balanced brackets come back, alone and side by side.
theorem Node.ofText_of_write_event : ∃ frame : Frame,
    frame = ⟨.text "event", [("agent", .text "$task_1"),
      ("object", .array [.text "$a.b[0]", .text "$[x]", .text "$(1)"])]⟩ ∧
    frame.Within .worded ∧ ∃ text, frame.write = .ok text ∧ Node.ofText text = .ok frame := by
  refine ⟨_, rfl, ?_⟩
  have hwithin {limits : Limits}
      (htext : ∀ s ∈ (["$task_1", "$a.b[0]", "$[x]", "$(1)"] : List Str), limits.text s)
      (hrole : ∀ name ∈ (["agent", "object"] : List Str), limits.role name) :
      (Value.frame ⟨.text FrameType.event.name, [("agent", .text "$task_1"),
        ("object", .array [.text "$a.b[0]", .text "$[x]", .text "$(1)"])]⟩).Within limits := by
    refine .frame .event _ (by decide) (by decide) (by simp) ?_ ?_
    · intro entry hentry _
      simp only [List.mem_cons, List.not_mem_nil, or_false] at hentry
      rcases hentry with rfl | rfl <;> exact hrole _ (by simp)
    · intro entry hentry _
      simp only [List.mem_cons, List.not_mem_nil, or_false] at hentry
      rcases hentry with rfl | rfl
      · exact .text _ (htext _ (by simp))
      · refine .array _ fun item hitem => ?_
        simp only [List.mem_cons, List.not_mem_nil, or_false] at hitem
        rcases hitem with rfl | rfl | rfl <;> exact .text _ (htext _ (by simp))
  have hroles : ∀ name ∈ (["agent", "object"] : List Str), IsPlainRole name := by decide
  have htexts :
      ∀ s ∈ (["$task_1", "$a.b[0]", "$[x]", "$(1)"] : List Str), IsStable s.toList := by decide
  have hworded : Node.Within .worded ⟨.text FrameType.event.name, [("agent", .text "$task_1"),
      ("object", .array [.text "$a.b[0]", .text "$[x]", .text "$(1)"])]⟩ :=
    hwithin (fun _ _ => trivial) hroles
  refine ⟨hworded, (Node.ofText_of_write_iff hworded).mpr ⟨?_, by decide⟩⟩
  exact hwithin htexts fun _ _ => trivial

-- A reference with an open bracket is written bare, and what is written cannot be read.
theorem Node.not_ofText_of_write_open :
    (⟨.text "query", [("action", .text "$[")]⟩ : Frame).write = .ok "(query action:$[)" ∧
      ¬∃ frame, Node.ofText "(query action:$[)" = .ok frame := by
  refine ⟨by rfl, ?_⟩
  rintro ⟨frame, h⟩
  have hfail : (Node.ofText "(query action:$[)").isOk = false := by rfl
  rw [h] at hfail
  cases hfail

end FrameNotation
