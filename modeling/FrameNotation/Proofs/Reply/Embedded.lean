import FrameNotation.Proofs.Notation.Group
import FrameNotation.Proofs.Notation.RoundTrip
import FrameNotation.Reply

namespace FrameNotation

open Text

namespace Reply

variable {cs before after group rest more name : List CodePoint} {c : CodePoint} {frame : Frame}
variable {last : Option Fault} {text : Str}

-- Somewhere in a text a frame seems to start.
def holdsStart : List CodePoint → Bool
  | [] => false
  | c :: rest => startsFrame (c :: rest) || holdsStart rest

-- What a reply with a frame in it amounts to.
def ofFrame (frame : Frame) : Reply :=
  if frame.type.text? = some FrameType.answer.name then ⟨frame, none⟩
  else ⟨answer [("content", .frame frame), ("type", .text "structured_response")], none⟩

section Starts

-- A word that holds no parenthesis does not reach over one.
theorem startsWord_append_round (hname : char '(' ∉ name) :
    (name.isPrefixOf (cs ++ char '(' :: more) &&
      !(((cs ++ char '(' :: more).drop name.length).head?.any isWord)) =
        (name.isPrefixOf cs && !((cs.drop name.length).head?.any isWord)) := by
  induction name generalizing cs with
  | nil =>
      cases cs with
      | nil => rfl
      | cons c cs => rfl
  | cons n name ih =>
      rw [List.mem_cons, not_or] at hname
      cases cs with
      | nil => simp [List.isPrefixOf, Ne.symm hname.1]
      | cons c cs =>
          simp only [List.cons_append, List.isPrefixOf_cons_cons, List.length_cons,
            List.drop_succ_cons, Bool.and_assoc, ih hname.2]

theorem startsFrame_eq_false (hc : c ≠ '(') : startsFrame (c :: cs) = false := by
  unfold startsFrame
  split
  · rename_i heq
    exact absurd (List.cons_eq_cons.mp heq).1 hc
  · rfl

-- Whether a frame starts at a character is settled before the next parenthesis.
theorem startsFrame_append_round :
    startsFrame (c :: cs ++ char '(' :: more) = startsFrame (c :: cs) := by
  by_cases hc : c = '('
  · subst hc
    have hnames : ∀ name ∈ FrameType.names, char '(' ∉ name.toList := by decide
    rw [List.cons_append, startsFrame, startsFrame, Bool.eq_iff_iff, List.any_eq_true,
      List.any_eq_true]
    refine exists_congr fun name => and_congr_right fun hname => ?_
    rw [← Str.length_toList, startsWord_append_round (hnames name hname)]
  · rw [List.cons_append, startsFrame_eq_false hc, startsFrame_eq_false hc]

-- A written frame starts as frames do: its type is followed by a blank or by the parenthesis.
theorem startsFrame_frameText {type : FrameType} {tokens : List (List CodePoint)} :
    startsFrame (frameText type tokens ++ more) = true := by
  obtain ⟨c, later, hc, htext⟩ : ∃ c later, isWord c = false ∧
      frameText type tokens ++ more = char '(' :: (type.name.toList ++ c :: later) := by
    unfold frameText
    cases tokens with
    | nil => exact ⟨')', more, by decide, by simp⟩
    | cons token rest =>
        refine ⟨' ', [char ' '].intercalate (token :: rest) ++ char ')' :: more, by decide, ?_⟩
        rw [List.intercalate_cons_cons]
        simp
  have hmem : type.name ∈ FrameType.names := by cases type <;> decide
  have hfront : type.name.toList.isPrefixOf (type.name.toList ++ c :: later) = true := by
    rw [List.isPrefixOf_iff_prefix]
    exact List.prefix_append _ _
  rw [htext, startsFrame, List.any_eq_true]
  refine ⟨type.name, hmem, ?_⟩
  rw [hfront, ← Str.length_toList, List.drop_left]
  simp [hc]

end Starts

-- A part without starts is passed over.
theorem embedded_append (h : holdsStart before = false) :
    embedded last (before ++ char '(' :: rest) = embedded last (char '(' :: rest) := by
  induction before with
  | nil => rfl
  | cons c before ih =>
      obtain ⟨hstart, hbefore⟩ := Bool.or_eq_false_iff.mp h
      rw [List.cons_append, embedded, ← List.cons_append, startsFrame_append_round, hstart]
      exact ih hbefore

-- The search ends with the first group that is a frame.
theorem embedded_of_group (hstart : startsFrame cs = true) (hgroup : leadingGroup? cs = some group)
    (hread : Node.read group = .ok frame) : embedded last cs = .ok frame := by
  cases cs with
  | nil => cases hstart
  | cons c cs => simp [embedded, hstart, hgroup, hread]

theorem exists_eq_round_cons (h : startsFrame cs = true) : ∃ rest, cs = char '(' :: rest := by
  unfold startsFrame at h
  split at h
  · exact ⟨_, rfl⟩
  · cases h

theorem read_of_group (htext : text.toList = before ++ after) (hbefore : holdsStart before = false)
    (hstart : startsFrame after = true) (hgroup : leadingGroup? after = some group)
    (hread : Node.read group = .ok frame) : read text = ofFrame frame := by
  obtain ⟨rest, rfl⟩ := exists_eq_round_cons hstart
  have hembedded : embedded none text.toList = .ok frame := by
    rw [htext, embedded_append hbefore]
    exact embedded_of_group hstart hgroup hread
  unfold read
  simp only [hembedded]
  rfl

-- A reply that is notation is understood if nothing but blanks and comments, in none of which a
-- frame seems to start, precedes its parenthesis, the frame type follows at once, and the comments
-- after that hold no brackets, quotes or backslashes.
theorem read_of_notation (hread : Node.ofText text = .ok frame)
    (htext : text.toList = before ++ after) (hfiller : Layout.Filler before)
    (hbefore : holdsStart before = false) (hstart : startsFrame after = true)
    (hquiet : ∀ c ∈ Layout.commented .outside after, Nesting.isPlain c = true)
    (hlevel : Nesting.Level maxDepth (Layout.canonical after)) : read text = ofFrame frame := by
  have hafter : Node.read after = .ok frame := by
    rw [Node.ofText, htext] at hread
    exact (Node.read_congr (Layout.canonical_filler_append hfiller)).mp hread
  obtain ⟨content, first, body, -, -, hcanonical, htokens, -, -⟩ := Reader.frame_eq_ok hafter
  have hwalk : Nesting.walk .start content = .ok .start := by
    obtain ⟨pieces, hcut, -⟩ := tokens_eq_ok htokens
    exact (Nesting.exists_of_mem_cut (fun _ => isPlain_of_isBlank) hcut).1
  have hroom : Nesting.peak .start content < maxDepth := by
    rw [hcanonical] at hlevel
    have hpeak : Nesting.peak .start (char '(' :: content ++ [char ')']) =
        Nesting.peak .start content + 1 :=
      Nesting.peak_group .round hwalk hlevel.walk_eq
    have hle := hlevel.peak_le
    omega
  obtain ⟨rest, rfl⟩ := exists_eq_round_cons hstart
  obtain ⟨group, hgroup, hsame⟩ := Layout.exists_leadingGroup hcanonical hwalk hroom hquiet
  exact read_of_group htext hbefore hstart hgroup ((Node.read_congr hsame).mpr hafter)

-- A query with a comment in front of it and another within.
def remark : List CodePoint := ("// as asked\n " : Str).toList

def remarkedQuery : List CodePoint := ("(query // by name\n action:x)" : Str).toList

theorem read_of_notation_remarked :
    Node.ofText (Str.ofList (remark ++ remarkedQuery)) =
      .ok ⟨.text "query", [("action", .text "x")]⟩ ∧
    Layout.Filler remark ∧ holdsStart remark = false ∧ startsFrame remarkedQuery = true ∧
    (∀ c ∈ Layout.commented .outside remarkedQuery, Nesting.isPlain c = true) ∧
    Nesting.Level maxDepth (Layout.canonical remarkedQuery) ∧
    read (Str.ofList (remark ++ remarkedQuery)) =
      ⟨answer [("content", .frame ⟨.text "query", [("action", .text "x")]⟩),
        ("type", .text "structured_response")], none⟩ := by
  have hread : Node.ofText (Str.ofList (remark ++ remarkedQuery)) =
      .ok ⟨.text "query", [("action", .text "x")]⟩ := rfl
  have hfiller :
      Layout.Filler
        (char '/' :: char '/' :: (" as asked" : Str).toList ++ char '\n' :: [char ' ']) :=
    .comment (by decide) (.blank rfl .nil)
  have hquiet : ∀ c ∈ Layout.commented .outside remarkedQuery, Nesting.isPlain c = true :=
    List.all_eq_true.mp rfl
  have hlevel : Nesting.Level maxDepth (Layout.canonical remarkedQuery) := ⟨rfl, by decide⟩
  have htext : (Str.ofList (remark ++ remarkedQuery)).toList = remark ++ remarkedQuery :=
    Str.toList_ofList
  exact ⟨hread, hfiller, rfl, rfl, hquiet, hlevel,
    read_of_notation hread htext hfiller rfl rfl hquiet hlevel⟩

-- Notation with a blank in front of its type is taken for plain text. A bracket in a comment ends
-- the group too early, and a frame in a comment comes first.
theorem not_read_of_notation :
    Node.ofText "( query action:x)" = .ok ⟨.text "query", [("action", .text "x")]⟩ ∧
      read "( query action:x)" = ⟨fallback "( query action:x)", some .noStructure⟩ ∧
    Node.ofText "(query // )\n action:x)" = .ok ⟨.text "query", [("action", .text "x")]⟩ ∧
      (read "(query // )\n action:x)").isOk = false ∧
    Node.ofText "// (query action:y)\n(query action:x)" =
      .ok ⟨.text "query", [("action", .text "x")]⟩ ∧
      read "// (query action:y)\n(query action:x)" =
        ofFrame ⟨.text "query", [("action", .text "y")]⟩ :=
  ⟨rfl, rfl, rfl, rfl, rfl, rfl⟩

-- A frame is found again wherever a reply holds its notation, whatever follows, if no frame seems
-- to start in front of it.
theorem read_of_written {before : Str} (h : frame.Within .plain)
    (hdepth : frame.depth < maxDepth) (hbefore : holdsStart before.toList = false) :
    ∃ text, frame.write = .ok text ∧
      ∀ after, read (before ++ text ++ after) = ofFrame frame.pruned := by
  obtain ⟨type, tokens, hwrite, hlevel, hread⟩ :=
    Node.exists_frameText (carried_of_plain h) (Nat.le_of_lt hdepth)
  refine ⟨_, hwrite, fun after => ?_⟩
  have hgroup : leadingGroup? (frameText type tokens ++ after.toList) =
      some (frameText type tokens) := by
    have hroom := Nat.lt_of_le_of_lt hlevel.peak_le hdepth
    rw [frameText, Layout.append_cons_append]
    exact leadingGroup?_append hlevel.walk_eq hroom
  rw [← reread_eq_pruned h]
  exact read_of_group (by simp) hbefore startsFrame_frameText hgroup hread

-- An answer with a parenthesis, a quote and the start of a frame in its texts.
def knottyAnswer : Frame :=
  ⟨.text "answer", [("content", .array [.text ") (query \" //", .bool true]), ("summary", .null),
    ("source", .frame ⟨.text "entity", [("name", .text "(answer")]⟩)]⟩

theorem read_of_written_knotty : knottyAnswer.Within .plain ∧
    ∃ text, knottyAnswer.write = .ok text ∧
      ∀ after, read ("My (answers) so far: (" ++ text ++ after) =
        ⟨⟨.text "answer", [("content", .array [.text ") (query \" //", .bool true]),
          ("source", .frame ⟨.text "entity", [("name", .text "(answer")]⟩)]⟩, none⟩ := by
  have hcontent : (Value.array [.text ") (query \" //", .bool true]).Within .plain := by
    refine .array _ fun item hitem => ?_
    simp only [List.mem_cons, List.not_mem_nil, or_false] at hitem
    rcases hitem with rfl | rfl
    · exact .text _ rfl
    · exact .bool true
  have hsource : (Value.frame ⟨.text "entity", [("name", .text "(answer")]⟩).Within .plain := by
    refine .frame .entity _ (by decide) (by decide) (fun _ _ _ => trivial) ?_ ?_
    · intro entry hentry _
      cases List.mem_singleton.mp hentry
      exact ⟨by decide, by decide⟩
    · intro entry hentry _
      cases List.mem_singleton.mp hentry
      exact .text _ rfl
  have hanswer : knottyAnswer.Within .plain := by
    refine .frame .answer _ (by decide) (by decide) (fun _ _ _ => trivial) ?_ ?_
    · intro entry hentry _
      simp only [List.mem_cons, List.not_mem_nil, or_false] at hentry
      rcases hentry with rfl | rfl | rfl <;> exact ⟨by decide, by decide⟩
    · intro entry hentry hne
      simp only [List.mem_cons, List.not_mem_nil, or_false] at hentry
      rcases hentry with rfl | rfl | rfl
      · exact hcontent
      · exact absurd rfl hne
      · exact hsource
  exact ⟨hanswer, read_of_written hanswer (by decide) rfl⟩

end Reply

end FrameNotation
