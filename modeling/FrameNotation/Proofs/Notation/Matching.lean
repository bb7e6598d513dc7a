import FrameNotation.Proofs.Notation.Group
import FrameNotation.Proofs.Notation.Spacing

namespace FrameNotation

open Text

namespace Nesting

variable {separates : CodePoint → Bool} {s t : Nesting} {c : CodePoint} {b : Bracket}
variable {cs more group : List CodePoint} {outer : List Bracket}

-- A balanced text can be cut.
theorem exists_cut (hseparates : ∀ c, separates c = true → isPlain c = true)
    (h : walk s cs = .ok start) : ∃ pieces, cut separates s cs = .ok pieces := by
  induction cs generalizing s with
  | nil =>
      cases h
      exact ⟨[[]], rfl⟩
  | cons c rest ih =>
      obtain ⟨next, hstep, hrest⟩ := bind_eq_ok.mp h
      obtain ⟨pieces, hpieces⟩ := ih hrest
      rw [cut]
      split_ifs with hsep
      · obtain ⟨htop, hc⟩ := Bool.and_eq_true_iff.mp hsep
        obtain rfl := isTop_iff.mp htop
        have hplain : start.step c = .ok start := step_plain (hseparates c hc)
        cases hplain.symm.trans hstep
        exact ⟨[] :: pieces, by rw [hpieces, map_ok]⟩
      · rw [hstep, ok_bind, hpieces, ok_bind]
        cases pieces with
        | nil => exact ⟨_, rfl⟩
        | cons piece pieces => exact ⟨_, rfl⟩

theorem length_groups_step_le (h : s.step c = .ok t) :
    t.groups.length ≤ s.groups.length + 1 := by
  obtain ⟨groups, pending⟩ := s
  cases pending with
  | nothing =>
      rcases step_nothing_cases h with ⟨-, rfl⟩ | ⟨-, rfl⟩ | ⟨b, -, -, rfl⟩ | ⟨b, -, rfl, -⟩ |
        ⟨-, rfl⟩ <;> simp only [List.length_cons] <;> omega
  | escape => cases h; exact Nat.le_succ _
  | quote =>
      simp only [step] at h
      split_ifs at h <;> cases h <;> exact Nat.le_succ _
  | quotedEscape => cases h; exact Nat.le_succ _

-- The rest of a group is balanced up to the bracket that closes it.
theorem walk_of_takeGroup (h : takeGroup (s.under [b]) cs = some group) :
    ∃ content rest, cs = content ++ b.closer :: rest ∧ group = content ++ [b.closer] ∧
      walk s content = .ok start ∧ walk (s.under [b]) content = .ok (start.under [b]) := by
  induction cs generalizing s group with
  | nil => cases h
  | cons c cs ih =>
      have hopen (next : Nesting) : (next.under [b]).isTop = false :=
        isTop_eq_false_of_groups (by simp [under])
      obtain ⟨t, hstep, ⟨htop, rfl⟩ | ⟨htop, part, hpart, rfl⟩⟩ := takeGroup_cons_eq_some.mp h
      · rcases step_of_under hstep with ⟨next, -, rfl⟩ | ⟨rfl, _, _, hb, rfl, rfl⟩
        · rw [hopen] at htop
          cases htop
        · cases hb
          exact ⟨[], cs, rfl, rfl, rfl, rfl⟩
      · rcases step_of_under hstep with ⟨next, hnext, rfl⟩ | ⟨-, _, _, hb, -, rfl⟩
        · obtain ⟨content, rest, rfl, rfl, hwalk, hunder⟩ := ih hpart
          refine ⟨c :: content, rest, rfl, rfl, ?_, ?_⟩
          · rw [walk_cons, hnext]
            exact hwalk
          · rw [walk_cons, hstep]
            exact hunder
        · cases hb
          cases htop

-- In a text that nests less than the limit so does a balanced part of it.
theorem peak_of_under (h : walk s cs = .ok t)
    (hroom : peak (s.under outer) (cs ++ more) < maxDepth) :
    peak s cs + outer.length < maxDepth := by
  induction cs generalizing s with
  | nil =>
      have hle : (s.under outer).groups.length ≤ peak (s.under outer) more :=
        groups_length_le_peak
      have hless := Nat.lt_of_le_of_lt hle hroom
      simpa [under, peak] using hless
  | cons c rest ih =>
      obtain ⟨next, hstep, hrest⟩ := bind_eq_ok.mp h
      have hle : (s.under outer).groups.length ≤ peak (s.under outer) (c :: rest ++ more) :=
        groups_length_le_peak
      have hless : s.groups.length + outer.length < maxDepth := by
        simpa [under] using Nat.lt_of_le_of_lt hle hroom
      have hgrowth := length_groups_step_le hstep
      have hunder : (s.under outer).step c = .ok (next.under outer) :=
        step_under hstep (by omega)
      rw [List.cons_append, peak_cons hunder] at hroom
      have hinner := ih hrest (Nat.lt_of_le_of_lt (Nat.le_max_right _ _) hroom)
      rw [peak_cons hstep]
      omega

end Nesting

variable {text content group : List CodePoint}

-- A parenthesis, content that has tokens, and the parenthesis that closes it.
def IsGroup (cs : List CodePoint) : Prop :=
  ∃ content found, cs = char '(' :: content ++ [char ')'] ∧ tokens content = .ok found

theorem exists_tokens_iff :
    (∃ found, tokens content = .ok found) ↔ Nesting.walk .start content = .ok .start := by
  constructor
  · rintro ⟨found, h⟩
    obtain ⟨pieces, hcut, -⟩ := tokens_eq_ok h
    exact (Nesting.exists_of_mem_cut (fun _ => isPlain_of_isBlank) hcut).1
  · intro h
    obtain ⟨pieces, hcut⟩ := Nesting.exists_cut (fun _ => isPlain_of_isBlank) h
    exact ⟨_, tokens_of_cut hcut⟩

-- The group in front of a text is balanced content between parentheses, with room for one more
-- level around it.
theorem leadingGroup?_eq_some : leadingGroup? text = some group ↔
    ∃ content, group = char '(' :: content ++ [char ')'] ∧ group <+: text ∧
      Nesting.walk .start content = .ok .start ∧ Nesting.peak .start content < maxDepth := by
  constructor
  · intro h
    obtain ⟨cs, rfl⟩ : ∃ cs, text = char '(' :: cs := by
      unfold leadingGroup? at h
      split at h
      · exact ⟨_, rfl⟩
      · cases h
    rw [leadingGroup?_cons] at h
    obtain ⟨part, hpart, rfl⟩ := Option.map_eq_some_iff.mp h
    obtain ⟨content, rest, rfl, rfl, hwalk, hunder⟩ := Nesting.walk_of_takeGroup hpart
    refine ⟨content, rfl, ⟨rest, by simp [Bracket.closer]⟩, hwalk, ?_⟩
    have hpeak := Nesting.peak_under hwalk hunder
    have hle := Nesting.peak_le_maxDepth hunder (by decide)
    simp only [List.length_singleton] at hpeak
    omega
  · rintro ⟨content, rfl, ⟨rest, rfl⟩, hwalk, hroom⟩
    have happend : char '(' :: content ++ [char ')'] ++ rest =
        char '(' :: content ++ char ')' :: rest := by simp
    rw [happend]
    exact leadingGroup?_append hwalk hroom

-- Below the limit the group in front of a text is the prefix of it that is a group.
theorem leadingGroup?_iff_isGroup (hdepth : Nesting.peak .start text < maxDepth) :
    leadingGroup? text = some group ↔ group <+: text ∧ IsGroup group := by
  rw [leadingGroup?_eq_some]
  constructor
  · rintro ⟨content, rfl, hstart, hwalk, -⟩
    obtain ⟨found, hfound⟩ := exists_tokens_iff.mpr hwalk
    exact ⟨hstart, content, found, rfl, hfound⟩
  · rintro ⟨hstart, content, found, rfl, hfound⟩
    have hwalk := exists_tokens_iff.mp ⟨found, hfound⟩
    refine ⟨content, rfl, hstart, hwalk, ?_⟩
    obtain ⟨rest, rfl⟩ := hstart
    have hopener : Nesting.start.step '(' = .ok (Nesting.start.under [.round]) := rfl
    simp only [List.cons_append, List.append_assoc] at hdepth
    rw [Nesting.peak_cons hopener] at hdepth
    have hroom := Nesting.peak_of_under hwalk (Nat.lt_of_le_of_lt (Nat.le_max_right _ _) hdepth)
    exact Nat.lt_of_succ_lt hroom

-- What is read is one group.
theorem isGroup_of_read {frame : Frame} (h : Node.read text = .ok frame) :
    IsGroup (Layout.canonical text) := by
  obtain ⟨content, first, body, -, -, hcanonical, htokens, -⟩ := Reader.frame_eq_ok h
  exact ⟨content, first :: body, hcanonical, htokens⟩

-- Taking a group off the front of a text and cutting text into tokens agree on what is balanced.
-- Below the limit the group is the only prefix that is a parenthesis, content that has tokens and a
-- parenthesis, it does not depend on what follows it, and a text that is read is such a group from
-- its first to its last character.
theorem leadingGroup?_matches (hdepth : Nesting.peak .start text < maxDepth) :
    (∀ group, leadingGroup? text = some group ↔ group <+: text ∧ IsGroup group) ∧
      (∀ group other, group <+: text → IsGroup group → other <+: text → IsGroup other →
        group = other) ∧
      (∀ group, leadingGroup? text = some group →
        ∀ more, leadingGroup? (group ++ more) = some group) ∧
      ∀ source frame, Layout.canonical source = text → Node.read source = .ok frame →
        leadingGroup? text = some text := by
  refine ⟨fun group => leadingGroup?_iff_isGroup hdepth, fun group other hgroup hisGroup hother
    hisOther => ?_, fun group hgroup more => ?_, fun source frame hcanonical hread => ?_⟩
  · have hfirst := (leadingGroup?_iff_isGroup hdepth).mpr ⟨hgroup, hisGroup⟩
    have hsecond := (leadingGroup?_iff_isGroup hdepth).mpr ⟨hother, hisOther⟩
    exact Option.some.inj (hfirst.symm.trans hsecond)
  · obtain ⟨content, hcontent, -, hwalk, hroom⟩ := leadingGroup?_eq_some.mp hgroup
    exact leadingGroup?_eq_some.mpr ⟨content, hcontent, List.prefix_append group more, hwalk, hroom⟩
  · have hisGroup := isGroup_of_read hread
    rw [hcanonical] at hisGroup
    exact (leadingGroup?_iff_isGroup hdepth).mpr ⟨List.prefix_rfl, hisGroup⟩

-- A query with a parenthesis in a string, an escaped one, and a frame in an array.
def bracketedQuery : List CodePoint := ("(query target:\")\" steps:[(answer \\)), b])" : Str).toList

theorem leadingGroup?_bracketedQuery :
    Nesting.peak .start bracketedQuery < maxDepth ∧
      Node.read (bracketedQuery ++ (" // )" : Str).toList) =
        .ok ⟨.text "query", [("target", .text ")"),
        ("steps", .array [.frame ⟨.text "answer", [("content", .text ")")]⟩, .text "b"])]⟩ ∧
      leadingGroup? bracketedQuery = some bracketedQuery ∧
      ∀ more, leadingGroup? (bracketedQuery ++ more) = some bracketedQuery := by
  have hdepth : Nesting.peak .start bracketedQuery < maxDepth := by decide +kernel
  have hread : Node.read (bracketedQuery ++ (" // )" : Str).toList) = .ok ⟨.text "query",
      [("target", .text ")"),
        ("steps", .array [.frame ⟨.text "answer", [("content", .text ")")]⟩, .text "b"])]⟩ := rfl
  obtain ⟨-, -, hmore, hwhole⟩ := leadingGroup?_matches hdepth
  have hgroup := hwhole _ _ (by decide +kernel) hread
  exact ⟨hdepth, hread, hgroup, hmore _ hgroup⟩

end FrameNotation
