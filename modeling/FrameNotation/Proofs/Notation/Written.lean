import FrameNotation.Proofs.Notation.Literal
import FrameNotation.Proofs.Notation.Strand
import FrameNotation.Proofs.Text.Trim

namespace FrameNotation

open Text Writer

variable {cs inner name : List CodePoint} {c : CodePoint}

section Characters

theorem isReferenceChar_cases (h : isReferenceChar c = true) :
    isBlank c = false ∧ c ≠ '"' ∧ c ≠ '\\' ∧ c ≠ '/' ∧ c ≠ ',' := by
  refine ⟨?_, ?_, ?_, ?_, ?_⟩
  · rw [isReferenceChar, Bool.or_eq_true] at h
    rcases h with h | h
    · exact isBlank_of_isAlphanum h
    · simp only [List.contains_cons, List.contains_nil, Bool.or_eq_true, beq_iff_eq] at h
      rcases h with rfl | rfl | rfl | rfl | rfl | h
      · rfl
      · rfl
      · rfl
      · rfl
      · rfl
      · cases h
  all_goals
    rintro rfl
    exact absurd h (by decide)

-- A bare reference is a mark and more such characters, and may have a newline at its end.
theorem isBareReference_cases (h : isBareReference cs = true) :
    ∃ rest, (∀ c ∈ referenceMark :: rest,
      isBlank c = false ∧ c ≠ '"' ∧ c ≠ '\\' ∧ c ≠ '/' ∧ c ≠ ',') ∧
      (cs = referenceMark :: rest ∨ cs = referenceMark :: rest ++ [char '\n']) := by
  unfold isBareReference at h
  split at h
  · rename_i c rest hcs
    obtain ⟨hmark, hrest⟩ := Bool.and_eq_true_iff.mp h
    rw [beq_iff_eq] at hmark
    subst hmark
    refine ⟨rest, ?_, ?_⟩
    · intro d hd
      rcases List.mem_cons.mp hd with rfl | hd
      · decide
      · exact isReferenceChar_cases (List.all_eq_true.mp hrest d hd)
    · exact hcs ▸ withoutFinalNewline_cases cs
  · cases h

theorem holdsComment_eq_false (h : char '/' ∉ cs) : holdsComment cs = false := by
  induction cs with
  | nil => rfl
  | cons c rest ih =>
      rw [List.mem_cons, not_or] at h
      rw [holdsComment, ih h.2]
      rintro _ rfl
      exact absurd rfl h.1

theorem trim_group (b : Bracket) (cs : List CodePoint) :
    trim (b.opener :: cs ++ [b.closer]) = b.opener :: cs ++ [b.closer] := by
  refine trim_eq_self (fun c hc => ?_) fun c hc => ?_
  · cases hc
    cases b <;> rfl
  · rw [List.getLast?_concat] at hc
    cases hc
    cases b <;> rfl

end Characters

namespace Layout.Strand

variable {rule : Rule} {previous : Option CodePoint}

-- A text that a scan goes through from anywhere outside strings but after a slash. It ends outside
-- strings, and at a blank only if blanks may be any.
def Spans (rule : Rule) (cs : List CodePoint) : Prop :=
  ∀ previous, previous ≠ some (char '/') →
    ∃ last, run rule (.bare previous) cs = some (.bare (some last)) ∧
      (rule.anyBlanks = true ∨ isBlank last = false)

-- Characters of which none is special, and of which no two are slashes in a row.
theorem run_ordinary (hne : cs ≠ []) (hcs : ∀ c ∈ cs, isBlank c = false ∧ c ≠ '"' ∧ c ≠ '\\')
    (hcomment : holdsComment cs = false)
    (hprevious : previous = some (char '/') → cs.head? ≠ some (char '/')) :
    ∃ last ∈ cs, run rule (.bare previous) cs = some (.bare (some last)) := by
  induction cs generalizing previous with
  | nil => exact absurd rfl hne
  | cons c rest ih =>
      obtain ⟨hblank, hquote, hescape⟩ := hcs c (by simp)
      obtain ⟨hslash, hrest⟩ := holdsComment_cons hcomment
      have hadmits : rule.admits previous c = true := by
        refine Rule.admits_iff.mpr ⟨hescape, ?_, .inl hblank⟩
        rintro rfl hp
        exact hprevious hp rfl
      rw [run_bare_of_admits hquote hadmits]
      by_cases hnil : rest = []
      · subst hnil
        exact ⟨c, by simp, rfl⟩
      · obtain ⟨last, hlast, hrun⟩ := ih hnil (fun d hd => hcs d (by simp [hd])) hrest
          (fun hc => hslash (Option.some.inj hc))
        exact ⟨last, by simp [hlast], hrun⟩

theorem spans_ordinary (hne : cs ≠ []) (hcs : ∀ c ∈ cs, isBlank c = false ∧ c ≠ '"' ∧ c ≠ '\\')
    (hcomment : holdsComment cs = false) : Spans rule cs := by
  intro previous hprevious
  obtain ⟨last, hlast, hrun⟩ := run_ordinary hne hcs hcomment fun h => absurd h hprevious
  exact ⟨last, hrun, .inr (hcs last hlast).1⟩

theorem spans_clean (hne : cs ≠ []) (h : isClean cs = true) : Spans rule cs := by
  obtain ⟨hchars, hcomment⟩ := isClean_iff.mp h
  refine spans_ordinary hne (fun c hc => ?_) hcomment
  obtain ⟨hblank, -, -, -, -, -, hquote, hescape, -⟩ := forcesQuotes_eq_false.mp (hchars c hc)
  exact ⟨hblank, hquote, hescape⟩

-- A newline at the end is gone through only if blanks may be any.
theorem Spans.newline (hany : rule.anyBlanks = true) (h : Spans rule cs) :
    Spans rule (cs ++ [char '\n']) := by
  intro previous hprevious
  obtain ⟨last, hrun, -⟩ := h previous hprevious
  have hadmits : rule.admits (some last) '\n' = true :=
    Rule.admits_iff.mpr ⟨by decide, by simp, .inr (.inl hany)⟩
  exact ⟨'\n', run_trans hrun (run_bare_of_admits (by decide) hadmits), .inl hany⟩

theorem spans_reference (h : isBareReference cs = true)
    (hnewline : rule.anyBlanks = true ∨ cs.getLast? ≠ some (char '\n')) : Spans rule cs := by
  obtain ⟨rest, hchars, hcs⟩ := isBareReference_cases h
  have hspans : Spans rule (referenceMark :: rest) := by
    refine spans_ordinary (by simp) (fun c hc => ?_) (holdsComment_eq_false fun hslash => ?_)
    · exact ⟨(hchars c hc).1, (hchars c hc).2.1, (hchars c hc).2.2.1⟩
    · exact (hchars '/' hslash).2.2.2.1 rfl
  rcases hcs with rfl | rfl
  · exact hspans
  · rcases hnewline with hany | hlast
    · exact hspans.newline hany
    · exact absurd List.getLast?_concat hlast

-- The content of a string comes out as it went in.
theorem run_escaped (content : List CodePoint) :
    run rule (.string content) (escaped cs) = some (.string (cs.reverse ++ content)) := by
  induction cs generalizing content with
  | nil => rfl
  | cons c rest ih =>
      rw [List.reverse_cons, List.append_assoc, List.singleton_append, ← ih]
      by_cases hc : c = '\\' ∨ c = '"'
      · rw [escaped_special hc]
        rfl
      · rw [not_or] at hc
        rw [escaped_ordinary hc.1 hc.2, run_cons, step, if_neg hc.2, if_neg hc.1]
        rfl

theorem spans_quote (h : rule.holds cs = true) : Spans rule (quote cs) := by
  intro previous _
  refine ⟨'"', ?_, .inr rfl⟩
  have hopen : run rule (.bare previous) [char '"'] = some (.string []) := rfl
  have hcontent : run rule (.string []) (escaped cs) = some (.string cs.reverse) := by
    rw [run_escaped, List.append_nil]
  have hlast : run rule (.string cs.reverse) [char '"'] = some (.bare (some (char '"'))) := by
    rw [run_cons, step, if_pos rfl, List.reverse_reverse, if_pos h]
    rfl
  exact run_trans (run_trans hopen hcontent) hlast

theorem run_bracket {b : Bracket} {c : CodePoint} (hc : c = b.opener ∨ c = b.closer) :
    run rule (.bare previous) [c] = some (.bare (some c)) := by
  have hplain : c ≠ '"' ∧ c ≠ '\\' ∧ c ≠ '/' ∧ isBlank c = false := by
    rcases hc with rfl | rfl <;> cases b <;> decide
  exact run_bare_of_admits hplain.1 (Rule.admits_iff.mpr
    ⟨hplain.2.1, fun hslash => absurd hslash hplain.2.2.1, .inl hplain.2.2.2⟩)

theorem spans_group (b : Bracket) (h : inner = [] ∨ Spans rule inner) :
    Spans rule (b.opener :: inner ++ [b.closer]) := by
  intro previous _
  have hopener : run rule (.bare previous) [b.opener] = some (.bare (some b.opener)) :=
    run_bracket (.inl rfl)
  have hcloser (last : Option CodePoint) : run rule (.bare last) [b.closer] =
      some (.bare (some b.closer)) := run_bracket (.inr rfl)
  refine ⟨b.closer, ?_, .inr (by cases b <;> rfl)⟩
  rcases h with rfl | hinner
  · exact run_trans hopener (hcloser _)
  · obtain ⟨last, hrun, -⟩ := @hinner (some b.opener) (by cases b <;> decide)
    exact run_trans (run_trans hopener hrun) (hcloser _)

theorem spans_role {value : List CodePoint} (hname : Spans rule name) (hvalue : Spans rule value) :
    Spans rule (name ++ char ':' :: value) := by
  intro previous hprevious
  obtain ⟨last, hrun, -⟩ := hname previous hprevious
  obtain ⟨last', hrun', hlast'⟩ := hvalue (some (char ':')) (by decide)
  have hcolon : run rule (.bare (some last)) [char ':'] = some (.bare (some (char ':'))) :=
    run_bare_of_admits (by decide) (Rule.admits_iff.mpr ⟨by decide, by simp, .inl rfl⟩)
  exact ⟨last', run_trans hrun (run_trans hcolon hrun'), hlast'⟩

-- What stands between two parts: one space, which a comma may precede.
def IsJoint (joint : List CodePoint) : Prop := joint = [char ' '] ∨ joint = [char ',', char ' ']

theorem run_joint {joint : List CodePoint} {last : CodePoint} (hjoint : IsJoint joint)
    (hlast : rule.anyBlanks = true ∨ isBlank last = false) :
    run rule (.bare (some last)) joint = some (.bare (some (char ' '))) := by
  have hspace {last : CodePoint} (hlast : rule.anyBlanks = true ∨ isBlank last = false) :
      run rule (.bare (some last)) [char ' '] = some (.bare (some (char ' '))) := by
    refine run_bare_of_admits (by decide) (Rule.admits_iff.mpr ⟨by decide, by simp, .inr ?_⟩)
    exact hlast.imp id fun h => ⟨rfl, by simpa using h⟩
  rcases hjoint with rfl | rfl
  · exact hspace hlast
  · have hcomma : run rule (.bare (some last)) [char ','] = some (.bare (some (char ','))) :=
      run_bare_of_admits (by decide) (Rule.admits_iff.mpr ⟨by decide, by simp, .inl rfl⟩)
    exact run_trans hcomma (hspace (.inr rfl))

theorem spans_intercalate {joint first : List CodePoint} {parts : List (List CodePoint)}
    (hjoint : IsJoint joint) (hfirst : Spans rule first)
    (hparts : ∀ part ∈ parts, Spans rule part) :
    Spans rule (joint.intercalate (first :: parts)) := by
  induction parts generalizing first with
  | nil => simpa using hfirst
  | cons part parts ih =>
      intro previous hprevious
      obtain ⟨last, hrun, hlast⟩ := hfirst previous hprevious
      obtain ⟨last', hrest, hlast'⟩ := ih (hparts part (by simp))
        (fun p hp => hparts p (by simp [hp])) (some (char ' ')) (by decide)
      rw [List.intercalate_cons_cons]
      exact ⟨last', run_trans (run_trans hrun (run_joint hjoint hlast)) hrest, hlast'⟩

end Layout.Strand

namespace Nesting

variable {s t : Nesting} {separates : CodePoint → Bool} {depth : Nat} {more : List CodePoint}

-- A text that leaves nothing open, with at most so many groups open at once.
structure Level (depth : Nat) (cs : List CodePoint) : Prop where
  walk_eq : walk start cs = .ok start
  peak_le : peak start cs ≤ depth

-- A text on a level that neither a blank nor a comma cuts.
structure Whole (depth : Nat) (cs : List CodePoint) : Prop extends Level depth cs where
  through_eq : ∀ separates, (∀ c, separates c = true → isBlank c = true ∨ c = ',') →
    through separates start cs = .ok start

theorem Level.mono {deeper : Nat} (h : Level depth cs) (hdepth : depth ≤ deeper) :
    Level deeper cs :=
  ⟨h.walk_eq, Nat.le_trans h.peak_le hdepth⟩

theorem Level.append (hcs : Level depth cs) (hmore : Level depth more) :
    Level depth (cs ++ more) := by
  refine ⟨?_, ?_⟩
  · rw [walk_append, hcs.walk_eq]
    exact hmore.walk_eq
  · rw [peak_append hcs.walk_eq]
    exact Nat.max_le.mpr ⟨hcs.peak_le, hmore.peak_le⟩

-- Without a separator a text is not cut.
theorem through_of_walk (hcs : ∀ c ∈ cs, separates c = false) (h : walk s cs = .ok t) :
    through separates s cs = .ok t := by
  induction cs generalizing s with
  | nil => exact h
  | cons c rest ih =>
      obtain ⟨next, hstep, hrest⟩ := bind_eq_ok.mp h
      rw [through_cons_ok (by simp [hcs c (by simp)]) hstep]
      exact ih (fun d hd => hcs d (by simp [hd])) hrest

theorem Level.whole (h : Level depth cs) (hcs : ∀ c ∈ cs, isBlank c = false ∧ c ≠ ',') :
    Whole depth cs := by
  refine ⟨h, fun separates hseparates => through_of_walk (fun c hc => ?_) h.walk_eq⟩
  rw [← Bool.not_eq_true]
  intro hseparator
  rcases hseparates c hseparator with hblank | hcomma
  · rw [(hcs c hc).1] at hblank
    cases hblank
  · exact (hcs c hc).2 hcomma

theorem level_plain (h : ∀ c ∈ cs, isPlain c = true) : Level depth cs := by
  induction cs with
  | nil => exact ⟨rfl, Nat.zero_le depth⟩
  | cons c rest ih =>
      have hstep : start.step c = .ok start := step_plain (h c (by simp))
      have hrest := ih fun d hd => h d (by simp [hd])
      refine ⟨?_, ?_⟩
      · rw [walk_cons, hstep]
        exact hrest.walk_eq
      · rw [peak_cons hstep]
        exact Nat.max_le.mpr ⟨Nat.zero_le depth, hrest.peak_le⟩

theorem whole_clean (h : isClean cs = true) : Whole depth cs := by
  have hchars := (isClean_iff.mp h).1
  refine (level_plain fun c hc => ?_).whole fun c hc => ?_
  · obtain ⟨-, -, h₁, h₂, h₃, h₄, h₅, h₆, -⟩ := forcesQuotes_eq_false.mp (hchars c hc)
    simp [isPlain, h₁, h₂, h₃, h₄, h₅, h₆]
  · obtain ⟨hblank, -, -, -, -, -, -, -, hcomma⟩ := forcesQuotes_eq_false.mp (hchars c hc)
    exact ⟨hblank, hcomma⟩

-- Inside a string nothing opens or closes a group, and nothing separates.
theorem through_escaped (separates : CodePoint → Bool) :
    through separates ⟨[], .quote⟩ (escaped cs) = .ok ⟨[], .quote⟩ := by
  have hinside {c : CodePoint} {t : Nesting} {rest : List CodePoint} {p : Pending}
      (hp : p ≠ .nothing) (hstep : step ⟨[], p⟩ c = .ok t) :
      through separates ⟨[], p⟩ (c :: rest) = through separates t rest :=
    through_cons_ok (by simp [start, hp]) hstep
  induction cs with
  | nil => rfl
  | cons c rest ih =>
      by_cases hc : c = '\\' ∨ c = '"'
      · rw [escaped_special hc, hinside (by decide) (rfl : step _ '\\' = .ok ⟨[], .quotedEscape⟩),
          hinside (by decide) rfl, ih]
      · rw [not_or] at hc
        rw [escaped_ordinary hc.1 hc.2, hinside (by decide) (t := ⟨[], .quote⟩), ih]
        simp [step, hc]

theorem peak_escaped : peak ⟨[], .quote⟩ (escaped cs) = 0 := by
  induction cs with
  | nil => rfl
  | cons c rest ih =>
      by_cases hc : c = '\\' ∨ c = '"'
      · rw [escaped_special hc, peak_cons (t := ⟨[], .quotedEscape⟩) rfl,
          peak_cons (t := ⟨[], .quote⟩) rfl, ih]
        rfl
      · rw [not_or] at hc
        rw [escaped_ordinary hc.1 hc.2, peak_cons (t := ⟨[], .quote⟩) (by simp [step, hc]), ih]
        rfl

theorem through_quote (hseparates : separates '"' = false) :
    through separates start (quote cs) = .ok start := by
  have hfirst : through separates start [char '"'] = .ok ⟨[], .quote⟩ :=
    through_cons_ok (by simp [hseparates]) rfl
  have hlast : through separates ⟨[], .quote⟩ [char '"'] = .ok start :=
    through_cons_ok (by simp [start]) rfl
  exact through_trans (through_trans hfirst (through_escaped separates)) hlast

theorem whole_quote : Whole depth (quote cs) := by
  have hwalk : through (fun _ => false) start (quote cs) = .ok start := through_quote rfl
  refine ⟨⟨walk_of_through hwalk, ?_⟩, ?_⟩
  · have hopened : start.step '"' = .ok ⟨[], .quote⟩ := rfl
    have hcontent : walk ⟨[], .quote⟩ (escaped cs) = .ok ⟨[], .quote⟩ :=
      walk_of_through (through_escaped fun _ => false)
    rw [quote, List.cons_append, peak_cons hopened, peak_append hcontent, peak_escaped]
    exact Nat.zero_le depth
  · intro separates hseparates
    apply through_quote
    rw [← Bool.not_eq_true]
    intro hquote
    rcases hseparates '"' hquote with h | h
    · exact absurd h (by decide)
    · exact absurd h (by decide)

theorem whole_group (b : Bracket) (h : Level depth inner) (hroom : depth < maxDepth) :
    Whole (depth + 1) (b.opener :: inner ++ [b.closer]) := by
  have hpeak : peak start inner < maxDepth := Nat.lt_of_le_of_lt h.peak_le hroom
  have hthrough : through (fun _ => false) start (b.opener :: inner ++ [b.closer]) = .ok start :=
    through_group b rfl h.walk_eq hpeak
  have hwalk := walk_of_through hthrough
  refine ⟨⟨hwalk, ?_⟩, fun separates hseparates => ?_⟩
  · rw [peak_group b h.walk_eq hwalk]
    exact Nat.succ_le_succ h.peak_le
  · refine through_group b ?_ h.walk_eq hpeak
    rw [← Bool.not_eq_true]
    intro hopener
    rcases hseparates _ hopener with hblank | hcomma
    · exact absurd hblank (by cases b <;> decide)
    · exact absurd hcomma (by cases b <;> decide)

theorem level_joint {joint : List CodePoint} (h : Layout.Strand.IsJoint joint) :
    Level depth joint := by
  rcases h with rfl | rfl <;> exact level_plain (List.all_eq_true.mp rfl)

theorem level_intercalate {joint first : List CodePoint} {parts : List (List CodePoint)}
    (hjoint : Layout.Strand.IsJoint joint) (hfirst : Level depth first)
    (hparts : ∀ part ∈ parts, Level depth part) :
    Level depth (joint.intercalate (first :: parts)) := by
  induction parts generalizing first with
  | nil => simpa using hfirst
  | cons part parts ih =>
      rw [List.intercalate_cons_cons]
      exact (hfirst.append (level_joint hjoint)).append
        (ih (hparts part (by simp)) fun p hp => hparts p (by simp [hp]))

end Nesting

end FrameNotation
