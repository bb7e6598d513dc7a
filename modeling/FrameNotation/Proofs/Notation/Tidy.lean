import FrameNotation.Proofs.Notation.Layout

namespace FrameNotation.Layout

open Text

variable {cs more inner rest : List CodePoint} {c : CodePoint} {single : Bool}

section Closing

-- A backslash takes no more than the newline at the end of a line, so a scan of the line and a scan
-- that leaves the line out go on alike.
theorem closes_line (h : closes rest = true) : closes (cs ++ char '\n' :: rest) = true := by
  induction cs using string_induction with
  | nil => exact h
  | quote => rfl
  | escape c line ih => exact ih
  | backslash => exact h
  | plain c line hquote hescape ih => rw [List.cons_append, closes_cons hquote hescape, ih]

-- A string that is closed by what follows a text without quotes is closed in that text.
theorem closes_of_append (hmore : char '"' ∉ more) (h : closes (cs ++ more) = true) :
    closes cs = true := by
  induction cs using string_induction with
  | nil =>
      obtain ⟨inner, rest, -, hrest⟩ := exists_content_of_closes h
      rw [List.nil_append] at hrest
      exact absurd (by simp [hrest]) hmore
  | quote => rfl
  | escape c rest ih => exact ih h
  | backslash =>
      obtain ⟨inner, rest, -, hrest⟩ := exists_content_of_closes h
      cases inner with
      | nil => cases hrest
      | cons d inner =>
          obtain ⟨-, rfl⟩ := List.cons_eq_cons.mp hrest
          exact absurd (by simp) hmore
  | plain c rest hquote hescape ih =>
      rw [List.cons_append, closes_cons hquote hescape] at h
      rw [closes_cons hquote hescape, ih h]

-- The quote that closes a string is the first that is not escaped.
theorem content_inj {inner' rest' : List CodePoint} (hinner : isContent inner = true)
    (hinner' : isContent inner' = true)
    (h : inner ++ char '"' :: rest = inner' ++ char '"' :: rest') :
    inner = inner' ∧ rest = rest' := by
  fun_induction isContent inner generalizing inner' with
  | case1 =>
      cases inner' with
      | nil => exact ⟨rfl, (List.cons_eq_cons.mp h).2⟩
      | cons c inner' =>
          obtain ⟨rfl, -⟩ := List.cons_eq_cons.mp h
          exact absurd hinner' (by simp [isContent])
  | case2 => cases hinner
  | case3 c inner ih =>
      cases inner' with
      | nil => cases h
      | cons d inner' =>
          obtain ⟨rfl, -⟩ := List.cons_eq_cons.mp h
          cases inner' with
          | nil => cases hinner'
          | cons e inner' =>
              simp only [List.cons_append, List.cons.injEq, true_and] at h
              obtain ⟨rfl, h⟩ := h
              have hcontent : isContent inner' = true := hinner'
              obtain ⟨rfl, hrest⟩ := ih hinner hcontent h
              exact ⟨rfl, hrest⟩
  | case4 c inner hescape ih =>
      obtain ⟨hquote, hinner⟩ := Bool.and_eq_true_iff.mp hinner
      cases inner' with
      | nil =>
          obtain ⟨rfl, -⟩ := List.cons_eq_cons.mp h
          exact absurd hquote (by decide)
      | cons d inner' =>
          simp only [List.cons_append, List.cons.injEq] at h
          obtain ⟨rfl, h⟩ := h
          rw [isContent] at hinner'
          · obtain ⟨rfl, hrest⟩ := ih hinner (Bool.and_eq_true_iff.mp hinner').2 h
            exact ⟨rfl, hrest⟩
          · exact hescape

-- A scan of the nesting leaves a string at the quote that closes it.
theorem exists_content_of_walk {groups : List Bracket} {s : Nesting} (hs : s.pending = .nothing)
    (h : Nesting.walk ⟨groups, .quote⟩ cs = .ok s) : ∃ inner rest, isContent inner = true ∧
      cs = inner ++ char '"' :: rest ∧ Nesting.walk ⟨groups, .nothing⟩ rest = .ok s := by
  induction cs using string_induction with
  | nil =>
      cases h
      cases hs
  | quote rest => exact ⟨[], rest, rfl, rfl, h⟩
  | escape c rest ih =>
      obtain ⟨inner, more, hinner, rfl, hmore⟩ := ih h
      exact ⟨char '\\' :: c :: inner, more, hinner, rfl, hmore⟩
  | backslash =>
      cases h
      cases hs
  | plain c rest hquote hescape ih =>
      have hstep : Nesting.step ⟨groups, .quote⟩ c = .ok ⟨groups, .quote⟩ := by
        simp only [Nesting.step, if_neg hquote, if_neg hescape]
      rw [Nesting.walk_cons, hstep] at h
      obtain ⟨inner, more, hinner, rfl, hmore⟩ := ih h
      refine ⟨c :: inner, more, ?_, rfl, hmore⟩
      rw [isContent]
      · simpa [hinner] using hquote
      · exact hescape

end Closing

-- Text without comments. If only single spaces are wanted, there are no other blanks outside
-- strings. A quote whose string is not closed and a backslash at the end are ordinary characters.
inductive Tidy (single : Bool) : List CodePoint → Prop
  | nil : Tidy single []
  | plain {c : CodePoint} {rest : List CodePoint} (hquote : c ≠ '"') (hescape : c ≠ '\\')
      (hcomment : c = '/' → rest.head? ≠ some (char '/'))
      (hblank : single = true → isBlank c = true → c = ' ' ∧ startsBlank rest = false)
      (hrest : Tidy single rest) : Tidy single (c :: rest)
  | escape {c : CodePoint} {rest : List CodePoint} (hrest : Tidy single rest) :
      Tidy single (char '\\' :: c :: rest)
  | backslash : Tidy single [char '\\']
  | string {inner rest : List CodePoint} (hinner : isContent inner = true)
      (hrest : Tidy single rest) :
      Tidy single (char '"' :: inner ++ char '"' :: rest)
  | quote {rest : List CodePoint} (hopen : closes rest = false) (hrest : Tidy single rest) :
      Tidy single (char '"' :: rest)

section Passes

theorem uncommented_quote (hopen : closes rest = false) :
    uncommented .outside (char '"' :: rest) = char '"' :: uncommented .outside rest := by
  have hquote : uncommented .outside (char '"' :: rest) =
      char '"' :: uncommented (afterQuote .outside rest) rest := rfl
  simp [hquote, afterQuote, hopen]

theorem collapsed_quote (hopen : closes rest = false) :
    collapsed .outside (char '"' :: rest) = char '"' :: collapsed .outside rest := by
  have hquote : collapsed .outside (char '"' :: rest) =
      char '"' :: collapsed (afterQuote .outside rest) rest := rfl
  simp [hquote, afterQuote, hopen]

-- Both passes leave alone what they would leave.
theorem Tidy.uncommented_eq (h : Tidy single cs) : uncommented .outside cs = cs := by
  induction h with
  | nil => rfl
  | plain hquote hescape hcomment _ _ ih => rw [uncommented_outside_cons hquote hescape hcomment, ih]
  | escape _ ih => simp only [uncommented, ih]
  | backslash => rfl
  | string hinner _ ih => rw [uncommented_string hinner, ih]
  | quote hopen _ ih => rw [uncommented_quote hopen, ih]

theorem Tidy.collapsed_eq (h : Tidy true cs) : collapsed .outside cs = cs := by
  induction h with
  | nil => rfl
  | @plain c rest hquote hescape _ hblank _ ih =>
      rw [collapsed_outside_cons hquote hescape, ih]
      by_cases hc : isBlank c = true
      · obtain ⟨rfl, hstarts⟩ := hblank rfl hc
        simp [hc, hstarts]
      · simp [hc]
  | escape _ ih => simp only [collapsed, ih]
  | backslash => rfl
  | string hinner _ ih => rw [collapsed_string hinner, ih]
  | quote hopen _ ih => rw [collapsed_quote hopen, ih]

-- A comment ends with its line or with the text.
theorem uncommented_comment_cases (cs : List CodePoint) : uncommented .comment cs = [] ∨
    ∃ line rest, cs = line ++ char '\n' :: rest ∧
      uncommented .comment cs = char '\n' :: uncommented .outside rest := by
  induction cs with
  | nil => exact .inl rfl
  | cons c cs ih =>
      by_cases hc : c = '\n'
      · subst hc
        exact .inr ⟨[], cs, rfl, rfl⟩
      · have hskip : uncommented .comment (c :: cs) = uncommented .comment cs := by
          rw [uncommented]
          exact hc
        rw [hskip]
        rcases ih with hnil | ⟨line, rest, rfl, hrest⟩
        · exact .inl hnil
        · exact .inr ⟨c :: line, rest, rfl, hrest⟩

-- A text without a comment in front keeps its first character.
theorem head?_uncommented (h : cs.head? ≠ some (char '/')) :
    (uncommented .outside cs).head? = cs.head? := by
  cases cs with
  | nil => rfl
  | cons c rest =>
      by_cases hescape : c = '\\'
      · subst hescape
        cases rest <;> rfl
      · by_cases hquote : c = '"'
        · subst hquote
          rfl
        · rw [uncommented_outside_cons hquote hescape fun hc => absurd (congrArg some hc) h]
          rfl

-- What is left of a text without its comments is tidy, and a quote that opened no string still
-- opens none. The induction is on the length, since a string or a comment is passed at once.
theorem tidy_uncommented (cs : List CodePoint) : Tidy false (uncommented .outside cs) ∧
    (closes cs = false → closes (uncommented .outside cs) = false) := by
  induction hn : cs.length using Nat.strongRecOn generalizing cs with
  | ind n ih =>
  subst hn
  have hshorter (rest : List CodePoint) (hrest : rest.length < cs.length) := ih _ hrest rest rfl
  clear ih
  cases cs with
  | nil => exact ⟨.nil, id⟩
  | cons c rest =>
      by_cases hescape : c = '\\'
      · subst hescape
        cases rest with
        | nil => exact ⟨.backslash, id⟩
        | cons d rest =>
            obtain ⟨htidy, hcloses⟩ := hshorter rest (by simp only [List.length_cons]; omega)
            exact ⟨.escape htidy, hcloses⟩
      by_cases hquote : c = '"'
      · subst hquote
        refine ⟨?_, nofun⟩
        cases hopen : closes rest with
        | true =>
            obtain ⟨inner, more, hinner, rfl⟩ := exists_content_of_closes hopen
            rw [← List.cons_append, uncommented_string hinner]
            exact .string hinner (hshorter more (by simp; omega)).1
        | false =>
            obtain ⟨htidy, hcloses⟩ := hshorter rest (by simp)
            rw [uncommented_quote hopen]
            exact .quote (hcloses hopen) htidy
      by_cases hcomment : c = '/' → rest.head? ≠ some (char '/')
      · obtain ⟨htidy, hcloses⟩ := hshorter rest (by simp)
        rw [uncommented_outside_cons hquote hescape hcomment, closes_cons hquote hescape,
          closes_cons hquote hescape]
        refine ⟨.plain hquote hescape (fun hc => ?_) nofun htidy, hcloses⟩
        rw [head?_uncommented (hcomment hc)]
        exact hcomment hc
      · obtain ⟨rfl, hslash⟩ := Classical.not_imp.mp hcomment
        obtain ⟨more, rfl⟩ := List.head?_eq_some_iff.mp (not_not.mp hslash)
        have hskip : uncommented .outside (char '/' :: char '/' :: more) =
            uncommented .comment more := rfl
        rw [hskip]
        rcases uncommented_comment_cases more with hnil | ⟨line, rest, rfl, hrest⟩
        · rw [hnil]
          exact ⟨.nil, fun _ => rfl⟩
        · obtain ⟨htidy, hcloses⟩ := hshorter rest (by simp; omega)
          rw [hrest]
          refine ⟨.plain (by decide) (by decide) (by simp) nofun htidy, fun hopen => hcloses ?_⟩
          rw [← Bool.not_eq_true] at hopen ⊢
          exact fun hclosed => hopen (closes_line hclosed)

theorem startsBlank_cons : startsBlank (c :: rest) = isBlank c := rfl

theorem startsBlank_eq (cs : List CodePoint) : startsBlank cs = cs.head?.any isBlank := by
  cases cs <;> rfl

-- The first character of a run of blanks becomes a space.
theorem head?_collapsed (cs : List CodePoint) :
    (collapsed .outside cs).head? = if startsBlank cs then some (char ' ') else cs.head? := by
  induction cs with
  | nil => rfl
  | cons c rest ih =>
      by_cases hescape : c = '\\'
      · subst hescape
        cases rest <;> rfl
      by_cases hquote : c = '"'
      · subst hquote
        rfl
      rw [collapsed_outside_cons hquote hescape]
      by_cases hc : isBlank c = true
      · by_cases hrest : startsBlank rest = true
        · simp [startsBlank_cons, hc, hrest, ih]
        · simp [startsBlank_cons, hc, hrest]
      · simp [startsBlank_cons, hc]

-- What is left of a text without comments once its blanks are collapsed is tidy.
theorem Tidy.collapsed (h : Tidy single cs) : Tidy true (collapsed .outside cs) ∧
    (closes cs = false → closes (Layout.collapsed .outside cs) = false) := by
  induction h with
  | nil => exact ⟨.nil, id⟩
  | @plain c rest hquote hescape hcomment _ _ ih =>
      obtain ⟨htidy, hcloses⟩ := ih
      have hhead := head?_collapsed rest
      rw [collapsed_outside_cons hquote hescape, closes_cons hquote hescape]
      by_cases hc : isBlank c = true
      · cases hrest : startsBlank rest with
        | true => simpa [hc] using ⟨htidy, hcloses⟩
        | false =>
            rw [hrest] at hhead
            have hstarts : startsBlank (Layout.collapsed .outside rest) = false := by
              rw [startsBlank_eq, hhead, if_neg Bool.false_ne_true, ← startsBlank_eq, hrest]
            have hspace : Tidy true (char ' ' :: Layout.collapsed .outside rest) :=
              .plain (by decide) (by decide) (by simp) (fun _ _ => ⟨rfl, hstarts⟩) htidy
            simpa [hc] using ⟨hspace, hcloses⟩
      · have hslash : c = '/' → (Layout.collapsed .outside rest).head? ≠ some (char '/') := by
          intro hc
          rw [hhead]
          split_ifs
          · simp
          · exact hcomment hc
        have hkept : Tidy true (c :: Layout.collapsed .outside rest) :=
          .plain hquote hescape hslash (fun _ hblank => absurd hblank hc) htidy
        rw [if_pos (by simpa using hc), closes_cons hquote hescape]
        exact ⟨hkept, hcloses⟩
  | escape _ ih => exact ⟨.escape ih.1, ih.2⟩
  | backslash => exact ⟨.backslash, id⟩
  | string hinner _ ih =>
      rw [collapsed_string hinner]
      exact ⟨.string hinner ih.1, nofun⟩
  | quote hopen _ ih =>
      rw [collapsed_quote hopen]
      exact ⟨.quote (ih.2 hopen) ih.1, nofun⟩

end Passes

namespace Tidy

theorem tail (h : Tidy single (c :: rest)) (hquote : c ≠ '"') (hescape : c ≠ '\\') :
    Tidy single rest := by
  cases h with
  | plain _ _ _ _ hrest => exact hrest
  | escape => exact absurd rfl hescape
  | backslash => exact absurd rfl hescape
  | string => exact absurd rfl hquote
  | quote => exact absurd rfl hquote

-- What is left when some characters in front are dropped, if none of them opens anything.
theorem of_append_right (h : Tidy single (cs ++ rest)) (hcs : ∀ c ∈ cs, c ≠ '"' ∧ c ≠ '\\') :
    Tidy single rest := by
  induction cs with
  | nil => exact h
  | cons c cs ih =>
      obtain ⟨⟨hquote, hescape⟩, hcs⟩ := List.forall_mem_cons.mp hcs
      exact ih (tail h hquote hescape) hcs

-- A plain character may stand in front of the start of what it stood in front of.
theorem plain_of_append (hquote : c ≠ '"') (hescape : c ≠ '\\')
    (hcomment : c = '/' → (cs ++ rest).head? ≠ some (char '/'))
    (hblank : single = true → isBlank c = true → c = ' ' ∧ startsBlank (cs ++ rest) = false)
    (hcs : Tidy single cs) : Tidy single (c :: cs) := by
  refine .plain hquote hescape (fun hc hhead => ?_) (fun hsingle hc => ?_) hcs
  · obtain ⟨more, rfl⟩ := List.head?_eq_some_iff.mp hhead
    exact hcomment hc rfl
  · obtain ⟨hspace, hstarts⟩ := hblank hsingle hc
    refine ⟨hspace, ?_⟩
    rw [← Bool.not_eq_true] at hstarts ⊢
    exact fun hblank => hstarts (startsBlank_append_left hblank)

-- What is left when some characters at the end are dropped, if no quote is among them. It may end
-- in a backslash that has lost its character.
theorem of_append_left (h : Tidy single (cs ++ more)) (hmore : char '"' ∉ more) :
    Tidy single cs := by
  generalize htext : cs ++ more = text at h
  induction h generalizing cs with
  | nil =>
      rw [(List.append_eq_nil_iff.mp htext).1]
      exact .nil
  | plain hquote hescape hcomment hblank _ ih =>
      rcases List.append_eq_cons_iff.mp htext with ⟨rfl, -⟩ | ⟨cs, rfl, rfl⟩
      · exact .nil
      · exact plain_of_append hquote hescape hcomment hblank (ih rfl)
  | @escape c rest _ ih =>
      rcases List.append_eq_cons_iff.mp htext with ⟨rfl, -⟩ | ⟨cs, rfl, hrest⟩
      · exact .nil
      · rcases List.append_eq_cons_iff.mp hrest.symm with ⟨rfl, -⟩ | ⟨cs, rfl, rfl⟩
        · exact .backslash
        · exact .escape (ih rfl)
  | backslash =>
      rcases List.append_eq_cons_iff.mp htext with ⟨rfl, -⟩ | ⟨cs, rfl, hrest⟩
      · exact .nil
      · rw [(List.append_eq_nil_iff.mp hrest.symm).1]
        exact .backslash
  | @string inner rest hinner _ ih =>
      rcases List.append_eq_cons_iff.mp htext with ⟨rfl, -⟩ | ⟨cs, rfl, hrest⟩
      · exact .nil
      · have hrest : inner ++ char '"' :: rest = cs ++ more := hrest
        have hclosed : closes (inner ++ char '"' :: rest) = true := closes_content hinner
        rw [hrest] at hclosed
        obtain ⟨inner', cs, hinner', rfl⟩ :=
          exists_content_of_closes (closes_of_append hmore hclosed)
        rw [append_cons_append] at hrest
        obtain ⟨rfl, rfl⟩ := content_inj hinner hinner' hrest
        exact .string hinner (ih rfl)
  | quote hopen _ ih =>
      rcases List.append_eq_cons_iff.mp htext with ⟨rfl, -⟩ | ⟨cs, rfl, rfl⟩
      · exact .nil
      · refine .quote ?_ (ih rfl)
        rw [← Bool.not_eq_true] at hopen ⊢
        exact fun hclosed => hopen (closes_append hclosed)

-- Where a scan of the nesting has nothing pending, a tidy text comes apart.
theorem split {groups : List Bracket} {s : Nesting} (h : Tidy single (cs ++ more))
    (hs : s.pending = .nothing) (hwalk : Nesting.walk ⟨groups, .nothing⟩ cs = .ok s) :
    Tidy single cs ∧ Tidy single more := by
  generalize htext : cs ++ more = text at h
  induction h generalizing cs groups with
  | nil =>
      obtain ⟨rfl, rfl⟩ := List.append_eq_nil_iff.mp htext
      exact ⟨.nil, .nil⟩
  | plain hquote hescape hcomment hblank hrest ih =>
      rcases List.append_eq_cons_iff.mp htext with ⟨rfl, rfl⟩ | ⟨cs, rfl, rfl⟩
      · exact ⟨.nil, .plain hquote hescape hcomment hblank hrest⟩
      · obtain ⟨next, hstep, hwalk⟩ := bind_eq_ok.mp hwalk
        obtain ⟨groups', rfl⟩ := Nesting.exists_step_ordinary hquote hescape hstep
        obtain ⟨hcs, hmore⟩ := ih hwalk rfl
        exact ⟨plain_of_append hquote hescape hcomment hblank hcs, hmore⟩
  | @escape c rest hrest ih =>
      rcases List.append_eq_cons_iff.mp htext with ⟨rfl, rfl⟩ | ⟨cs, rfl, hcs⟩
      · exact ⟨.nil, .escape hrest⟩
      · rcases List.append_eq_cons_iff.mp hcs.symm with ⟨rfl, -⟩ | ⟨cs, rfl, rfl⟩
        · cases hwalk
          cases hs
        · have hrest : Nesting.walk ⟨groups, .nothing⟩ cs = .ok s := hwalk
          obtain ⟨hcs, hmore⟩ := ih hrest rfl
          exact ⟨.escape hcs, hmore⟩
  | backslash =>
      rcases List.append_eq_cons_iff.mp htext with ⟨rfl, rfl⟩ | ⟨cs, rfl, hcs⟩
      · exact ⟨.nil, .backslash⟩
      · rw [(List.append_eq_nil_iff.mp hcs.symm).1] at hwalk
        cases hwalk
        cases hs
  | @string inner rest hinner hrest ih =>
      rcases List.append_eq_cons_iff.mp htext with ⟨rfl, rfl⟩ | ⟨cs, rfl, hcs⟩
      · exact ⟨.nil, .string hinner hrest⟩
      · have hstring : Nesting.walk ⟨groups, .quote⟩ cs = .ok s := hwalk
        obtain ⟨inner', cs, hinner', rfl, hafter⟩ := exists_content_of_walk hs hstring
        have hcs : inner ++ char '"' :: rest = inner' ++ char '"' :: cs ++ more := hcs
        rw [append_cons_append] at hcs
        obtain ⟨rfl, rfl⟩ := content_inj hinner hinner' hcs
        obtain ⟨hcs, hmore⟩ := ih hafter rfl
        exact ⟨.string hinner hcs, hmore⟩
  | quote hopen hrest ih =>
      rcases List.append_eq_cons_iff.mp htext with ⟨rfl, rfl⟩ | ⟨cs, rfl, rfl⟩
      · exact ⟨.nil, .quote hopen hrest⟩
      · have hstring : Nesting.walk ⟨groups, .quote⟩ cs = .ok s := hwalk
        obtain ⟨inner, cs, hinner, rfl, -⟩ := exists_content_of_walk hs hstring
        rw [append_cons_append, closes_content hinner] at hopen
        cases hopen

theorem trim_tidy (h : Tidy single cs) : Tidy single (trim cs) := by
  obtain ⟨before, after, hcs, hbefore, hafter⟩ := exists_eq_trim cs
  rw [List.all_eq_true] at hbefore hafter
  rw [hcs] at h
  have hquote : char '"' ∉ after := fun hmem => (ne_of_isBlank (hafter '"' hmem)).1 rfl
  refine (h.of_append_left hquote).of_append_right fun c hc => ?_
  obtain ⟨hquote, hescape, -⟩ := ne_of_isBlank (hbefore c hc)
  exact ⟨hquote, hescape⟩

-- What stands between brackets, whether they belong together or not.
theorem content {b : Bracket} (h : Tidy single (b.opener :: cs ++ [b.closer])) : Tidy single cs := by
  have hfirst : b.opener ≠ '"' ∧ b.opener ≠ '\\' := by cases b <;> decide
  have hlast : char '"' ∉ [b.closer] := by cases b <;> decide
  exact (h.of_append_left hlast).tail hfirst.1 hfirst.2

-- A piece that is cut out between separators.
theorem piece {separates : CodePoint → Bool} {pieces : List (List CodePoint)} (h : Tidy single cs)
    (hseparates : ∀ c, separates c = true → Nesting.isPlain c = true)
    (hcut : Nesting.cut separates .start cs = .ok pieces) (hpiece : rest ∈ pieces) :
    Tidy single rest := by
  obtain ⟨-, hpieces⟩ := Nesting.exists_of_mem_cut hseparates hcut
  obtain ⟨before, after, rfl, hbefore, hthrough⟩ := hpieces rest hpiece
  rw [List.append_assoc] at h
  obtain ⟨-, h⟩ := h.split rfl hbefore
  exact (h.split rfl (Nesting.walk_of_through hthrough)).1

theorem canonical_eq (h : Tidy true cs) : canonical cs = trim cs := by
  rw [canonical, stripComments, h.uncommented_eq, collapseBlanks, h.collapsed_eq]

end Tidy

theorem tidy_canonical (cs : List CodePoint) : Tidy true (canonical cs) :=
  (tidy_uncommented cs).1.collapsed.1.trim_tidy

end FrameNotation.Layout
