import FrameNotation.Proofs.Notation.Carried
import FrameNotation.Proofs.Notation.Grammar

namespace FrameNotation

open Text Writer Layout

variable {cs before after content : List CodePoint}

theorem Token.unescape_cons {c : CodePoint} (hc : c ≠ '\\') :
    Token.unescape (c :: cs) = c :: Token.unescape cs := by
  rw [Token.unescape]
  rintro _ _ rfl
  exact absurd rfl hc

namespace Layout.Strand

variable {rule : Rule} {s t : Strand} {previous last : Option CodePoint} {c : CodePoint}

-- What a scan of the nesting has pending where this scan stands.
def pending : Strand → Pending
  | .bare _ => .nothing
  | .string _ => .quote
  | .escape _ => .quotedEscape

theorem step_pending {n m : Nesting} (h : step rule s c = some t) (hn : n.pending = s.pending)
    (hstep : n.step c = .ok m) : m.pending = t.pending := by
  obtain ⟨groups, pending⟩ := n
  cases hn
  cases s with
  | bare previous =>
      simp only [step] at h
      split_ifs at h with hquote hadmits
      · cases h
        subst hquote
        cases hstep
        rfl
      · cases h
        have hescape := (Rule.admits_iff.mp hadmits).1
        obtain ⟨groups', rfl⟩ := Nesting.exists_step_ordinary hquote hescape hstep
        rfl
  | string content =>
      simp only [step] at h
      simp only [Nesting.step] at hstep
      split_ifs at h hstep <;> cases h <;> cases hstep <;> rfl
  | escape content =>
      cases h
      cases hstep
      rfl

-- Both scans are outside strings together.
theorem run_pending {n m : Nesting} (h : run rule s cs = some t) (hn : n.pending = s.pending)
    (hwalk : Nesting.walk n cs = .ok m) : m.pending = t.pending := by
  induction cs generalizing s n with
  | nil =>
      cases h
      cases hwalk
      exact hn
  | cons c rest ih =>
      obtain ⟨s', hs, hrest⟩ := Option.bind_eq_some_iff.mp h
      obtain ⟨n', hstep, hwalk⟩ := bind_eq_ok.mp hwalk
      exact ih hrest (step_pending hs hn hstep) hwalk

-- A text that lies outside strings at both of its ends.
def IsBare (rule : Rule) (cs : List CodePoint) : Prop :=
  ∃ previous last, run rule (.bare previous) cs = some (.bare last)

theorem exists_bare (h : s.pending = .nothing) : ∃ previous, s = .bare previous := by
  cases s with
  | bare previous => exact ⟨previous, rfl⟩
  | string content => cases h
  | escape content => cases h

theorem exists_run_of_append (h : run rule s (cs ++ after) = some t) :
    ∃ u, run rule s cs = some u ∧ run rule u after = some t := by
  rw [run_append] at h
  exact Option.bind_eq_some_iff.mp h

-- Without a quote there is no way out of a string.
theorem exists_bare_of_run (hcs : ∀ c ∈ cs, c ≠ '"') (h : run rule s cs = some (.bare last)) :
    ∃ previous, s = .bare previous := by
  induction cs generalizing s with
  | nil =>
      cases h
      exact ⟨last, rfl⟩
  | cons c rest ih =>
      obtain ⟨next, hstep, hrest⟩ := Option.bind_eq_some_iff.mp h
      obtain ⟨_, rfl⟩ := ih (fun d hd => hcs d (by simp [hd])) hrest
      cases s with
      | bare previous => exact ⟨previous, rfl⟩
      | string content =>
          rw [step, if_neg (hcs c (by simp))] at hstep
          split_ifs at hstep <;> cases hstep
      | escape content => cases hstep

-- And without a quote there is no way into one.
theorem run_quoteless (hcs : ∀ c ∈ cs, c ≠ '"') (h : run rule (.bare previous) cs = some t) :
    ∃ last, t = .bare last := by
  induction cs generalizing previous with
  | nil =>
      cases h
      exact ⟨previous, rfl⟩
  | cons c rest ih =>
      exact ih (fun d hd => hcs d (by simp [hd])) (run_bare_cons (hcs c (by simp)) h).2

theorem IsBare.inner (h : IsBare rule (before ++ cs ++ after)) (hbefore : ∀ c ∈ before, c ≠ '"')
    (hafter : ∀ c ∈ after, c ≠ '"') : IsBare rule cs := by
  obtain ⟨previous, last, h⟩ := h
  obtain ⟨t, h, hlast⟩ := exists_run_of_append h
  obtain ⟨s, hfirst, h⟩ := exists_run_of_append h
  obtain ⟨previous', rfl⟩ := run_quoteless hbefore hfirst
  obtain ⟨last', rfl⟩ := exists_bare_of_run hafter hlast
  exact ⟨previous', last', h⟩

-- Between balanced parts a text lies outside strings.
theorem IsBare.between (h : IsBare rule (before ++ cs ++ after))
    (hbefore : Nesting.walk .start before = .ok .start)
    (hcs : Nesting.walk .start cs = .ok .start) : IsBare rule cs := by
  obtain ⟨previous, last, h⟩ := h
  obtain ⟨t, h, -⟩ := exists_run_of_append h
  obtain ⟨s, hfirst, h⟩ := exists_run_of_append h
  obtain ⟨previous', rfl⟩ := exists_bare (run_pending hfirst rfl hbefore).symm
  obtain ⟨last', rfl⟩ := exists_bare (run_pending h rfl hcs).symm
  exact ⟨previous', last', h⟩

-- A quoted token holds its content up to the quote that ends it, and a scan collects that content
-- without its escapes.
theorem run_upToFinalQuote? (h : Token.upToFinalQuote? cs = some content) :
    cs = content ++ [char '"'] ∧ ∀ collected, run rule (.string collected) content =
      some (.string ((Token.unescape content).reverse ++ collected)) := by
  fun_induction Token.upToFinalQuote? cs generalizing content with
  | case1 =>
      cases h
      exact ⟨rfl, fun collected => rfl⟩
  | case2 => cases h
  | case3 c rest ih =>
      obtain ⟨inner, hinner, rfl⟩ := Option.map_eq_some_iff.mp h
      obtain ⟨rfl, hrun⟩ := ih hinner
      refine ⟨rfl, fun collected => ?_⟩
      have hescaped : run rule (.string collected) (char '\\' :: c :: inner) =
          run rule (.string (c :: collected)) inner := rfl
      rw [hescaped, hrun, Token.unescape, List.reverse_cons, List.append_assoc]
      rfl
  | case4 => cases h
  | case5 c rest _ hquote hpair hlone ih =>
      obtain ⟨inner, hinner, rfl⟩ := Option.map_eq_some_iff.mp h
      obtain ⟨rfl, hrun⟩ := ih hinner
      refine ⟨rfl, fun collected => ?_⟩
      have hescape : c ≠ '\\' := by
        intro hc
        cases inner with
        | nil => exact hpair _ _ hc rfl
        | cons d more => exact hpair _ _ hc rfl
      have hstep : step rule (.string collected) c = some (.string (c :: collected)) := by
        rw [step, if_neg hquote, if_neg hescape]
      rw [run_cons, hstep, Token.unescape_cons hescape, List.reverse_cons, List.append_assoc]
      exact hrun (c :: collected)
  | case6 => cases h

theorem holds_of_quotedContent? (h : IsBare rule cs)
    (hcs : Token.quotedContent? cs = some content) :
    rule.holds (Token.unescape content) = true := by
  obtain ⟨previous, last, hrun⟩ := h
  cases cs with
  | nil => cases hcs
  | cons c rest =>
      rw [Token.quotedContent?.eq_def] at hcs
      split at hcs
      · rename_i rest' hquote
        cases hquote
        obtain ⟨rfl, hcontent⟩ : rest = content ++ [char '"'] ∧ ∀ collected,
            run rule (.string collected) content =
              some (.string ((Token.unescape content).reverse ++ collected)) :=
          run_upToFinalQuote? hcs
        have hopened : run rule (.bare previous) (char '"' :: (content ++ [char '"'])) =
            run rule (.string []) (content ++ [char '"']) := rfl
        rw [hopened] at hrun
        obtain ⟨s, hs, hlast⟩ := exists_run_of_append hrun
        cases (hcontent []).symm.trans hs
        rw [run_cons, step, if_pos rfl, List.append_nil, List.reverse_reverse] at hlast
        split_ifs at hlast with hholds
        · exact hholds
        · cases hlast
      · cases hcs

end Layout.Strand

-- A part of written text that can stand alone: it lies outside strings and leaves nothing open.
structure IsPart (cs : List CodePoint) : Prop where
  bare : Strand.IsBare writtenRule cs
  walk_eq : Nesting.walk .start cs = .ok .start

theorem ne_quote_of_isPlain {c : CodePoint} (hc : Nesting.isPlain c = true) : c ≠ '"' := by
  rintro rfl
  exact absurd hc (by decide)

theorem Nesting.peak_le_between {before after : List CodePoint}
    (hbefore : walk start before = .ok start)
    (hcs : walk start cs = .ok start) : peak start cs ≤ peak start (before ++ cs ++ after) := by
  rw [List.append_assoc, peak_append hbefore, peak_append hcs]
  omega

-- What is left of a part without plain characters at its ends is a part.
theorem IsPart.inner (h : IsPart (before ++ cs ++ after))
    (hbefore : ∀ c ∈ before, Nesting.isPlain c = true)
    (hafter : ∀ c ∈ after, Nesting.isPlain c = true) :
    IsPart cs ∧ Nesting.peak .start cs ≤ Nesting.peak .start (before ++ cs ++ after) := by
  have hbare : Strand.IsBare writtenRule cs :=
    h.bare.inner (fun c hc => ne_quote_of_isPlain (hbefore c hc))
      fun c hc => ne_quote_of_isPlain (hafter c hc)
  have hstart : Nesting.walk .start before = .ok .start := Nesting.walk_plain hbefore
  have hwalk := h.walk_eq
  rw [List.append_assoc, Nesting.walk_append, hstart, ok_bind, Nesting.walk_append] at hwalk
  obtain ⟨⟨groups, pending⟩, hcs, hend⟩ := bind_eq_ok.mp hwalk
  obtain ⟨previous, last, hrun⟩ := hbare
  cases (Strand.run_pending hrun rfl hcs : pending = .nothing)
  rw [Nesting.walk_plain hafter] at hend
  cases hend
  exact ⟨⟨⟨previous, last, hrun⟩, hcs⟩, Nesting.peak_le_between hstart hcs⟩

theorem IsPart.trim_part (h : IsPart cs) :
    IsPart (trim cs) ∧ Nesting.peak .start (trim cs) ≤ Nesting.peak .start cs := by
  obtain ⟨before, after, hcs, hbefore, hafter⟩ := exists_eq_trim cs
  rw [hcs] at h
  rw [List.all_eq_true] at hbefore hafter
  have hinner := h.inner (fun c hc => isPlain_of_isBlank (hbefore c hc))
    fun c hc => isPlain_of_isBlank (hafter c hc)
  rwa [← hcs] at hinner

theorem IsPart.source {token : List CodePoint} (h : IsPart token)
    (hsource : Reader.IsSource token cs) :
    IsPart cs ∧ Nesting.peak .start cs ≤ Nesting.peak .start token := by
  rcases hsource with rfl | ⟨role, hsplit⟩
  · exact ⟨h, Nat.le_refl _⟩
  · obtain ⟨rfl, hrole⟩ := Token.roleSplit?_eq_some hsplit
    have hplain : ∀ c ∈ role ++ [char ':'], Nesting.isPlain c = true := by
      intro c hc
      rcases List.mem_append.mp hc with hc | hc
      · exact isPlain_of_isRoleChar (hrole c hc)
      · cases List.mem_singleton.mp hc
        rfl
    have happend : role ++ char ':' :: cs = role ++ [char ':'] ++ cs ++ [] := by simp
    rw [happend] at h ⊢
    exact h.inner hplain (by simp)

-- A group that is a part holds text outside strings, and if that is balanced, it is less deep.
theorem IsPart.group {b : Bracket} (h : IsPart (b.opener :: content ++ [b.closer])) :
    Strand.IsBare writtenRule content := by
  have happend : b.opener :: content ++ [b.closer] = [b.opener] ++ content ++ [b.closer] := by simp
  have hbare := h.bare
  rw [happend] at hbare
  refine hbare.inner (fun c hc => ?_) fun c hc => ?_
  · cases List.mem_singleton.mp hc
    cases b <;> decide
  · cases List.mem_singleton.mp hc
    cases b <;> decide

theorem isPart_of_mem_cut {separates : CodePoint → Bool} {pieces : List (List CodePoint)}
    (hbare : Strand.IsBare writtenRule content)
    (hseparates : ∀ c, separates c = true → Nesting.isPlain c = true)
    (h : Nesting.cut separates .start content = .ok pieces) {piece : List CodePoint}
    (hpiece : piece ∈ pieces) :
    IsPart piece ∧ Nesting.peak .start piece ≤ Nesting.peak .start content := by
  obtain ⟨-, hpieces⟩ := Nesting.exists_of_mem_cut hseparates h
  obtain ⟨before, after, rfl, hbefore, hthrough⟩ := hpieces piece hpiece
  have hwalk := Nesting.walk_of_through hthrough
  exact ⟨⟨hbare.between hbefore hwalk, hwalk⟩, Nesting.peak_le_between hbefore hwalk⟩

-- Values whose bare references come back, whatever else they hold.
def Limits.stable : Limits where
  number _ := True
  text s := IsStable s.toList
  role _ := True
  void := True

-- What is read from a part: a value that comes back, no deeper than the part.
structure Settled (value : Value) (cs : List CodePoint) : Prop where
  within : value.Within .stable
  depth_le : value.depth ≤ Nesting.peak .start cs

theorem Settled.mono {value : Value} {more : List CodePoint} (h : Settled value cs)
    (hpeak : Nesting.peak .start cs ≤ Nesting.peak .start more) : Settled value more :=
  ⟨h.within, Nat.le_trans h.depth_le hpeak⟩

theorem settled_text {s : Str} (hstable : IsStable s.toList)
    (hdepth : isBareReference s.toList = true →
      Nesting.peak .start s.toList ≤ Nesting.peak .start cs) : Settled (.text s) cs := by
  refine ⟨.text s hstable, ?_⟩
  unfold Value.depth
  split_ifs with hbare
  · exact hdepth hbare
  · exact Nat.zero_le _

theorem settled_of_not_bare {s : Str} (h : isBareReference s.toList = false) :
    Settled (.text s) cs :=
  settled_text (fun hbare => by simp [h] at hbare) fun hbare => by simp [h] at hbare

theorem head?_of_isBareReference (h : isBareReference cs = true) :
    cs.head? = some referenceMark := by
  obtain ⟨rest, -, rfl | rfl⟩ := isBareReference_cases h <;> rfl

-- Outside strings there is no backslash, so a text that is read as it stands keeps its first
-- character.
theorem head?_unescape (h : Strand.IsBare writtenRule cs) :
    (Token.unescape cs).head? = cs.head? := by
  cases cs with
  | nil => rfl
  | cons c rest =>
      have hescape : c ≠ '\\' := by
        rintro rfl
        obtain ⟨previous, last, hrun⟩ := h
        have hadmits := (Strand.run_bare_cons (by decide) hrun).1
        exact (Strand.Rule.admits_iff.mp hadmits).1 rfl
      rw [Token.unescape_cons hescape]
      rfl

-- A scalar that is read from a part is settled, if the part does not end in a newline.
theorem settled_scalar {value : Value} (hpart : IsPart cs) (hlast : cs.getLast? ≠ some (char '\n'))
    (h : Token.scalar cs = .ok value) : Settled value cs := by
  unfold Token.scalar at h
  split at h
  · rename_i content hcontent
    cases h
    have hholds := Strand.holds_of_quotedContent? hpart.bare hcontent
    apply settled_of_not_bare
    rw [Str.toList_ofList]
    simpa [writtenRule] using hholds
  · split at h
    · obtain ⟨n, -, rfl⟩ := map_eq_ok.mp h
      exact ⟨.number n trivial, Nat.zero_le _⟩
    · split_ifs at h with htrue hfalse hmark
      · cases h
        exact ⟨.bool true, Nat.zero_le _⟩
      · cases h
        exact ⟨.bool false, Nat.zero_le _⟩
      · cases h
        refine settled_text ?_ ?_
        · rw [Str.toList_ofList]
          exact fun _ => ⟨hpart.walk_eq, hlast⟩
        · rw [Str.toList_ofList]
          exact fun _ => Nat.le_refl _
      · cases h
        apply settled_of_not_bare
        rw [Str.toList_ofList, ← Bool.not_eq_true]
        intro hbare
        have hhead := head?_of_isBareReference hbare
        rw [head?_unescape hpart.bare] at hhead
        exact hmark hhead

theorem depthOfEntries_le {entries : List (Str × Value)} {bound : Nat}
    (h : ∀ entry ∈ entries, entry.2.depth ≤ bound) : Value.depthOfEntries entries ≤ bound := by
  induction entries with
  | nil => exact Nat.zero_le bound
  | cons entry rest ih =>
      unfold Value.depthOfEntries
      exact Nat.max_le.mpr ⟨h entry (by simp), ih fun other hother => h other (by simp [hother])⟩

theorem depthOfItems_le {items : List Value} {bound : Nat}
    (h : ∀ item ∈ items, item.depth ≤ bound) : Value.depthOfItems items ≤ bound := by
  induction items with
  | nil => exact Nat.zero_le bound
  | cons item rest ih =>
      unfold Value.depthOfItems
      exact Nat.max_le.mpr ⟨h item (by simp), ih fun other hother => h other (by simp [hother])⟩

-- A frame is settled if whatever is read from its parts is.
theorem settled_frame {read : List CodePoint → Except Failure Value} {node : Frame}
    (hbare : Strand.IsBare writtenRule (canonical cs)) (h : Reader.frame read cs = .ok node)
    (hread : ∀ part value, IsPart part → read part = .ok value → Settled value part) :
    ∃ content, canonical cs = char '(' :: content ++ [char ')'] ∧
      Nesting.walk .start content = .ok .start ∧ node.depth ≤ Nesting.peak .start content ∧
      (Value.frame node).Within .stable := by
  obtain ⟨content, first, body, type, entries, hcontent, htokens, hentries, rfl⟩ :=
    Reader.frame_eq_ok h
  rw [hcontent] at hbare
  have hinner : Strand.IsBare writtenRule content := by
    have happend : char '(' :: content ++ [char ')'] =
        [char '('] ++ content ++ [char ')'] := by simp
    rw [happend] at hbare
    exact hbare.inner (by simp) (by simp)
  obtain ⟨pieces, hcut, hfound⟩ := tokens_eq_ok htokens
  have hplain (c : CodePoint) (hc : isBlank c = true) : Nesting.isPlain c = true :=
    isPlain_of_isBlank hc
  have hsettled : ∀ entry ∈ Entries.without entries [discriminant], Settled entry.2 content := by
    intro entry hentry
    obtain ⟨token, htoken, part, hsource, hvalue⟩ :=
      (hentries.isEntry entry (List.mem_of_mem_filter hentry)).source
    have hpiece : token ∈ pieces := by
      have hmem : token ∈ first :: body := by simp [htoken]
      rw [hfound] at hmem
      exact List.mem_of_mem_filter hmem
    obtain ⟨htoken, hdepth⟩ := isPart_of_mem_cut hinner hplain hcut hpiece
    obtain ⟨hpart, hless⟩ := htoken.source hsource
    exact (hread part _ hpart hvalue).mono (Nat.le_trans hless hdepth)
  refine ⟨content, hcontent, (Nesting.exists_of_mem_cut hplain hcut).1,
    depthOfEntries_le fun entry hentry => (hsettled entry hentry).depth_le, ?_⟩
  refine .frame type _ ?_ ?_ (fun _ _ _ => trivial) (fun _ _ _ => trivial)
    fun entry hentry _ => (hsettled entry hentry).within
  · exact hentries.nodup.sublist (List.Sublist.map _ List.filter_sublist)
  · exact Entries.notMem_without (List.mem_singleton_self discriminant)

-- The items of an array are settled if whatever is read from their parts is.
theorem settled_items {read : List CodePoint → Except Failure Value} {content : List CodePoint}
    {parts : List (List CodePoint)} {items : List Value} (hbare : Strand.IsBare writtenRule content)
    (hparts : FrameNotation.items content = .ok parts)
    (hitems : List.Forall₂ (fun part item => read part = .ok item) parts items)
    (hread : ∀ part value, IsPart part → read part = .ok value → Settled value part) :
    Nesting.walk .start content = .ok .start ∧ ∀ item ∈ items, Settled item content := by
  rcases items_eq_ok hparts with ⟨rfl, hblank⟩ | ⟨pieces, hcut, rfl, -⟩
  · cases hitems
    rw [List.all_eq_true] at hblank
    exact ⟨Nesting.walk_plain fun c hc => isPlain_of_isBlank (hblank c hc), by simp⟩
  · have hplain (c : CodePoint) (hc : (c == ',') = true) := isPlain_of_isComma hc
    refine ⟨(Nesting.exists_of_mem_cut hplain hcut).1, ?_⟩
    intro item hitem
    obtain ⟨part, hpart, hvalue⟩ := exists_mem_of_forall₂ hitems hitem
    obtain ⟨piece, hpiece, rfl⟩ := List.mem_map.mp hpart
    obtain ⟨hpiece, hpeak⟩ := isPart_of_mem_cut hbare hplain hcut hpiece
    obtain ⟨htrimmed, hsmaller⟩ := hpiece.trim_part
    exact (hread _ item htrimmed hvalue).mono (Nat.le_trans hsmaller hpeak)

-- Whatever is read from a part is settled. The induction is on the levels that are left to read.
theorem settled_value {levels : Nat} {value : Value} (hpart : IsPart cs)
    (h : Reader.value levels cs = .ok value) : Settled value cs := by
  induction levels generalizing cs value with
  | zero => cases h
  | succ levels ih =>
      obtain ⟨htrim, hless⟩ := hpart.trim_part
      rcases Reader.value_eq_ok h with ⟨content, node, hgroup, rfl, hnode⟩ |
        ⟨content, parts, items, hgroup, rfl, hparts, hitems⟩ | ⟨-, hscalar⟩
      · refine Settled.mono ?_ hless
        have hcanonical : canonical (trim cs) = trim cs := by
          obtain ⟨previous, last, hrun⟩ := htrim.bare
          rw [Strand.canonical_of_run rfl hrun, hgroup]
          exact trim_group .round content
        obtain ⟨content, hcontent, hwalk, hdepth, hwithin⟩ :=
          settled_frame (by rw [hcanonical]; exact htrim.bare) hnode fun _ _ => ih
        rw [hcanonical] at hcontent
        have hgroup := htrim.walk_eq
        rw [hcontent] at hgroup
        refine ⟨hwithin, ?_⟩
        rw [hcontent, Value.depth]
        exact (Nat.succ_le_succ hdepth).trans_eq (Nesting.peak_group .round hwalk hgroup).symm
      · refine Settled.mono ?_ hless
        rw [hgroup] at htrim ⊢
        obtain ⟨hwalk, hsettled⟩ := settled_items (IsPart.group (b := .square) htrim) hparts hitems
          fun _ _ => ih
        refine ⟨.array items fun item hitem => (hsettled item hitem).within, ?_⟩
        have hdepth := depthOfItems_le fun item hitem => (hsettled item hitem).depth_le
        unfold Value.depth
        exact (Nat.succ_le_succ hdepth).trans_eq
          (Nesting.peak_group .square hwalk htrim.walk_eq).symm
      · refine (settled_scalar htrim ?_ hscalar).mono hless
        intro hlast
        have hblank : isBlank '\n' = false := getLast?_trimEnd hlast
        exact absurd hblank (by decide)

-- What is read from written text comes back when it is written again, as far as its references and
-- its depth go.
theorem Node.stable_of_read {frame : Frame} {previous last : Option CodePoint}
    (hrun : Strand.run ⟨true, writtenRule.holds⟩ (.bare previous) cs = some (.bare last))
    (h : Node.read cs = .ok frame) : frame.Within .stable ∧ frame.depth ≤ maxDepth := by
  have hbare : Strand.IsBare writtenRule (canonical cs) := by
    have hstripped : stripComments cs = cs := Strand.uncommented_of_run hrun
    obtain ⟨last', hcollapsed⟩ :
        ∃ last', Strand.run writtenRule (.bare none) (collapsed .outside cs) = some (.bare last') :=
      Strand.run_collapsed (by simp) (by simp) hrun
    obtain ⟨before, after, hcs, hbefore, hafter⟩ := exists_eq_trim (collapsed .outside cs)
    rw [hcs] at hcollapsed
    rw [List.all_eq_true] at hbefore hafter
    rw [canonical, hstripped, collapseBlanks]
    exact Strand.IsBare.inner ⟨none, last', hcollapsed⟩
      (fun c hc => ne_quote_of_isPlain (isPlain_of_isBlank (hbefore c hc)))
      fun c hc => ne_quote_of_isPlain (isPlain_of_isBlank (hafter c hc))
  obtain ⟨content, -, hwalk, hdepth, hwithin⟩ :=
    settled_frame hbare h fun _ _ => settled_value
  exact ⟨hwithin, Nat.le_trans hdepth (Nesting.peak_le_maxDepth hwalk (Nat.zero_le _))⟩

end FrameNotation
