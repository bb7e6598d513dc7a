import FrameNotation.Proofs.Notation.Layout
import FrameNotation.Proofs.Notation.Written

namespace FrameNotation

open Text

namespace Nesting

variable {s t : Nesting} {c : CodePoint} {cs more part group : List CodePoint}
variable {groups : List Bracket}

theorem isTop_eq_false_of_groups (h : s.groups ≠ []) : s.isTop = false := by
  rw [← Bool.not_eq_true, isTop_iff]
  rintro rfl
  exact h rfl

theorem isTop_eq_false_of_pending (h : s.pending ≠ .nothing) : s.isTop = false := by
  rw [← Bool.not_eq_true, isTop_iff]
  rintro rfl
  exact h rfl

theorem takeGroup_cons (hstep : s.step c = .ok t) (ht : t.isTop = false) :
    takeGroup s (c :: cs) = (takeGroup t cs).map (c :: ·) := by
  rw [takeGroup, hstep]
  simp [ht]

-- A group ends at its first character, or goes on after it.
theorem takeGroup_cons_eq_some : takeGroup s (c :: cs) = some group ↔ ∃ next, s.step c = .ok next ∧
    (next.isTop = true ∧ group = [c] ∨
      next.isTop = false ∧ ∃ part, takeGroup next cs = some part ∧ group = c :: part) := by
  constructor
  · intro h
    rw [takeGroup] at h
    cases hstep : s.step c with
    | error stuck =>
        rw [hstep] at h
        cases h
    | ok next =>
        simp only [hstep] at h
        split at h
        · cases h
          exact ⟨next, rfl, .inl ⟨by assumption, rfl⟩⟩
        · obtain ⟨part, hpart, rfl⟩ := Option.map_eq_some_iff.mp h
          exact ⟨next, rfl, .inr ⟨Bool.not_eq_true _ ▸ ‹¬next.isTop = true›, part, hpart, rfl⟩⟩
  · rintro ⟨next, hstep, ⟨htop, rfl⟩ | ⟨htop, part, hpart, rfl⟩⟩
    · rw [takeGroup, hstep]
      simp [htop]
    · rw [takeGroup_cons hstep htop, hpart]
      rfl

-- A group is not empty, and it starts like the text.
theorem head?_takeGroup (h : takeGroup s cs = some group) : group.head? = cs.head? := by
  cases cs with
  | nil => cases h
  | cons c cs =>
      obtain ⟨_, -, ⟨-, rfl⟩ | ⟨-, _, -, rfl⟩⟩ := takeGroup_cons_eq_some.mp h <;> rfl

theorem takeGroup_plain_append (hs : s.groups ≠ []) (hpending : s.pending = .nothing)
    (hcs : ∀ c ∈ cs, isPlain c = true) :
    takeGroup s (cs ++ more) = (takeGroup s more).map (cs ++ ·) := by
  obtain ⟨groups, pending⟩ := s
  cases hpending
  induction cs with
  | nil => simp
  | cons c cs ih =>
      obtain ⟨hc, hcs⟩ := List.forall_mem_cons.mp hcs
      rw [List.cons_append, takeGroup_cons (step_plain hc) (isTop_eq_false_of_groups hs), ih hcs,
        Option.map_map]
      rfl

-- Within open groups a text that is balanced to a state is taken as a whole.
theorem takeGroup_under {outer : List Bracket} (houter : outer ≠ []) (h : walk s cs = .ok t)
    (hroom : peak s cs + outer.length ≤ maxDepth) :
    takeGroup (s.under outer) (cs ++ more) = (takeGroup (t.under outer) more).map (cs ++ ·) := by
  induction cs generalizing s with
  | nil =>
      cases h
      simp
  | cons c cs ih =>
      obtain ⟨next, hstep, hrest⟩ := bind_eq_ok.mp h
      rw [peak_cons hstep] at hroom
      have hnext : next.groups.length ≤ peak next cs := groups_length_le_peak
      have hopen : (next.under outer).isTop = false :=
        isTop_eq_false_of_groups (by simp [under, houter])
      rw [List.cons_append, takeGroup_cons (step_under hstep (by omega)) hopen,
        ih hrest (by omega), Option.map_map]
      rfl

end Nesting

-- Balanced content and the parenthesis after it are the rest of a group.
theorem Nesting.takeGroup_content {content more : List CodePoint}
    (h : Nesting.walk .start content = .ok .start)
    (hroom : Nesting.peak .start content < maxDepth) :
    Nesting.takeGroup (Nesting.start.under [.round]) (content ++ char ')' :: more) =
      some (content ++ [char ')']) := by
  have hclose : (Nesting.start.under [.round]).step ')' = .ok .start := rfl
  rw [Nesting.takeGroup_under (List.cons_ne_nil _ []) h hroom, Nesting.takeGroup, hclose]
  rfl

theorem leadingGroup?_cons {cs : List CodePoint} : leadingGroup? (char '(' :: cs) =
    (Nesting.takeGroup (Nesting.start.under [.round]) cs).map (char '(' :: ·) := by
  have hopen : Nesting.start.step '(' = .ok (Nesting.start.under [.round]) := rfl
  rw [leadingGroup?, Nesting.takeGroup_cons hopen rfl]

-- A balanced text between parentheses is the group in front of whatever follows it.
theorem leadingGroup?_append {content more : List CodePoint}
    (h : Nesting.walk .start content = .ok .start)
    (hroom : Nesting.peak .start content < maxDepth) :
    leadingGroup? (char '(' :: content ++ char ')' :: more) =
      some (char '(' :: content ++ [char ')']) := by
  rw [List.cons_append, leadingGroup?_cons, Nesting.takeGroup_content h hroom]
  rfl

namespace Layout

open Nesting

variable {mode mode' : Mode} {s t : Nesting} {c : CodePoint} {cs rest group : List CodePoint}
variable {pass : Mode → List CodePoint → List CodePoint}

-- The characters that stand in comments.
def commented : Mode → List CodePoint → List CodePoint
  | _, [] => []
  | .comment, char '\n' :: rest => commented .outside rest
  | .comment, c :: rest => c :: commented .comment rest
  | mode, char '\\' :: _ :: rest => commented mode rest
  | mode, char '"' :: rest => commented (afterQuote mode rest) rest
  | .outside, char '/' :: char '/' :: rest => commented .comment rest
  | mode, _ :: rest => commented mode rest

-- What a scan of the nesting has pending where a scan of the layout stands.
def Mode.pending : Mode → Pending
  | .outside | .comment => .nothing
  | .inside => .quote

-- Only quotes and backslashes change what is pending. Within open groups a character that does not
-- end them leaves some open.
theorem open_of_step (hs : s.pending = mode.pending) (hgroups : s.groups ≠ []) (hquote : c ≠ '"')
    (hescape : c ≠ '\\') (hstep : s.step c = .ok t) (ht : t.isTop = false) :
    t.pending = mode.pending ∧ t.groups ≠ [] := by
  obtain ⟨groups, _⟩ := s
  cases hs
  have hbare (hstep : step ⟨groups, .nothing⟩ c = .ok t) :
      t.pending = .nothing ∧ t.groups ≠ [] := by
    obtain ⟨groups', rfl⟩ := exists_step_ordinary hquote hescape hstep
    exact ⟨rfl, by simpa [isTop] using ht⟩
  cases mode with
  | outside => exact hbare hstep
  | comment => exact hbare hstep
  | inside =>
      simp only [step, if_neg hquote, if_neg hescape] at hstep
      cases hstep
      exact ⟨rfl, hgroups⟩

-- An escape is over after one more character, whatever it is.
theorem exists_step_escape (hs : s.pending = mode.pending) : ∃ next : Nesting,
    next.isTop = false ∧ s.step '\\' = .ok next ∧ ∀ c, next.step c = .ok s := by
  obtain ⟨groups, pending⟩ := s
  cases hs
  cases mode with
  | outside => exact ⟨⟨groups, .escape⟩, isTop_eq_false_of_pending nofun, rfl, fun _ => rfl⟩
  | comment => exact ⟨⟨groups, .escape⟩, isTop_eq_false_of_pending nofun, rfl, fun _ => rfl⟩
  | inside => exact ⟨⟨groups, .quotedEscape⟩, isTop_eq_false_of_pending nofun, rfl, fun _ => rfl⟩

theorem takeGroup_escape (hs : s.pending = mode.pending) (hopen : s.isTop = false) :
    takeGroup s (char '\\' :: c :: cs) = (takeGroup s cs).map (char '\\' :: c :: ·) := by
  obtain ⟨next, hnext, hescape, hstep⟩ := exists_step_escape hs
  rw [takeGroup_cons hescape hnext, takeGroup_cons (hstep c) hopen, Option.map_map]
  rfl

theorem takeGroup_backslash (hs : s.pending = mode.pending) : takeGroup s [char '\\'] = none := by
  obtain ⟨next, hnext, hescape, -⟩ := exists_step_escape hs
  rw [takeGroup_cons hescape hnext]
  rfl

-- From a quote on, a group goes on only after the string is closed.
theorem closes_of_takeGroup {groups : List Bracket}
    (h : takeGroup ⟨groups, .quote⟩ cs = some group) : closes cs = true ∧ closes group = true := by
  have hinside : Pending.quote = Mode.inside.pending := rfl
  have hopen : Nesting.isTop ⟨groups, .quote⟩ = false := isTop_eq_false_of_pending nofun
  fun_induction closes cs generalizing group with
  | case1 rest =>
      obtain ⟨_, -, ⟨-, rfl⟩ | ⟨-, _, -, rfl⟩⟩ := takeGroup_cons_eq_some.mp h <;> exact ⟨rfl, rfl⟩
  | case2 c rest ih =>
      rw [takeGroup_escape hinside hopen] at h
      obtain ⟨part, hpart, rfl⟩ := Option.map_eq_some_iff.mp h
      obtain ⟨hrest, hclosed⟩ := ih hpart
      exact ⟨hrest, hclosed⟩
  | case3 c rest hquote hpair ih =>
      by_cases hescape : c = '\\'
      · subst hescape
        cases rest with
        | nil =>
            rw [takeGroup_backslash hinside] at h
            cases h
        | cons d rest => exact absurd rfl (hpair d rest rfl)
      · have hstep : step ⟨groups, .quote⟩ c = .ok ⟨groups, .quote⟩ := by
          simp only [step, if_neg hquote, if_neg hescape]
        rw [takeGroup_cons hstep hopen] at h
        obtain ⟨part, hpart, rfl⟩ := Option.map_eq_some_iff.mp h
        rw [closes_cons hquote hescape]
        exact ih hpart
  | case4 => cases h

theorem closes_plain_append (hcs : ∀ c ∈ cs, isPlain c = true) :
    closes (cs ++ rest) = closes rest := by
  induction cs with
  | nil => rfl
  | cons c cs ih =>
      obtain ⟨hc, hcs⟩ := List.forall_mem_cons.mp hcs
      obtain ⟨hquote, hescape⟩ : c ≠ '"' ∧ c ≠ '\\' := by
        constructor <;>
        · rintro rfl
          exact absurd hc (by decide)
      rw [List.cons_append, closes_cons hquote hescape]
      exact ih hcs

-- A pass over the layout leaves as much of a group as of the text that starts with the group. The
-- same strings are closed.
structure CutsAlike (pass : Mode → List CodePoint → List CodePoint) (mode : Mode)
    (cs : List CodePoint) : Prop where
  closes_of : closes (pass mode cs) = true → closes cs = true
  exists_group : ∀ s group, s.pending = mode.pending → s.groups ≠ [] →
    takeGroup s (pass mode cs) = some group →
      ∃ part, takeGroup s cs = some part ∧ pass mode part = group

namespace CutsAlike

theorem nil (hpass : pass mode [] = []) : CutsAlike pass mode [] := by
  constructor
  · rw [hpass]
    exact id
  · intro s group _ _ hgroup
    rw [hpass] at hgroup
    cases hgroup

-- A pass keeps an escape.
theorem escape (hpass : ∀ cs, pass mode (char '\\' :: c :: cs) = char '\\' :: c :: pass mode cs)
    (h : CutsAlike pass mode rest) : CutsAlike pass mode (char '\\' :: c :: rest) := by
  constructor
  · rw [hpass]
    exact h.closes_of
  · intro s group hs hgroups hgroup
    have hopen := isTop_eq_false_of_groups hgroups
    rw [hpass, takeGroup_escape hs hopen] at hgroup
    obtain ⟨_, hkept, rfl⟩ := Option.map_eq_some_iff.mp hgroup
    obtain ⟨part, hpart, rfl⟩ := h.exists_group s _ hs hgroups hkept
    exact ⟨char '\\' :: c :: part, by rw [takeGroup_escape hs hopen, hpart]; rfl, hpass part⟩

-- A pass keeps a quote. A quote whose string is not closed is in no group.
theorem quote (hmode : mode ≠ .comment)
    (hpass : ∀ cs, pass mode (char '"' :: cs) = char '"' :: pass (afterQuote mode cs) cs)
    (h : CutsAlike pass (afterQuote mode rest) rest) : CutsAlike pass mode (char '"' :: rest) := by
  refine ⟨fun _ => rfl, ?_⟩
  rintro ⟨groups, _⟩ group rfl hgroups hgroup
  rw [hpass] at hgroup
  cases mode with
  | comment => exact absurd rfl hmode
  | inside =>
      have hstep : step ⟨groups, .quote⟩ '"' = .ok ⟨groups, .nothing⟩ := rfl
      have hopen : Nesting.isTop ⟨groups, .nothing⟩ = false := isTop_eq_false_of_groups hgroups
      simp only [Mode.pending, takeGroup_cons hstep hopen] at hgroup ⊢
      obtain ⟨_, hkept, rfl⟩ := Option.map_eq_some_iff.mp hgroup
      obtain ⟨part, hpart, rfl⟩ := h.exists_group ⟨groups, .nothing⟩ _ rfl hgroups hkept
      exact ⟨char '"' :: part, by rw [hpart]; rfl, hpass part⟩
  | outside =>
      have hstep : step ⟨groups, .nothing⟩ '"' = .ok ⟨groups, .quote⟩ := rfl
      have hopen : Nesting.isTop ⟨groups, .quote⟩ = false := isTop_eq_false_of_groups hgroups
      simp only [Mode.pending, takeGroup_cons hstep hopen] at hgroup ⊢
      obtain ⟨_, hkept, rfl⟩ := Option.map_eq_some_iff.mp hgroup
      have hclosed : afterQuote .outside rest = .inside :=
        if_pos (h.closes_of (closes_of_takeGroup hkept).1)
      rw [hclosed] at h hkept
      obtain ⟨part, hpart, rfl⟩ := h.exists_group ⟨groups, .quote⟩ _ rfl hgroups hkept
      have hclosed' : afterQuote .outside part = .inside := if_pos (closes_of_takeGroup hpart).2
      exact ⟨char '"' :: part, by rw [hpart]; rfl, by rw [hpass, hclosed']⟩

-- A pass keeps a character, at least where what follows starts like the rest or is nothing.
theorem keep (hquote : c ≠ '"') (hescape : ∀ d more, c = '\\' → rest ≠ d :: more)
    (hnil : pass mode [] = []) (hlast : pass mode [char '\\'] = [char '\\'])
    (hpass : c ≠ '\\' → ∀ cs, cs = [] ∨ cs.head? = rest.head? →
      pass mode (c :: cs) = c :: pass mode cs)
    (h : CutsAlike pass mode rest) : CutsAlike pass mode (c :: rest) := by
  by_cases hc : c = '\\'
  · -- A backslash at the end of the text closes neither a string nor a group.
    subst hc
    cases rest with
    | cons d more => exact absurd rfl (hescape d more rfl)
    | nil =>
        constructor
        · rw [hlast]
          exact id
        · intro s group hs _ hgroup
          rw [hlast, takeGroup_backslash hs] at hgroup
          cases hgroup
  · constructor
    · rw [hpass hc rest (.inr rfl), closes_cons hquote hc, closes_cons hquote hc]
      exact h.closes_of
    · intro s group hs hgroups hgroup
      rw [hpass hc rest (.inr rfl)] at hgroup
      obtain ⟨next, hstep, ⟨htop, rfl⟩ | ⟨htop, _, hkept, rfl⟩⟩ := takeGroup_cons_eq_some.mp hgroup
      · refine ⟨[c], takeGroup_cons_eq_some.mpr ⟨next, hstep, .inl ⟨htop, rfl⟩⟩, ?_⟩
        rw [hpass hc [] (.inl rfl), hnil]
      · obtain ⟨hnext, hopen⟩ := open_of_step hs hgroups hquote hc hstep htop
        obtain ⟨part, hpart, rfl⟩ := h.exists_group next _ hnext hopen hkept
        exact ⟨c :: part, by rw [takeGroup_cons hstep htop, hpart]; rfl,
          hpass hc part (.inr (head?_takeGroup hpart))⟩

-- Where no string is open, a pass may put some plain characters in place of others.
theorem swap (olds news : List CodePoint) (hmode : mode.pending = .nothing)
    (hmode' : mode'.pending = .nothing) (holds : ∀ c ∈ olds, isPlain c = true)
    (hnews : ∀ c ∈ news, isPlain c = true)
    (hpass : ∀ cs, cs.head? = rest.head? → pass mode (olds ++ cs) = news ++ pass mode' cs)
    (h : CutsAlike pass mode' rest) : CutsAlike pass mode (olds ++ rest) := by
  constructor
  · rw [hpass rest rfl, closes_plain_append hnews, closes_plain_append holds]
    exact h.closes_of
  · intro s group hs hgroups hgroup
    rw [hmode] at hs
    rw [hpass rest rfl, takeGroup_plain_append hgroups hs hnews] at hgroup
    obtain ⟨_, hkept, rfl⟩ := Option.map_eq_some_iff.mp hgroup
    obtain ⟨part, hpart, rfl⟩ := h.exists_group s _ (hs.trans hmode'.symm) hgroups hkept
    refine ⟨olds ++ part, ?_, hpass part (head?_takeGroup hpart)⟩
    rw [takeGroup_plain_append hgroups hs holds, hpart]
    rfl

end CutsAlike

theorem isPlain_singleton (hc : isPlain c = true) : ∀ d ∈ [c], isPlain d = true :=
  List.forall_mem_singleton.mpr hc

-- Comments of plain characters stand in the way of no group.
theorem cutsAlike_uncommented (hquiet : ∀ c ∈ commented mode cs, isPlain c = true) :
    CutsAlike uncommented mode cs := by
  fun_induction uncommented mode cs with
  | case1 mode => exact .nil rfl
  | case2 rest ih =>
      exact .swap [char '\n'] [char '\n'] rfl rfl (isPlain_singleton rfl) (isPlain_singleton rfl)
        (fun _ _ => rfl) (ih hquiet)
  | case3 c rest hc ih =>
      rw [commented] at hquiet
      · obtain ⟨hplain, hquiet⟩ := List.forall_mem_cons.mp hquiet
        refine .swap [c] [] rfl rfl (isPlain_singleton hplain) (List.forall_mem_nil _)
          (fun cs _ => ?_) (ih hquiet)
        rw [List.singleton_append, uncommented, List.nil_append]
        exact hc
      · exact hc
  | case4 mode c rest hmode ih =>
      rw [commented] at hquiet
      · refine .escape (fun cs => ?_) (ih hquiet)
        rw [uncommented]
        exact hmode
      · exact hmode
  | case5 mode rest hmode ih =>
      rw [commented] at hquiet
      · refine .quote hmode (fun cs => ?_) (ih hquiet)
        rw [uncommented]
        exact hmode
      · exact hmode
  | case6 rest ih =>
      have hslashes : ∀ c ∈ [char '/', char '/'], isPlain c = true := List.all_eq_true.mp rfl
      exact .swap [char '/', char '/'] [] rfl rfl hslashes (List.forall_mem_nil _) (fun _ _ => rfl)
        (ih hquiet)
  | case7 mode c rest hcomment hmode hpair hquote hslash ih =>
      rw [commented] at hquiet
      · have hquiet := ih hquiet
        cases mode with
        | comment => exact absurd rfl hmode
        | inside =>
            exact .keep hquote hpair rfl rfl (fun hc _ _ => uncommented_inside_cons hquote hc)
              hquiet
        | outside =>
            refine .keep hquote hpair rfl rfl (fun hc cs hcs => ?_) hquiet
            refine uncommented_outside_cons hquote hc fun hslash' hhead => ?_
            rcases hcs with rfl | hcs
            · cases hhead
            · obtain ⟨more, hmore⟩ := List.head?_eq_some_iff.mp (hcs.symm.trans hhead)
              exact hslash more rfl hslash' hmore
      all_goals assumption

theorem startsBlank_congr {cs' : List CodePoint} (h : cs.head? = cs'.head?) :
    startsBlank cs = startsBlank cs' := by
  cases cs <;> cases cs' <;> cases h <;> rfl

theorem Mode.eq_outside (hcomment : mode ≠ .comment) (hinside : mode ≠ .inside) :
    mode = .outside := by
  cases mode with
  | outside => rfl
  | comment => exact absurd rfl hcomment
  | inside => exact absurd rfl hinside

-- Blanks stand in the way of no group.
theorem cutsAlike_collapsed (hmode : mode ≠ .comment) : CutsAlike collapsed mode cs := by
  fun_induction collapsed mode cs with
  | case1 mode => exact .nil rfl
  | case2 mode c rest ih => exact .escape (fun _ => rfl) (ih hmode)
  | case3 mode rest ih =>
      have hquoted : afterQuote mode rest ≠ .comment := by
        unfold afterQuote
        split
        · split <;>
          · intro h
            cases h
        · intro h
          cases h
      exact .quote hmode (fun _ => rfl) (ih hquoted)
  | case4 c rest hpair hquote ih =>
      exact .keep hquote hpair rfl rfl (fun hc _ _ => collapsed_inside_cons hquote hc) (ih hmode)
  | case5 mode c rest hpair hquote hinside hc ih =>
      obtain rfl := Mode.eq_outside hmode hinside
      refine .keep hquote hpair rfl rfl (fun hescape cs _ => ?_) (ih hmode)
      rw [collapsed_outside_cons hquote hescape, if_pos hc]
  | case6 mode c rest hpair hquote hinside hc hrest ih =>
      obtain rfl := Mode.eq_outside hmode hinside
      have hplain := isPlain_singleton (isPlain_of_isBlank (by simpa using hc))
      refine .swap [c] [] rfl rfl hplain (List.forall_mem_nil _) (fun cs hcs => ?_) (ih hmode)
      obtain ⟨-, hescape, -⟩ := ne_of_isBlank (by simpa using hc)
      rw [List.singleton_append, collapsed_outside_cons hquote hescape, if_neg hc,
        startsBlank_congr hcs, if_pos hrest, List.nil_append]
  | case7 mode c rest hpair hquote hinside hc hrest ih =>
      obtain rfl := Mode.eq_outside hmode hinside
      have hplain := isPlain_singleton (isPlain_of_isBlank (by simpa using hc))
      refine .swap [c] [char ' '] rfl rfl hplain (isPlain_singleton rfl) (fun cs hcs => ?_)
        (ih hmode)
      obtain ⟨-, hescape, -⟩ := ne_of_isBlank (by simpa using hc)
      rw [List.singleton_append, collapsed_outside_cons hquote hescape, if_neg hc,
        startsBlank_congr hcs, if_neg hrest, List.singleton_append]

-- Text without its layout, if it starts with a parenthesis.
theorem canonical_round : canonical (char '(' :: cs) =
    trim (char '(' :: collapsed .outside (uncommented .outside cs)) := by
  have hblank : isBlank '(' = false := rfl
  rw [canonical, stripComments, uncommented_outside_cons (by decide) (by decide) (by simp),
    collapseBlanks, collapsed_outside_cons (by decide) (by decide), hblank]
  rfl

-- In front of a text whose canonical form is one group stands a group with that form.
theorem exists_leadingGroup {content : List CodePoint}
    (hcanonical : canonical (char '(' :: cs) = char '(' :: content ++ [char ')'])
    (hwalk : walk .start content = .ok .start) (hroom : peak .start content < maxDepth)
    (hquiet : ∀ c ∈ commented .outside (char '(' :: cs), isPlain c = true) :
    ∃ group, leadingGroup? (char '(' :: cs) = some group ∧
      canonical group = canonical (char '(' :: cs) := by
  obtain ⟨blanks, hblanks⟩ : ∃ blanks,
      collapsed .outside (uncommented .outside cs) = content ++ char ')' :: blanks := by
    obtain ⟨before, after, hcs, hbefore, -⟩ :=
      exists_eq_trim (char '(' :: collapsed .outside (uncommented .outside cs))
    rw [← canonical_round, hcanonical] at hcs
    cases before with
    | nil => exact ⟨after, by simpa using hcs⟩
    | cons c before =>
        obtain ⟨rfl, -⟩ := List.cons_eq_cons.mp hcs
        exact absurd (Bool.and_eq_true_iff.mp hbefore).1 (by decide)
  have hquiet : ∀ c ∈ commented .outside cs, isPlain c = true := hquiet
  have hgroups : (Nesting.start.under [.round]).groups ≠ [] := List.cons_ne_nil _ _
  have hcontent : takeGroup (Nesting.start.under [.round])
      (collapsed .outside (uncommented .outside cs)) = some (content ++ [char ')']) := by
    rw [hblanks]
    exact takeGroup_content hwalk hroom
  obtain ⟨kept, hkept, hcollapsed⟩ :=
    (cutsAlike_collapsed (by decide)).exists_group _ _ rfl hgroups hcontent
  obtain ⟨part, hpart, rfl⟩ :=
    (cutsAlike_uncommented hquiet).exists_group _ _ rfl hgroups hkept
  refine ⟨char '(' :: part, by rw [leadingGroup?_cons, hpart]; rfl, ?_⟩
  rw [hcanonical, canonical_round, hcollapsed]
  exact trim_group .round content

-- Blanks and comments in front of a text do not show in its canonical form.
theorem canonical_filler_append {before more : List CodePoint} (h : Filler before) :
    canonical (before ++ more) = canonical more := by
  obtain ⟨blanks, hblanks, -, hrest⟩ := exists_blanks h
  rw [canonical, stripComments, hrest, canonical, stripComments, collapseBlanks, collapseBlanks]
  cases blanks with
  | nil => rfl
  | cons c blanks =>
      rw [collapsed_blanks hblanks (hblanks c (by simp))]
      split
      · rfl
      · exact trim_space_cons

end Layout

end FrameNotation
