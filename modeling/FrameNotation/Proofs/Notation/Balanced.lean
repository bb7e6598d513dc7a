import FrameNotation.Proofs.Notation.Matching

namespace FrameNotation

open Text

namespace Nesting

variable {separates : CodePoint → Bool} {holds : Nesting → Prop} {s t : Nesting} {b : Bracket}
variable {c : CodePoint}
variable {cs part more rest : List CodePoint} {groups : List Bracket} {depth depth' : Nat}

-- All states that a scan passes.
def Stays (holds : Nesting → Prop) (s : Nesting) (cs : List CodePoint) : Prop :=
  ∀ front t, front <+: cs → walk s front = .ok t → holds t

-- Groups that were open before are still open.
def Above (groups : List Bracket) (t : Nesting) : Prop := ∃ inner, t.groups = inner ++ groups

-- Not all is closed that was opened since.
def Within (groups : List Bracket) (t : Nesting) : Prop :=
  Above groups t ∧ t ≠ ⟨groups, .nothing⟩

-- A part of a text that opens and closes some groups, so many of them within each other, and that
-- no separator cuts.
structure Keeps (separates : CodePoint → Bool) (part : List CodePoint) (depth : Nat) : Prop where
  stays {groups : List Bracket} (hgroups : groups.length ≤ maxDepth) :
    Stays (Above groups) ⟨groups, .nothing⟩ part
  walk_iff {groups : List Bracket} {t : Nesting} (hgroups : groups.length ≤ maxDepth) :
    walk ⟨groups, .nothing⟩ part = .ok t ↔
      t = ⟨groups, .nothing⟩ ∧ groups.length + depth ≤ maxDepth
  uncut (hdepth : depth ≤ maxDepth) : through separates start part = .ok start

-- A text that starts with a group, a string or an escape without its end.
def Unclosed (cs : List CodePoint) : Prop :=
  ∀ groups front t, groups.length ≤ maxDepth → front ≠ [] → front <+: cs →
    walk ⟨groups, .nothing⟩ front = .ok t → Within groups t

theorem above_of_groups_eq (h : s.groups = groups) : Above groups s := ⟨[], h⟩

theorem within_of_cons (h : Above (b :: groups) s) : Within groups s := by
  obtain ⟨inner, hinner⟩ := h
  refine ⟨⟨inner ++ [b], by simp [hinner]⟩, ?_⟩
  rintro rfl
  have hlength := congrArg List.length hinner
  simp only [List.length_append, List.length_cons] at hlength
  omega

theorem within_of_pending (h : s.groups = groups) (hpending : s.pending ≠ .nothing) :
    Within groups s := by
  refine ⟨above_of_groups_eq h, ?_⟩
  rintro rfl
  exact hpending rfl

theorem stays_nil (hs : holds s) : Stays holds s [] := by
  intro front t hfront h
  cases List.prefix_nil.mp hfront
  cases h
  exact hs

theorem stays_cons (hs : holds s) (hrest : ∀ t, s.step c = .ok t → Stays holds t cs) :
    Stays holds s (c :: cs) := by
  intro front t hfront h
  rcases List.prefix_cons_iff.mp hfront with rfl | ⟨tail, rfl, htail⟩
  · cases h
    exact hs
  · obtain ⟨next, hstep, h⟩ := bind_eq_ok.mp h
    exact hrest next hstep tail t htail h

theorem Stays.append (h : Stays holds s cs) (hmore : ∀ t, walk s cs = .ok t → Stays holds t more) :
    Stays holds s (cs ++ more) := by
  intro front t hfront hwalk
  rcases List.prefix_or_prefix_of_prefix hfront (List.prefix_append cs more) with hshort | hlong
  · exact h front t hshort hwalk
  · obtain ⟨tail, rfl⟩ := hlong
    rw [walk_append] at hwalk
    obtain ⟨next, hcs, hwalk⟩ := bind_eq_ok.mp hwalk
    exact hmore next hcs tail t ((List.prefix_append_right_inj cs).mp hfront) hwalk

theorem Stays.mono {weaker : Nesting → Prop} (h : Stays holds s cs)
    (hweaker : ∀ t, holds t → weaker t) : Stays weaker s cs :=
  fun front t hfront hwalk => hweaker t (h front t hfront hwalk)

theorem unclosed_cons (h : ∀ groups t, groups.length ≤ maxDepth →
    step ⟨groups, .nothing⟩ c = .ok t → Stays (Within groups) t cs) : Unclosed (c :: cs) := by
  intro groups front t hgroups hne hfront hwalk
  rcases List.prefix_cons_iff.mp hfront with rfl | ⟨tail, rfl, htail⟩
  · exact absurd rfl hne
  · obtain ⟨next, hstep, hwalk⟩ := bind_eq_ok.mp hwalk
    exact h groups next hgroups hstep tail t htail hwalk

-- Where nothing is at the top level nothing is cut.
theorem through_of_stays (hgroups : groups ≠ []) (h : Stays (Above groups) s cs) :
    through separates s cs = walk s cs := by
  induction cs generalizing s with
  | nil => rfl
  | cons c rest ih =>
      have hs : s.isTop = false := by
        obtain ⟨inner, hinner⟩ := h [] s List.nil_prefix rfl
        exact isTop_eq_false_of_groups (by simp [hinner, hgroups])
      rw [through_cons, walk_cons, stepWithin, hs, Bool.false_and, if_neg Bool.false_ne_true]
      cases hstep : s.step c with
      | error stuck => rfl
      | ok next =>
          refine ih fun front t hfront hwalk => h (c :: front) t ?_ ?_
          · exact (List.prefix_cons_inj c).mpr hfront
          · rw [walk_cons, hstep]
            exact hwalk

theorem Keeps.nil : Keeps separates [] 0 where
  stays _ := stays_nil (above_of_groups_eq rfl)
  walk_iff hgroups := by
    rw [walk_nil, Except.ok.injEq, eq_comm]
    exact (and_iff_left hgroups).symm
  uncut _ := rfl

theorem Keeps.append (h : Keeps separates part depth) (hmore : Keeps separates more depth') :
    Keeps separates (part ++ more) (max depth depth') where
  stays hgroups := by
    refine (h.stays hgroups).append fun t hwalk => ?_
    obtain ⟨rfl, -⟩ := (h.walk_iff hgroups).mp hwalk
    exact hmore.stays hgroups
  walk_iff {groups t} hgroups := by
    rw [walk_append, bind_eq_ok]
    constructor
    · rintro ⟨next, hpart, hwalk⟩
      obtain ⟨rfl, hdepth⟩ := (h.walk_iff hgroups).mp hpart
      obtain ⟨rfl, hdepth'⟩ := (hmore.walk_iff hgroups).mp hwalk
      exact ⟨rfl, by omega⟩
    · rintro ⟨rfl, hdepth⟩
      exact ⟨_, (h.walk_iff hgroups).mpr ⟨rfl, by omega⟩,
        (hmore.walk_iff hgroups).mpr ⟨rfl, by omega⟩⟩
  uncut hdepth := through_trans (h.uncut (by omega)) (hmore.uncut (by omega))

-- A part without groups, which changes no state for good.
theorem keeps_flat (hstays : ∀ groups, Stays (fun t => t.groups = groups) ⟨groups, .nothing⟩ part)
    (hwalk : ∀ groups, walk ⟨groups, .nothing⟩ part = .ok ⟨groups, .nothing⟩)
    (huncut : through separates start part = .ok start) : Keeps separates part 0 where
  stays _ := (hstays _).mono fun _ => above_of_groups_eq
  walk_iff hgroups := by
    rw [hwalk, Except.ok.injEq, eq_comm]
    exact (and_iff_left hgroups).symm
  uncut _ := huncut

theorem keeps_plain (hc : isPlain c = true) (hfree : separates c = false) :
    Keeps separates [c] 0 := by
  refine keeps_flat (fun groups => stays_cons rfl fun t hstep => stays_nil ?_)
    (fun groups => walk_plain (List.forall_mem_singleton.mpr hc)) ?_
  · cases (step_plain hc).symm.trans hstep
    rfl
  · exact through_cons_ok (by simp [hfree]) (step_plain hc)

theorem keeps_chunk (hpart : ∀ c ∈ part, isPlain c = true ∧ separates c = false) :
    Keeps separates part 0 := by
  induction part with
  | nil => exact .nil
  | cons c part ih =>
      obtain ⟨⟨hc, hfree⟩, hpart⟩ := List.forall_mem_cons.mp hpart
      simpa using (keeps_plain hc hfree).append (ih hpart)

variable (hseparates : ∀ c, separates c = true → isPlain c = true)

include hseparates in
theorem separates_eq_false_of_special (hc : isPlain c = false) : separates c = false := by
  rw [← Bool.not_eq_true]
  intro h
  rw [hseparates c h] at hc
  cases hc

include hseparates in
theorem keeps_escape : Keeps separates [char '\\', c] 0 := by
  have hfree : separates '\\' = false := separates_eq_false_of_special hseparates rfl
  refine keeps_flat (fun groups => ?_) (fun groups => rfl) ?_
  · refine stays_cons rfl fun t hstep => ?_
    cases hstep
    refine stays_cons rfl fun t hstep => ?_
    cases hstep
    exact stays_nil rfl
  · rw [through_cons_ok (by simp [hfree]) (t := ⟨[], .escape⟩) rfl,
      through_cons_ok (by simp [start]) (t := start) rfl, through_nil]

theorem unclosed_backslash : Unclosed [char '\\'] := by
  refine unclosed_cons fun groups t _ hstep => ?_
  cases hstep
  exact stays_nil (within_of_pending rfl nofun)

-- A string is open.
def InString (groups : List Bracket) (t : Nesting) : Prop :=
  t.groups = groups ∧ (t.pending = .quote ∨ t.pending = .quotedEscape)

-- The inside of a string.
structure IsInside (part : List CodePoint) : Prop where
  stays (groups : List Bracket) : Stays (InString groups) ⟨groups, .quote⟩ part
  through (separates : CodePoint → Bool) (groups : List Bracket) :
    Nesting.through separates ⟨groups, .quote⟩ part = .ok ⟨groups, .quote⟩

theorem isInside_nil : IsInside [] where
  stays _ := stays_nil ⟨rfl, .inl rfl⟩
  through _ _ := rfl

theorem IsInside.cons (h : IsInside part) (hquote : c ≠ '"') (hescape : c ≠ '\\') :
    IsInside (c :: part) := by
  have hsame (groups : List Bracket) : step ⟨groups, .quote⟩ c = .ok ⟨groups, .quote⟩ := by
    simp only [step, if_neg hquote, if_neg hescape]
  constructor
  · refine fun groups => stays_cons ⟨rfl, .inl rfl⟩ fun t hstep => ?_
    cases (hsame groups).symm.trans hstep
    exact h.stays groups
  · intro separates groups
    rw [through_cons_ok (by simp [start]) (hsame groups)]
    exact h.through separates groups

theorem IsInside.escape (h : IsInside part) : IsInside (char '\\' :: c :: part) where
  stays groups := by
    refine stays_cons ⟨rfl, .inl rfl⟩ fun t hstep => ?_
    cases hstep
    refine stays_cons ⟨rfl, .inr rfl⟩ fun t hstep => ?_
    cases hstep
    exact h.stays groups
  through separates groups := by
    rw [through_cons_ok (by simp [start]) (t := ⟨groups, .quotedEscape⟩) rfl,
      through_cons_ok (by simp [start]) (t := ⟨groups, .quote⟩) rfl]
    exact h.through separates groups

theorem IsInside.walk (h : IsInside part) :
    Nesting.walk ⟨groups, .quote⟩ part = .ok ⟨groups, .quote⟩ :=
  walk_of_through (h.through (fun _ => false) groups)

include hseparates in
theorem IsInside.keeps (h : IsInside part) :
    Keeps separates (char '"' :: part ++ [char '"']) 0 := by
  have hfree : separates '"' = false := separates_eq_false_of_special hseparates rfl
  refine keeps_flat (fun groups => ?_) (fun groups => ?_) ?_
  · refine stays_cons rfl fun t hstep => ?_
    cases hstep
    refine ((h.stays groups).mono fun t ht => ht.1).append fun t hwalk => ?_
    cases h.walk.symm.trans hwalk
    refine stays_cons rfl fun t hstep => ?_
    cases hstep
    exact stays_nil rfl
  · have hstep : step ⟨groups, .nothing⟩ '"' = .ok ⟨groups, .quote⟩ := rfl
    rw [List.cons_append, walk_cons, hstep, ok_bind, walk_append, h.walk]
    rfl
  · rw [List.cons_append, through_cons_ok (by simp [hfree]) (t := ⟨[], .quote⟩) rfl, through_append,
      h.through]
    rfl

theorem IsInside.unclosed (h : IsInside part) (hrest : rest = [] ∨ rest = [char '\\']) :
    Unclosed (char '"' :: part ++ rest) := by
  have hwithin (groups : List Bracket) (t : Nesting) (ht : InString groups t) : Within groups t :=
    within_of_pending ht.1 (by rcases ht.2 with h | h <;> rw [h] <;> nofun)
  refine unclosed_cons fun groups t _ hstep => ?_
  cases hstep
  refine ((h.stays groups).append fun t hwalk => ?_).mono (hwithin groups)
  cases h.walk.symm.trans hwalk
  rcases hrest with rfl | rfl
  · exact stays_nil ⟨rfl, .inl rfl⟩
  · refine stays_cons ⟨rfl, .inl rfl⟩ fun t hstep => ?_
    cases hstep
    exact stays_nil ⟨rfl, .inr rfl⟩

-- An opening bracket succeeds where there is room for one more group.
theorem step_opener_iff : step ⟨groups, .nothing⟩ b.opener = .ok t ↔
    t = ⟨b :: groups, .nothing⟩ ∧ (b :: groups).length ≤ maxDepth := by
  constructor
  · intro h
    by_cases hroom : groups.length < maxDepth
    · cases (step_opener b hroom).symm.trans h
      exact ⟨rfl, hroom⟩
    · cases b <;> simp [step, Bracket.opener, opened, hroom] at h
  · rintro ⟨rfl, hroom⟩
    exact step_opener b hroom

include hseparates in
-- Balanced content between the brackets of a group.
theorem Keeps.group {free : CodePoint → Bool} (h : Keeps free part depth) :
    Keeps separates (b.opener :: part ++ [b.closer]) (depth + 1) := by
  have hopener : separates b.opener = false :=
    separates_eq_false_of_special hseparates (by cases b <;> rfl)
  have hwalk {groups : List Bracket} {t : Nesting} (hgroups : groups.length ≤ maxDepth) :
      walk ⟨groups, .nothing⟩ (b.opener :: part ++ [b.closer]) = .ok t ↔
        t = ⟨groups, .nothing⟩ ∧ groups.length + (depth + 1) ≤ maxDepth := by
    rw [List.cons_append, walk_cons, bind_eq_ok]
    constructor
    · rintro ⟨next, hstep, hwalk⟩
      obtain ⟨rfl, hroom⟩ := step_opener_iff.mp hstep
      rw [walk_append] at hwalk
      obtain ⟨next, hpart, hclose⟩ := bind_eq_ok.mp hwalk
      obtain ⟨rfl, hdepth⟩ := (h.walk_iff hroom).mp hpart
      rw [walk_cons, step_closer] at hclose
      cases hclose
      rw [List.length_cons] at hdepth
      exact ⟨rfl, by omega⟩
    · rintro ⟨rfl, hdepth⟩
      have hroom : (b :: groups).length ≤ maxDepth := by rw [List.length_cons]; omega
      have hpart : walk ⟨b :: groups, .nothing⟩ part = .ok ⟨b :: groups, .nothing⟩ :=
        (h.walk_iff hroom).mpr ⟨rfl, by rw [List.length_cons]; omega⟩
      refine ⟨_, step_opener b hroom, ?_⟩
      rw [walk_append, hpart, ok_bind, walk_cons, step_closer]
      rfl
  refine ⟨fun {groups} hgroups => ?_, hwalk, fun hdepth => ?_⟩
  · refine stays_cons (above_of_groups_eq rfl) fun t hstep => ?_
    obtain ⟨rfl, hroom⟩ := step_opener_iff.mp hstep
    refine ((h.stays hroom).mono fun t ht => (within_of_cons ht).1).append fun t hpart => ?_
    obtain ⟨rfl, -⟩ := (h.walk_iff hroom).mp hpart
    refine stays_cons (above_of_groups_eq rfl |> within_of_cons).1 fun t hstep => ?_
    cases (step_closer b).symm.trans hstep
    exact stays_nil (above_of_groups_eq rfl)
  · have hstep : step start b.opener = .ok ⟨[b], .nothing⟩ := step_opener b (by decide)
    have hroom : [b].length ≤ maxDepth := by rw [List.length_singleton]; decide
    have hpart : walk ⟨[b], .nothing⟩ part = .ok ⟨[b], .nothing⟩ :=
      (h.walk_iff hroom).mpr ⟨rfl, by rw [List.length_singleton]; omega⟩
    rw [List.cons_append, through_cons_ok (by simp [hopener]) hstep, through_append,
      through_of_stays (List.cons_ne_nil b []) (h.stays hroom), hpart, ok_bind,
      through_cons_ok (by simp [start]) (step_closer b)]
    rfl

-- Where elements of a text end: at its end, at a separator, at a closing bracket, or in front of
-- what is never closed.
inductive Stops (separates : CodePoint → Bool) : List CodePoint → Prop
  | nil : Stops separates []
  | separator {c : CodePoint} {rest : List CodePoint} (hc : isPlain c = true)
      (hsep : separates c = true) :
      Stops separates (c :: rest)
  | closer (b : Bracket) {rest : List CodePoint} : Stops separates (b.closer :: rest)
  | unclosed {cs : List CodePoint} (h : Unclosed cs) : Stops separates cs

-- A group without its closing bracket.
theorem unclosed_group {free : CodePoint → Bool} (h : Keeps free part depth)
    (hstops : Stops (fun _ => false) rest) (hrest : rest.head? ≠ some b.closer) :
    Unclosed (b.opener :: part ++ rest) := by
  refine unclosed_cons fun groups t _ hstep => ?_
  obtain ⟨rfl, hroom⟩ := step_opener_iff.mp hstep
  refine ((h.stays hroom).append fun t hpart => ?_).mono fun t => within_of_cons
  obtain ⟨rfl, -⟩ := (h.walk_iff hroom).mp hpart
  cases hstops with
  | nil => exact stays_nil (above_of_groups_eq rfl)
  | separator _ hsep => cases hsep
  | closer b' =>
      refine stays_cons (above_of_groups_eq rfl) fun t hstep => ?_
      cases b <;> cases b' <;> first | exact absurd rfl hrest | cases hstep
  | unclosed h =>
      intro front t hfront hwalk
      by_cases hne : front = []
      · subst hne
        cases hwalk
        exact above_of_groups_eq rfl
      · exact (h _ front t hroom hne hfront hwalk).1

end Nesting

end FrameNotation
