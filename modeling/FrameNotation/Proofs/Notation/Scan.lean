import FrameNotation.Notation.Nesting
import FrameNotation.Proofs.Success
import Mathlib.Tactic.SplitIfs

namespace FrameNotation

def Bracket.opener : Bracket → CodePoint
  | .round => '('
  | .square => '['

def Bracket.closer : Bracket → CodePoint
  | .round => ')'
  | .square => ']'

namespace Nesting

variable {separates : CodePoint → Bool} {s t : Nesting} {cs more : List CodePoint}

-- The state after all characters of a text.
def walk (s : Nesting) (cs : List CodePoint) : Except Stuck Nesting := cs.foldlM step s

-- One character of a piece. A separator at the top level would end the piece.
def stepWithin (separates : CodePoint → Bool) (s : Nesting) (c : CodePoint) :
    Except Stuck Nesting :=
  if s.isTop && separates c then .error .unbalanced else s.step c

-- The state after a text that no separator cuts.
def through (separates : CodePoint → Bool) (s : Nesting) (cs : List CodePoint) :
    Except Stuck Nesting :=
  cs.foldlM (stepWithin separates) s

-- The most groups that are open at once while a text is scanned.
def peak (s : Nesting) : List CodePoint → Nat
  | [] => s.groups.length
  | c :: rest =>
    match s.step c with
    | .ok next => max s.groups.length (peak next rest)
    | .error _ => s.groups.length

-- The same state with more groups around it.
def under (s : Nesting) (outer : List Bracket) : Nesting := ⟨s.groups ++ outer, s.pending⟩

-- A text in front of the first of some pieces.
def prepend (cs : List CodePoint) : List (List CodePoint) → List (List CodePoint)
  | piece :: pieces => (cs ++ piece) :: pieces
  | [] => [cs]

theorem isTop_iff : s.isTop = true ↔ s = start := by
  rcases s with ⟨groups, pending⟩
  simp [isTop, start]

@[simp] theorem isTop_start : start.isTop = true := rfl

@[simp] theorem under_nil : s.under [] = s := by simp [under]

@[simp] theorem walk_nil : walk s [] = .ok s := rfl

@[simp] theorem walk_cons {c : CodePoint} : walk s (c :: cs) = s.step c >>= (walk · cs) := rfl

theorem walk_append : walk s (cs ++ more) = walk s cs >>= (walk · more) := List.foldlM_append

@[simp] theorem through_nil : through separates s [] = .ok s := rfl

@[simp] theorem through_cons {c : CodePoint} :
    through separates s (c :: cs) = stepWithin separates s c >>= (through separates · cs) := rfl

theorem through_append :
    through separates s (cs ++ more) = through separates s cs >>= (through separates · more) :=
  List.foldlM_append

theorem through_trans {u : Nesting} (hcs : through separates s cs = .ok t)
    (hmore : through separates t more = .ok u) : through separates s (cs ++ more) = .ok u := by
  rw [through_append, hcs]
  exact hmore

theorem stepWithin_eq_ok {c : CodePoint} :
    stepWithin separates s c = .ok t ↔ ¬(s = start ∧ separates c = true) ∧ s.step c = .ok t := by
  rw [stepWithin, ← isTop_iff]
  cases s.isTop <;> cases separates c <;> simp

theorem through_cons_ok {c : CodePoint} (hs : ¬(s = start ∧ separates c = true))
    (hstep : s.step c = .ok t) :
    through separates s (c :: cs) = through separates t cs := by
  rw [through_cons, stepWithin_eq_ok.mpr ⟨hs, hstep⟩]
  rfl

theorem walk_of_through (h : through separates s cs = .ok t) : walk s cs = .ok t := by
  induction cs generalizing s with
  | nil => exact h
  | cons c rest ih =>
      obtain ⟨next, hstep, hrest⟩ := bind_eq_ok.mp h
      rw [walk_cons, (stepWithin_eq_ok.mp hstep).2]
      exact ih hrest

-- A cut never gives no piece at all.
theorem cut_ne_nil {pieces : List (List CodePoint)} (h : cut separates s cs = .ok pieces) :
    pieces ≠ [] := by
  cases cs with
  | nil =>
      simp only [cut] at h
      split at h
      · cases h
        exact List.cons_ne_nil _ _
      · cases h
  | cons c rest =>
      simp only [cut] at h
      split at h
      · obtain ⟨_, _, rfl⟩ := map_eq_ok.mp h
        exact List.cons_ne_nil _ _
      · obtain ⟨next, _, h⟩ := bind_eq_ok.mp h
        obtain ⟨found, _, h⟩ := bind_eq_ok.mp h
        cases found <;> cases h <;> exact List.cons_ne_nil _ _

theorem cut_append (hcs : through separates s cs = .ok t) :
    cut separates s (cs ++ more) = (cut separates t more).map (prepend cs) := by
  induction cs generalizing s with
  | nil =>
      cases hcs
      cases hmore : cut separates t more with
      | error stuck => simp [hmore, Except.map]
      | ok pieces =>
          cases pieces with
          | nil => exact absurd rfl (cut_ne_nil hmore)
          | cons piece pieces => simp [hmore, prepend]
  | cons c rest ih =>
      obtain ⟨next, hstep, hrest⟩ := bind_eq_ok.mp hcs
      obtain ⟨hs, hstep⟩ := stepWithin_eq_ok.mp hstep
      have hfree : (s.isTop && separates c) = false := by
        rw [← isTop_iff] at hs
        simpa using hs
      rw [List.cons_append, cut, hfree, hstep, if_neg (by simp)]
      simp only [ok_bind, ih hrest]
      cases cut separates t more with
      | error stuck => rfl
      | ok pieces => cases pieces <;> rfl

-- A text that comes back to the top level without a separator is one piece.
theorem cut_piece (h : through separates start cs = .ok start) :
    cut separates start cs = .ok [cs] := by
  have happend : cut separates start (cs ++ []) = (cut separates start []).map (prepend cs) :=
    cut_append h
  simpa [cut, prepend] using happend

theorem cut_cons_separator {c : CodePoint} (h : through separates start cs = .ok start)
    (hc : separates c = true) :
    cut separates start (cs ++ c :: more) = (cut separates start more).map (cs :: ·) := by
  rw [cut_append h, cut, hc]
  cases cut separates start more <;> simp [Except.map, prepend]

-- The pieces of texts that are joined by a separator and some padding after it.
theorem cut_intercalate {c : CodePoint} {padding first : List CodePoint}
    {parts : List (List CodePoint)}
    (hc : separates c = true) (hpadding : through separates start padding = .ok start)
    (hfirst : through separates start first = .ok start)
    (hparts : ∀ part ∈ parts, through separates start part = .ok start) :
    cut separates start ((c :: padding).intercalate (first :: parts)) =
      .ok (first :: parts.map (padding ++ ·)) := by
  induction parts generalizing first with
  | nil => simpa using cut_piece hfirst
  | cons part parts ih =>
      rw [List.intercalate_cons_cons, List.append_assoc, List.cons_append,
        cut_cons_separator hfirst hc, cut_append hpadding,
        ih (hparts part (by simp)) (fun p hp => hparts p (by simp [hp]))]
      rfl

-- What a successful cut says about its first piece.
theorem cut_eq_ok {pieces : List (List CodePoint)} (h : cut separates s cs = .ok pieces) :
    ∃ first others, pieces = first :: others ∧ through separates s first = .ok start ∧
      ((others = [] ∧ cs = first) ∨ ∃ c rest, separates c = true ∧ cs = first ++ c :: rest ∧
        cut separates start rest = .ok others) := by
  induction cs generalizing s pieces with
  | nil =>
      simp only [cut] at h
      split at h
      · rename_i htop
        cases h
        exact ⟨[], [], rfl, by simp [isTop_iff.mp htop], .inl ⟨rfl, rfl⟩⟩
      · cases h
  | cons c rest ih =>
      simp only [cut] at h
      split at h
      · rename_i hsep
        obtain ⟨htop, hc⟩ := Bool.and_eq_true_iff.mp hsep
        obtain ⟨others, hothers, rfl⟩ := map_eq_ok.mp h
        cases isTop_iff.mp htop
        exact ⟨[], others, rfl, rfl, .inr ⟨c, rest, hc, rfl, hothers⟩⟩
      · rename_i hsep
        obtain ⟨next, hstep, h⟩ := bind_eq_ok.mp h
        obtain ⟨found, hfound, h⟩ := bind_eq_ok.mp h
        obtain ⟨first, others, rfl, hthrough, hcases⟩ := ih hfound
        cases h
        have hs : ¬(s = start ∧ separates c = true) := by
          rw [← isTop_iff]
          simpa using hsep
        refine ⟨c :: first, others, rfl, ?_, ?_⟩
        · rw [through_cons_ok hs hstep]
          exact hthrough
        · rcases hcases with ⟨rfl, rfl⟩ | ⟨d, more, hd, rfl, hmore⟩
          · exact .inl ⟨rfl, rfl⟩
          · exact .inr ⟨d, more, hd, rfl, hmore⟩

-- Characters that a scan outside strings takes no notice of.
def isPlain (c : CodePoint) : Bool :=
  !([char '\\', char '"', char '(', char '[', char ')', char ']'].contains c)

theorem step_plain {groups : List Bracket} {c : CodePoint} (hc : isPlain c = true) :
    step ⟨groups, .nothing⟩ c = .ok ⟨groups, .nothing⟩ := by
  simp only [isPlain, List.contains_cons, List.contains_nil, Bool.not_eq_true',
    Bool.or_eq_false_iff, beq_eq_false_iff_ne] at hc
  simp [step, hc]

theorem step_opener {groups : List Bracket} (b : Bracket) (hroom : groups.length < maxDepth) :
    step ⟨groups, .nothing⟩ b.opener = .ok ⟨b :: groups, .nothing⟩ := by
  cases b <;> simp [step, Bracket.opener, opened, hroom]

theorem step_closer {groups : List Bracket} (b : Bracket) :
    step ⟨b :: groups, .nothing⟩ b.closer = .ok ⟨groups, .nothing⟩ := by
  cases b <;> simp [step, Bracket.closer, closed]

-- All that one character outside strings can do.
theorem step_nothing_cases {groups : List Bracket} {c : CodePoint}
    (h : step ⟨groups, .nothing⟩ c = .ok t) :
    (c = '\\' ∧ t = ⟨groups, .escape⟩) ∨ (c = '"' ∧ t = ⟨groups, .quote⟩) ∨
      (∃ b : Bracket, c = b.opener ∧ groups.length < maxDepth ∧ t = ⟨b :: groups, .nothing⟩) ∨
      (∃ b : Bracket, c = b.closer ∧ groups = b :: t.groups ∧ t.pending = .nothing) ∨
      (isPlain c = true ∧ t = ⟨groups, .nothing⟩) := by
  have hopened (b : Bracket) (ho : opened ⟨groups, .nothing⟩ b = .ok t) :
      groups.length < maxDepth ∧ t = ⟨b :: groups, .nothing⟩ := by
    unfold opened at ho
    split at ho
    · cases ho
      exact ⟨by assumption, rfl⟩
    · cases ho
  have hclosed (b : Bracket) (ho : closed ⟨groups, .nothing⟩ b = .ok t) :
      groups = b :: t.groups ∧ t.pending = .nothing := by
    cases groups with
    | nil => cases ho
    | cons known groups =>
        simp only [closed] at ho
        split at ho
        · rename_i hknown
          cases ho
          exact ⟨by rw [hknown], rfl⟩
        · cases ho
  simp only [step] at h
  split_ifs at h with h₁ h₂ h₃ h₄ h₅ h₆
  · exact .inl ⟨h₁, by cases h; rfl⟩
  · exact .inr (.inl ⟨h₂, by cases h; rfl⟩)
  · exact .inr (.inr (.inl ⟨.round, h₃, hopened _ h⟩))
  · exact .inr (.inr (.inl ⟨.square, h₄, hopened _ h⟩))
  · exact .inr (.inr (.inr (.inl ⟨.round, h₅, hclosed _ h⟩)))
  · exact .inr (.inr (.inr (.inl ⟨.square, h₆, hclosed _ h⟩)))
  · exact .inr (.inr (.inr (.inr ⟨by simp [isPlain, h₁, h₂, h₃, h₄, h₅, h₆], by cases h; rfl⟩)))

-- Outside strings only a quote and a backslash leave something pending.
theorem exists_step_ordinary {groups : List Bracket} {c : CodePoint} (hquote : c ≠ '"')
    (hescape : c ≠ '\\') (h : step ⟨groups, .nothing⟩ c = .ok t) :
    ∃ groups', t = ⟨groups', .nothing⟩ := by
  obtain ⟨groups', _⟩ := t
  rcases step_nothing_cases h with ⟨rfl, -⟩ | ⟨rfl, -⟩ | ⟨b, -, -, ht⟩ | ⟨b, -, -, ht⟩ | ⟨-, ht⟩
  · exact absurd rfl hescape
  · exact absurd rfl hquote
  · exact ⟨b :: groups, ht⟩
  · cases ht
    exact ⟨groups', rfl⟩
  · exact ⟨groups, ht⟩

theorem step_under {outer : List Bracket} {c : CodePoint} (h : s.step c = .ok t)
    (hroom : t.groups.length + outer.length ≤ maxDepth) :
    (s.under outer).step c = .ok (t.under outer) := by
  rcases s with ⟨groups, pending⟩
  cases pending with
  | nothing =>
      rcases step_nothing_cases h with ⟨rfl, rfl⟩ | ⟨rfl, rfl⟩ | ⟨b, rfl, -, rfl⟩ |
        ⟨b, rfl, rfl, hpending⟩ | ⟨hc, rfl⟩
      · rfl
      · rfl
      · apply step_opener b
        simp only [List.length_cons] at hroom
        simp only [List.length_append]
        omega
      · simp only [under, hpending]
        exact step_closer b
      · exact step_plain hc
  | escape => cases h; rfl
  | quote =>
      simp only [step] at h
      simp only [step, under]
      split_ifs at h ⊢ <;> cases h <;> rfl
  | quotedEscape => cases h; rfl

theorem groups_length_le_peak : s.groups.length ≤ peak s cs := by
  cases cs with
  | nil => exact Nat.le_refl _
  | cons c rest =>
      simp only [peak]
      split
      · exact Nat.le_max_left _ _
      · exact Nat.le_refl _

theorem peak_cons {c : CodePoint} (h : s.step c = .ok t) :
    peak s (c :: cs) = max s.groups.length (peak t cs) := by simp only [peak, h]

theorem peak_append (h : walk s cs = .ok t) :
    peak s (cs ++ more) = max (peak s cs) (peak t more) := by
  induction cs generalizing s with
  | nil =>
      cases h
      exact (Nat.max_eq_right groups_length_le_peak).symm
  | cons c rest ih =>
      obtain ⟨next, hstep, hrest⟩ := bind_eq_ok.mp h
      rw [List.cons_append, peak_cons hstep, peak_cons hstep, ih hrest, Nat.max_assoc]

-- Within a group nothing is at the top level.
theorem through_under {outer : List Bracket} (houter : outer ≠ []) (h : walk s cs = .ok t)
    (hroom : peak s cs + outer.length ≤ maxDepth) :
    through separates (s.under outer) cs = .ok (t.under outer) := by
  induction cs generalizing s with
  | nil => cases h; rfl
  | cons c rest ih =>
      obtain ⟨next, hstep, hrest⟩ := bind_eq_ok.mp h
      rw [peak_cons hstep] at hroom
      have hnext : next.groups.length ≤ peak next rest := groups_length_le_peak
      have hs : ¬(s.under outer = start ∧ separates c = true) := by
        rintro ⟨hstart, -⟩
        simp [under, start, houter] at hstart
      rw [through_cons_ok hs (step_under hstep (by omega))]
      exact ih hrest (by omega)

-- Within further groups a step does the same, or it closes the innermost of them.
theorem step_of_under {outer : List Bracket} {c : CodePoint} (h : (s.under outer).step c = .ok t) :
    (∃ next, s.step c = .ok next ∧ t = next.under outer) ∨
      s = start ∧ ∃ b rest, outer = b :: rest ∧ c = b.closer ∧ t = ⟨rest, .nothing⟩ := by
  rcases s with ⟨groups, pending⟩
  cases pending with
  | nothing =>
      rcases step_nothing_cases h with ⟨rfl, rfl⟩ | ⟨rfl, rfl⟩ | ⟨b, rfl, hroom, rfl⟩ |
        ⟨b, rfl, hgroups, hpending⟩ | ⟨hc, rfl⟩
      · exact .inl ⟨⟨groups, .escape⟩, rfl, rfl⟩
      · exact .inl ⟨⟨groups, .quote⟩, rfl, rfl⟩
      · have hless : groups.length < maxDepth := by
          simp only [List.length_append] at hroom
          omega
        exact .inl ⟨⟨b :: groups, .nothing⟩, step_opener b hless, rfl⟩
      · obtain ⟨left, _⟩ := t
        cases hpending
        cases groups with
        | nil => exact .inr ⟨rfl, b, left, hgroups, rfl, rfl⟩
        | cons known groups =>
            obtain ⟨rfl, rfl⟩ := List.cons_eq_cons.mp hgroups
            exact .inl ⟨⟨groups, .nothing⟩, step_closer known, rfl⟩
      · exact .inl ⟨⟨groups, .nothing⟩, step_plain hc, rfl⟩
  | escape =>
      cases h
      exact .inl ⟨_, rfl, rfl⟩
  | quote =>
      simp only [step, under] at h ⊢
      split_ifs at h ⊢ <;> cases h <;> exact .inl ⟨_, rfl, rfl⟩
  | quotedEscape =>
      cases h
      exact .inl ⟨_, rfl, rfl⟩

-- A step within further groups does the same if it succeeds without them.
theorem step_under_eq {outer : List Bracket} {u : Nesting} {c : CodePoint} (h : s.step c = .ok t)
    (hunder : (s.under outer).step c = .ok u) : u = t.under outer := by
  rcases step_of_under hunder with ⟨next, hnext, rfl⟩ | ⟨rfl, b, rest, rfl, rfl, rfl⟩
  · cases h.symm.trans hnext
    rfl
  · cases b <;> cases h

theorem walk_under_eq {outer : List Bracket} {u : Nesting} (h : walk s cs = .ok t)
    (hunder : walk (s.under outer) cs = .ok u) : u = t.under outer := by
  induction cs generalizing s with
  | nil => cases h; cases hunder; rfl
  | cons c rest ih =>
      obtain ⟨next, hstep, hrest⟩ := bind_eq_ok.mp h
      obtain ⟨_, hstep', hrest'⟩ := bind_eq_ok.mp hunder
      cases step_under_eq hstep hstep'
      exact ih hrest hrest'

theorem peak_under {outer : List Bracket} {u : Nesting} (h : walk s cs = .ok t)
    (hunder : walk (s.under outer) cs = .ok u) :
    peak (s.under outer) cs = peak s cs + outer.length := by
  induction cs generalizing s with
  | nil => simp [peak, under]
  | cons c rest ih =>
      obtain ⟨next, hstep, hrest⟩ := bind_eq_ok.mp h
      obtain ⟨_, hstep', hrest'⟩ := bind_eq_ok.mp hunder
      cases step_under_eq hstep hstep'
      rw [peak_cons hstep, peak_cons hstep', ih hrest hrest']
      simp only [under, List.length_append]
      omega

theorem peak_le_maxDepth (h : walk s cs = .ok t) (hs : s.groups.length ≤ maxDepth) :
    peak s cs ≤ maxDepth := by
  induction cs generalizing s with
  | nil => exact hs
  | cons c rest ih =>
      obtain ⟨next, hstep, hrest⟩ := bind_eq_ok.mp h
      rw [peak_cons hstep]
      refine Nat.max_le.mpr ⟨hs, ih hrest ?_⟩
      rcases s with ⟨groups, pending⟩
      cases pending with
      | nothing =>
          rcases step_nothing_cases hstep with ⟨-, rfl⟩ | ⟨-, rfl⟩ | ⟨b, -, hroom, rfl⟩ |
            ⟨b, -, rfl, -⟩ | ⟨-, rfl⟩
          · exact hs
          · exact hs
          · exact hroom
          · simp only [List.length_cons] at hs
            omega
          · exact hs
      | escape => cases hstep; exact hs
      | quote =>
          simp only [step] at hstep
          split_ifs at hstep <;> cases hstep <;> exact hs
      | quotedEscape => cases hstep; exact hs

-- A group around a balanced text is balanced and one level deeper.
theorem through_group (b : Bracket) (hopener : separates b.opener = false)
    (h : walk start cs = .ok start) (hroom : peak start cs < maxDepth) :
    through separates start (b.opener :: cs ++ [b.closer]) = .ok start := by
  have hfirst : through separates start [b.opener] = .ok (start.under [b]) :=
    through_cons_ok (by simp [hopener]) (step_opener b (by decide))
  have hcontent : through separates (start.under [b]) cs = .ok (start.under [b]) :=
    through_under (List.cons_ne_nil b []) h hroom
  have hlast : through separates (start.under [b]) [b.closer] = .ok start :=
    through_cons_ok (by simp [under, start]) (step_closer b)
  exact through_trans (through_trans hfirst hcontent) hlast

theorem peak_group (b : Bracket) (h : walk start cs = .ok start)
    (hgroup : walk start (b.opener :: cs ++ [b.closer]) = .ok t) :
    peak start (b.opener :: cs ++ [b.closer]) = peak start cs + 1 := by
  have hfirst : start.step b.opener = .ok (start.under [b]) := step_opener b (by decide)
  rw [List.cons_append, walk_cons, hfirst, ok_bind, walk_append] at hgroup
  obtain ⟨u, hcontent, hlast⟩ := bind_eq_ok.mp hgroup
  have hpeak := peak_under h hcontent
  rw [List.cons_append, peak_cons hfirst, peak_append hcontent, hpeak]
  cases walk_under_eq h hcontent
  have hclose : (start.under [b]).step b.closer = .ok start := step_closer b
  rw [peak_cons hclose]
  simp [start, under, peak]

end Nesting

end FrameNotation
