import FrameNotation.Notation.Layout
import FrameNotation.Proofs.Notation.Scan
import Mathlib.Tactic.SplitIfs

namespace FrameNotation.Layout

open Text

-- The inside of a string: a backslash takes the next character with it, and no quote stands alone.
def isContent : List CodePoint → Bool
  | [] => true
  | char '\\' :: rest =>
    match rest with
    | [] => false
    | _ :: more => isContent more
  | c :: rest => c != '"' && isContent rest

section Scanners

variable {mode : Mode} {c : CodePoint} {cs more inner rest : List CodePoint}

theorem closes_cons (hquote : c ≠ '"') (hescape : c ≠ '\\') :
    closes (c :: rest) = closes rest := by
  rw [closes]
  · exact hquote
  · intro _ _ h
    exact absurd h hescape

theorem uncommented_inside_cons (hquote : c ≠ '"') (hescape : c ≠ '\\') :
    uncommented .inside (c :: rest) = c :: uncommented .inside rest := by
  rw [uncommented] <;> simp_all

theorem uncommented_outside_cons (hquote : c ≠ '"') (hescape : c ≠ '\\')
    (hcomment : c = '/' → rest.head? ≠ some (char '/')) :
    uncommented .outside (c :: rest) = c :: uncommented .outside rest := by
  rw [uncommented] <;> simp_all
  rintro more rfl rfl
  exact hcomment rfl rfl

theorem collapsed_inside_cons (hquote : c ≠ '"') (hescape : c ≠ '\\') :
    collapsed .inside (c :: rest) = c :: collapsed .inside rest := by
  rw [collapsed] <;> simp_all

theorem collapsed_outside_cons (hquote : c ≠ '"') (hescape : c ≠ '\\') :
    collapsed .outside (c :: rest) =
      if !isBlank c then c :: collapsed .outside rest
      else if startsBlank rest then collapsed .outside rest
      else char ' ' :: collapsed .outside rest := by
  rw [collapsed] <;> simp_all

theorem closes_content (h : isContent inner = true) :
    closes (inner ++ char '"' :: rest) = true := by
  fun_induction isContent inner with
  | case1 => rfl
  | case2 => cases h
  | case3 c inner ih => exact ih h
  | case4 c inner hescape ih =>
      obtain ⟨hquote, hinner⟩ := Bool.and_eq_true_iff.mp h
      rw [List.cons_append, closes_cons (by simpa using hquote) hescape]
      exact ih hinner

-- Induction along the inside of a string, up to the quote that may close it.
@[elab_as_elim]
theorem string_induction {motive : List CodePoint → Prop} (nil : motive [])
    (quote : ∀ rest, motive (char '"' :: rest))
    (escape : ∀ c rest, motive rest → motive (char '\\' :: c :: rest))
    (backslash : motive [char '\\'])
    (plain : ∀ (c : CodePoint) rest, c ≠ '"' → c ≠ '\\' → motive rest → motive (c :: rest))
    (cs : List CodePoint) :
    motive cs := by
  fun_induction closes cs with
  | case1 rest => exact quote rest
  | case2 c rest ih => exact escape c rest ih
  | case3 c rest hquote hpair ih =>
      by_cases hescape : c = '\\'
      · subst hescape
        cases rest with
        | nil => exact backslash
        | cons d rest => exact absurd rfl (hpair d rest rfl)
      · exact plain c rest hquote hescape ih
  | case4 => exact nil

theorem closes_append (h : closes cs = true) : closes (cs ++ more) = true := by
  induction cs using string_induction with
  | nil => cases h
  | quote => rfl
  | escape c rest ih => exact ih h
  | backslash => cases h
  | plain c rest hquote hescape ih =>
      rw [closes_cons hquote hescape] at h
      rw [List.cons_append, closes_cons hquote hescape, ih h]

theorem exists_content_of_closes (h : closes cs = true) :
    ∃ inner rest, isContent inner = true ∧ cs = inner ++ char '"' :: rest := by
  induction cs using string_induction with
  | nil => cases h
  | quote rest => exact ⟨[], rest, rfl, rfl⟩
  | escape c rest ih =>
      obtain ⟨inner, more, hinner, rfl⟩ := ih h
      exact ⟨char '\\' :: c :: inner, more, hinner, rfl⟩
  | backslash => cases h
  | plain c rest hquote hescape ih =>
      rw [closes_cons hquote hescape] at h
      obtain ⟨inner, more, hinner, rfl⟩ := ih h
      refine ⟨c :: inner, more, ?_, rfl⟩
      rw [isContent]
      · simpa [hinner] using hquote
      · exact hescape

theorem uncommented_content (h : isContent inner = true) :
    uncommented .inside (inner ++ char '"' :: rest) =
      inner ++ char '"' :: uncommented .outside rest := by
  fun_induction isContent inner with
  | case1 => rfl
  | case2 => cases h
  | case3 c inner ih => simpa [uncommented] using ih h
  | case4 c inner hescape ih =>
      obtain ⟨hquote, hinner⟩ := Bool.and_eq_true_iff.mp h
      rw [List.cons_append, uncommented_inside_cons (by simpa using hquote) hescape, ih hinner]
      rfl

theorem collapsed_content (h : isContent inner = true) :
    collapsed .inside (inner ++ char '"' :: rest) =
      inner ++ char '"' :: collapsed .outside rest := by
  fun_induction isContent inner with
  | case1 => rfl
  | case2 => cases h
  | case3 c inner ih => simpa [collapsed] using ih h
  | case4 c inner hescape ih =>
      obtain ⟨hquote, hinner⟩ := Bool.and_eq_true_iff.mp h
      rw [List.cons_append, collapsed_inside_cons (by simpa using hquote) hescape, ih hinner]
      rfl

theorem uncommented_string (h : isContent inner = true) :
    uncommented .outside (char '"' :: inner ++ char '"' :: rest) =
      char '"' :: inner ++ char '"' :: uncommented .outside rest := by
  rw [List.cons_append, uncommented, afterQuote, closes_content h, if_pos rfl,
    uncommented_content h]
  · rfl
  · simp

theorem collapsed_string (h : isContent inner = true) :
    collapsed .outside (char '"' :: inner ++ char '"' :: rest) =
      char '"' :: inner ++ char '"' :: collapsed .outside rest := by
  rw [List.cons_append, collapsed, afterQuote, closes_content h, if_pos rfl,
    collapsed_content h]
  rfl

end Scanners

-- Where a scan of written text stands: outside strings, after some character; inside a string,
-- with its content so far in reverse; or after a backslash in a string.
inductive Strand
  | bare (previous : Option CodePoint)
  | string (content : List CodePoint)
  | escape (content : List CodePoint)

namespace Strand

-- Which text a scan goes through: whether blanks outside strings may be any, or have to be single
-- spaces, and what a string may hold.
structure Rule where
  anyBlanks : Bool
  holds : List CodePoint → Bool

variable {rule : Rule} {s t : Strand} {previous last : Option CodePoint} {c : CodePoint}
variable {cs more content : List CodePoint}

-- Outside strings there is no backslash and no comment.
def Rule.admits (rule : Rule) (previous : Option CodePoint) (c : CodePoint) : Bool :=
  c != '\\' && !(c == '/' && previous == some (char '/'))
    && (!isBlank c || rule.anyBlanks || (c == ' ' && !previous.any isBlank))

theorem Rule.admits_iff : rule.admits previous c = true ↔
    c ≠ '\\' ∧ (c = '/' → previous ≠ some (char '/')) ∧
      (isBlank c = false ∨ rule.anyBlanks = true ∨ c = ' ' ∧ previous.any isBlank = false) := by
  simp [Rule.admits, and_assoc, or_assoc, Decidable.imp_iff_not_or]

def step (rule : Rule) : Strand → CodePoint → Option Strand
  | .bare previous, c =>
    if c = '"' then some (.string [])
    else if rule.admits previous c then some (.bare (some c)) else none
  | .string content, c =>
    if c = '"' then if rule.holds content.reverse then some (.bare (some (char '"'))) else none
    else if c = '\\' then some (.escape content) else some (.string (c :: content))
  | .escape content, c => some (.string (c :: content))

def run (rule : Rule) (s : Strand) (cs : List CodePoint) : Option Strand := cs.foldlM (step rule) s

@[simp] theorem run_nil : run rule s [] = some s := rfl

@[simp] theorem run_cons : run rule s (c :: cs) = (step rule s c).bind (run rule · cs) := rfl

theorem run_append : run rule s (cs ++ more) = (run rule s cs).bind (run rule · more) :=
  List.foldlM_append

theorem run_trans {u : Strand} (hcs : run rule s cs = some t) (hmore : run rule t more = some u) :
    run rule s (cs ++ more) = some u := by
  rw [run_append, hcs]
  exact hmore

theorem run_bare_cons (hquote : c ≠ '"') (h : run rule (.bare previous) (c :: cs) = some t) :
    rule.admits previous c = true ∧ run rule (.bare (some c)) cs = some t := by
  rw [run_cons, step, if_neg hquote] at h
  split at h
  · exact ⟨by assumption, h⟩
  · cases h

theorem run_bare_of_admits (hquote : c ≠ '"') (hadmits : rule.admits previous c = true) :
    run rule (.bare previous) (c :: cs) = run rule (.bare (some c)) cs := by
  rw [run_cons, step, if_neg hquote, if_pos hadmits]
  rfl

-- The same rule for strings, with single spaces outside them.
def Rule.tidy (rule : Rule) : Rule := ⟨false, rule.holds⟩

-- A scan that ends outside strings leaves a string at the quote that ends it, and blanks outside
-- strings do not matter until then. Both states inside a string are taken at once, since each step
-- leads from one to the other.
private theorem run_string_or_escape (cs : List CodePoint) :
    (∀ content, run rule (.string content) cs = some (.bare last) →
      ∃ inner rest, cs = inner ++ char '"' :: rest ∧ isContent inner = true ∧
        run rule.tidy (.string content) (inner ++ [char '"']) = some (.bare (some (char '"'))) ∧
        run rule (.bare (some (char '"'))) rest = some (.bare last)) ∧
    (∀ content, run rule (.escape content) cs = some (.bare last) →
      ∃ c inner rest, cs = c :: inner ++ char '"' :: rest ∧ isContent inner = true ∧
        run rule.tidy (.escape content) (c :: inner ++ [char '"']) =
          some (.bare (some (char '"'))) ∧
        run rule (.bare (some (char '"'))) rest = some (.bare last)) := by
  induction cs with
  | nil => exact ⟨nofun, nofun⟩
  | cons c rest ih =>
      refine ⟨fun content h => ?_, fun content h => ?_⟩
      · rw [run_cons, step] at h
        split_ifs at h with hquote hholds hescape
        · subst hquote
          refine ⟨[], rest, rfl, rfl, ?_, h⟩
          rw [List.nil_append, run_cons, step, if_pos rfl]
          simp [Rule.tidy, hholds]
        · cases h
        · subst hescape
          obtain ⟨d, inner, more, rfl, hinner, hrun, hmore⟩ := ih.2 content h
          exact ⟨char '\\' :: d :: inner, more, rfl, hinner, hrun, hmore⟩
        · obtain ⟨inner, more, rfl, hinner, hrun, hmore⟩ := ih.1 (c :: content) h
          refine ⟨c :: inner, more, rfl, ?_, ?_, hmore⟩
          · rw [isContent]
            · simp [hquote, hinner]
            · exact hescape
          · rw [List.cons_append, run_cons, step, if_neg hquote, if_neg hescape]
            exact hrun
      · obtain ⟨inner, more, rfl, hinner, hrun, hmore⟩ := ih.1 (c :: content) h
        exact ⟨c, inner, more, rfl, hinner, hrun, hmore⟩

theorem run_bare_quote (h : run rule (.bare previous) (char '"' :: cs) = some (.bare last)) :
    ∃ inner rest, cs = inner ++ char '"' :: rest ∧ isContent inner = true ∧
      run rule.tidy (.string []) (inner ++ [char '"']) = some (.bare (some (char '"'))) ∧
      run rule (.bare (some (char '"'))) rest = some (.bare last) :=
  (run_string_or_escape cs).1 [] h

-- What a scan goes through that starts and ends outside strings: a string at once, and every other
-- character alone.
inductive Passes (rule : Rule) : Option CodePoint → List CodePoint → Prop
  | nil (previous : Option CodePoint) : Passes rule previous []
  | plain {previous : Option CodePoint} {c : CodePoint} {rest : List CodePoint} (hquote : c ≠ '"')
      (hadmits : rule.admits previous c = true) (hrest : Passes rule (some c) rest) :
      Passes rule previous (c :: rest)
  | string (previous : Option CodePoint) {inner rest : List CodePoint}
      (hinner : isContent inner = true)
      (hrun : run rule.tidy (.string []) (inner ++ [char '"']) = some (.bare (some (char '"'))))
      (hrest : Passes rule (some (char '"')) rest) :
      Passes rule previous (char '"' :: inner ++ char '"' :: rest)

-- The induction is on the length, since a string is passed at once.
theorem passes_of_run (h : run rule (.bare previous) cs = some (.bare last)) :
    Passes rule previous cs := by
  induction hn : cs.length using Nat.strongRecOn generalizing cs previous with
  | ind n ih =>
  subst hn
  cases cs with
  | nil => exact .nil previous
  | cons c rest =>
      by_cases hquote : c = '"'
      · subst hquote
        obtain ⟨inner, more, rfl, hinner, hrun, hmore⟩ := run_bare_quote h
        exact .string previous hinner hrun (ih _ (by simp; omega) hmore rfl)
      · obtain ⟨hadmits, hrest⟩ := run_bare_cons hquote h
        exact .plain hquote hadmits (ih _ (by simp) hrest rfl)

theorem Passes.admits (h : Passes rule previous (c :: cs)) (hquote : c ≠ '"') :
    rule.admits previous c = true := by
  cases h with
  | plain _ hadmits => exact hadmits
  | string => exact absurd rfl hquote

-- Written text holds no comment.
theorem uncommented_of_run (h : run rule (.bare previous) cs = some (.bare last)) :
    uncommented .outside cs = cs := by
  replace h := passes_of_run h
  induction h with
  | nil => rfl
  | @plain previous c rest hquote hadmits hrest ih =>
      have hcomment : c = '/' → rest.head? ≠ some (char '/') := by
        rintro rfl hhead
        obtain ⟨more, rfl⟩ := List.head?_eq_some_iff.mp hhead
        exact (Rule.admits_iff.mp (hrest.admits (by decide))).2.1 rfl rfl
      rw [uncommented_outside_cons hquote (Rule.admits_iff.mp hadmits).1 hcomment, ih]
  | string _ hinner _ _ ih => rw [uncommented_string hinner, ih]

theorem not_startsBlank (htidy : rule.anyBlanks = false) (h : Passes rule (some (char ' ')) cs) :
    startsBlank cs = false := by
  cases h with
  | nil => rfl
  | plain _ hadmits =>
      rcases (Rule.admits_iff.mp hadmits).2.2 with hc | hany | ⟨-, hspace⟩
      · exact hc
      · simp [htidy] at hany
      · exact absurd hspace (by decide)
  | string => rfl

-- With single spaces there is nothing to collapse.
theorem collapsed_of_run (htidy : rule.anyBlanks = false)
    (h : run rule (.bare previous) cs = some (.bare last)) :
    collapsed .outside cs = cs := by
  replace h := passes_of_run h
  induction h with
  | nil => rfl
  | plain hquote hadmits hrest ih =>
      obtain ⟨hescape, -, hblank⟩ := Rule.admits_iff.mp hadmits
      rw [collapsed_outside_cons hquote hescape, ih]
      rcases hblank with hc | hany | ⟨rfl, -⟩
      · simp [hc]
      · simp [htidy] at hany
      · simp [not_startsBlank htidy hrest]
  | string _ hinner _ _ ih => rw [collapsed_string hinner, ih]

theorem canonical_of_run (htidy : rule.anyBlanks = false)
    (h : run rule (.bare previous) cs = some (.bare last)) : canonical cs = trim cs := by
  rw [canonical, stripComments, uncommented_of_run h, collapseBlanks, collapsed_of_run htidy h]

-- Collapsing blanks leaves single spaces. Of a run of blanks the last one is written, so the text
-- that is left follows `previous'`, and not the blanks that are skipped.
theorem run_collapsed {previous' : Option CodePoint}
    (hslash : previous' = some (char '/') → previous = some (char '/') ∨ startsBlank cs = true)
    (hblank : previous'.any isBlank = true → startsBlank cs = false)
    (h : run rule (.bare previous) cs = some (.bare last)) :
    ∃ last', run rule.tidy (.bare previous') (collapsed .outside cs) = some (.bare last') := by
  replace h := passes_of_run h
  induction h generalizing previous' with
  | nil => exact ⟨previous', rfl⟩
  | string _ hinner hrun _ ih =>
      obtain ⟨last', hlast⟩ := @ih (some (char '"')) (by simp)
        (by simp [show isBlank '"' = false from rfl])
      refine ⟨last', ?_⟩
      rw [collapsed_string hinner, List.cons_append, List.append_cons]
      exact run_trans hrun hlast
  | @plain previous c rest hquote hadmits _ ih =>
      obtain ⟨hescape, hcomment, -⟩ := Rule.admits_iff.mp hadmits
      rw [collapsed_outside_cons hquote hescape]
      by_cases hc : isBlank c = true
      · have hprevious : previous'.any isBlank = false := by
          rw [← Bool.not_eq_true]
          intro hp
          exact absurd (hblank hp) (by simp [startsBlank, hc])
        by_cases hstart : startsBlank rest = true
        · simp only [hc, hstart]
          exact ih (fun _ => .inr hstart) (by simp [hprevious])
        · obtain ⟨last', hlast⟩ := @ih (some (char ' ')) (by simp)
            fun _ => by simpa using hstart
          have hspace : rule.tidy.admits previous' ' ' = true :=
            Rule.admits_iff.mpr ⟨by decide, by simp, .inr (.inr ⟨rfl, hprevious⟩)⟩
          refine ⟨last', ?_⟩
          rw [if_neg (by simp [hc]), if_neg hstart, run_bare_of_admits (by decide) hspace]
          exact hlast
      · obtain ⟨last', hlast⟩ := @ih (some c) .inl (by simp [hc])
        have hplain : rule.tidy.admits previous' c = true := by
          refine Rule.admits_iff.mpr ⟨hescape, fun hcslash hp => ?_, .inl (by simpa using hc)⟩
          rcases hslash hp with hp' | hstart
          · exact hcomment hcslash hp'
          · simp [startsBlank, hc] at hstart
        refine ⟨last', ?_⟩
        rw [if_pos (by simp [hc]), run_bare_of_admits hquote hplain]
        exact hlast

end Strand

end FrameNotation.Layout
