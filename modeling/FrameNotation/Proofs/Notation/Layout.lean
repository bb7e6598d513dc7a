import FrameNotation.Proofs.Notation.Levels
import FrameNotation.Proofs.Notation.Strand

namespace FrameNotation.Layout

open Text

variable {cs text rest more blanks gap : List CodePoint} {c : CodePoint}

-- Text whose strings are closed, whose escapes are complete, and whose comments end with their
-- lines.
inductive Complete : List CodePoint → Prop
  | nil : Complete []
  | plain {c : CodePoint} {rest : List CodePoint} (hquote : c ≠ '"') (hescape : c ≠ '\\')
      (hcomment : c = '/' → rest.head? ≠ some (char '/')) (hrest : Complete rest) :
      Complete (c :: rest)
  | escape {c : CodePoint} {rest : List CodePoint} (hrest : Complete rest) :
      Complete (char '\\' :: c :: rest)
  | string {inner rest : List CodePoint} (hinner : isContent inner = true) (hrest : Complete rest) :
      Complete (char '"' :: inner ++ char '"' :: rest)
  | comment {text rest : List CodePoint} (htext : char '\n' ∉ text) (hrest : Complete rest) :
      Complete (char '/' :: char '/' :: text ++ char '\n' :: rest)

-- Characters of which none is special may stand in front.
theorem Complete.append_ordinary (h : ∀ c ∈ cs, c ≠ '"' ∧ c ≠ '\\' ∧ c ≠ '/')
    (hrest : Complete rest) : Complete (cs ++ rest) := by
  induction cs with
  | nil => exact hrest
  | cons c cs ih =>
      obtain ⟨hquote, hescape, hslash⟩ := h c (by simp)
      exact .plain hquote hescape (fun hc => absurd hc hslash) (ih fun d hd => h d (by simp [hd]))

-- Blanks, and comments that end with their lines.
inductive Filler : List CodePoint → Prop
  | nil : Filler []
  | blank {c : CodePoint} {rest : List CodePoint} (hc : isBlank c = true) (hrest : Filler rest) :
      Filler (c :: rest)
  | comment {text rest : List CodePoint} (htext : char '\n' ∉ text) (hrest : Filler rest) :
      Filler (char '/' :: char '/' :: text ++ char '\n' :: rest)

-- What may stand in place of a blank. A comment would not begin after a slash, so a blank does.
structure IsGap (gap : List CodePoint) : Prop where
  startsBlank : startsBlank gap = true
  filler : Filler gap

theorem isGap_of_blanks (hne : blanks ≠ []) (h : ∀ c ∈ blanks, isBlank c = true) :
    IsGap blanks := by
  have hfiller : Filler blanks := by
    clear hne
    induction blanks with
    | nil => exact .nil
    | cons c rest ih => exact .blank (h c (by simp)) (ih fun d hd => h d (by simp [hd]))
  obtain ⟨c, rest, rfl⟩ := List.exists_cons_of_ne_nil hne
  exact ⟨h c (by simp), hfiller⟩

section Comments

theorem append_cons_append : cs ++ c :: rest ++ more = cs ++ c :: (rest ++ more) := by simp

theorem ne_of_isBlank (hc : isBlank c = true) : c ≠ '"' ∧ c ≠ '\\' ∧ c ≠ '/' := by
  refine ⟨?_, ?_, ?_⟩ <;>
  · rintro rfl
    exact absurd hc (by decide)

theorem uncommented_blank_cons (hc : isBlank c = true) :
    uncommented .outside (c :: rest) = c :: uncommented .outside rest := by
  obtain ⟨hquote, hescape, hslash⟩ := ne_of_isBlank hc
  exact uncommented_outside_cons hquote hescape fun h => absurd h hslash

-- A comment is left out, and the newline that ends it stays.
theorem uncommented_comment (htext : char '\n' ∉ text) :
    uncommented .outside (char '/' :: char '/' :: text ++ char '\n' :: rest) =
      char '\n' :: uncommented .outside rest := by
  have hcomment : uncommented .comment (text ++ char '\n' :: rest) =
      char '\n' :: uncommented .outside rest := by
    induction text with
    | nil => rfl
    | cons c text ih =>
        rw [List.mem_cons, not_or] at htext
        rw [List.cons_append, uncommented, ih htext.2]
        exact Ne.symm htext.1
  exact hcomment

-- What follows complete text at a blank is scanned on its own.
theorem uncommented_append (h : Complete cs) (hmore : startsBlank more = true) :
    uncommented .outside (cs ++ more) =
      uncommented .outside cs ++ uncommented .outside more := by
  induction h with
  | nil => rfl
  | @plain c rest hquote hescape hcomment _ ih =>
      have hslash : c = '/' → (rest ++ more).head? ≠ some (char '/') := by
        rintro hc hhead
        cases rest with
        | nil =>
            obtain ⟨later, rfl⟩ := List.head?_eq_some_iff.mp hhead
            exact Bool.false_ne_true hmore
        | cons d rest => exact hcomment hc hhead
      rw [List.cons_append, uncommented_outside_cons hquote hescape hslash,
        uncommented_outside_cons hquote hescape hcomment, ih, List.cons_append]
  | escape _ ih => simp only [List.cons_append, uncommented, ih]
  | string hinner _ ih =>
      rw [append_cons_append, uncommented_string hinner, ih, uncommented_string hinner,
        append_cons_append]
  | comment htext _ ih =>
      rw [append_cons_append, uncommented_comment htext, ih, uncommented_comment htext,
        List.cons_append]

-- What is left of a gap are blanks.
theorem exists_blanks (h : Filler gap) : ∃ blanks, (∀ c ∈ blanks, isBlank c = true) ∧
    (startsBlank gap = true → startsBlank blanks = true) ∧
      ∀ rest, uncommented .outside (gap ++ rest) = blanks ++ uncommented .outside rest := by
  induction h with
  | nil => exact ⟨[], nofun, id, fun _ => rfl⟩
  | @blank c _ hc _ ih =>
      obtain ⟨blanks, hblanks, -, hrest⟩ := ih
      refine ⟨c :: blanks, by simpa [hc] using hblanks, id, fun rest => ?_⟩
      rw [List.cons_append, uncommented_blank_cons hc, hrest, List.cons_append]
  | comment htext _ ih =>
      obtain ⟨blanks, hblanks, -, hrest⟩ := ih
      refine ⟨char '\n' :: blanks, ?_, fun _ => rfl, fun rest => ?_⟩
      · simpa [show isBlank '\n' = true from rfl] using hblanks
      · rw [append_cons_append, uncommented_comment htext, hrest, List.cons_append]

end Comments

section Blanks

variable {after after' : List CodePoint}

-- Of blanks it only matters that there are some.
theorem collapsed_blanks (h : ∀ c ∈ blanks, isBlank c = true)
    (hstarts : startsBlank blanks = true) :
    collapsed .outside (blanks ++ rest) =
      if startsBlank rest then collapsed .outside rest
      else char ' ' :: collapsed .outside rest := by
  induction blanks with
  | nil => exact absurd hstarts (by decide)
  | cons c blanks ih =>
      obtain ⟨hquote, hescape, -⟩ := ne_of_isBlank hstarts
      have hc : isBlank c = true := hstarts
      rw [List.cons_append, collapsed_outside_cons hquote hescape]
      simp only [hc]
      cases blanks with
      | nil => simp
      | cons d blanks =>
          have hd := h d (by simp)
          rw [ih (fun e he => h e (by simp [he])) hd]
          simp [startsBlank, hd]

theorem startsBlank_append_left (h : startsBlank cs = true) : startsBlank (cs ++ rest) = true := by
  cases cs with
  | nil => exact absurd h (by decide)
  | cons c cs => exact h

theorem startsBlank_append_congr (h : startsBlank after = startsBlank after') :
    startsBlank (cs ++ after) = startsBlank (cs ++ after') := by
  cases cs with
  | nil => exact h
  | cons c cs => rfl

theorem collapsed_cons_congr (hquote : c ≠ '"') (hescape : c ≠ '\\')
    (hstarts : startsBlank after = startsBlank after')
    (h : collapsed .outside after = collapsed .outside after') :
    collapsed .outside (c :: after) = collapsed .outside (c :: after') := by
  rw [collapsed_outside_cons hquote hescape, collapsed_outside_cons hquote hescape, h, hstarts]

-- After complete text without its comments, what is collapsed alike on its own is so as well.
theorem collapsed_append_congr (h : Complete cs) (hstarts : startsBlank after = startsBlank after')
    (hafter : collapsed .outside after = collapsed .outside after') :
    collapsed .outside (uncommented .outside cs ++ after) =
      collapsed .outside (uncommented .outside cs ++ after') := by
  induction h with
  | nil => exact hafter
  | plain hquote hescape hcomment _ ih =>
      rw [uncommented_outside_cons hquote hescape hcomment]
      exact collapsed_cons_congr hquote hescape (startsBlank_append_congr hstarts) ih
  | escape _ ih => simp only [uncommented, List.cons_append, collapsed, ih]
  | string hinner _ ih =>
      rw [uncommented_string hinner, append_cons_append, append_cons_append,
        collapsed_string hinner, collapsed_string hinner, ih]
  | comment htext _ ih =>
      rw [uncommented_comment htext]
      exact collapsed_cons_congr (by decide) (by decide) (startsBlank_append_congr hstarts) ih

end Blanks

-- One gap is as good as another, whatever follows it.
theorem canonical_gap {gap' : List CodePoint} (h : Complete cs) (hgap : IsGap gap)
    (hgap' : IsGap gap') :
    canonical (cs ++ gap ++ rest) = canonical (cs ++ gap' ++ rest) := by
  have hscan {gap : List CodePoint} (hgap : IsGap gap) :
      ∃ blanks, (∀ c ∈ blanks, isBlank c = true) ∧
      startsBlank blanks = true ∧ uncommented .outside (cs ++ gap ++ rest) =
        uncommented .outside cs ++ (blanks ++ uncommented .outside rest) := by
    obtain ⟨blanks, hblanks, hstarts, hrest⟩ := exists_blanks hgap.filler
    refine ⟨blanks, hblanks, hstarts hgap.startsBlank, ?_⟩
    rw [List.append_assoc, uncommented_append h (startsBlank_append_left hgap.startsBlank), hrest]
  obtain ⟨blanks, hblanks, hstarts, heq⟩ := hscan hgap
  obtain ⟨blanks', hblanks', hstarts', heq'⟩ := hscan hgap'
  have hcollapsed : collapsed .outside (blanks ++ uncommented .outside rest) =
      collapsed .outside (blanks' ++ uncommented .outside rest) := by
    rw [collapsed_blanks hblanks hstarts, collapsed_blanks hblanks' hstarts']
  have hboth : startsBlank (blanks ++ uncommented .outside rest) =
      startsBlank (blanks' ++ uncommented .outside rest) := by
    rw [startsBlank_append_left hstarts, startsBlank_append_left hstarts']
  simp only [canonical, stripComments, collapseBlanks, heq, heq',
    collapsed_append_congr h hboth hcollapsed]

end FrameNotation.Layout

namespace FrameNotation

open Text Layout

-- Layout does not change what a text stands for: in place of blanks after complete text there may
-- be other blanks, with comments among them.
theorem Node.read_relaid {before blanks gap after : List CodePoint} (hbefore : Complete before)
    (hne : blanks ≠ []) (hblanks : ∀ c ∈ blanks, isBlank c = true) (hgap : IsGap gap) :
    canonical (before ++ gap ++ after) = canonical (before ++ blanks ++ after) ∧
      ∀ frame, Node.read (before ++ gap ++ after) = .ok frame ↔
        Node.read (before ++ blanks ++ after) = .ok frame := by
  have hcanonical : canonical (before ++ gap ++ after) = canonical (before ++ blanks ++ after) :=
    canonical_gap hbefore hgap (isGap_of_blanks hne hblanks)
  exact ⟨hcanonical, fun frame => Node.read_congr hcanonical⟩

-- A text with a comment that holds a quote, and with a string that holds slashes.
def commentedText : List CodePoint :=
  ("(query " : Str).toList ++
  (char '/' :: char '/' :: [char ' ', char '"'] ++ char '\n' :: (("a:" : Str).toList ++
    (char '"' :: [char '/', char '/'] ++ [char '"'])))

-- A tab and a comment that ends in a quote and a backslash.
def commentedGap : List CodePoint :=
  char '\t' :: (char '/' :: char '/' :: [char ' ', char '"', char '\\'] ++ [char '\n'])

theorem Node.read_relaid_commented : Complete commentedText ∧ IsGap commentedGap ∧
    canonical (commentedText ++ commentedGap ++ ("b:1)" : Str).toList) =
      ("(query a:\"//\" b:1)" : Str).toList ∧
      ∀ frame, Node.read (commentedText ++ commentedGap ++ ("b:1)" : Str).toList) = .ok frame ↔
        Node.read (commentedText ++ [char ' '] ++ ("b:1)" : Str).toList) = .ok frame := by
  have htext : Complete commentedText :=
    .append_ordinary (by simp) (.comment (by decide) (.append_ordinary (by simp)
      (.string rfl .nil)))
  have hgap : IsGap commentedGap := ⟨rfl, .blank rfl (.comment (by decide) .nil)⟩
  obtain ⟨-, hread⟩ : canonical (commentedText ++ commentedGap ++ ("b:1)" : Str).toList) = _ ∧ _ :=
    Node.read_relaid htext (List.cons_ne_nil (char ' ') []) (List.forall_mem_singleton.mpr rfl) hgap
  exact ⟨htext, hgap, by decide, hread⟩

end FrameNotation
