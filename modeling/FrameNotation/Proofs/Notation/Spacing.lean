import FrameNotation.Proofs.Notation.Levels

namespace FrameNotation

open Text Nesting

variable {cs token run rest : List CodePoint} {found pieces : List (List CodePoint)}

-- A run of blanks, which may be empty.
def IsRun (run : List CodePoint) : Prop := ∀ c ∈ run, isBlank c = true

-- Tokens in a row, each with the run of blanks after it. Only the last run may be empty.
inductive Trails : List (List CodePoint) → List CodePoint → Prop
  | nil : Trails [] []
  | cons {token run rest : List CodePoint} {tokens : List (List CodePoint)} (hrun : IsRun run)
      (hapart : tokens ≠ [] → run ≠ []) (hrest : Trails tokens rest) :
      Trails (token :: tokens) (token ++ run ++ rest)

-- Tokens in a row, with a run of blanks also in front of the first one.
def Spaced (tokens : List (List CodePoint)) (cs : List CodePoint) : Prop :=
  ∃ run rest, cs = run ++ rest ∧ IsRun run ∧ Trails tokens rest

theorem Trails.eq_nil (h : Trails [] rest) : rest = [] := by
  cases h
  rfl

theorem tokens_of_cut (h : cut isBlank start cs = .ok pieces) :
    tokens cs = .ok (pieces.filter fun piece => !piece.isEmpty) := by
  rw [tokens, Nesting.pieces, h]
  rfl

theorem ne_nil_of_mem_tokens (h : tokens cs = .ok found) (htoken : token ∈ found) :
    token ≠ [] := by
  obtain ⟨pieces, -, rfl⟩ := tokens_eq_ok h
  simpa using (List.mem_filter.mp htoken).2

-- A text is one token exactly if no blank cuts it.
theorem tokens_eq_singleton_iff :
    tokens cs = .ok [cs] ↔ cs ≠ [] ∧ through isBlank start cs = .ok start := by
  constructor
  · intro h
    refine ⟨ne_nil_of_mem_tokens h (List.mem_singleton_self cs), ?_⟩
    obtain ⟨pieces, hcut, hfilter⟩ := tokens_eq_ok h
    have hmem : cs ∈ pieces := by
      apply List.mem_of_mem_filter
      rw [← hfilter]
      exact List.mem_singleton_self cs
    obtain ⟨first, others, rfl, hfirst, ⟨-, rfl⟩ | ⟨c, rest, hc, hcs, hrest⟩⟩ := cut_eq_ok hcut
    · exact hfirst
    · -- The pieces of a text that is cut are shorter than the text.
      have hlength := congrArg List.length hcs
      simp only [List.length_append, List.length_cons] at hlength
      rcases List.mem_cons.mp hmem with rfl | hmem
      · omega
      · have hle := length_of_mem_cut (fun _ => isPlain_of_isBlank) hrest hmem
        omega
  · rintro ⟨hne, hthrough⟩
    rw [tokens_of_cut (cut_piece hthrough)]
    simpa using hne

-- Every piece of a cut is empty or one token, and blanks stand between the pieces.
theorem spaced_of_cut (h : cut isBlank start cs = .ok pieces) :
    Spaced (pieces.filter fun piece => !piece.isEmpty) cs := by
  induction pieces generalizing cs with
  | nil => exact absurd rfl (cut_ne_nil h)
  | cons first others ih =>
      obtain ⟨_, _, hpieces, -, hcases⟩ := cut_eq_ok h
      cases hpieces
      rcases hcases with ⟨rfl, rfl⟩ | ⟨c, rest, hc, rfl, hrest⟩
      · by_cases hfirst : cs = []
        · subst hfirst
          exact ⟨[], [], rfl, nofun, .nil⟩
        · have htrails : Trails [cs] (cs ++ [] ++ []) := .cons nofun (absurd rfl) .nil
          refine ⟨[], cs, rfl, nofun, ?_⟩
          simpa [hfirst] using htrails
      · obtain ⟨run, tail, rfl, hrun, htail⟩ := ih hrest
        have hrun' : IsRun (c :: run) := List.forall_mem_cons.mpr ⟨hc, hrun⟩
        by_cases hfirst : first = []
        · subst hfirst
          exact ⟨c :: run, tail, rfl, hrun', htail⟩
        · have htrails : Trails (first :: _) (first ++ (c :: run) ++ tail) :=
            htail.cons hrun' fun _ => List.cons_ne_nil c run
          refine ⟨[], _, rfl, nofun, ?_⟩
          simpa [hfirst] using htrails

-- Blanks in front of a text do not change its tokens.
theorem tokens_run_append (hrun : IsRun run) (h : tokens rest = .ok found) :
    tokens (run ++ rest) = .ok found := by
  induction run with
  | nil => exact h
  | cons c run ih =>
      obtain ⟨hc, hrun⟩ := List.forall_mem_cons.mp hrun
      obtain ⟨pieces, hcut, rfl⟩ := tokens_eq_ok (ih hrun)
      have hcons : cut isBlank start ([] ++ c :: (run ++ rest)) = .ok ([] :: pieces) := by
        rw [cut_cons_separator rfl hc, hcut, map_ok]
      have hpieces : tokens ([] ++ c :: (run ++ rest)) = _ := tokens_of_cut hcons
      simpa using hpieces

-- A token in front of blanks, or of nothing, is one more token.
theorem tokens_token_append (htoken : tokens token = .ok [token]) (hrun : IsRun run)
    (hapart : rest ≠ [] → run ≠ []) (h : tokens rest = .ok found) :
    tokens (token ++ run ++ rest) = .ok (token :: found) := by
  obtain ⟨hne, hthrough⟩ := tokens_eq_singleton_iff.mp htoken
  cases run with
  | nil =>
      obtain rfl : rest = [] := by simpa using hapart
      cases h
      simpa using htoken
  | cons c run =>
      obtain ⟨hc, hrun⟩ := List.forall_mem_cons.mp hrun
      obtain ⟨pieces, hcut, rfl⟩ := tokens_eq_ok (tokens_run_append hrun h)
      have hcons : cut isBlank start (token ++ c :: (run ++ rest)) = .ok (token :: pieces) := by
        rw [cut_cons_separator hthrough hc, hcut, map_ok]
      rw [List.append_assoc, List.cons_append, tokens_of_cut hcons, List.filter_cons]
      simp [hne]

theorem tokens_of_trails (h : Trails found cs)
    (hfound : ∀ token ∈ found, tokens token = .ok [token]) : tokens cs = .ok found := by
  induction h with
  | nil => rfl
  | @cons token run rest others hrun hapart hrest ih =>
      obtain ⟨htoken, hothers⟩ := List.forall_mem_cons.mp hfound
      refine tokens_token_append htoken hrun (fun hne => hapart ?_) (ih hothers)
      rintro rfl
      exact hne hrest.eq_nil

-- Cutting into tokens loses nothing and is undone by joining with blanks: a text has certain tokens
-- exactly if it consists of them, in order and with blanks between them, and each of them is one
-- token by itself. No token is empty.
theorem tokens_eq_ok_iff :
    (tokens cs = .ok found ↔ Spaced found cs ∧ ∀ token ∈ found, tokens token = .ok [token]) ∧
      (tokens cs = .ok found → [] ∉ found) := by
  refine ⟨⟨fun h => ⟨?_, fun token htoken => ?_⟩, ?_⟩, fun h hmem => ?_⟩
  · obtain ⟨pieces, hcut, rfl⟩ := tokens_eq_ok h
    exact spaced_of_cut hcut
  · have hne := ne_nil_of_mem_tokens h htoken
    obtain ⟨pieces, hcut, rfl⟩ := tokens_eq_ok h
    obtain ⟨-, hpieces⟩ := exists_of_mem_cut (fun _ => isPlain_of_isBlank) hcut
    obtain ⟨_, _, -, -, hthrough⟩ := hpieces token (List.mem_of_mem_filter htoken)
    exact tokens_eq_singleton_iff.mpr ⟨hne, hthrough⟩
  · rintro ⟨⟨run, rest, rfl, hrun, htrails⟩, hfound⟩
    exact tokens_run_append hrun (tokens_of_trails htrails hfound)
  · exact ne_nil_of_mem_tokens h hmem rfl

end FrameNotation
