import FrameNotation.Proofs.Notation.Balanced
import FrameNotation.Proofs.Notation.Joining
import FrameNotation.Proofs.Notation.Peg
import FrameNotation.Proofs.Notation.Tidy

namespace FrameNotation

open Text Nesting Peg FrameNotation.Tree

variable {context : Context} {b : Bracket} {c : CodePoint} {cs part rest : List CodePoint}
variable {trees : List Tree} {found : List Tree × List CodePoint}

theorem Context.isPlain_of_separates (context : Context) (hc : context.separates c = true) :
    isPlain c = true := by
  cases context with
  | group => cases hc
  | body => exact isPlain_of_isBlank hc
  | array => exact isPlain_of_isComma hc

theorem Context.allows_iff :
    context.allows c = true ↔ isPlain c = true ∧ context.separates c = false := by
  simp [allows]

-- The alternatives of an element are told apart by their first characters.
section Alternatives

theorem runs_group_none (h : cs.head? ≠ some b.opener) : Runs (.rule (.group b)) cs none :=
  .ruleFails (.seqFails (runs_symbol_none h))

theorem runs_quoted_none (h : cs.head? ≠ some (char '"')) : Runs (.rule .quoted) cs none :=
  .ruleFails (.seqFails (runs_symbol_none h))

theorem runs_escaped_none (h : cs.head? ≠ some (char '\\')) : Runs (.rule .escaped) cs none :=
  .ruleFails (.seqFails (runs_symbol_none h))

theorem runs_chunk_none (h : ∀ c rest, cs = c :: rest → context.allows c = false) :
    Runs (.rule (.chunk context)) cs none :=
  .ruleFails (runs_oneOrMore_one_none h)

theorem runs_element_none (hgroup : ∀ b, Runs (.rule (.group b)) cs none)
    (hquoted : Runs (.rule .quoted) cs none) (hescaped : Runs (.rule .escaped) cs none)
    (hchunk : ∀ c rest, cs = c :: rest → context.allows c = false) :
    Runs (.element context) cs none :=
  .second (hgroup .round) (.second (hgroup .square) (.second hquoted
    (.second hescaped (runs_chunk_none hchunk))))

theorem runs_element_group (h : Runs (.rule (.group b)) (b.opener :: cs) (some found)) :
    Runs (.element context) (b.opener :: cs) (some found) := by
  cases b with
  | round => exact .first h
  | square => exact .second (runs_group_none (by simp [Bracket.opener])) (.first h)

theorem runs_element_quoted (h : Runs (.rule .quoted) (char '"' :: cs) (some found)) :
    Runs (.element context) (char '"' :: cs) (some found) :=
  .second (runs_group_none (by simp [Bracket.opener])) (.second
    (runs_group_none (by simp [Bracket.opener])) (.first h))

theorem runs_element_escaped (h : Runs (.rule .escaped) (char '\\' :: cs) (some found)) :
    Runs (.element context) (char '\\' :: cs) (some found) :=
  .second (runs_group_none (by simp [Bracket.opener])) (.second
    (runs_group_none (by simp [Bracket.opener])) (.second (runs_quoted_none (by simp)) (.first h)))

theorem runs_element_chunk (hc : isPlain c = true)
    (h : Runs (.rule (.chunk context)) (c :: cs) (some found)) :
    Runs (.element context) (c :: cs) (some found) := by
  have hne (d : CodePoint) (hd : isPlain d = false) : (c :: cs).head? ≠ some d := by
    rw [List.head?_cons, Ne, Option.some.injEq]
    rintro rfl
    rw [hc] at hd
    cases hd
  exact .second (runs_group_none (hne _ rfl)) (.second (runs_group_none (hne _ rfl))
    (.second (runs_quoted_none (hne _ rfl)) (.second (runs_escaped_none (hne _ rfl)) h)))

end Alternatives

-- An expression matches a part of a text that is balanced and that no separator cuts.
def Matches (context : Context) (e : Peg) (cs : List CodePoint) (trees : List Tree)
    (rest : List CodePoint) : Prop :=
  Runs e cs (some (trees, rest)) ∧ Keeps context.separates (texts trees) (depths trees)

-- What an element makes of a text. If it fails there, so does a scan, or it comes to a separator.
def Decides (context : Context) (cs : List CodePoint) : Prop :=
  (Runs (.element context) cs none ∧ Stops context.separates cs) ∨
    ∃ trees rest, Matches context (.element context) cs trees rest ∧ rest.length < cs.length

-- The inside of a string goes on to its quote, or to the end of the text.
theorem exists_inside (cs : List CodePoint) : ∃ trees rest,
    Runs (.many (.choice (.one fun c => c != '"' && c != '\\') .escape)) cs (some (trees, rest)) ∧
      IsInside (texts trees) ∧ depths trees = 0 ∧
      ((rest = [] ∨ rest = [char '\\']) ∨ ∃ more, rest = char '"' :: more) := by
  induction cs using Layout.string_induction with
  | nil => exact ⟨[], [], .manyEnds (.second .oneEnds (.seqFails .oneEnds)), isInside_nil, rfl,
      .inl (.inl rfl)⟩
  | quote rest => exact ⟨[], _, .manyEnds (.second (.oneFails rfl) (.seqFails (.oneFails rfl))),
      isInside_nil, rfl, .inr ⟨rest, rfl⟩⟩
  | escape c rest ih =>
      obtain ⟨trees, left, hrun, hinside, hdepth, hleft⟩ := ih
      have hpair : Runs .escape (char '\\' :: c :: rest) (some ([.leaf '\\', .leaf c], rest)) :=
        .seq runs_symbol (.one rfl)
      exact ⟨_, left, .more (.second (.oneFails rfl) hpair) hrun, hinside.escape,
        by simpa [depths, Tree.depth] using hdepth, hleft⟩
  | backslash => exact ⟨[], _, .manyEnds (.second (.oneFails rfl)
      (.seqFailsLater runs_symbol .oneEnds)), isInside_nil, rfl, .inl (.inr rfl)⟩
  | plain c rest hquote hescape ih =>
      obtain ⟨trees, left, hrun, hinside, hdepth, hleft⟩ := ih
      have hc : (c != '"' && c != '\\') = true := by simp [hquote, hescape]
      exact ⟨_, left, .more (.first (.one hc)) hrun, hinside.cons hquote hescape,
        by simpa [depths, Tree.depth] using hdepth, hleft⟩

theorem decides_nil : Decides context [] :=
  .inl ⟨runs_element_none (fun _ => runs_group_none nofun) (runs_quoted_none nofun)
    (runs_escaped_none nofun) nofun, .nil⟩

theorem decides_closer : Decides context (b.closer :: cs) := by
  refine .inl ⟨runs_element_none (fun b' => runs_group_none ?_) (runs_quoted_none ?_)
    (runs_escaped_none ?_) ?_, .closer b⟩
  · cases b <;> cases b' <;> simp [Bracket.opener, Bracket.closer]
  · cases b <;> simp [Bracket.closer]
  · cases b <;> simp [Bracket.closer]
  · intro c rest h
    cases h
    rw [← Bool.not_eq_true, Context.allows_iff]
    rintro ⟨hplain, -⟩
    cases b <;> cases hplain

theorem decides_plain (hc : isPlain c = true) : Decides context (c :: cs) := by
  cases hsep : context.separates c with
  | true =>
      refine .inl ⟨runs_element_none (fun b => runs_group_none ?_) (runs_quoted_none ?_)
        (runs_escaped_none ?_) ?_, .separator hc hsep⟩
      · rintro h
        cases h
        cases b <;> cases hc
      · rintro h
        cases h
        cases hc
      · rintro h
        cases h
        cases hc
      · rintro _ _ h
        cases h
        simp [Context.allows, hsep]
  | false =>
      have hallows : context.allows c = true := Context.allows_iff.mpr ⟨hc, hsep⟩
      have hkeeps : Keeps context.separates (c :: cs.takeWhile context.allows) 0 := by
        refine keeps_chunk fun d hd => Context.allows_iff.mp ?_
        rcases List.mem_cons.mp hd with rfl | hd
        · exact hallows
        · exact List.mem_takeWhile_imp hd
      refine .inr ⟨_, _, ⟨runs_element_chunk hc (.rule (runs_oneOrMore_one hallows)), ?_⟩, ?_⟩
      · simpa [texts, depths, Tree.text, Tree.depth] using hkeeps
      · have hle := (List.dropWhile_sublist context.allows (l := cs)).length_le
        rw [List.length_cons]
        omega

theorem decides_escape : Decides context (char '\\' :: cs) := by
  cases cs with
  | nil =>
      exact .inl ⟨runs_element_none
        (fun b => runs_group_none (by cases b <;> simp [Bracket.opener]))
        (runs_quoted_none (by simp)) (.ruleFails (.seqFailsLater runs_symbol .oneEnds))
        (by rintro _ _ h; cases h; rfl), .unclosed unclosed_backslash⟩
  | cons c cs =>
      refine .inr ⟨_, cs, ⟨runs_element_escaped (.rule (.seq runs_symbol (.one rfl))), ?_⟩,
        by simp only [List.length_cons]; omega⟩
      simpa [texts, depths, Tree.text, Tree.depth] using
        keeps_escape fun _ => context.isPlain_of_separates

theorem decides_quote : Decides context (char '"' :: cs) := by
  obtain ⟨trees, rest, hrun, hinside, hdepth, hrest⟩ := exists_inside cs
  have hcs := hrun.texts_append rfl
  rcases hrest with hrest | ⟨more, rfl⟩
  · have hend : rest.head? ≠ some (char '"') := by rcases hrest with rfl | rfl <;> simp
    refine .inl ⟨runs_element_none
      (fun b => runs_group_none (by cases b <;> simp [Bracket.opener]))
      (.ruleFails (.seqFailsLater runs_symbol (.seqFailsLater hrun (runs_symbol_none hend))))
      (runs_escaped_none (by simp)) (by rintro _ _ h; cases h; rfl), .unclosed ?_⟩
    rw [hcs]
    exact hinside.unclosed hrest
  · refine .inr ⟨_, more, ⟨runs_element_quoted (.rule (.seq runs_symbol (.seq hrun runs_symbol))),
      ?_⟩, ?_⟩
    · have hkeeps := hinside.keeps fun _ => context.isPlain_of_separates
      simpa [texts, depths, Tree.text, Tree.depth, hdepth] using hkeeps
    · rw [hcs]
      simp only [List.length_cons, List.length_append]
      omega

-- Elements follow each other as far as they can.
theorem exists_elements (cs : List CodePoint)
    (h : ∀ part, part.length ≤ cs.length → Decides context part) :
    ∃ trees rest, Matches context (.many (.element context)) cs trees rest ∧
      Runs (.element context) rest none ∧ Stops context.separates rest := by
  rcases h cs (Nat.le_refl _) with ⟨hnone, hstops⟩ | ⟨trees, rest, ⟨hrun, hkeeps⟩, hshort⟩
  · exact ⟨[], cs, ⟨.manyEnds hnone, .nil⟩, hnone, hstops⟩
  · obtain ⟨more, left, ⟨hmore, hkeeps'⟩, hleft⟩ :=
      exists_elements rest fun part hpart => h part (by omega)
    refine ⟨trees ++ more, left, ⟨.more hrun hmore, ?_⟩, hleft⟩
    simpa using hkeeps.append hkeeps'
termination_by cs.length

theorem decides_opener (h : ∀ part, part.length ≤ cs.length → Decides .group part) :
    Decides context (b.opener :: cs) := by
  obtain ⟨trees, rest, ⟨hrun, hkeeps⟩, -, hstops⟩ := exists_elements cs h
  have hcs := hrun.texts_append rfl
  by_cases hclosed : rest.head? = some b.closer
  · obtain ⟨more, rfl⟩ := List.head?_eq_some_iff.mp hclosed
    have hgroup : Runs (.rule (.group b)) (b.opener :: cs) _ :=
      .rule (.seq runs_symbol (.seq hrun runs_symbol))
    refine .inr ⟨_, more, ⟨runs_element_group hgroup, ?_⟩, ?_⟩
    · have hall := hkeeps.group (b := b) fun _ => context.isPlain_of_separates
      simpa [texts, depths, Tree.text, Tree.depth] using hall
    · rw [hcs]
      simp only [List.length_cons, List.length_append]
      omega
  · have hunclosed := unclosed_group (b := b) hkeeps hstops hclosed
    refine .inl ⟨runs_element_none (fun b' => ?_) (runs_quoted_none ?_) (runs_escaped_none ?_) ?_,
      .unclosed (by rw [hcs]; exact hunclosed)⟩
    · by_cases hb : b' = b
      · subst hb
        exact .ruleFails (.seqFailsLater runs_symbol
          (.seqFailsLater hrun (runs_symbol_none hclosed)))
      · refine runs_group_none ?_
        cases b <;> cases b' <;> first | exact absurd rfl hb | simp [Bracket.opener]
    · cases b <;> simp [Bracket.opener]
    · cases b <;> simp [Bracket.opener]
    · rintro _ _ hopener
      cases hopener
      cases b <;> rfl

-- The first character decides which alternative of an element can match.
theorem decides (context : Context) (cs : List CodePoint) : Decides context cs := by
  match cs with
  | [] => exact decides_nil
  | c :: cs =>
      by_cases hc : isPlain c = true
      · exact decides_plain hc
      · simp only [isPlain, List.contains_cons, List.contains_nil, Bool.not_eq_true',
          Bool.or_false, Bool.not_eq_false, Bool.or_eq_true, beq_iff_eq] at hc
        rcases hc with rfl | rfl | rfl | rfl | rfl | rfl
        · exact decides_escape
        · exact decides_quote
        · exact decides_opener (b := .round) fun part _ => decides .group part
        · exact decides_opener (b := .square) fun part _ => decides .group part
        · exact decides_closer (b := .round)
        · exact decides_closer (b := .square)
termination_by cs.length

theorem decides_oneOrMore (context : Context) (cs : List CodePoint) :
    (Runs (.oneOrMore (.element context)) cs none ∧ Stops context.separates cs) ∨
      ∃ trees rest, Matches context (.oneOrMore (.element context)) cs trees rest ∧
        rest.length < cs.length ∧ Stops context.separates rest := by
  rcases decides context cs with ⟨hnone, hstops⟩ | ⟨trees, rest, ⟨hrun, hkeeps⟩, hshort⟩
  · exact .inl ⟨.seqFails hnone, hstops⟩
  · obtain ⟨more, left, ⟨hmore, hkeeps'⟩, -, hstops⟩ :=
      exists_elements rest fun part _ => decides context part
    have hrest := hmore.texts_append rfl
    refine .inr ⟨_, left, ⟨.seq hrun hmore, ?_⟩, ?_, hstops⟩
    · simpa using hkeeps.append hkeeps'
    · rw [hrest, List.length_append] at hshort
      omega

theorem not_unclosed_of_walk (hne : part ≠ []) (hcs : part <+: cs)
    (h : walk start part = .ok start) : ¬Unclosed cs :=
  fun hunclosed => (hunclosed [] part start (Nat.zero_le _) hne hcs h).2 rfl

-- A scan cannot go on where elements stop before the end and before a separator.
theorem Nesting.Stops.walk_ne {separates : CodePoint → Bool} (h : Stops separates cs)
    (hne : cs ≠ []) (hfirst : ∀ c rest, cs = c :: rest → separates c = false) :
    walk start cs ≠ .ok start := by
  cases h with
  | nil => exact absurd rfl hne
  | separator _ hsep =>
      rw [hfirst _ _ rfl] at hsep
      cases hsep
  | closer b => cases b <;> nofun
  | unclosed h => exact fun hwalk => not_unclosed_of_walk hne List.prefix_rfl hwalk h

section FrameBody

variable {run : List CodePoint} {found : List (List CodePoint)} {depth : Nat}

-- Blanks in front of a text neither give nor take tokens.
theorem tokens_run_append_iff (hrun : IsRun run) :
    tokens (run ++ rest) = .ok found ↔ tokens rest = .ok found := by
  refine ⟨fun h => ?_, tokens_run_append hrun⟩
  have hwalk := exists_tokens_iff.mp ⟨found, h⟩
  have hblank : walk start run = .ok start := walk_plain fun c hc => isPlain_of_isBlank (hrun c hc)
  rw [walk_append, hblank] at hwalk
  obtain ⟨others, hothers⟩ := exists_tokens_iff.mpr hwalk
  cases h.symm.trans (tokens_run_append hrun hothers)
  exact hothers

-- A part that no blank cuts, the blanks after it, and what follows them.
theorem tokens_part_append (hkeeps : Keeps isBlank part depth) (hne : part ≠ []) (hrun : IsRun run)
    (hapart : walk start rest = .ok start → rest ≠ [] → run ≠ []) :
    tokens (part ++ run ++ rest) = .ok found ↔
      depth ≤ maxDepth ∧ ∃ others, tokens rest = .ok others ∧ found = part :: others := by
  have happend {others : List (List CodePoint)} (hdepth : depth ≤ maxDepth)
      (hothers : tokens rest = .ok others) :
      tokens (part ++ run ++ rest) = .ok (part :: others) := by
    have hpart := tokens_eq_singleton_iff.mpr ⟨hne, hkeeps.uncut hdepth⟩
    exact tokens_token_append hpart hrun (hapart (exists_tokens_iff.mp ⟨_, hothers⟩)) hothers
  constructor
  · intro h
    have hwalk := exists_tokens_iff.mp ⟨found, h⟩
    rw [List.append_assoc, walk_append] at hwalk
    obtain ⟨next, hpart, hwalk⟩ := bind_eq_ok.mp hwalk
    obtain ⟨rfl, hdepth⟩ := (hkeeps.walk_iff (Nat.zero_le _)).mp hpart
    obtain ⟨_, hrest⟩ := exists_tokens_iff.mpr hwalk
    have hothers := (tokens_run_append_iff hrun).mp hrest
    rw [List.length_nil, Nat.zero_add] at hdepth
    cases h.symm.trans (happend hdepth hothers)
    exact ⟨hdepth, _, hothers, rfl⟩
  · rintro ⟨hdepth, others, hothers, rfl⟩
    exact happend hdepth hothers

-- Blanks, if there are any.
theorem exists_separator (cs : List CodePoint) : ∃ trees,
    Runs (.optional (.rule .separator)) cs (some (trees, cs.dropWhile isBlank)) ∧
      texts trees = cs.takeWhile isBlank ∧ depths trees = 0 ∧ collects .token trees = [] := by
  by_cases hblank : ∃ c rest, cs = c :: rest ∧ isBlank c = true
  · obtain ⟨c, rest, rfl, hc⟩ := hblank
    refine ⟨[.node .separator ((c :: rest.takeWhile isBlank).map .leaf)], ?_, ?_, ?_, ?_⟩
    · rw [List.dropWhile_cons_of_pos hc]
      exact .first (.rule (runs_oneOrMore_one hc))
    · rw [List.takeWhile_cons_of_pos hc, texts, Tree.text, texts_leaves]
      exact List.append_nil _
    · simp [depths, Tree.depth]
    · rw [collects, collect, if_neg (by simp), collects_leaves]
      rfl
  · have hfirst (c : CodePoint) (rest : List CodePoint) (hcs : cs = c :: rest) :
        isBlank c = false := by
      rw [← Bool.not_eq_true]
      exact fun hc => hblank ⟨c, rest, hcs, hc⟩
    refine ⟨[], ?_, ?_, rfl, rfl⟩
    · have hall : cs.dropWhile isBlank = cs := by
        cases cs with
        | nil => rfl
        | cons c cs => simp [hfirst c cs rfl]
      rw [hall]
      exact .second (.ruleFails (runs_oneOrMore_one_none hfirst)) .empty
    · cases cs with
      | nil => rfl
      | cons c cs => simp [texts, hfirst c cs rfl]

-- Either the grammar takes a whole text and its tokens are the nodes of the tree below the limit,
-- or it stops before the end and a text has no tokens.
def TokensAgree (cs : List CodePoint) (trees : List Tree) (rest : List CodePoint) : Prop :=
  (rest = [] ∧ ∀ found, tokens cs = .ok found ↔
    depths trees ≤ maxDepth ∧ found = collects .token trees) ∨
      (rest ≠ [] ∧ ∀ found, tokens cs ≠ .ok found)

theorem isBlank_head_dropWhile {cs rest : List CodePoint} {c : CodePoint}
    (h : cs.dropWhile isBlank = c :: rest) : isBlank c = false := by
  have hhead := List.head?_dropWhile_not isBlank cs
  rw [h] at hhead
  simpa using hhead

-- A token ends at a blank, if another one comes.
theorem Nesting.Stops.takeWhile_isBlank_ne_nil (h : Stops isBlank cs)
    (hwalk : walk start (cs.dropWhile isBlank) = .ok start) (hne : cs.dropWhile isBlank ≠ []) :
    cs.takeWhile isBlank ≠ [] := by
  intro hnone
  have hall : cs.dropWhile isBlank = cs := by
    have happend := List.takeWhile_append_dropWhile (p := isBlank) (l := cs)
    rwa [hnone, List.nil_append] at happend
  rw [hall] at hwalk hne
  refine h.walk_ne hne (fun c rest hcs => ?_) hwalk
  exact isBlank_head_dropWhile (hall.trans hcs)

-- The first token and those behind the blanks after it.
theorem tokens_iff_of_matches {trees : List Tree}
    (h : Matches .body (.oneOrMore (.element .body)) cs trees rest)
    (hshort : rest.length < cs.length) (hstops : Stops isBlank rest) :
    tokens cs = .ok found ↔ depths trees ≤ maxDepth ∧
      ∃ others, tokens (rest.dropWhile isBlank) = .ok others ∧ found = texts trees :: others := by
  have hsplit : cs = texts trees ++ rest.takeWhile isBlank ++ rest.dropWhile isBlank := by
    rw [List.append_assoc, List.takeWhile_append_dropWhile]
    exact h.1.texts_append rfl
  rw [hsplit]
  exact tokens_part_append h.2 (h.1.texts_ne_nil hshort) (fun _ => List.mem_takeWhile_imp)
    hstops.takeWhile_isBlank_ne_nil

-- Tokens one after the other, from a character on that is no blank.
theorem exists_tokens_run (cs : List CodePoint)
    (hcs : ∀ c rest, cs = c :: rest → isBlank c = false) :
    ∃ trees rest, Runs (.many (.seq (.rule .token) (.optional (.rule .separator)))) cs
      (some (trees, rest)) ∧ TokensAgree cs trees rest := by
  rcases decides_oneOrMore .body cs with ⟨hnone, hstops⟩ |
    ⟨trees, rest, ⟨hrun, hkeeps⟩, hshort, hstops⟩
  · refine ⟨[], cs, .manyEnds (.seqFails (.ruleFails hnone)), ?_⟩
    by_cases hne : cs = []
    · subst hne
      refine .inl ⟨rfl, fun found => ?_⟩
      simp [tokens, pieces, cut, depths, collects, Except.map, eq_comm]
    · refine .inr ⟨hne, fun found h => hstops.walk_ne hne hcs ?_⟩
      exact exists_tokens_iff.mp ⟨found, h⟩
  · obtain ⟨blanks, hblanks, htexts, hdepth, hcollect⟩ := exists_separator rest
    have hle := (List.dropWhile_sublist isBlank (l := rest)).length_le
    obtain ⟨more, left, hmore, hagree⟩ := exists_tokens_run (rest.dropWhile isBlank)
      fun _ _ => isBlank_head_dropWhile
    have htokens {found : List (List CodePoint)} : tokens cs = .ok found ↔ _ :=
      tokens_iff_of_matches ⟨hrun, hkeeps⟩ hshort hstops
    refine ⟨_, left, .more (.seq (.rule hrun) hblanks) hmore, ?_⟩
    refine hagree.imp (fun h => ⟨h.1, fun found => ?_⟩) fun h => ⟨h.1, fun found hfound => ?_⟩
    · rw [htokens]
      simp only [h.2, depths_append, collects_append, hcollect, hdepth, depths, Tree.depth,
        collects, collect, if_true, List.append_nil, Nat.max_zero, List.singleton_append]
      constructor
      · rintro ⟨hle, others, ⟨hle', rfl⟩, rfl⟩
        exact ⟨Nat.max_le.mpr ⟨hle, hle'⟩, rfl⟩
      · rintro ⟨hle, rfl⟩
        obtain ⟨hle, hle'⟩ := Nat.max_le.mp hle
        exact ⟨hle, _, ⟨hle', rfl⟩, rfl⟩
    · obtain ⟨-, others, hothers, -⟩ := htokens.mp hfound
      exact h.2 others hothers
termination_by cs.length
decreasing_by omega

-- The tokens of a text are those of the tree that the grammar of frame bodies makes of it, below
-- the limit, and a text that the grammar refuses has none.
theorem tokens_recognizes (cs : List CodePoint) :
    (∃ tree, Runs (.rule .frameBody) cs (some ([tree], [])) ∧ ∀ found,
      tokens cs = .ok found ↔ tree.depth ≤ maxDepth ∧ found = tree.collect .token) ∨
      (Runs (.rule .frameBody) cs none ∧ ∀ found, tokens cs ≠ .ok found) := by
  obtain ⟨blanks, hblanks, htexts, hdepth, hcollect⟩ := exists_separator cs
  obtain ⟨trees, rest, hrun, hagree⟩ := exists_tokens_run (cs.dropWhile isBlank)
    fun _ _ => isBlank_head_dropWhile
  have hsplit : cs.takeWhile isBlank ++ cs.dropWhile isBlank = cs :=
    List.takeWhile_append_dropWhile
  have htokens {found : List (List CodePoint)} :
      tokens cs = .ok found ↔ tokens (cs.dropWhile isBlank) = .ok found := by
    have happend : tokens (cs.takeWhile isBlank ++ cs.dropWhile isBlank) = .ok found ↔ _ :=
      tokens_run_append_iff fun _ => List.mem_takeWhile_imp
    rwa [hsplit] at happend
  rcases hagree with ⟨rfl, hagree⟩ | ⟨hrest, hagree⟩
  · refine .inl ⟨_, .rule (.seq hblanks (.seq hrun .eof)), fun found => ?_⟩
    simp only [htokens, hagree, Tree.depth, collect, reduceCtorEq, if_false, depths_append,
      collects_append, hdepth, hcollect, List.append_nil, List.nil_append, Nat.zero_max]
  · obtain ⟨c, rest, rfl⟩ := List.exists_cons_of_ne_nil hrest
    refine .inr ⟨.ruleFails (.seqFailsLater hblanks (.seqFailsLater hrun .eofFails)), ?_⟩
    exact fun found hfound => hagree found (htokens.mp hfound)

end FrameBody

section ArrayBody

variable {pieces : List (List CodePoint)} {depth : Nat}

-- What an item may be made of, which may be nothing.
theorem exists_item (cs : List CodePoint) : ∃ trees rest,
    Runs (.optional (.rule .item)) cs (some (trees, rest)) ∧
      Keeps (· == ',') (texts trees) (depths trees) ∧ Stops (· == ',') rest ∧
      rest.length ≤ cs.length ∧ commasOf trees = 0 ∧
      collects .item trees = [texts trees].filter fun piece => !piece.isEmpty := by
  rcases decides_oneOrMore .array cs with ⟨hnone, hstops⟩ |
    ⟨trees, rest, ⟨hrun, hkeeps⟩, hshort, hstops⟩
  · exact ⟨[], cs, .second (.ruleFails hnone) .empty, .nil, hstops, Nat.le_refl _, rfl, rfl⟩
  · have hne := hrun.texts_ne_nil hshort
    refine ⟨_, rest, .first (.rule hrun), ?_, hstops, Nat.le_of_lt hshort, ?_, ?_⟩
    · simp only [texts, depths, Tree.text, Tree.depth, List.append_nil, Nat.max_zero]
      exact hkeeps
    · simp [commasOf, commas]
    · simp [collects, collect, texts, Tree.text, hne]

-- Either the grammar takes the rest of a text, which starts at a comma or is empty, and its items
-- are the pieces that are not empty, or it stops before the end and the text cannot be cut.
def PiecesAgree (cs : List CodePoint) (trees : List Tree) (rest : List CodePoint) : Prop :=
  (rest = [] ∧ (walk start cs = .ok start ↔ depths trees ≤ maxDepth) ∧
    (depths trees ≤ maxDepth → ∀ part, through (· == ',') start part = .ok start →
      ∃ others, cut (· == ',') start (part ++ cs) = .ok (part :: others) ∧
        others.length = commasOf trees ∧
        collects .item trees = others.filter fun piece => !piece.isEmpty)) ∨
    (rest ≠ [] ∧ walk start cs ≠ .ok start)

-- A part that no comma cuts, and what follows.
theorem walk_part_append (hkeeps : Keeps (· == ',') part depth) :
    walk start (part ++ rest) = .ok start ↔ depth ≤ maxDepth ∧ walk start rest = .ok start := by
  rw [walk_append, bind_eq_ok]
  constructor
  · rintro ⟨next, hpart, hrest⟩
    obtain ⟨rfl, hdepth⟩ := (hkeeps.walk_iff (Nat.zero_le _)).mp hpart
    exact ⟨by simpa using hdepth, hrest⟩
  · rintro ⟨hdepth, hrest⟩
    exact ⟨start, walk_of_through (hkeeps.uncut hdepth), hrest⟩

theorem exists_items_run (cs : List CodePoint) (hcs : Stops (· == ',') cs) :
    ∃ trees rest, Runs (.many (.seq (.symbol ',') (.optional (.rule .item)))) cs
      (some (trees, rest)) ∧ PiecesAgree cs trees rest := by
  by_cases hcomma : cs.head? = some (char ',')
  · obtain ⟨tail, htail⟩ := List.head?_eq_some_iff.mp hcomma
    obtain ⟨trees, rest, hitem, hkeeps, hstops, hle, hcommas, hcollect⟩ := exists_item tail
    obtain ⟨more, left, hmore, hagree⟩ := exists_items_run rest hstops
    have htext := hitem.texts_append rfl
    subst htail htext
    refine ⟨_, left, .more (.seq runs_symbol hitem) hmore, ?_⟩
    have hcomma : walk start (char ',' :: (texts trees ++ rest)) = .ok start ↔
        depths trees ≤ maxDepth ∧ walk start rest = .ok start := walk_part_append hkeeps
    have hdepths : depths ([.leaf ','] ++ trees ++ more) = max (depths trees) (depths more) := by
      simp [depths, Tree.depth]
    rw [PiecesAgree, hcomma, hdepths, Nat.max_le]
    refine hagree.imp (fun h => ⟨h.1, by rw [h.2.1], fun hdepth part hpart => ?_⟩)
      fun h => ⟨h.1, fun hwalk => h.2 (hcomma.mp hwalk).2⟩
    · obtain ⟨others, hcut, hlength, hothers⟩ :=
        h.2.2 hdepth.2 (texts trees) (hkeeps.uncut hdepth.1)
      refine ⟨texts trees :: others, ?_, ?_, ?_⟩
      · rw [cut_cons_separator hpart rfl, hcut, map_ok]
      · simp [commasOf, commas, hcommas, hlength, Nat.add_comm]
      · rw [collects_append, collects_append, hcollect, hothers, List.append_assoc,
          ← List.filter_append]
        rfl
  · refine ⟨[], cs, .manyEnds (.seqFails (runs_symbol_none hcomma)), ?_⟩
    by_cases hne : cs = []
    · subst hne
      refine .inl ⟨rfl, by simp [depths], fun _ part hpart => ⟨[], ?_, rfl, rfl⟩⟩
      rw [List.append_nil, cut_piece hpart]
    · refine .inr ⟨hne, hcs.walk_ne hne ?_⟩
      rintro c rest rfl
      simpa using hcomma
termination_by cs.length
decreasing_by
  rw [htail, List.length_cons]
  omega

-- What an array holds according to its tree: its items without the blanks around them, if there is
-- one more of them than commas and none of them is blank.
def IsItems (tree : Tree) (found : List (List CodePoint)) : Prop :=
  found = (tree.collect .item).map trim ∧ found.length = tree.commas + 1 ∧ [] ∉ found

-- One more item than commas means that no piece between them is empty.
theorem isItems_iff {tree : Tree} {found : List (List CodePoint)}
    (hcollect : tree.collect .item = pieces.filter fun piece => !piece.isEmpty)
    (hcommas : pieces.length = tree.commas + 1) :
    IsItems tree found ↔ found = pieces.map trim ∧ [] ∉ found := by
  have hfull (h : [] ∉ pieces) : (pieces.filter fun piece => !piece.isEmpty) = pieces := by
    refine List.filter_eq_self.mpr fun piece hpiece => ?_
    have hne : piece ≠ [] := by
      rintro rfl
      exact h hpiece
    simpa using hne
  rw [IsItems, hcollect, ← hcommas]
  constructor
  · rintro ⟨rfl, hlength, hne⟩
    rw [List.length_map] at hlength
    exact ⟨by rw [List.filter_eq_self.mpr (List.length_filter_eq_length_iff.mp hlength)], hne⟩
  · rintro ⟨rfl, hne⟩
    have hpieces : [] ∉ pieces := fun hmem => hne (List.mem_map.mpr ⟨[], hmem, rfl⟩)
    rw [hfull hpieces]
    exact ⟨rfl, List.length_map trim, hne⟩

theorem items_iff_of_cut {found : List (List CodePoint)}
    (hcut : cut (· == ',') start cs = .ok pieces) (hblank : ¬cs.all isBlank = true) :
    items cs = .ok found ↔ found = pieces.map trim ∧ [] ∉ found := by
  constructor
  · intro h
    rcases items_eq_ok h with ⟨-, hall⟩ | ⟨_, hpieces, hfound⟩
    · exact absurd hall hblank
    · cases hcut.symm.trans hpieces
      exact hfound
  · rintro ⟨rfl, hne⟩
    exact items_of_cut hcut hne

-- A text with items is balanced, and so is a blank one.
theorem walk_of_items {found : List (List CodePoint)} (h : items cs = .ok found) :
    walk start cs = .ok start := by
  rcases items_eq_ok h with ⟨-, hblank⟩ | ⟨pieces, hcut, -⟩
  · exact walk_plain fun c hc => isPlain_of_isBlank (List.all_eq_true.mp hblank c hc)
  · exact (exists_of_mem_cut (fun _ => isPlain_of_isComma) hcut).1

-- The items of a text that is not blank are those of the tree that the grammar of array bodies
-- makes of it, below the limit. A text that the grammar refuses has none.
theorem items_recognizes (cs : List CodePoint) :
    (∃ tree, Runs (.rule .arrayBody) cs (some ([tree], [])) ∧ ∀ found,
      items cs = .ok found ↔ if cs.all isBlank then found = [] else
        tree.depth ≤ maxDepth ∧ IsItems tree found) ∨
      (Runs (.rule .arrayBody) cs none ∧ ∀ found, items cs ≠ .ok found) := by
  obtain ⟨trees, rest, hitem, hkeeps, hstops, -, hcommas, hcollect⟩ := exists_item cs
  obtain ⟨more, left, hmore, hagree⟩ := exists_items_run rest hstops
  have htext := hitem.texts_append rfl
  have hbalanced {found : List (List CodePoint)} (h : items cs = .ok found) :
      depths trees ≤ maxDepth ∧ walk start rest = .ok start := by
    rw [← walk_part_append hkeeps, ← htext]
    exact walk_of_items h
  rcases hagree with ⟨rfl, hwalk, hcut⟩ | ⟨hleft, hwalk⟩
  · refine .inl ⟨_, .rule (.seq hitem (.seq hmore .eof)), fun found => ?_⟩
    rw [List.append_nil]
    split_ifs with hblank
    · rw [items, if_pos hblank, Except.ok.injEq, eq_comm]
    · have hdepths : (Tree.node .arrayBody (trees ++ more)).depth ≤ maxDepth ↔
          depths trees ≤ maxDepth ∧ depths more ≤ maxDepth := by
        rw [← Nat.max_le, ← depths_append]
        rfl
      have hagree (hdepth : depths trees ≤ maxDepth ∧ depths more ≤ maxDepth) :
          items cs = .ok found ↔ IsItems (.node .arrayBody (trees ++ more)) found := by
        obtain ⟨others, hpieces, hlength, hothers⟩ :=
          hcut hdepth.2 (texts trees) (hkeeps.uncut hdepth.1)
        rw [← htext] at hpieces
        rw [items_iff_of_cut hpieces hblank, ← isItems_iff]
        · rw [collect, if_neg (by decide), collects_append, hcollect, hothers, ← List.filter_append]
          rfl
        · simp [commas, hcommas, hlength]
      rw [hdepths]
      constructor
      · intro h
        obtain ⟨hdepth, hrest⟩ := hbalanced h
        have hdepth' := hwalk.mp hrest
        exact ⟨⟨hdepth, hdepth'⟩, (hagree ⟨hdepth, hdepth'⟩).mp h⟩
      · rintro ⟨hdepth, hfound⟩
        exact (hagree hdepth).mpr hfound
  · obtain ⟨c, left, rfl⟩ := List.exists_cons_of_ne_nil hleft
    exact .inr ⟨.ruleFails (.seqFailsLater hitem (.seqFailsLater hmore .eofFails)),
      fun found h => hwalk (hbalanced h).2⟩

end ArrayBody

section Group

variable {groups : List Bracket} {s : Nesting} {more group : List CodePoint}

-- A scan within groups takes all of a text that leaves none of them, if it can go through it.
theorem Nesting.takeGroup_of_stays (hgroups : groups ≠ []) (h : Stays (Above groups) s cs) :
    takeGroup s (cs ++ more) =
      (walk s cs).toOption.bind fun t => (takeGroup t more).map (cs ++ ·) := by
  induction cs generalizing s with
  | nil => simp [Except.toOption]
  | cons c cs ih =>
      cases hstep : s.step c with
      | error stuck => rw [List.cons_append, takeGroup, walk_cons, hstep]; rfl
      | ok next =>
          have hfront {front : List CodePoint} {t : Nesting} (hwalk : walk next front = .ok t) :
              walk s (c :: front) = .ok t := by rw [walk_cons, hstep]; exact hwalk
          obtain ⟨inner, hinner⟩ := h [c] next (by simp) (hfront rfl)
          have hopen : next.isTop = false := isTop_eq_false_of_groups (by simp [hinner, hgroups])
          have hrest : Stays (Above groups) next cs := fun front t hprefix hwalk =>
            h (c :: front) t ((List.prefix_cons_inj c).mpr hprefix) (hfront hwalk)
          rw [List.cons_append, takeGroup_cons hstep hopen, ih hrest, walk_cons, hstep, ok_bind]
          cases walk next cs with
          | error stuck => rfl
          | ok t => simp [Except.toOption, Function.comp_def]

-- Content between parentheses is a group if it has room.
theorem leadingGroup?_content {free : CodePoint → Bool} {depth : Nat} (h : Keeps free part depth) :
    leadingGroup? (char '(' :: (part ++ char ')' :: more)) = some group ↔
      depth + 1 ≤ maxDepth ∧ group = char '(' :: part ++ [char ')'] := by
  have hroom : [Bracket.round].length ≤ maxDepth := by decide
  have hclose : takeGroup ⟨[.round], .nothing⟩ (char ')' :: more) = some [char ')'] := rfl
  have hunder : Nesting.start.under [.round] = ⟨[.round], .nothing⟩ := rfl
  rw [leadingGroup?_cons, hunder, takeGroup_of_stays (List.cons_ne_nil _ []) (h.stays hroom)]
  cases hwalk : walk ⟨[.round], .nothing⟩ part with
  | error stuck =>
      have hdeep : ¬depth + 1 ≤ maxDepth := by
        intro hdepth
        have hpart : walk ⟨[.round], .nothing⟩ part = .ok ⟨[.round], .nothing⟩ :=
          (h.walk_iff hroom).mpr ⟨rfl, by rw [List.length_singleton]; omega⟩
        cases hpart.symm.trans hwalk
      simp [Except.toOption, hdeep]
  | ok t =>
      obtain ⟨rfl, hdepth⟩ := (h.walk_iff hroom).mp hwalk
      have hdepth' : depth + 1 ≤ maxDepth := by rw [List.length_singleton] at hdepth; omega
      simp [Except.toOption, hclose, hdepth', eq_comm]

-- The group in front of a text is what the grammar of groups takes of it, below the limit, whatever
-- follows. A text that the grammar refuses starts with no group.
theorem leadingGroup?_recognizes (cs : List CodePoint) :
    (∃ tree rest, Runs (.rule (.group .round)) cs (some ([tree], rest)) ∧ ∀ group,
      leadingGroup? cs = some group ↔ tree.depth ≤ maxDepth ∧ group = tree.text) ∨
      (Runs (.rule (.group .round)) cs none ∧ leadingGroup? cs = none) := by
  by_cases hopen : cs.head? = some (char '(')
  · obtain ⟨tail, rfl⟩ := List.head?_eq_some_iff.mp hopen
    obtain ⟨trees, rest, ⟨hrun, hkeeps⟩, -, hstops⟩ :=
      exists_elements tail fun part _ => decides .group part
    have htail := hrun.texts_append rfl
    by_cases hclosed : rest.head? = some (char ')')
    · obtain ⟨more, rfl⟩ := List.head?_eq_some_iff.mp hclosed
      refine .inl ⟨_, more, .rule (.seq runs_symbol (.seq hrun runs_symbol)), fun group => ?_⟩
      rw [htail, leadingGroup?_content hkeeps]
      simp [Tree.depth, depths, Tree.text, texts, Bracket.opener, Bracket.closer]
    · refine .inr ⟨.ruleFails (.seqFailsLater runs_symbol
        (.seqFailsLater hrun (runs_symbol_none hclosed))), ?_⟩
      rw [Option.eq_none_iff_forall_ne_some]
      intro group hgroup
      obtain ⟨content, rfl, hprefix, hwalk, hroom⟩ := leadingGroup?_eq_some.mp hgroup
      have hwhole : walk start (char '(' :: content ++ [char ')']) = .ok start :=
        walk_of_through (@through_group isBlank _ .round rfl hwalk hroom)
      refine not_unclosed_of_walk (List.cons_ne_nil _ _) hprefix hwhole ?_
      rw [htail]
      exact unclosed_group (b := .round) hkeeps hstops hclosed
  · refine .inr ⟨runs_group_none hopen, ?_⟩
    rw [leadingGroup?]
    rintro rest rfl
    exact hopen rfl

end Group

end FrameNotation
