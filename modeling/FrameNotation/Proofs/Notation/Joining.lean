import FrameNotation.Proofs.Notation.Spacing

namespace FrameNotation

open Text

variable {cs item part run : List CodePoint} {found parts pieces : List (List CodePoint)}

namespace Nesting

variable {separates : CodePoint → Bool} {s t : Nesting} {c : CodePoint}

-- How many separators stand at the top level of a text: at how many places there is one and no
-- group, string or escape is open in front of it.
def separators (separates : CodePoint → Bool) (s : Nesting) (cs : List CodePoint) : Nat :=
  (List.range cs.length).countP fun place =>
    cs[place]?.any separates && decide (walk s (cs.take place) = .ok start)

theorem separators_cons (hstep : s.step c = .ok t) :
    separators separates s (c :: cs) =
      separators separates t cs + if s.isTop && separates c then 1 else 0 := by
  have hhere : ((c :: cs)[0]?.any separates &&
      decide (walk s ((c :: cs).take 0) = .ok start)) = (s.isTop && separates c) := by
    have htop : decide (s = start) = s.isTop := by
      rw [Bool.eq_iff_iff, isTop_iff, decide_eq_true_eq]
    simp [htop, Bool.and_comm]
  have hrest (place : Nat) : walk s ((c :: cs).take (place + 1)) = walk t (cs.take place) := by
    rw [List.take_succ_cons, walk_cons, hstep, ok_bind]
  rw [separators, List.length_cons, List.range_succ_eq_map, List.countP_cons, List.countP_map,
    hhere]
  simp only [separators, Function.comp_def, Nat.succ_eq_add_one, List.getElem?_cons_succ, hrest]

-- A cut gives one piece more than there are separators.
theorem length_of_cut (hseparates : ∀ c, separates c = true → isPlain c = true)
    (h : cut separates s cs = .ok pieces) : pieces.length = separators separates s cs + 1 := by
  induction cs generalizing s pieces with
  | nil =>
      rw [cut] at h
      split at h
      · cases h
        rfl
      · cases h
  | cons c rest ih =>
      rw [cut] at h
      split_ifs at h with hsep
      · obtain ⟨others, hothers, rfl⟩ := map_eq_ok.mp h
        obtain ⟨htop, hc⟩ := Bool.and_eq_true_iff.mp hsep
        obtain rfl := isTop_iff.mp htop
        have hplain : start.step c = .ok start := step_plain (hseparates c hc)
        rw [separators_cons hplain, if_pos hsep, List.length_cons, ih hothers]
      · obtain ⟨next, hstep, h⟩ := bind_eq_ok.mp h
        obtain ⟨others, hothers, h⟩ := bind_eq_ok.mp h
        have hlength := ih hothers
        rw [separators_cons hstep, if_neg hsep, Nat.add_zero, ← hlength]
        cases others with
        | nil => exact absurd rfl (cut_ne_nil hothers)
        | cons piece others =>
            cases h
            rfl

end Nesting

-- A text with runs of blanks around it.
def IsPadded (item part : List CodePoint) : Prop :=
  ∃ before after, part = before ++ item ++ after ∧ IsRun before ∧ IsRun after

-- Texts in a row, with a comma and any blanks between each two of them.
def Joined (found : List (List CodePoint)) (cs : List CodePoint) : Prop :=
  ∃ parts, List.Forall₂ IsPadded found parts ∧ cs = [char ','].intercalate parts

theorem IsPadded.trim_eq (h : IsPadded item part) : trim part = trim item := by
  obtain ⟨before, after, rfl, hbefore, hafter⟩ := h
  exact trim_between (List.all_eq_true.mpr hbefore) (List.all_eq_true.mpr hafter)

-- No comma cuts a run of blanks.
theorem through_run (hrun : IsRun run) :
    Nesting.through (· == ',') .start run = .ok .start := by
  induction run with
  | nil => rfl
  | cons c run ih =>
      obtain ⟨hc, hrun⟩ := List.forall_mem_cons.mp hrun
      have hcomma : (c == ',') = false := by
        rw [beq_eq_false_iff_ne]
        rintro rfl
        exact absurd hc (by decide)
      have hplain : Nesting.start.step c = .ok .start := Nesting.step_plain (isPlain_of_isBlank hc)
      exact (Nesting.through_cons_ok (by simp [hcomma]) hplain).trans (ih hrun)

theorem IsPadded.through_eq (h : IsPadded item part)
    (hitem : Nesting.through (· == ',') .start item = .ok .start) :
    Nesting.through (· == ',') .start part = .ok .start := by
  obtain ⟨before, after, rfl, hbefore, hafter⟩ := h
  exact Nesting.through_trans (Nesting.through_trans (through_run hbefore) hitem)
    (through_run hafter)

-- A text is one item exactly if it is not empty, no blanks are at its ends and no comma cuts it.
theorem items_eq_singleton_iff : items item = .ok [item] ↔
    item ≠ [] ∧ trim item = item ∧ Nesting.through (· == ',') .start item = .ok .start := by
  constructor
  · intro h
    rcases items_eq_ok h with ⟨hnil, -⟩ | ⟨pieces, hcut, htrim, hne⟩
    · cases hnil
    · obtain ⟨first, others, rfl, hthrough, hcases⟩ := Nesting.cut_eq_ok hcut
      obtain ⟨hfirst, hothers⟩ := List.cons_eq_cons.mp htrim
      obtain rfl : others = [] := List.map_eq_nil_iff.mp hothers.symm
      rcases hcases with ⟨-, rfl⟩ | ⟨_, _, -, -, hrest⟩
      · exact ⟨fun hnil => hne (hnil ▸ List.mem_singleton_self _), hfirst.symm, hthrough⟩
      · exact absurd rfl (Nesting.cut_ne_nil hrest)
  · rintro ⟨hne, htrim, hthrough⟩
    have hitems := items_of_cut (Nesting.cut_piece hthrough)
    rw [List.map_singleton, htrim] at hitems
    exact hitems (by simpa using hne.symm)

-- The parts of joined items are the items once they are trimmed, and no comma cuts a part.
theorem parts_of_padded (h : List.Forall₂ IsPadded found parts)
    (hfound : ∀ item ∈ found, items item = .ok [item]) : parts.map trim = found ∧
      ∀ part ∈ parts, Nesting.through (· == ',') .start part = .ok .start := by
  induction h with
  | nil => exact ⟨rfl, nofun⟩
  | @cons item part found parts hpart _ ih =>
      obtain ⟨hitem, hfound⟩ := List.forall_mem_cons.mp hfound
      obtain ⟨-, htrim, hthrough⟩ := items_eq_singleton_iff.mp hitem
      obtain ⟨hparts, hrest⟩ := ih hfound
      refine ⟨?_, List.forall_mem_cons.mpr ⟨hpart.through_eq hthrough, hrest⟩⟩
      rw [List.map_cons, hpart.trim_eq, htrim, hparts]

-- Joined items are found again.
theorem items_of_joined (h : Joined found cs) (hfound : ∀ item ∈ found, items item = .ok [item]) :
    items cs = .ok found := by
  obtain ⟨parts, hparts, rfl⟩ := h
  obtain ⟨htrim, hthrough⟩ := parts_of_padded hparts hfound
  cases parts with
  | nil =>
      cases htrim
      rfl
  | cons part parts =>
      obtain ⟨hpart, hrest⟩ := List.forall_mem_cons.mp hthrough
      have hcut : Nesting.cut (· == ',') .start ([char ','].intercalate (part :: parts)) =
          .ok (part :: parts) := by
        simpa using Nesting.cut_intercalate rfl (Nesting.through_nil) hpart hrest
      have hitems := items_of_cut hcut
      rw [htrim] at hitems
      exact hitems fun hnil => (items_eq_singleton_iff.mp (hfound [] hnil)).1 rfl

-- What the items of an array are: texts without blanks at their ends, as many as there are commas
-- between them.
theorem items_shape (h : items cs = .ok found) : (∀ item ∈ found, item ≠ [] ∧ trim item = item) ∧
    (found = [] ↔ IsRun cs) ∧
      (found ≠ [] → found.length = Nesting.separators (· == ',') .start cs + 1) := by
  rcases items_eq_ok h with ⟨rfl, hblank⟩ | ⟨pieces, hcut, rfl, hne⟩
  · exact ⟨nofun, iff_of_true rfl (List.all_eq_true.mp hblank), absurd rfl⟩
  · have hlength := Nesting.length_of_cut (fun _ => isPlain_of_isComma) hcut
    refine ⟨fun item hitem => ⟨fun hnil => hne (hnil ▸ hitem), ?_⟩, ?_, fun _ => ?_⟩
    · obtain ⟨piece, -, rfl⟩ := List.mem_map.mp hitem
      exact trim_trim
    · refine iff_of_false (fun hnil => ?_) fun hrun => ?_
      · exact Nesting.cut_ne_nil hcut (List.map_eq_nil_iff.mp hnil)
      · rw [items, if_pos (List.all_eq_true.mpr hrun)] at h
        exact Nesting.cut_ne_nil hcut (List.map_eq_nil_iff.mp (Except.ok.inj h).symm)
    · rw [List.length_map, hlength]

-- Cutting into items undoes joining with commas, whatever blanks are around them. Items that are
-- found are not empty and have no blanks at their ends, and they are one more than the commas at
-- the top level, or none if the text is blank.
theorem items_undoes_joining :
    (∀ found cs, Joined found cs → (∀ item ∈ found, items item = .ok [item]) →
      items cs = .ok found) ∧
    ∀ cs found, items cs = .ok found →
      (∀ item ∈ found, item ≠ [] ∧ trim item = item) ∧ (found = [] ↔ IsRun cs) ∧
        (found ≠ [] → found.length = Nesting.separators (· == ',') .start cs + 1) :=
  ⟨fun _ _ => items_of_joined, fun _ _ => items_shape⟩

-- Items that hold commas in a string, behind a backslash and in a frame.
def commaItems : List (List CodePoint) :=
  [("\"a, b\"" : Str).toList, ("c\\," : Str).toList, ("(query d,e)" : Str).toList]

def commaParts : List (List CodePoint) :=
  [("\"a, b\" \n" : Str).toList, ("c\\," : Str).toList, ("\t(query d,e)" : Str).toList]

theorem items_undoes_joining_commaItems :
    Joined commaItems ([char ','].intercalate commaParts) ∧
      (∀ item ∈ commaItems, items item = .ok [item]) ∧
      items ([char ','].intercalate commaParts) = .ok commaItems ∧
      commaItems.length =
        Nesting.separators (· == ',') .start ([char ','].intercalate commaParts) + 1 := by
  have hjoined : Joined commaItems ([char ','].intercalate commaParts) := by
    refine ⟨commaParts, .cons ?_ (.cons ?_ (.cons ?_ .nil)), rfl⟩
    · exact ⟨[], [char ' ', char '\n'], rfl, nofun, List.all_eq_true.mp rfl⟩
    · exact ⟨[], [], rfl, nofun, nofun⟩
    · exact ⟨[char '\t'], [], rfl, List.all_eq_true.mp rfl, nofun⟩
  have hitems : ∀ item ∈ commaItems, items item = .ok [item] := by
    simp only [commaItems, List.forall_mem_cons]
    exact ⟨rfl, rfl, rfl, nofun⟩
  obtain ⟨hjoin, hshape⟩ := items_undoes_joining
  have hfound := hjoin _ _ hjoined hitems
  exact ⟨hjoined, hitems, hfound, (hshape _ _ hfound).2.2 (List.cons_ne_nil _ _)⟩

-- An escaped blank at the end of an item is cut off, so an item that is found need not be one by
-- itself.
example : items ("a\\ , b" : Str).toList = .ok [("a\\" : Str).toList, ("b" : Str).toList] ∧
    (items ("a\\" : Str).toList).isOk = false := ⟨rfl, rfl⟩

end FrameNotation
