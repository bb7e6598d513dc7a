import FrameNotation.Proofs.Digest
import FrameNotation.Proofs.Json.Strings

namespace FrameNotation.Json

variable {value : Value} {json : Str} {cs : List CodePoint} {parts : List (List CodePoint)}
variable {c : CodePoint}

theorem isSurrogate_of_isNumberChar (h : isNumberChar c = true) : c.isSurrogate = false := by
  cases c with
  | char c => rfl
  | surrogate index => simp [isNumberChar, CodePoint.isDigit] at h

theorem isSurrogate_hexDigits (width n : Nat) :
    ∀ c ∈ Text.hexDigits width n, c.isSurrogate = false := by
  induction width generalizing n with
  | zero => exact List.forall_mem_nil _
  | succ width ih =>
      exact List.forall_mem_append.mpr ⟨ih _, List.forall_mem_singleton.mpr rfl⟩

-- Surrogates are written by their numbers.
theorem isSurrogate_escapedChar (c : CodePoint) : ∀ d ∈ escapedChar c, d.isSurrogate = false := by
  have hunit (n : Nat) : ∀ d ∈ unitChars n, d.isSurrogate = false := by
    refine List.forall_mem_cons.mpr ⟨rfl, List.forall_mem_cons.mpr ⟨rfl, ?_⟩⟩
    exact isSurrogate_hexDigits _ _
  unfold escapedChar
  split_ifs with _ _ _ _ _ _ _ hascii
  all_goals try decide
  · cases c with
    | char c => exact List.forall_mem_singleton.mpr rfl
    | surrogate index =>
        rw [CodePoint.toNat] at hascii
        omega
  · exact hunit _
  · exact List.forall_mem_append.mpr ⟨hunit _, hunit _⟩

theorem isSurrogate_enclosed {opening closing : Char} (h : ∀ c ∈ cs, c.isSurrogate = false) :
    ∀ c ∈ char opening :: cs ++ [char closing], c.isSurrogate = false :=
  List.forall_mem_cons.mpr
    ⟨rfl, List.forall_mem_append.mpr ⟨h, List.forall_mem_singleton.mpr rfl⟩⟩

theorem isSurrogate_string (s : Str) : ∀ c ∈ string s, c.isSurrogate = false := by
  refine isSurrogate_enclosed fun d hd => ?_
  obtain ⟨c, -, hmem⟩ := List.mem_flatMap.mp hd
  exact isSurrogate_escapedChar c d hmem

theorem isSurrogate_commaJoined (h : ∀ part ∈ parts, ∀ c ∈ part, c.isSurrogate = false) :
    ∀ c ∈ commaJoined parts, c.isSurrogate = false := by
  cases parts with
  | nil => exact List.forall_mem_nil _
  | cons part rest =>
      rw [List.forall_mem_cons] at h
      rw [commaJoined, intercalate_cons_eq]
      refine List.forall_mem_append.mpr ⟨h.1, fun c hc => ?_⟩
      obtain ⟨other, hother, hmem⟩ := List.mem_flatMap.mp hc
      have hpart : ∀ c ∈ [char ','] ++ other, c.isSurrogate = false :=
        List.forall_mem_cons.mpr ⟨rfl, h.2 other hother⟩
      exact hpart c hmem

theorem isSurrogate_canonicalChars (h : canonicalChars value = .ok cs) :
    ∀ c ∈ cs, c.isSurrogate = false := by
  induction value using Value.induction generalizing cs with
  | null =>
      cases h
      decide
  | bool b =>
      cases h
      cases b <;> decide
  | text s =>
      cases h
      exact isSurrogate_string s
  | number n => exact fun c hc => isSurrogate_of_isNumberChar (isNumberChar_number h c hc)
  | array items ih =>
      obtain ⟨parts, hparts, hcs⟩ := bind_eq_ok.mp h
      cases hcs
      refine isSurrogate_enclosed (isSurrogate_commaJoined fun part hpart => ?_)
      obtain ⟨item, hitem, hwritten⟩ :=
        exists_mem_of_forall₂ (canonicalItems_eq_ok.mp hparts) hpart
      exact ih item hitem hwritten
  | record entries ih =>
      rw [canonicalChars, sorted_canonicalEntries] at h
      obtain ⟨parts, hparts, hcs⟩ := bind_eq_ok.mp h
      cases hcs
      refine isSurrogate_enclosed (isSurrogate_commaJoined fun part hpart => ?_)
      obtain ⟨entry, hentry, text, htext, rfl⟩ :=
        exists_mem_of_forall₂ (sequence_eq_ok.mp hparts) hpart
      have hmem := (Entries.perm_sorted entries).mem_iff.mp hentry
      exact List.forall_mem_append.mpr ⟨isSurrogate_string _,
        List.forall_mem_cons.mpr ⟨rfl, ih entry hmem htext⟩⟩
  | frame node _ _ =>
      obtain ⟨shown, -, hcs⟩ := bind_eq_ok.mp h
      cases hcs
      exact isSurrogate_string shown

-- Canonical JSON is ASCII, so it can always be hashed.
theorem exists_contentHash (h : value.canonicalJson = .ok json) :
    ∃ digest, contentHash json = .ok digest := by
  obtain ⟨cs, hcs, rfl⟩ := map_eq_ok.mp h
  exact exists_contentHash_iff.mpr (isSurrogate_canonicalChars hcs)

end FrameNotation.Json
