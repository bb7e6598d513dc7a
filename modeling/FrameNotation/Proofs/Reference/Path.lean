import FrameNotation.Proofs.Number.Digits
import FrameNotation.Proofs.Reference.Readable

namespace FrameNotation

open Text

variable {path : List Segment} {segment : Segment} {form : Path.Written}
variable {cs name digits rest : List CodePoint} {c : CodePoint} {reference : Str}

namespace Segment

-- A segment as it is written: an index in brackets, a key behind a dot or, if it leads, alone.
def chars (leads : Bool) : Segment → List CodePoint
  | .key name => if leads then name.toList else char '.' :: name.toList
  | .index position => char '[' :: (Decimal.digitChars position ++ [char ']'])

-- A key that can be told from what stands around it, or an index that can be read.
def IsPlain : Segment → Prop
  | .key name => name.toList ≠ [] ∧ ∀ c ∈ name.toList, Path.isKeyChar c = true
  | .index position => (Decimal.digitChars position).length ≤ maxDigits

def written : Segment → Path.Written
  | .key name => .key name.toList
  | .index position => .index (Decimal.digitChars position)

theorem read_written (h : segment.IsPlain) : segment.written.read = .ok segment := by
  cases segment with
  | key name => rw [written, Path.Written.read, Str.ofList_toList]
  | index position =>
      have hlength : (Decimal.digitChars position).length ≤ maxDigits := h
      rw [written, Path.Written.read, readDigits, if_pos hlength, Decimal.digitsValue_digitChars,
        map_ok]

end Segment

-- The reference whose path has these segments.
def referenceTo : List Segment → Str
  | [] => Str.ofList [referenceMark]
  | first :: rest =>
    Str.ofList (referenceMark :: (first.chars true ++ rest.flatMap (Segment.chars false)))

namespace Path

-- What may stand behind a key: nothing, or a character that no key holds.
def Ends (rest : List CodePoint) : Prop := ∀ c, rest.head? = some c → isKeyChar c = false

theorem takeWhile_name (hname : ∀ c ∈ name, isKeyChar c = true) (hrest : Ends rest) :
    (name ++ rest).takeWhile isKeyChar = name ∧ (name ++ rest).dropWhile isKeyChar = rest := by
  rw [List.takeWhile_append_of_pos hname, List.dropWhile_append_of_pos hname]
  cases rest with
  | nil => simp
  | cons c others =>
      have hc : ¬isKeyChar c = true := by simp [hrest c rfl]
      rw [List.takeWhile_cons_of_neg hc, List.dropWhile_cons_of_neg hc, List.append_nil]
      exact ⟨rfl, rfl⟩

theorem segmentAt?_key (hne : name ≠ []) (hname : ∀ c ∈ name, isKeyChar c = true)
    (hrest : Ends rest) : segmentAt? (name ++ rest) = some (.key name, rest) := by
  obtain ⟨htake, hdrop⟩ := takeWhile_name hname hrest
  cases name with
  | nil => exact absurd rfl hne
  | cons c others =>
      have hc := hname c List.mem_cons_self
      rw [List.cons_append, List.takeWhile_cons_of_pos hc, List.cons.injEq] at htake
      rw [List.cons_append, List.dropWhile_cons_of_pos hc] at hdrop
      rw [List.cons_append, segmentAt?]
      · rw [if_pos hc, htake.2, hdrop]
      · rintro rfl
        cases hc

theorem segmentAt?_index (hne : digits ≠ []) (hdigits : ∀ c ∈ digits, isDecimalDigit c = true) :
    segmentAt? (char '[' :: (digits ++ char ']' :: rest)) = some (.index digits, rest) := by
  have hclose : ¬isDecimalDigit ']' = true := by decide
  rw [segmentAt?, List.dropWhile_append_of_pos hdigits, List.dropWhile_cons_of_neg hclose,
    List.takeWhile_append_of_pos hdigits, List.takeWhile_cons_of_neg hclose, List.append_nil]
  simp [hne]

-- A plain segment is found as it was written, and what follows it is left.
theorem next?_chars (leads : Bool) (h : segment.IsPlain) (hrest : Ends rest) :
    next? (segment.chars leads ++ rest) = some (segment.written, rest) := by
  cases segment with
  | key name =>
      obtain ⟨hne, hname⟩ := h
      have hkey := segmentAt?_key hne hname hrest
      cases leads with
      | false => exact hkey
      | true =>
          rw [Segment.chars, if_pos rfl, next?]
          · exact hkey
          · rintro others hdot
            cases hcs : name.toList with
            | nil => exact hne hcs
            | cons c cs =>
                rw [hcs] at hname hdot
                cases hdot
                cases hname '.' List.mem_cons_self
  | index position =>
      have hdigits : ∀ c ∈ Decimal.digitChars position, isDecimalDigit c = true :=
        fun c hc => isDecimalDigit_of_isDigit (Decimal.isDigit_digitChars hc)
      rw [Segment.chars, List.cons_append, List.append_assoc, List.singleton_append, next?]
      · exact segmentAt?_index Decimal.digitChars_ne_nil hdigits
      · rintro others ⟨⟩

theorem ends_chars (path : List Segment) : Ends (path.flatMap (Segment.chars false)) := by
  intro c hc
  cases path with
  | nil => cases hc
  | cons segment others =>
      cases segment <;>
      · cases hc
        rfl

theorem segments?_chars (h : ∀ segment ∈ path, segment.IsPlain) :
    segments? (path.flatMap (Segment.chars false)) = .ok (some path) := by
  induction path with
  | nil =>
      rw [List.flatMap_nil, segments?]
      rfl
  | cons segment others ih =>
      rw [List.forall_mem_cons] at h
      rw [List.flatMap_cons, segments?_of_next? (next?_chars false h.1 (ends_chars others)),
        Segment.read_written h.1, ih h.2]
      rfl

theorem isPlain_of_segmentAt? (h : segmentAt? cs = some (form, rest))
    (hread : form.read = .ok segment) : segment.IsPlain := by
  unfold segmentAt? at h
  split at h
  · split at h
    · simp only at h
      split_ifs at h
      cases h
      obtain ⟨position, hposition, rfl⟩ := map_eq_ok.mp hread
      exact (Decimal.length_digitChars_le_iff (by decide)).mpr (lt_tenPow_of_readDigits hposition)
    · cases h
  · next c others _ =>
    split_ifs at h with hc
    cases h
    cases hread
    rw [Segment.IsPlain, Str.toList_ofList, List.forall_mem_cons]
    exact ⟨List.cons_ne_nil _ _, hc, fun _ => List.mem_takeWhile_imp⟩
  · cases h

theorem isPlain_of_next? (h : next? cs = some (form, rest)) (hread : form.read = .ok segment) :
    segment.IsPlain := by
  unfold next? at h
  split at h <;> exact isPlain_of_segmentAt? h hread

-- Whatever is read from a path is plain.
theorem isPlain_of_segments? (h : segments? cs = .ok (some path)) :
    ∀ segment ∈ path, segment.IsPlain := by
  induction cs using segments?.induct generalizing path with
  | case1 cs hempty =>
      rw [segments?, if_pos hempty] at h
      cases h
      exact List.forall_mem_nil _
  | case2 cs hempty hnext =>
      rw [segments?_of_not_next? hempty hnext] at h
      cases h
  | case3 cs hempty form rest hnext ih =>
      rw [segments?_of_next? hnext] at h
      obtain ⟨first, hfirst, h⟩ := bind_eq_ok.mp h
      obtain ⟨found, hfound, h⟩ := bind_eq_ok.mp h
      cases found with
      | none => cases h
      | some others =>
          cases h
          exact List.forall_mem_cons.mpr ⟨isPlain_of_next? hnext hfirst, ih hfound⟩

theorem ne_nil_of_segments? (hne : cs ≠ []) (h : segments? cs = .ok (some path)) : path ≠ [] := by
  rintro rfl
  cases hnext : next? cs with
  | none =>
      rw [segments?_of_not_next? (by simpa using hne) hnext] at h
      cases h
  | some found =>
      rw [segments?_of_next? hnext] at h
      obtain ⟨first, -, h⟩ := bind_eq_ok.mp h
      obtain ⟨others, -, h⟩ := bind_eq_ok.mp h
      cases others <;> cases h

end Path

-- The path of a reference has segments, and each of them is plain.
theorem plain_of_pathOf (h : pathOf reference = .ok (some path)) :
    path ≠ [] ∧ ∀ segment ∈ path, segment.IsPlain := by
  unfold pathOf at h
  split at h
  · next c cs _ =>
    split_ifs at h with hpath
    · have hne : cs ≠ [] := by
        rintro rfl
        simp at hpath
      exact ⟨Path.ne_nil_of_segments? hne h, Path.isPlain_of_segments? h⟩
    · cases h
  · cases h

-- Segments are read back from the reference to them exactly if there are any and all are plain.
theorem pathOf_referenceTo_iff (path : List Segment) :
    pathOf (referenceTo path) = .ok (some path) ↔
      path ≠ [] ∧ ∀ segment ∈ path, segment.IsPlain := by
  refine ⟨plain_of_pathOf, ?_⟩
  rintro ⟨hne, hplain⟩
  cases path with
  | nil => exact absurd rfl hne
  | cons first rest =>
      rw [List.forall_mem_cons] at hplain
      have hnext := Path.next?_chars true hplain.1 (Path.ends_chars rest)
      have hchars : (first.chars true ++ rest.flatMap (Segment.chars false)).isEmpty = false := by
        cases hcs : first.chars true ++ rest.flatMap (Segment.chars false) with
        | nil =>
            rw [hcs] at hnext
            cases hnext
        | cons => rfl
      rw [pathOf, referenceTo, Str.toList_ofList]
      simp only [hchars, Bool.not_false, Bool.and_true, decide_true, if_true]
      rw [Path.segments?_of_next? hnext, Segment.read_written hplain.1,
        Path.segments?_chars hplain.2]
      rfl

end FrameNotation
