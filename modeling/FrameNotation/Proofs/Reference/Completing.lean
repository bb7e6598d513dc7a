import FrameNotation.Proofs.Reference.Readable

namespace FrameNotation

open Text

variable {cs digits : List CodePoint} {name reference : Str} {form : Path.Written}
variable {path : List Segment} {segment : Segment} {current context : Value} {mishap : Mishap}

-- The two ways in which digits form no number: they are too many, or a key that looks like an index
-- is none.
inductive Mishap.IsOfDigits : Mishap → Prop
  | tooLong {count : Nat} (h : maxDigits < count) : IsOfDigits (.numeralTooLong count)
  | notDecimal {name : Str} (hne : name.toList ≠ []) (hdigits : name.toList.all isDigit = true)
      (hmarked : name.toList.all isDecimalDigit = false) : IsOfDigits (.notDecimal name)

theorem isOfDigits_of_readDigits (h : readDigits digits = .error mishap) : mishap.IsOfDigits := by
  unfold readDigits at h
  split_ifs at h with hlength
  cases h
  exact .tooLong (Nat.lt_of_not_le hlength)

theorem isOfDigits_of_indexOfKey (h : indexOfKey name = .error mishap) : mishap.IsOfDigits := by
  simp only [indexOfKey] at h
  split_ifs at h with hother hplain
  · exact isOfDigits_of_readDigits (map_eq_error.mp h)
  · cases h
    rw [Bool.or_eq_true_iff, not_or, List.isEmpty_iff, Bool.not_eq_true', Bool.not_eq_false]
      at hother
    refine .notDecimal hother.1 hother.2 ?_
    rw [← Bool.not_eq_true]
    intro hall
    have hself : name.toList.takeWhile isDecimalDigit = name.toList :=
      List.takeWhile_eq_self_iff.mpr (List.all_eq_true.mp hall)
    simp [hself] at hplain

theorem isOfDigits_of_step (h : current.step segment = .error mishap) : mishap.IsOfDigits := by
  have hfound := map_eq_error.mp h
  split at hfound
  · cases hfound
  · cases hfound
  · exact isOfDigits_of_indexOfKey (map_eq_error.mp hfound)
  · cases hfound
  · cases hfound

theorem isOfDigits_of_follow (h : current.follow path = .error mishap) : mishap.IsOfDigits := by
  induction path generalizing current with
  | nil => cases h
  | cons segment rest ih =>
      rw [Value.follow] at h
      rcases bind_eq_error.mp h with hstep | ⟨found, -, hrest⟩
      · exact isOfDigits_of_step hstep
      · cases found with
        | none => cases hrest
        | some next => exact ih hrest

theorem Path.isOfDigits_of_read (h : form.read = .error mishap) : mishap.IsOfDigits := by
  cases form with
  | key name => cases h
  | index digits => exact isOfDigits_of_readDigits (map_eq_error.mp h)

theorem Path.isOfDigits_of_segments? (h : segments? cs = .error mishap) : mishap.IsOfDigits := by
  induction cs using segments?.induct with
  | case1 cs hempty =>
      rw [segments?, if_pos hempty] at h
      cases h
  | case2 cs hempty hnext =>
      rw [segments?_of_not_next? hempty hnext] at h
      cases h
  | case3 cs hempty form rest hnext ih =>
      rw [segments?_of_next? hnext] at h
      rcases bind_eq_error.mp h with hread | ⟨segment, -, h⟩
      · exact isOfDigits_of_read hread
      · rcases bind_eq_error.mp h with hrest | ⟨others, -, h⟩
        · exact ih hrest
        · cases h

theorem isOfDigits_of_pathOf (h : pathOf reference = .error mishap) : mishap.IsOfDigits := by
  unfold pathOf at h
  split at h
  · split_ifs at h
    exact Path.isOfDigits_of_segments? h
  · cases h

theorem isOfDigits_of_resolve (h : resolve reference context = .error mishap) :
    mishap.IsOfDigits := by
  rcases bind_eq_error.mp h with hpath | ⟨path, -, hfollow⟩
  · exact isOfDigits_of_pathOf hpath
  · cases path with
    | none => cases hfollow
    | some path => exact isOfDigits_of_follow hfollow

-- A reference comes to a value of the frame or to none, and whether it is valid is told as well,
-- exactly if no index in its path is too long and each name that an array is asked for, if it looks
-- like an index, is one. What goes wrong otherwise is a number that cannot be read from its digits.
theorem exists_resolve_frame_iff (reference : Str) (frame : Frame) :
    ((∃ found, resolve reference (.frame frame) = .ok found ∧
        isResolvable reference (.frame frame) = .ok found.isSome) ↔
      (∀ cs, reference.toList = referenceMark :: cs →
        ∀ digits, Path.Meets cs (.index digits) → digits.length ≤ maxDigits) ∧
      ∀ path, pathOf reference = .ok (some path) →
        ∀ name, (Value.frame frame).Asks path name → ReadsAsKey name) ∧
    ∀ mishap, resolve reference (.frame frame) = .error mishap →
      isResolvable reference (.frame frame) = .error mishap ∧ mishap.IsOfDigits := by
  rw [← exists_resolve_iff]
  refine ⟨exists_congr fun found => and_iff_left_of_imp fun h => ?_, fun mishap h => ?_⟩
  · rw [isResolvable, h, map_ok]
  · rw [isResolvable, map_eq_error]
    exact ⟨h, isOfDigits_of_resolve h⟩

-- A frame with an array.
def teaTags : Frame := ⟨.text "query", [("tags", .array [.text "tea"])]⟩

-- A raised digit looks like an index and is none.
theorem not_exists_resolve_teaTags :
    ¬∃ found, resolve "$tags.²" (.frame teaTags) = .ok found := by
  have hmishap : resolve "$tags.²" (.frame teaTags) = .error (.notDecimal "²") := by
    have hpath : pathOf "$tags.²" = .ok (some [.key "tags", .key "²"]) := by decide +kernel
    rw [resolve, hpath]
    rfl
  rw [hmishap]
  rintro ⟨found, hfound⟩
  cases hfound

end FrameNotation
