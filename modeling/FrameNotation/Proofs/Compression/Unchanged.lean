import FrameNotation.Proofs.Compression.Distinct
import FrameNotation.Proofs.Frame.Sameness

namespace FrameNotation

open Compression

variable {attributes : List (Str × Value)} {type a : Value}

-- What keeps as many attributes as there were drops none of them and puts none in another place.
theorem Compression.rearranged_eq_of_length
    (h : (rearranged type (compressEntries attributes)).length = attributes.length) :
    rearranged type (compressEntries attributes) =
      attributes.map fun entry => (entry.1, entry.2.compress) := by
  have hle := length_compressEntries_le attributes
  have hsame : rearranged type (compressEntries attributes) = compressEntries attributes := by
    rcases rearranged_eq_self_or_lt type (compressEntries attributes) with hself | hlt
    · exact hself
    · omega
  have hall : (attributes.filter fun entry => !isVoid entry.2) = attributes := by
    rw [hsame, compressEntries_eq, List.length_map] at h
    exact List.filter_sublist.eq_of_length h
  rw [hsame, compressEntries_eq, hall]

-- A value is its own compression as soon as the two are the same. By induction on the value: the
-- same names on both sides leave no attribute to drop or to move.
theorem Value.compress_eq_self_of_same (hfree : a.Unrepeated) (h : a.same a.compress = true) :
    a.compress = a := by
  induction hfree with
  | array items _ ih =>
      rw [compress, compressItems_eq] at h ⊢
      rw [same, sameItems_iff, List.forall₂_map_right_iff, List.forall₂_same] at h
      congr 1
      nth_rewrite 2 [← List.map_id items]
      exact List.map_congr_left fun item hitem => ih item hitem (h item hitem)
  | frame type attributes hnames _ _ _ _ ih =>
      rw [compress_frame, Node.compress] at h ⊢
      obtain ⟨-, hmatches⟩ := same_frame.mp h
      have hcompressed : (Entries.names (rearranged type (compressEntries attributes))).Nodup :=
        nodup_rearranged (nodup_compressEntries hnames)
      have hkept := rearranged_eq_of_length (hmatches.length_eq hnames hcompressed).symm
      rw [hkept] at hmatches hcompressed ⊢
      have hself : ∀ entry ∈ attributes, entry.2.compress = entry.2 := by
        intro entry hentry
        obtain ⟨found, hfound, hsame⟩ := hmatches.2 entry hentry
        have hmem := List.mem_map_of_mem (f := fun entry => (entry.1, entry.2.compress)) hentry
        rw [Entries.get?_of_mem hcompressed hmem] at hfound
        cases hfound
        exact ih entry hentry hsame
      congr 2
      nth_rewrite 2 [← List.map_id attributes]
      exact List.map_congr_left fun entry hentry => by rw [hself entry hentry, id]
  | _ => rfl

end FrameNotation
