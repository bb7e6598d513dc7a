import FrameNotation.Digest
import FrameNotation.Proofs.Success
import Mathlib.Data.List.TakeWhile

namespace FrameNotation

variable {text digest : Str} {c : CodePoint}

-- No surrogate stands in a text.
def Str.IsEncodable (text : Str) : Prop := ∀ c ∈ text.toList, c.isSurrogate = false

instance : DecidablePred Str.IsEncodable := fun _ => inferInstanceAs (Decidable (∀ _ ∈ _, _))

theorem Str.exists_utf8_iff : (∃ bytes, text.utf8 = .ok bytes) ↔ text.IsEncodable := by
  have hdrop : text.toList.dropWhile (!·.isSurrogate) = [] ↔ text.IsEncodable := by
    simp [List.dropWhile_eq_nil_iff, IsEncodable]
  rw [← hdrop, utf8]
  split
  · rename_i hnil
    exact iff_of_true ⟨_, rfl⟩ hnil
  · rename_i hcons
    exact iff_of_false (fun ⟨_, h⟩ => nomatch h) hcons

theorem exists_contentHash_iff : (∃ digest, contentHash text = .ok digest) ↔ text.IsEncodable := by
  rw [← Str.exists_utf8_iff, contentHash, contentHashOf, exists_map_iff]

theorem length_contentHash (h : contentHash text = .ok digest) : digest.toList.length = 16 := by
  obtain ⟨bytes, -, rfl⟩ := map_eq_ok.mp h
  have hdigest : (Sha256.hexDigest bytes).length = 64 := by
    simp [Sha256.hexDigest, Sha256.hexWord, Sha256.hexByte]
  simp [contentHashLength, hdigest]

theorem exists_digitChar_of_mem_contentHash (h : contentHash text = .ok digest)
    (hc : c ∈ digest.toList) : ∃ digit < 16, c = Nat.digitChar digit := by
  have hbyte (byte : UInt8) (hc : c ∈ Sha256.hexByte byte) :
      ∃ digit < 16, c = Nat.digitChar digit := by
    have hlt := byte.toNat_lt
    rw [Sha256.hexByte, List.mem_cons, List.mem_singleton] at hc
    rcases hc with rfl | rfl
    · exact ⟨_, by omega, rfl⟩
    · exact ⟨_, by omega, rfl⟩
  obtain ⟨bytes, -, rfl⟩ := map_eq_ok.mp h
  obtain ⟨word, -, hword⟩ := List.mem_flatMap.mp (List.mem_of_mem_take hc)
  obtain ⟨byte, -, hc⟩ := List.mem_flatMap.mp hword
  exact hbyte byte hc

-- Texts that their hashes tell apart, as far as they can be encoded and have hashes.
def HashedApart (text other : Str) : Prop :=
  ∀ digest, contentHash text = .ok digest → contentHash other = .ok digest → text = other

end FrameNotation
