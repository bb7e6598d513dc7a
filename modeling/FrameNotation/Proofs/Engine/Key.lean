import FrameNotation.Engine.Process
import FrameNotation.Proofs.Digest

namespace FrameNotation

-- The parts of a key: the operation, the written text of the frame, which has a hash, and what
-- stands for the options.
structure Request.KeyParts (request : Request) (text options : Str) : Prop where
  written : request.input.writeFrame = .ok text
  hashed : ∃ digest, contentHash text = .ok digest
  options_eq : Request.optionsHash request.options = .ok options

-- Requests with equal keys: one operation, one written text, and options of one hash.
structure Request.Alike (a b : Request) (text options : Str) : Prop where
  operation_eq : a.operation = b.operation
  left : a.KeyParts text options
  right : b.KeyParts text options

namespace Request

variable {request other : Request} {key text otherText digest otherDigest : Str}
variable {options otherOptions : Str}

theorem key_eq (h : request.KeyParts text options) (hdigest : contentHash text = .ok digest) :
    request.key = .ok (request.operation ++ ":" ++ digest ++ "_" ++ options) := by
  rw [Request.key, h.written, ok_bind, hdigest, h.options_eq]
  rfl

theorem exists_parts (h : request.key = .ok key) : ∃ text digest options,
    request.KeyParts text options ∧ contentHash text = .ok digest ∧
      key = request.operation ++ ":" ++ digest ++ "_" ++ options := by
  obtain ⟨text, htext, h⟩ := bind_eq_ok.mp h
  obtain ⟨digest, hdigest, h⟩ := bind_eq_ok.mp h
  obtain ⟨options, hoptions, h⟩ := bind_eq_ok.mp h
  cases h
  have hhash := mapError_eq_ok.mp hdigest
  exact ⟨text, digest, options, ⟨htext, ⟨digest, hhash⟩, mapError_eq_ok.mp hoptions⟩, hhash, rfl⟩

theorem takeWhile_colon {operation rest : List CodePoint} (h : char ':' ∉ operation) :
    (operation ++ char ':' :: rest).takeWhile (· != char ':') = operation := by
  have hoperation : ∀ c ∈ operation, (c != char ':') = true := by
    intro c hc
    rw [bne_iff_ne]
    rintro rfl
    exact h hc
  rw [List.takeWhile_append_of_pos hoperation, List.takeWhile_cons_of_neg (by simp),
    List.append_nil]

-- No colon stands in an operation, and all hashes are of one length, so the parts of equal keys are
-- equal.
theorem parts_of_key_eq (h : char ':' ∉ request.operation.toList)
    (hother : char ':' ∉ other.operation.toList) (hdigest : contentHash text = .ok digest)
    (hotherDigest : contentHash otherText = .ok otherDigest)
    (hkey : request.operation ++ ":" ++ digest ++ "_" ++ options =
      other.operation ++ ":" ++ otherDigest ++ "_" ++ otherOptions) :
    request.operation = other.operation ∧ digest = otherDigest ∧ options = otherOptions := by
  have hchars := congrArg Str.toList hkey
  simp only [Str.toList_append, List.append_assoc] at hchars
  have hoperation : request.operation.toList = other.operation.toList := by
    have htake := congrArg (List.takeWhile (· != char ':')) hchars
    exact (takeWhile_colon h).symm.trans (htake.trans (takeWhile_colon hother))
  rw [hoperation] at hchars
  have hrest := List.append_cancel_left (List.append_cancel_left hchars)
  have hlength : digest.toList.length = otherDigest.toList.length := by
    rw [length_contentHash hdigest, length_contentHash hotherDigest]
  obtain ⟨hhash, hrest⟩ := List.append_inj hrest hlength
  have hoptions : options.toList = otherOptions.toList := List.append_cancel_left hrest
  exact ⟨Str.toList_inj.mp hoperation, Str.toList_inj.mp hhash, Str.toList_inj.mp hoptions⟩

-- Where hashes tell the written texts apart, equal keys mean equal parts.
theorem exists_alike (h : char ':' ∉ request.operation.toList)
    (hother : char ':' ∉ other.operation.toList)
    (hhash : ∀ text otherText, request.input.writeFrame = .ok text →
      other.input.writeFrame = .ok otherText → HashedApart text otherText)
    (hkey : request.key = .ok key) (hotherKey : other.key = .ok key) :
    ∃ text options, request.Alike other text options := by
  obtain ⟨text, digest, options, hparts, hdigest, hkey⟩ := exists_parts hkey
  obtain ⟨otherText, _, otherOptions, hotherParts, hotherDigest, hotherKey⟩ :=
    exists_parts hotherKey
  obtain ⟨hoperation, rfl, rfl⟩ :=
    parts_of_key_eq h hother hdigest hotherDigest (hkey.symm.trans hotherKey)
  cases hhash text otherText hparts.written hotherParts.written digest hdigest hotherDigest
  exact ⟨text, options, hoperation, hparts, hotherParts⟩

theorem colon_notMem (h : request.operation ∈ compressOperations) :
    char ':' ∉ request.operation.toList := by
  have hall : ∀ operation ∈ compressOperations, char ':' ∉ operation.toList := by decide
  exact hall _ h

end Request

theorem key_of_alike {request other : Request} {text options : Str}
    (h : request.Alike other text options) :
    ∃ key, request.key = .ok key ∧ other.key = .ok key := by
  obtain ⟨digest, hdigest⟩ := h.left.hashed
  refine ⟨_, Request.key_eq h.left hdigest, ?_⟩
  rw [Request.key_eq h.right hdigest, h.operation_eq]

end FrameNotation
