import FrameNotation.Proofs.Engine.Key
import FrameNotation.Proofs.Json.Encodable

namespace FrameNotation

namespace Request

variable {a b : Request}
variable {operation other text otherText json otherJson options otherOptions : Str}
variable {digest otherDigest jsonDigest otherJsonDigest : Str}

-- What stands for the options at the end of a key, if their canonical text has the given hash.
def optionsPart (holds : Bool) (digest : Str) : Str := if holds then digest else "default"

theorem optionsPart_false (digest : Str) : optionsPart false digest = "default" := rfl

theorem optionsHash_eq {value : Value} (h : value.canonicalJson = .ok json)
    (hdigest : contentHash json = .ok digest) :
    optionsHash value = .ok (optionsPart value.holds digest) := by
  unfold optionsHash optionsPart
  split_ifs
  · rw [h]
    exact hdigest
  · rfl

-- All parts but the operation have fixed places from the end, so any operation can be told.
theorem parts_of_length_eq (hlength : options.toList.length = otherOptions.toList.length)
    (hdigests : digest.toList.length = otherDigest.toList.length)
    (h : operation ++ ":" ++ digest ++ "_" ++ options =
      other ++ ":" ++ otherDigest ++ "_" ++ otherOptions) :
    operation = other ∧ digest = otherDigest ∧ options = otherOptions := by
  have hchars := congrArg Str.toList h
  simp only [Str.toList_append] at hchars
  obtain ⟨hchars, hoptions⟩ := List.append_inj' hchars hlength
  obtain ⟨hchars, -⟩ := List.append_inj' hchars rfl
  obtain ⟨hchars, hhash⟩ := List.append_inj' hchars hdigests
  obtain ⟨hoperation, -⟩ := List.append_inj' hchars rfl
  exact ⟨Str.toList_inj.mp hoperation, Str.toList_inj.mp hhash,
    Str.toList_inj.mp hoptions⟩

-- The word that stands for no options ends in a letter that no hash has.
theorem default_ne_hash (h : contentHash json = .ok jsonDigest) :
    operation ++ ":" ++ digest ++ "_" ++ "default" ≠
      other ++ ":" ++ otherDigest ++ "_" ++ jsonDigest := by
  intro hkeys
  have hlast := congrArg (fun key => key.toList.getLast?) hkeys
  have hne : jsonDigest.toList ≠ [] := by
    rw [← List.length_pos_iff, length_contentHash h]
    decide
  have hdefault : ("default" : Str).toList.getLast? = some (char 't') := by decide
  simp only [Str.toList_append, List.getLast?_append, hdefault,
    List.getLast?_eq_some_getLast hne, Option.some_or, Option.some.injEq] at hlast
  have hmem : char 't' ∈ jsonDigest.toList := hlast ▸ List.getLast_mem hne
  obtain ⟨digit, hdigit, heq⟩ := exists_digitChar_of_mem_contentHash h hmem
  have hletters : ∀ digit < 16, char 't' ≠ Nat.digitChar digit := by decide
  exact hletters digit hdigit heq

theorem holds_eq_of_key {holds otherHolds : Bool} (hjson : contentHash json = .ok jsonDigest)
    (hotherJson : contentHash otherJson = .ok otherJsonDigest)
    (h : operation ++ ":" ++ digest ++ "_" ++ optionsPart holds jsonDigest =
      other ++ ":" ++ otherDigest ++ "_" ++ optionsPart otherHolds otherJsonDigest) :
    holds = otherHolds := by
  cases holds with
  | false =>
      cases otherHolds with
      | false => rfl
      | true => exact absurd h (default_ne_hash hotherJson)
  | true =>
      cases otherHolds with
      | false => exact absurd h.symm (default_ne_hash hjson)
      | true => rfl

theorem length_optionsPart (holds : Bool) (hjson : contentHash json = .ok jsonDigest)
    (hotherJson : contentHash otherJson = .ok otherJsonDigest) :
    (optionsPart holds jsonDigest).toList.length =
      (optionsPart holds otherJsonDigest).toList.length := by
  cases holds with
  | false => rw [optionsPart_false, optionsPart_false]
  | true => exact (length_contentHash hjson).trans (length_contentHash hotherJson).symm

-- Requests with written frames that have hashes get one key exactly if they have one operation,
-- which may be any text, one written frame, and either no options that hold or options of one
-- canonical text. Only the hashes of these texts have to tell them apart.
theorem key_eq_iff (hwritten : a.input.writeFrame = .ok text)
    (hother : b.input.writeFrame = .ok otherText) (hjson : a.options.canonicalJson = .ok json)
    (hotherJson : b.options.canonicalJson = .ok otherJson)
    (hdigest : contentHash text = .ok digest)
    (hotherDigest : contentHash otherText = .ok otherDigest)
    (htexts : HashedApart text otherText) (hjsons : HashedApart json otherJson) :
    ∃ key otherKey, a.key = .ok key ∧ b.key = .ok otherKey ∧
      (key = otherKey ↔ a.operation = b.operation ∧ text = otherText ∧
        (a.options.holds = false ∧ b.options.holds = false ∨
          a.options.holds = true ∧ b.options.holds = true ∧ json = otherJson)) := by
  obtain ⟨jsonDigest, hjsonDigest⟩ := Json.exists_contentHash hjson
  obtain ⟨otherJsonDigest, hotherJsonDigest⟩ := Json.exists_contentHash hotherJson
  refine ⟨_, _, key_eq ⟨hwritten, ⟨_, hdigest⟩, optionsHash_eq hjson hjsonDigest⟩ hdigest,
    key_eq ⟨hother, ⟨_, hotherDigest⟩, optionsHash_eq hotherJson hotherJsonDigest⟩ hotherDigest,
    fun h => ?_, ?_⟩
  · have hholds := holds_eq_of_key hjsonDigest hotherJsonDigest h
    rw [← hholds] at h ⊢
    have hdigests : digest.toList.length = otherDigest.toList.length :=
      (length_contentHash hdigest).trans (length_contentHash hotherDigest).symm
    obtain ⟨hoperation, rfl, hoptions⟩ :=
      parts_of_length_eq (length_optionsPart _ hjsonDigest hotherJsonDigest) hdigests h
    refine ⟨hoperation, htexts digest hdigest hotherDigest, ?_⟩
    cases ha : a.options.holds with
    | false => exact .inl ⟨rfl, rfl⟩
    | true =>
        rw [ha] at hoptions
        cases (show jsonDigest = otherJsonDigest from hoptions)
        exact .inr ⟨rfl, rfl, hjsons jsonDigest hjsonDigest hotherJsonDigest⟩
  · rintro ⟨hoperation, rfl, ⟨ha, hb⟩ | ⟨ha, hb, rfl⟩⟩
    · cases hdigest.symm.trans hotherDigest
      rw [hoperation, ha, hb, optionsPart_false, optionsPart_false]
    · cases hdigest.symm.trans hotherDigest
      cases hjsonDigest.symm.trans hotherJsonDigest
      rw [hoperation, ha, hb]

-- The operation looks like a key that ends without options.
def brewing (strength : Str) : Request where
  input := .frame ⟨.text "event", [("action", .text "brew")]⟩
  operation := "brew:0123456789abcdef_default"
  options := .record [("strength", .text strength)]
  prompt := none

theorem key_eq_iff_brewing :
    (brewing "mild").input.writeFrame = .ok "(event action:brew)" ∧
      (brewing "full").input.writeFrame = .ok "(event action:brew)" ∧
        (brewing "mild").options.canonicalJson = .ok "\x7b\"strength\":\"mild\"\x7d" ∧
          (brewing "full").options.canonicalJson = .ok "\x7b\"strength\":\"full\"\x7d" ∧
            contentHash "\x7b\"strength\":\"mild\"\x7d" ≠
              contentHash "\x7b\"strength\":\"full\"\x7d" ∧
              ∃ key otherKey, (brewing "mild").key = .ok key ∧ (brewing "full").key = .ok otherKey ∧
                key ≠ otherKey := by
  have hmild : (brewing "mild").options.canonicalJson =
      .ok "\x7b\"strength\":\"mild\"\x7d" := by
    rw [brewing, Value.canonicalJson, Json.canonicalChars_record (by decide)]
    rfl
  have hfull : (brewing "full").options.canonicalJson =
      .ok "\x7b\"strength\":\"full\"\x7d" := by
    rw [brewing, Value.canonicalJson, Json.canonicalChars_record (by decide)]
    rfl
  have hhash : contentHash "\x7b\"strength\":\"mild\"\x7d" ≠
      contentHash "\x7b\"strength\":\"full\"\x7d" := by
    decide +kernel
  refine ⟨rfl, rfl, hmild, hfull, hhash, ?_⟩
  obtain ⟨key, otherKey, hkey, hotherKey, hiff⟩ :=
    key_eq_iff (a := brewing "mild") (b := brewing "full") rfl rfl hmild hfull rfl rfl
      (fun _ _ _ => rfl) fun _ h hother => absurd (h.trans hother.symm) hhash
  refine ⟨key, otherKey, hkey, hotherKey, fun h => ?_⟩
  obtain ⟨-, -, ⟨⟨⟩, -⟩ | ⟨-, -, hjson⟩⟩ := hiff.mp h
  exact absurd hjson (by decide)

end Request

end FrameNotation
