import FrameNotation.Proofs.Frame.Display
import FrameNotation.Reply

namespace FrameNotation.Reply

variable {text : Str} {frame : Frame} {value : Value}

-- The reply that any value amounts to.
def ofValue (value : Value) : Except Mishap Reply := (textOf value).map read

-- The reply is an answer. If it was not understood, the answer repeats its text.
structure Answers (text : Str) (reply : Reply) : Prop where
  type : reply.frame.type = .text "answer"
  repeated : reply.issue ≠ none → reply.frame = ⟨.text "answer", [("content", .text text),
    ("type", .text "natural_language_response"), ("parseError", .bool true)]⟩

theorem type_of_isAnswer (h : frame.type.text? = some FrameType.answer.name) :
    frame.type = .text "answer" := by
  obtain ⟨type, attributes⟩ := frame
  cases type with
  | text s =>
      cases h
      rfl
  | _ => cases h

-- Whatever a text holds, it is answered. Only the fallback comes with an issue.
theorem answers_read : Answers text (read text) := by
  simp only [read]
  split
  · split
    · exact ⟨type_of_isAnswer ‹_›, absurd rfl⟩
    · exact ⟨rfl, absurd rfl⟩
  · split
    · exact ⟨rfl, absurd rfl⟩
    · exact ⟨rfl, fun _ => rfl⟩

theorem exists_textOf_iff : (∃ text, textOf value = .ok text) ↔ value.KeepsDigits := by
  cases value with
  | null => exact iff_of_true ⟨_, rfl⟩ fun _ h => nomatch h
  | text s => exact iff_of_true ⟨_, rfl⟩ fun _ h => nomatch h
  | _ => exact Value.exists_display_iff

-- Every value whose integers can all be written out is answered, and no other value is.
theorem exists_answers_iff :
    (∃ text reply, textOf value = .ok text ∧ ofValue value = .ok reply ∧ Answers text reply) ↔
      ∀ i : Int, value.Mentions (.int i) → i.natAbs < tenPow maxDigits := by
  constructor
  · rintro ⟨text, reply, htext, -, -⟩
    exact exists_textOf_iff.mp ⟨text, htext⟩
  · intro h
    obtain ⟨text, htext⟩ := exists_textOf_iff.mpr h
    exact ⟨text, read text, htext, by rw [ofValue, htext]; rfl, answers_read⟩

-- The least integer with too many digits is not answered.
theorem not_answers_integer :
    ofValue (.number (.int (tenPow maxDigits))) = .error .integerTooLong := by
  have hdigits : Number.intChars (tenPow maxDigits) = .error .integerTooLong := by
    rw [Number.intChars, Int.natAbs_natCast, if_neg (Nat.lt_irrefl _)]
  have htext : textOf (.number (.int (tenPow maxDigits))) =
      (Number.intChars (tenPow maxDigits)).map Str.ofList := rfl
  rw [ofValue, htext, hdigits]
  rfl

end FrameNotation.Reply
