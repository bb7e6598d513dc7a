import FrameNotation.Proofs.Notation.Writable
import FrameNotation.Proofs.Number.Share
import FrameNotation.Proofs.Similarity.Quotations
import FrameNotation.Proofs.Similarity.Sameness

namespace FrameNotation

variable {n : Number} {numerator : Int} {halvings : Nat} {value : Value} {frame : Frame}

namespace Number

theorem isFinite_of_isCarried (h : n.IsCarried) : n.isFinite = true := by
  cases n with
  | int => rfl
  | float => exact h
  | nan => exact h

-- A number that is not whole has no more bits than a double.
theorem lt_of_halvings (h : n.standing = .point numerator halvings) (hne : halvings ≠ 0) :
    numerator < 2 ^ 53 := by
  cases n with
  | int =>
      cases h
      exact absurd rfl hne
  | nan => cases h
  | float x =>
      rw [standing] at h
      cases hx : Binary.ofFloat x with
      | nan => simp [hx] at h
      | infinite negative => cases negative <;> simp [hx] at h
      | finite negative mantissa exponent =>
          simp only [hx] at h
          injection h with hnumerator hhalvings
          have hmantissa : mantissa < 2 * Binary.topBit := by
            rcases Binary.unpack_of_ofFloat hx with ⟨hzero, -⟩ | ⟨hcanonical, -⟩
            · rw [hzero]
              decide
            · exact hcanonical.lt_double
          have hexponent : exponent.toNat = 0 := by omega
          have hone : (twoPow 0 : Int) = 1 := rfl
          rw [hexponent, hone, Int.mul_one] at hnumerator
          rw [Binary.topBit_value] at hmantissa
          split_ifs at hnumerator <;> omega

theorem standing_ne_nowhere (h : n.isFinite = true) : n.standing ≠ .nowhere := by
  cases n with
  | int => simp [standing]
  | nan => cases h
  | float x =>
      rw [isFinite] at h
      rw [standing]
      cases hx : Binary.ofFloat x with
      | finite negative mantissa exponent => simp
      | _ => simp [hx] at h

end Number

theorem Value.IsWritable.isCarried (h : value.IsWritable) (hn : value.Mentions n) :
    n.IsCarried := by
  induction h with
  | bool | text => cases hn
  | number _ hnumber =>
      cases hn
      exact hnumber
  | array items _ ih =>
      cases hn with
      | item hitem hn => exact ih _ hitem hn
  | frame type attributes _ _ ih =>
      cases hn with
      | frameType hn => cases hn
      | @frameEntry _ entry hentry hn =>
          refine ih entry hentry (fun hnull => ?_) hn
          rw [hnull] at hn
          cases hn

-- The score of a frame of which nothing is lost. It is the double below one, for the four weights
-- do not add up to one as doubles.
def intactScore : Float := unitClamp (1.0 * 0.4 + 1.0 * 0.3 + 1.0 * 0.2 + 1.0 * 0.1)

theorem standing_intactScore :
    (Number.float intactScore).standing = .point (2 ^ 53 - 1) 53 := by
  decide +kernel

theorem standing_one : (Number.float 1.0).standing = .point (2 ^ 52) 52 := by
  decide +kernel

namespace Number

theorem atMost_one_of_point (h : n.standing = .point numerator halvings) :
    n.atMost (int 1) = true ↔ numerator ≤ twoPow halvings := by
  have hone : (int 1).standing = .point 1 0 := rfl
  have hunit : (twoPow 0 : Int) = 1 := rfl
  rw [atMost, h, hone, Standing.atMost, Standing.less, Standing.equals, hunit, Int.mul_one,
    Int.one_mul, Bool.or_eq_true, decide_eq_true_iff, beq_iff_eq]
  exact Int.le_iff_lt_or_eq.symm

theorem equals_one_of_point (h : n.standing = .point numerator halvings) :
    n.equals (int 1) = true ↔ numerator = twoPow halvings := by
  have hone : (int 1).standing = .point 1 0 := rfl
  have hunit : (twoPow 0 : Int) = 1 := rfl
  rw [equals, h, hone, Standing.equals, hunit, Int.mul_one, Int.one_mul, beq_iff_eq]

-- Of the numbers up to one, only one itself is above the score of a frame of which nothing is lost.
theorem intactScore_less (h : n.atMost (int 1) = true) :
    (float intactScore).less n = n.equals (int 1) := by
  cases hstanding : n.standing with
  | point numerator halvings =>
      have hle := (atMost_one_of_point hstanding).mp h
      have hpos : 0 < twoPow halvings := Nat.two_pow_pos halvings
      have hscale : (twoPow 53 : Int) = 9007199254740992 := rfl
      rw [Bool.eq_iff_iff, equals_one_of_point hstanding, less, standing_intactScore, hstanding,
        Standing.less, decide_eq_true_iff, hscale]
      -- a fraction of few halvings is a whole unit below one, and of many it has too few bits
      by_cases hfew : halvings ≤ 53
      · have hunits : twoPow halvings ≤ 2 ^ 53 := Nat.pow_le_pow_right (by decide) hfew
        omega
      · have hunits : 2 ^ 53 ≤ twoPow halvings := Nat.pow_le_pow_right (by decide) (by omega)
        have hshort := lt_of_halvings hstanding (by omega)
        omega
  | top =>
      rw [atMost, hstanding] at h
      exact absurd h (by decide)
  | _ =>
      rw [less, equals, hstanding, standing_intactScore]
      rfl

-- Nothing up to one is above one.
theorem one_less_of_atMost (h : n.atMost (int 1) = true) : (float 1.0).less n = false := by
  cases hstanding : n.standing with
  | point numerator halvings =>
      have hle := (atMost_one_of_point hstanding).mp h
      have hscale : (twoPow 52 : Int) = 2 ^ 52 := rfl
      rw [less, standing_one, hstanding, Standing.less, decide_eq_false_iff_not, hscale]
      omega
  | top =>
      rw [atMost, hstanding] at h
      exact absurd h (by decide)
  | _ =>
      rw [less, hstanding, standing_one]
      rfl

end Number

namespace Node

-- What integrity counts in a frame are fewer marks than a double counts one by one.
def IsCountable (frame : Frame) : Prop :=
  ∃ entities concepts, frame.entities = .ok entities ∧ frame.concepts = .ok concepts ∧
    entities.length < 2 ^ 53 ∧ concepts.length < 2 ^ 53

end Node

theorem common_self (names : List Str) : common names names = names :=
  List.filter_eq_self.mpr fun _ hname => List.contains_iff_mem.mpr hname

theorem preservation_self_cases (names : List Str) :
    preservation names names = 1.0 ∨ preservation names names = 0.0 / 0.0 := by
  rw [preservation, common_self]
  split_ifs
  · exact .inl rfl
  · exact ratio_self_cases _

theorem preservation_self {names : List Str} (h : names.length < 2 ^ 53) :
    preservation names names = 1.0 := by
  rw [preservation, common_self]
  split_ifs with hempty
  · rfl
  · exact ratio_self (List.length_pos_iff.mpr (by simpa using hempty)) h

-- Where nothing is lost and a count is no number, the score is one.
theorem unitClamp_cases {entities concepts : Float}
    (hentities : entities = 1.0 ∨ entities = 0.0 / 0.0)
    (hconcepts : concepts = 1.0 ∨ concepts = 0.0 / 0.0) :
    unitClamp (1.0 * 0.4 + entities * 0.3 + concepts * 0.2 + 1.0 * 0.1) = intactScore ∨
      unitClamp (1.0 * 0.4 + entities * 0.3 + concepts * 0.2 + 1.0 * 0.1) = 1.0 := by
  rcases hentities with rfl | rfl <;> rcases hconcepts with rfl | rfl
  · exact .inl rfl
  all_goals exact .inr (by decide +kernel)

namespace Node

theorem exists_marks (h : (Value.frame frame).IsWritable) :
    ∃ entities concepts, frame.entities = .ok entities ∧ frame.concepts = .ok concepts := by
  have hfinite : ∀ n, (Value.frame frame).Mentions n → n.isFinite = true :=
    fun n hn => Number.isFinite_of_isCarried (h.isCarried hn)
  obtain ⟨cs, hcs⟩ := (exists_jsonChars_iff hfinite).mpr fun i hi => h.isCarried hi
  rw [entities, concepts, hcs]
  exact ⟨_, _, rfl, rfl⟩

theorem same_self (h : (Value.frame frame).IsWritable) (hfree : frame.Unrepeated) :
    frame.same frame = true :=
  Value.same_of_definite hfree fun _ hn =>
    Number.standing_ne_nowhere (Number.isFinite_of_isCarried (h.isCarried hn))

theorem measureIntegrity_self {entities concepts : List Str}
    (hsame : frame.same frame = true) (hentities : frame.entities = .ok entities)
    (hconcepts : frame.concepts = .ok concepts) : measureIntegrity frame frame =
      .ok (unitClamp (1.0 * 0.4 + preservation entities entities * 0.3 +
        preservation concepts concepts * 0.2 + 1.0 * 0.1)) := by
  have htype : frame.type.equalsType frame.type = true := (Value.same_frame.mp hsame).1
  rw [measureIntegrity, similarity_of_same hsame, hentities, hconcepts, htype]
  rfl

-- Measured against itself, a frame that can be written has the score of which nothing is lost, or
-- one where it has more marks than can be counted.
theorem integrity_self_cases (h : (Value.frame frame).IsWritable) (hfree : frame.Unrepeated) :
    integrity frame frame = intactScore ∨ integrity frame frame = 1.0 := by
  obtain ⟨entities, concepts, hentities, hconcepts⟩ := exists_marks h
  rw [integrity, measureIntegrity_self (same_self h hfree) hentities hconcepts]
  exact unitClamp_cases (preservation_self_cases entities) (preservation_self_cases concepts)

theorem integrity_self (h : (Value.frame frame).IsWritable) (hfree : frame.Unrepeated)
    (hcountable : frame.IsCountable) : integrity frame frame = intactScore := by
  obtain ⟨entities, concepts, hentities, hconcepts, hfewer, hfew⟩ := hcountable
  rw [integrity, measureIntegrity_self (same_self h hfree) hentities hconcepts]
  simp only [preservation_self hfewer, preservation_self hfew]
  rfl

end Node

end FrameNotation
