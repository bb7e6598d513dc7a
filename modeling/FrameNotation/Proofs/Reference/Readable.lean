import FrameNotation.Proofs.Success
import FrameNotation.Reference.Resolve
import Mathlib.Data.List.TakeWhile

namespace FrameNotation

open Text

variable {name reference : Str} {cs rest digits : List CodePoint} {written other : Path.Written}
variable {path : List Segment} {segment : Segment} {current context : Value}

theorem exists_readDigits_iff :
    (∃ number, readDigits digits = .ok number) ↔ digits.length ≤ maxDigits := by
  unfold readDigits
  split_ifs with hlength
  · exact iff_of_true ⟨_, rfl⟩ hlength
  · exact iff_of_false nofun hlength

namespace Path

-- The segments of a path as they are written, up to its end or to a malformed part.
inductive Meets : List CodePoint → Written → Prop
  | here {cs rest : List CodePoint} {written : Written} (h : next? cs = some (written, rest)) :
      Meets cs written
  | later {cs rest : List CodePoint} {first written : Written} (h : next? cs = some (first, rest))
      (hrest : Meets rest written) : Meets cs written

theorem meets_iff (h : next? cs = some (written, rest)) :
    Meets cs other ↔ other = written ∨ Meets rest other := by
  constructor
  · intro hmeets
    cases hmeets with
    | here hnext =>
        cases h.symm.trans hnext
        exact .inl rfl
    | later hnext hrest =>
        cases h.symm.trans hnext
        exact .inr hrest
  · rintro (rfl | hrest)
    · exact .here h
    · exact .later h hrest

theorem not_meets (h : next? cs = none) : ¬Meets cs other := by
  intro hmeets
  cases hmeets with
  | here hnext => cases h.symm.trans hnext
  | later hnext => cases h.symm.trans hnext

theorem exists_read_iff : (∃ segment, written.read = .ok segment) ↔
    ∀ digits, written = .index digits → digits.length ≤ maxDigits := by
  cases written with
  | key name => exact iff_of_true ⟨_, rfl⟩ nofun
  | index digits =>
      rw [Written.read, exists_map_iff, exists_readDigits_iff]
      constructor
      · rintro h _ ⟨⟩
        exact h
      · intro h
        exact h digits rfl

theorem segments?_of_next? (h : next? cs = some (written, rest)) : segments? cs =
    written.read >>= fun segment => segments? rest >>= fun others =>
      pure (others.map (segment :: ·)) := by
  have hcs : ¬cs.isEmpty = true := by
    intro hempty
    rw [List.isEmpty_iff.mp hempty] at h
    cases h
  rw [segments?, if_neg hcs]
  split
  · next hnext => cases h.symm.trans hnext
  · next hnext =>
    cases h.symm.trans hnext
    rfl

theorem segments?_of_not_next? (hcs : ¬cs.isEmpty = true) (h : next? cs = none) :
    segments? cs = .ok none := by
  rw [segments?, if_neg hcs]
  split
  · rfl
  · next hnext => cases h.symm.trans hnext

-- A path is read, as segments or as malformed, exactly if no index on the way is too long.
theorem exists_segments?_iff : (∃ path, segments? cs = .ok path) ↔
    ∀ digits, Meets cs (.index digits) → digits.length ≤ maxDigits := by
  induction cs using segments?.induct with
  | case1 cs hempty =>
      rw [List.isEmpty_iff] at hempty
      subst hempty
      rw [segments?]
      exact iff_of_true ⟨_, rfl⟩ fun digits hmeets => (not_meets rfl hmeets).elim
  | case2 cs hempty hnext =>
      rw [segments?_of_not_next? hempty hnext]
      exact iff_of_true ⟨_, rfl⟩ fun digits hmeets => (not_meets hnext hmeets).elim
  | case3 cs hempty written rest hnext ih =>
      rw [segments?_of_next? hnext, exists_bind_iff fun _ => exists_bind_pure_iff, exists_read_iff,
        ih]
      simp only [meets_iff hnext, or_imp, forall_and, eq_comm]

end Path

theorem exists_pathOf_iff : (∃ path, pathOf reference = .ok path) ↔
    ∀ cs, reference.toList = referenceMark :: cs →
      ∀ digits, Path.Meets cs (.index digits) → digits.length ≤ maxDigits := by
  unfold pathOf
  cases hreference : reference.toList with
  | nil => exact iff_of_true ⟨_, rfl⟩ nofun
  | cons c cs =>
      by_cases hmark : c = referenceMark
      · subst hmark
        cases cs with
        | nil =>
            refine iff_of_true ⟨_, rfl⟩ ?_
            rintro _ ⟨⟩ digits hmeets
            exact (Path.not_meets rfl hmeets).elim
        | cons first rest => simp [Path.exists_segments?_iff]
      · simp [hmark]

-- A name that looks like an index is one: each of its digits forms numerals, and they are not too
-- many.
def ReadsAsKey (name : Str) : Prop :=
  name.toList ≠ [] → name.toList.all isDigit = true →
    name.toList.all isDecimalDigit = true ∧ name.toList.length ≤ maxDigits

theorem exists_indexOfKey_iff : (∃ index, indexOfKey name = .ok index) ↔ ReadsAsKey name := by
  simp only [indexOfKey, ReadsAsKey]
  generalize name.toList = digits
  by_cases hempty : digits = []
  · simp [hempty]
  by_cases hdigits : digits.all isDigit = true
  swap
  · simp [hdigits]
  rw [if_neg (by simpa [hempty] using hdigits)]
  simp only [hempty, hdigits, ne_eq, not_false_eq_true, forall_const]
  by_cases hall : digits.all isDecimalDigit = true
  · have hplain : digits.takeWhile isDecimalDigit = digits :=
      List.takeWhile_eq_self_iff.mpr (List.all_eq_true.mp hall)
    rw [hplain, if_pos (by simp), exists_map_iff, exists_readDigits_iff, and_iff_right hall]
  · -- whatever stands in front of the first marked digit, the key is not read
    have hplain : (digits.takeWhile isDecimalDigit).length ≠ digits.length := by
      intro hlength
      have hself := (List.takeWhile_prefix isDecimalDigit).eq_of_length hlength
      exact hall (List.all_eq_true.mpr (List.takeWhile_eq_self_iff.mp hself))
    rw [iff_false_right fun h => hall h.1]
    split_ifs with hlong
    · rw [exists_map_iff, exists_readDigits_iff]
      simpa [hplain] using hlong
    · exact nofun

-- Along the way from a value an array is asked for the name.
inductive Value.Asks : Value → List Segment → Str → Prop
  | here (items : List Value) (name : Str) (rest : List Segment) :
      Asks (.array items) (.key name :: rest) name
  | later {current next : Value} {segment : Segment} {rest : List Segment} {name : Str}
      (hstep : current.step segment = .ok (some next)) (h : Asks next rest name) :
      Asks current (segment :: rest) name

theorem exists_step_iff : (∃ found, current.step segment = .ok found) ↔
    ∀ items name, current = .array items → segment = .key name → ReadsAsKey name := by
  simp only [Value.step, exists_map_iff]
  cases segment with
  | index position => cases current <;> exact iff_of_true ⟨_, rfl⟩ nofun
  | key name =>
      cases current with
      | array items =>
          simp only [exists_map_iff, exists_indexOfKey_iff]
          simp
      | _ => exact iff_of_true ⟨_, rfl⟩ nofun

theorem exists_follow_iff : (∃ found, current.follow path = .ok found) ↔
    ∀ name, current.Asks path name → ReadsAsKey name := by
  induction path generalizing current with
  | nil => exact iff_of_true ⟨_, rfl⟩ nofun
  | cons segment rest ih =>
      constructor
      · rintro ⟨found, h⟩ name hasks
        obtain ⟨next, hstep, h⟩ := bind_eq_ok.mp h
        cases hasks with
        | here items => exact exists_step_iff.mp ⟨next, hstep⟩ items name rfl rfl
        | later hlater hasks =>
            cases hstep.symm.trans hlater
            exact ih.mp ⟨found, h⟩ name hasks
      · intro hnames
        have hstep : ∃ found, current.step segment = .ok found := by
          refine exists_step_iff.mpr ?_
          rintro items name rfl rfl
          exact hnames name (.here items name rest)
        obtain ⟨next, hstep⟩ := hstep
        rw [Value.follow, hstep, ok_bind]
        cases next with
        | none => exact ⟨_, rfl⟩
        | some next => exact ih.mpr fun name hasks => hnames name (.later hstep hasks)

-- A reference is resolved, to a value or to nothing, exactly if no index in its path is too long
-- and each name that an array is asked for, if it looks like an index, is one.
theorem exists_resolve_iff : (∃ found, resolve reference context = .ok found) ↔
    (∀ cs, reference.toList = referenceMark :: cs →
      ∀ digits, Path.Meets cs (.index digits) → digits.length ≤ maxDigits) ∧
    ∀ path, pathOf reference = .ok (some path) →
      ∀ name, context.Asks path name → ReadsAsKey name := by
  rw [← exists_pathOf_iff, resolve]
  cases hpath : pathOf reference with
  | error mishap => exact iff_of_false nofun fun h => nomatch h.1
  | ok path =>
      rw [ok_bind]
      cases path with
      | none => exact iff_of_true ⟨_, rfl⟩ ⟨⟨_, rfl⟩, nofun⟩
      | some path => simp [exists_follow_iff]

end FrameNotation
