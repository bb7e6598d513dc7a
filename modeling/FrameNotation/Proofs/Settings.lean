import FrameNotation.Proofs.Frame.Display
import FrameNotation.Proofs.Number.Lenient
import FrameNotation.Settings

namespace FrameNotation

-- Zero is below whatever is a number and not at most zero.
theorem Number.zero_less_iff {n : Number} :
    (int 0).less n = true ↔ n.atMost (int 0) = false ∧ n.standing ≠ .nowhere := by
  have hzero : (int 0).standing = .point 0 0 := rfl
  rw [less, atMost, hzero]
  cases n.standing with
  | point numerator halvings =>
      have hunit : (twoPow 0 : Int) = 1 := rfl
      simp only [Standing.atMost, Standing.less, Standing.equals, Int.zero_mul, hunit, Int.mul_one,
        decide_eq_true_iff, Bool.or_eq_false_iff, decide_eq_false_iff_not, beq_eq_false_iff_ne]
      simp only [ne_eq, reduceCtorEq, not_false_eq_true, and_true]
      omega
  | _ => decide

namespace Settings

variable {settings found : Settings} {env : Entries Str}

-- What settings are checked for. A lifetime that is no number is at most nothing.
structure Passes (settings : Settings) : Prop where
  capacity : 1 ≤ settings.maxEntries
  lifetime : settings.lifetime.atMost (.int 0) = false
  atLeastZero : (Number.int 0).atMost settings.minIntegrity = true
  atMostOne : settings.minIntegrity.atMost (.int 1) = true

theorem refused_ne_ok {shown : Except Failure Str} {cause : Str → Failure} :
    (do let text ← shown; throw (cause text)) ≠ Except.ok found := by
  intro h
  obtain ⟨_, -, hthrown⟩ := bind_eq_ok.mp h
  cases hthrown

theorem check_eq_ok : settings.check = .ok found ↔ settings.Passes ∧ found = settings := by
  unfold check
  split_ifs with hcapacity hlifetime hintegrity
  · exact iff_of_false refused_ne_ok fun h => absurd h.1.capacity (by omega)
  · exact iff_of_false refused_ne_ok fun h => by simp [h.1.lifetime] at hlifetime
  · refine iff_of_false refused_ne_ok fun h => ?_
    simp [h.1.atLeastZero, h.1.atMostOne] at hintegrity
  · simp only [Bool.not_eq_true, Bool.not_eq_false', Bool.and_eq_true] at hlifetime hintegrity
    have hpasses : settings.Passes := ⟨by omega, hlifetime, hintegrity.1, hintegrity.2⟩
    rw [Except.ok.injEq, eq_comm]
    exact (and_iff_right hpasses).symm

-- Settings whose numbers can be shown pass their check, or the fault says what they fail.
theorem check_cases (hcapacity : ∃ shown, (Number.int settings.maxEntries).display = .ok shown)
    (hlifetime : ∃ shown, settings.lifetime.display = .ok shown)
    (hintegrity : ∃ shown, settings.minIntegrity.display = .ok shown) :
    settings.check = .ok settings ∧ settings.Passes ∨
      ∃ fault, settings.check = .error (.fault (.settings fault)) := by
  cases hcheck : settings.check with
  | ok found =>
      obtain ⟨hpasses, rfl⟩ := check_eq_ok.mp hcheck
      exact .inl ⟨rfl, hpasses⟩
  | error cause =>
      obtain ⟨entries, hentries⟩ := hcapacity
      obtain ⟨seconds, hseconds⟩ := hlifetime
      obtain ⟨least, hleast⟩ := hintegrity
      unfold check at hcheck
      rw [hentries, hseconds, hleast] at hcheck
      right
      split_ifs at hcheck
      · cases hcheck
        exact ⟨_, rfl⟩
      · cases hcheck
        exact ⟨_, rfl⟩
      · cases hcheck
        exact ⟨_, rfl⟩

section Reading

variable {β : Type} {read : List CodePoint → Option β} {name otherwise : Str} {value : β}

theorem readOr_of_some (h : read ((env.get? name).getD otherwise).toList = some value) :
    readOr read env name otherwise = .ok value := by
  unfold readOr
  simp only [h]

theorem readOr_cases (read : List CodePoint → Option β) (env : Entries Str)
    (name otherwise : Str) :
    (∃ value, readOr read env name otherwise = .ok value ∧
        read ((env.get? name).getD otherwise).toList = some value) ∨
      ∃ fault, readOr read env name otherwise = .error (.fault (.settings fault)) := by
  cases hread : read ((env.get? name).getD otherwise).toList with
  | some value => exact .inl ⟨value, readOr_of_some hread, rfl⟩
  | none =>
      unfold readOr
      simp only [hread]
      exact .inr ⟨_, rfl⟩

end Reading

-- The text of the lifetime, which has a default.
def lifetimeText (env : Entries Str) : Str :=
  (env.get? "CORTEX_CACHE_TTL_SECONDS").getD "1800"

-- Environment variables give settings that pass their check, with the lifetime that its text is
-- read as, or they are refused.
theorem ofEnvironment_cases (env : Entries Str) :
    (∃ fault, ofEnvironment env = .error (.fault (.settings fault))) ∨
      ∃ settings seconds, ofEnvironment env = .ok settings ∧ settings.Passes ∧
        settings.lifetime = .float seconds ∧
          Lenient.float? (lifetimeText env).toList = some seconds := by
  unfold ofEnvironment
  rcases readOr_cases Lenient.int? env "CORTEX_CACHE_MAX_ENTRIES" "500" with
    ⟨entries, hentries, hdigits⟩ | ⟨fault, hfault⟩
  case inr => exact .inl ⟨fault, by rw [hfault]; rfl⟩
  rcases readOr_cases Lenient.float? env "CORTEX_CACHE_TTL_SECONDS" "1800" with
    ⟨seconds, hseconds, hlifetime⟩ | ⟨fault, hfault⟩
  case inr => exact .inl ⟨fault, by rw [hentries, hfault]; rfl⟩
  rcases readOr_cases Lenient.float? env "CORTEX_MIN_SEMANTIC_INTEGRITY" "0.0" with
    ⟨least, hleast, -⟩ | ⟨fault, hfault⟩
  case inr => exact .inl ⟨fault, by rw [hentries, hseconds, hfault]; rfl⟩
  rw [hentries, hseconds, hleast]
  simp only [ok_bind]
  have hshown : ∃ shown, (Number.int entries).display = .ok shown := by
    refine Value.exists_display_number_iff.mpr ?_
    rintro _ ⟨⟩
    exact Lenient.natAbs_lt_of_int? hdigits
  refine (check_cases ?_ ?_ ?_).elim
    (fun h => .inr ⟨_, seconds, h.1, h.2, rfl, hlifetime⟩) fun h => .inl h
  · exact hshown
  · exact ⟨_, rfl⟩
  · exact ⟨_, rfl⟩

end Settings

end FrameNotation
