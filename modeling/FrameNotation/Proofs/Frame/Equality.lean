import FrameNotation.Frame.Equality
import FrameNotation.Proofs.Frame.Entries
import FrameNotation.Proofs.Frame.Parts
import Mathlib.Data.List.Forall2

namespace FrameNotation

-- A finite number equals itself.
theorem Number.equals_self (n : Number) (h : n.isFinite = true) : n.equals n = true := by
  have hstanding : ∃ numerator halvings, n.standing = .point numerator halvings := by
    cases n with
    | int i => exact ⟨i, 0, rfl⟩
    | float x =>
        simp only [isFinite] at h
        simp only [standing]
        split at h
        · rename_i hfinite
          rw [hfinite]
          exact ⟨_, _, rfl⟩
        · cases h
    | nan label => cases h
  obtain ⟨numerator, halvings, hstanding⟩ := hstanding
  rw [Number.equals, hstanding]
  exact beq_self_eq_true _

namespace Value

variable {inType inside : Bool} {a b : Value} {xs ys : List Value}
variable {entries others : Entries Value}

theorem equalsItems_iff : equalsItems inType xs ys = true ↔
    List.Forall₂ (fun x y => equalsAt inType true x y = true) xs ys := by
  induction xs generalizing ys with
  | nil => cases ys <;> simp [equalsItems]
  | cons x rest ih =>
      cases ys with
      | nil => simp [equalsItems]
      | cons y others => rw [equalsItems, Bool.and_eq_true, ih, List.forall₂_cons]

theorem equalsEntries_iff : equalsEntries inType entries others = true ↔
    ∀ entry ∈ entries, ∃ other, others.get? entry.1 = some other ∧
      equalsAt inType true entry.2 other = true := by
  induction entries with
  | nil => simp [equalsEntries]
  | cons entry rest ih =>
      rw [equalsEntries, Bool.and_eq_true, ih, List.forall_mem_cons]
      cases others.get? entry.1 <;> simp

-- Frames are equal if their types are, if they have the same roles, and if what stands under each
-- role is equal.
theorem equalsAt_frame_iff {type otherType : Value} :
    equalsAt inType inside (.frame ⟨type, entries⟩) (.frame ⟨otherType, others⟩) = true ↔
      equalsAt true (inType && inside) type otherType = true ∧
        (∀ name ∈ Entries.names others, name ∈ Entries.names entries) ∧
          ∀ entry ∈ entries, ∃ other, others.get? entry.1 = some other ∧
            equalsAt inType true entry.2 other = true := by
  rw [equalsAt, Bool.and_eq_true, Bool.and_eq_true, equalsEntries_iff, and_assoc]
  exact and_congr_right fun _ => and_congr_left fun _ => Entries.all_has_iff

theorem equalsAt_array : equalsAt inType inside (.array xs) (.array ys) = true ↔
    List.Forall₂ (fun x y => equalsAt inType true x y = true) xs ys := by
  rw [equalsAt, equalsItems_iff]

-- What nothing, a text or an array equals is of its kind.
theorem equalsAt_null_left : equalsAt inType inside .null b = true ↔ b = .null := by
  cases b <;> simp [equalsAt, number?]

theorem equalsAt_text_left {s : Str} :
    equalsAt inType inside (.text s) b = true ↔ b = .text s := by
  cases b with
  | text t => rw [equalsAt_text, text.injEq, eq_comm]
  | _ => simp [equalsAt, number?]

theorem equalsAt_array_left : equalsAt inType inside (.array xs) b = true ↔
    ∃ ys, b = .array ys ∧ List.Forall₂ (fun x y => equalsAt inType true x y = true) xs ys := by
  cases b <;> simp [equalsAt, number?, equalsItems_iff]

-- What equals a text, an array or a frame is one.
theorem eq_text_of_equals {s : Str} (h : equalsAt inType inside a (.text s) = true) :
    a = .text s := by
  cases a with
  | text t => rw [equalsAt_text.mp h]
  | _ => simp [equalsAt, number?] at h

theorem eq_array_of_equals (h : equalsAt inType inside a (.array ys) = true) :
    ∃ xs, a = .array xs ∧ List.Forall₂ (fun x y => equalsAt inType true x y = true) xs ys := by
  cases a with
  | array xs => exact ⟨xs, rfl, equalsAt_array.mp h⟩
  | _ => simp [equalsAt, number?] at h

theorem eq_frame_of_equals {node : Frame} (h : equalsAt inType inside a (.frame node) = true) :
    ∃ other, a = .frame other := by
  cases a with
  | frame other => exact ⟨other, rfl⟩
  | _ => simp [equalsAt, number?] at h

theorem sameItems_iff : sameItems xs ys = true ↔
    List.Forall₂ (fun x y => same x y = true) xs ys := by
  induction xs generalizing ys with
  | nil => cases ys <;> simp [sameItems]
  | cons x rest ih =>
      cases ys with
      | nil => simp [sameItems]
      | cons y others => rw [sameItems, Bool.and_eq_true, ih, List.forall₂_cons]

theorem sameEntries_iff : sameEntries entries others = true ↔
    ∀ entry ∈ entries, ∃ other, others.get? entry.1 = some other ∧
      same entry.2 other = true := by
  induction entries with
  | nil => simp [sameEntries]
  | cons entry rest ih =>
      rw [sameEntries, Bool.and_eq_true, ih, List.forall_mem_cons]
      cases others.get? entry.1 <;> simp

theorem same_frame_iff {type otherType : Value} :
    same (.frame ⟨type, entries⟩) (.frame ⟨otherType, others⟩) = true ↔
      type.equalsType otherType = true ∧
        (∀ name ∈ Entries.names others, name ∈ Entries.names entries) ∧
          ∀ entry ∈ entries, ∃ other, others.get? entry.1 = some other ∧
            same entry.2 other = true := by
  rw [same, Bool.and_eq_true, Bool.and_eq_true, sameEntries_iff, and_assoc]
  exact and_congr_right fun _ => and_congr_left fun _ => Entries.all_has_iff

-- A value of finite numbers is the same as itself.
theorem same_self {limits : Limits} {value : Value}
    (hfinite : ∀ n, limits.number n → n.isFinite = true) (h : value.Within limits) :
    value.same value = true := by
  induction h with
  | bool b => simp [same]
  | number n hnumber =>
      rw [same, Bool.and_eq_true]
      exact ⟨by simp, n.equals_self (hfinite n hnumber)⟩
  | text s _ => simp [same]
  | array items _ ih =>
      rw [same, sameItems_iff, List.forall₂_same]
      exact ih
  | frame type attributes hnames _ _ _ _ ih =>
      refine same_frame_iff.mpr ⟨equalsAt_text.mpr rfl, fun _ hname => hname, ?_⟩
      intro entry hentry
      refine ⟨entry.2, Entries.get?_of_mem hnames hentry, ?_⟩
      by_cases hnull : entry.2 = .null
      · rw [hnull]
        rfl
      · exact ih entry hentry hnull

end Value

end FrameNotation
