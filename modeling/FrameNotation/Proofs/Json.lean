import FrameNotation.Json.Canonical
import FrameNotation.Proofs.Frame.Entries
import FrameNotation.Proofs.Success

namespace FrameNotation.Json

variable {items : List Value} {entries others : Entries Value} {parts : List (List CodePoint)}

theorem canonicalChars_int {i : Int} :
    canonicalChars (.number (.int i)) = Number.intChars i := by
  rw [canonicalChars, number, if_pos (show (Number.int i).isFinite = true from rfl), Number.display]
  cases Number.intChars i with
  | ok digits => rw [map_ok, map_ok, Str.toList_ofList]
  | error mishap => rfl

theorem canonicalEntries_eq (entries : Entries Value) :
    canonicalEntries entries = entries.map fun entry => (entry.1, canonicalChars entry.2) := by
  induction entries with
  | nil => rfl
  | cons entry rest ih => rw [canonicalEntries, ih, List.map_cons]

theorem names_canonicalEntries (entries : Entries Value) :
    Entries.names (canonicalEntries entries) = Entries.names entries := by
  rw [canonicalEntries_eq, Entries.names, List.map_map]
  rfl

theorem sorted_canonicalEntries (entries : Entries Value) :
    Entries.sorted (canonicalEntries entries) = canonicalEntries (Entries.sorted entries) := by
  rw [canonicalEntries_eq, canonicalEntries_eq, Entries.sorted_map]

-- Members that stand in order are written in this order.
theorem canonicalChars_record {entries : Entries Value}
    (h : (Entries.names entries).Pairwise fun a b => (!decide (b < a)) = true) :
    canonicalChars (.record entries) = (do
      let parts ← sequence (canonicalEntries entries)
      return char '\x7b' :: commaJoined parts ++ [char '\x7d']) := by
  have hnames : (Entries.names (canonicalEntries entries)).Pairwise
      fun a b => (!decide (b < a)) = true := by
    rw [names_canonicalEntries]
    exact h
  rw [canonicalChars, Entries.sorted_eq_self hnames]

-- Members in any order are written as the sorted ones.
theorem canonicalChars_perm (h : entries.Perm others) (hnames : (Entries.names entries).Nodup) :
    canonicalChars (.record entries) = canonicalChars (.record others) := by
  rw [canonicalChars, canonicalChars, sorted_canonicalEntries, sorted_canonicalEntries,
    Entries.sorted_perm h hnames]

theorem canonicalItems_congr (front back : List Value) {value other : Value}
    (h : canonicalChars value = canonicalChars other) :
    canonicalItems (front ++ value :: back) = canonicalItems (front ++ other :: back) := by
  induction front with
  | nil => rw [List.nil_append, List.nil_append, canonicalItems, canonicalItems, h]
  | cons item rest ih =>
      rw [List.cons_append, List.cons_append, canonicalItems, canonicalItems, ih]

theorem canonicalItems_eq_ok : canonicalItems items = .ok parts ↔
    List.Forall₂ (fun item part => canonicalChars item = .ok part) items parts := by
  induction items generalizing parts with
  | nil => simp [canonicalItems, eq_comm]
  | cons item rest ih =>
      rw [canonicalItems, List.forall₂_cons_left_iff, bind_cons_eq_ok]
      simp only [ih]

-- A member is written as its name and its value.
def IsMember (entry : Str × Value) (part : List CodePoint) : Prop :=
  ∃ text, canonicalChars entry.2 = .ok text ∧ part = string entry.1 ++ char ':' :: text

theorem sequence_eq_ok : sequence (canonicalEntries entries) = .ok parts ↔
    List.Forall₂ IsMember entries parts := by
  induction entries generalizing parts with
  | nil => simp [canonicalEntries, sequence, eq_comm]
  | cons entry rest ih =>
      rw [canonicalEntries, sequence, List.forall₂_cons_left_iff, bind_cons_eq_ok]
      simp only [ih]
      constructor
      · rintro ⟨text, others, htext, hothers, rfl⟩
        exact ⟨_, others, ⟨text, htext, rfl⟩, hothers, rfl⟩
      · rintro ⟨_, others, ⟨text, htext, rfl⟩, hothers, rfl⟩
        exact ⟨text, others, htext, hothers, rfl⟩

end FrameNotation.Json
