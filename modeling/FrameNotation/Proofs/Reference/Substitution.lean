import FrameNotation.Proofs.Frame.Entries
import FrameNotation.Proofs.Success
import FrameNotation.Reference.Resolve

namespace FrameNotation

variable {strict : Bool} {reference s : Str} {node owner resolved : Frame} {result : Value}
variable {items results : List Value} {entries others : Entries Value}

theorem replacement_eq_ok : replacement strict owner reference = .ok result ↔
    resolve reference (.frame owner) = .ok (some result) ∨
      resolve reference (.frame owner) = .ok none ∧ strict = false ∧ result = .text reference := by
  rw [replacement]
  cases hfound : resolve reference (.frame owner) with
  | error mishap =>
      refine iff_of_false nofun ?_
      rintro (h | ⟨h, -⟩) <;> cases h
  | ok found =>
      rw [Failure.ofMishap, mapError_ok, ok_bind]
      cases found with
      | some value => simp
      | none => cases strict <;> simp [eq_comm]

theorem substitutedItems_eq_ok : substitutedItems strict owner items = .ok results ↔
    List.Forall₂ (fun item result => item.substituted strict owner = .ok result) items results := by
  induction items generalizing results with
  | nil => simp [substitutedItems, eq_comm]
  | cons item rest ih =>
      rw [substitutedItems, List.forall₂_cons_left_iff, bind_cons_eq_ok]
      simp only [ih]

theorem substitutedEntries_eq_ok : substitutedEntries strict owner entries = .ok others ↔
    Entries.Aligned (fun content result => content.substituted strict owner = .ok result)
      entries others := by
  rw [Entries.Aligned]
  induction entries generalizing others with
  | nil => simp [substitutedEntries, eq_comm]
  | cons entry rest ih =>
      rw [substitutedEntries, List.forall₂_cons_left_iff, bind_cons_eq_ok]
      simp only [ih]
      constructor
      · rintro ⟨first, others, hfirst, hothers, rfl⟩
        exact ⟨(entry.1, first), others, ⟨rfl, hfirst⟩, hothers, rfl⟩
      · rintro ⟨⟨_, first⟩, others, ⟨rfl, hfirst⟩, hothers, rfl⟩
        exact ⟨first, others, hfirst, hothers, rfl⟩

theorem Node.resolveAll_eq_ok : node.resolveAll strict = .ok resolved ↔
    resolved.type = node.type ∧ Entries.Aligned
      (fun content result => content.substituted strict node = .ok result)
      node.attributes resolved.attributes := by
  rw [resolveAll, map_eq_ok]
  simp only [substitutedEntries_eq_ok]
  constructor
  · rintro ⟨entries, hentries, rfl⟩
    exact ⟨rfl, hentries⟩
  · rintro ⟨htype, hentries⟩
    refine ⟨resolved.attributes, hentries, ?_⟩
    rw [← htype]

namespace Value

theorem substituted_text : (text s).substituted strict owner = .ok result ↔
    if isReference s then replacement strict owner s = .ok result else result = .text s := by
  rw [substituted]
  split_ifs <;> simp [eq_comm]

theorem substituted_array : (array items).substituted strict owner = .ok result ↔
    ∃ results, result = .array results ∧
      List.Forall₂ (fun item result => item.substituted strict owner = .ok result) items results := by
  rw [substituted, map_eq_ok]
  simp only [substitutedItems_eq_ok]
  constructor
  · rintro ⟨results, hresults, rfl⟩
    exact ⟨results, rfl, hresults⟩
  · rintro ⟨results, rfl, hresults⟩
    exact ⟨results, hresults, rfl⟩

-- A frame is its own owner, whatever stands around it.
theorem substituted_frame : (frame node).substituted strict owner = .ok result ↔
    ∃ resolved, result = .frame resolved ∧ node.resolveAll strict = .ok resolved := by
  rw [substituted, Node.resolveAll, map_eq_ok]
  simp only [map_eq_ok]
  constructor
  · rintro ⟨entries, hentries, rfl⟩
    exact ⟨_, rfl, entries, hentries, rfl⟩
  · rintro ⟨_, rfl, entries, hentries, rfl⟩
    exact ⟨entries, hentries, rfl⟩

end Value

end FrameNotation
