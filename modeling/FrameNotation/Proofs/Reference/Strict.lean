import FrameNotation.Proofs.Reference

namespace FrameNotation

-- A reference where it stands, with the innermost frame around it.
structure Citation where
  owner : Frame
  reference : Str

namespace Citation

def Resolves (citation : Citation) : Prop := citation.owner.Resolves citation.reference

def failure (citation : Citation) : Failure :=
  .fault (.unresolved citation.reference citation.owner.type)

end Citation

mutual

-- Every reference in a value where it stands, in the order in which one comes to them from the
-- first attribute or item to the last, and into each before the next. The owner is the frame around
-- the value.
def Value.citations (owner : Frame) : Value → List Citation
  | .text s => if isReference s then [⟨owner, s⟩] else []
  | .array items => citationsOfItems owner items
  | .frame ⟨type, attributes⟩ => citationsOfEntries ⟨type, attributes⟩ attributes
  | _ => []

def citationsOfItems (owner : Frame) : List Value → List Citation
  | [] => []
  | item :: rest => item.citations owner ++ citationsOfItems owner rest

def citationsOfEntries (owner : Frame) : List (Str × Value) → List Citation
  | [] => []
  | (_, value) :: rest => value.citations owner ++ citationsOfEntries owner rest

end

def Node.citations (frame : Frame) : List Citation := citationsOfEntries frame frame.attributes

variable {owner frame resolved : Frame} {value result : Value} {items results : List Value}
variable {entries others : Entries Value} {citation : Citation}

section Standing

theorem citationsOfItems_eq :
    citationsOfItems owner items = items.flatMap (Value.citations owner) := by
  induction items with
  | nil => rfl
  | cons item rest ih => rw [citationsOfItems, ih, List.flatMap_cons]

theorem citationsOfEntries_eq :
    citationsOfEntries owner entries = entries.flatMap fun entry => entry.2.citations owner := by
  induction entries with
  | nil => rfl
  | cons entry rest ih => rw [citationsOfEntries, ih, List.flatMap_cons]

-- All references in a value resolve where they stand exactly if those outside the frames in it
-- resolve in the owner, and those of each frame in it in that frame.
theorem Value.forall_citations_iff : (∀ citation ∈ value.citations owner, citation.Resolves) ↔
    (∀ reference ∈ value.references false, owner.Resolves reference) ∧
      value.EveryFrame Node.OwnResolve := by
  induction value using Value.induction generalizing owner with
  | text s =>
      have hframes : (text s).EveryFrame Node.OwnResolve := by simp [EveryFrame]
      rw [citations, references, and_iff_left hframes]
      split_ifs <;> simp [Citation.Resolves]
  | array items ih =>
      rw [citations, references, everyFrame_array, citationsOfItems_eq, referencesOfItems_eq,
        List.forall_mem_flatMap, List.forall_mem_flatMap, ← forall₂_and]
      exact forall₂_congr fun item hitem => ih item hitem
  | frame node _ ih =>
      have hown : node.OwnResolve ↔
          ∀ entry ∈ node.attributes, ∀ reference ∈ entry.2.references false,
            node.Resolves reference := by
        simp only [Node.OwnResolve, Node.ownReferences, List.mem_eraseDups]
        rw [referencesOfEntries_eq, List.forall_mem_flatMap]
      have hnone : ∀ reference ∈ (frame node).references false, owner.Resolves reference := by
        simp [references]
      rw [and_iff_right hnone, citations, everyFrame_frame, citationsOfEntries_eq,
        List.forall_mem_flatMap, hown, ← forall₂_and]
      exact forall₂_congr fun entry hentry => ih entry hentry
  | _ =>
      refine iff_of_true (by simp [citations]) ⟨by simp [references], ?_⟩
      intro depth outer inner hshows
      cases hshows

theorem Node.forall_citations_iff : (∀ citation ∈ frame.citations, citation.Resolves) ↔
    ∀ inner, frame.Reaches inner → inner.OwnResolve := by
  have hframe : (∀ citation ∈ (Value.frame frame).citations frame, citation.Resolves) ↔ _ :=
    Value.forall_citations_iff
  have hnone : ∀ reference ∈ (Value.frame frame).references false, frame.Resolves reference := by
    simp [Value.references]
  rw [Value.everyFrame_iff_reaches, and_iff_right hnone] at hframe
  exact hframe

end Standing

section Stopping

variable {α β γ : Type} {cited more : List Citation} {a : α} {b : β}
variable {outcome : Except Failure α} {next : Except Failure β}

-- What a strict run over the citations comes to, if it comes to the given result without being
-- strict: to this result, or to the failure of the first that does not resolve.
def StopsAtFirst (cited : List Citation) (a : α) (outcome : Except Failure α) : Prop :=
  (∀ citation ∈ cited, citation.Resolves) ∧ outcome = .ok a ∨
    ∃ before first after, cited = before ++ first :: after ∧
      (∀ citation ∈ before, citation.Resolves) ∧ ¬first.Resolves ∧ outcome = .error first.failure

namespace StopsAtFirst

theorem nothing (a : α) : StopsAtFirst [] a (.ok a) := .inl ⟨nofun, rfl⟩

theorem map (h : StopsAtFirst cited a outcome) (f : α → β) :
    StopsAtFirst cited (f a) (outcome.map f) := by
  rcases h with ⟨hall, rfl⟩ | ⟨before, first, after, hcited, hbefore, hfirst, rfl⟩
  · exact .inl ⟨hall, rfl⟩
  · exact .inr ⟨before, first, after, hcited, hbefore, hfirst, rfl⟩

-- Of two runs one after the other the second starts only where the first has not stopped.
theorem append (h : StopsAtFirst cited a outcome) (hnext : StopsAtFirst more b next)
    (f : α → β → γ) : StopsAtFirst (cited ++ more) (f a b)
      (outcome >>= fun x => next >>= fun y => pure (f x y)) := by
  rcases h with ⟨hall, rfl⟩ | ⟨before, first, after, rfl, hbefore, hfirst, rfl⟩
  · rcases hnext with ⟨hmore, rfl⟩ | ⟨before, first, after, rfl, hbefore, hfirst, rfl⟩
    · exact .inl ⟨List.forall_mem_append.mpr ⟨hall, hmore⟩, rfl⟩
    · refine .inr ⟨cited ++ before, first, after, by simp, ?_, hfirst, rfl⟩
      exact List.forall_mem_append.mpr ⟨hall, hbefore⟩
  · exact .inr ⟨before, first, after ++ more, by simp, hbefore, hfirst, rfl⟩

end StopsAtFirst

theorem replacement_stops {s : Str} (h : replacement false owner s = .ok result) :
    StopsAtFirst [⟨owner, s⟩] result (replacement true owner s) := by
  rcases replacement_eq_ok.mp h with hfound | ⟨hnone, -, rfl⟩
  · refine .inl ⟨?_, replacement_eq_ok.mpr (.inl hfound)⟩
    simpa using ⟨result, hfound⟩
  · refine .inr ⟨[], ⟨owner, s⟩, [], rfl, nofun, ?_, replacement_of_unresolved hnone⟩
    rintro ⟨found, hfound⟩
    rw [hnone] at hfound
    cases hfound

theorem substitutedItems_stops
    (hitems : ∀ item ∈ items, ∀ result, item.substituted false owner = .ok result →
      StopsAtFirst (item.citations owner) result (item.substituted true owner))
    (h : substitutedItems false owner items = .ok results) :
    StopsAtFirst (citationsOfItems owner items) results (substitutedItems true owner items) := by
  induction items generalizing results with
  | nil =>
      cases h
      exact .nothing []
  | cons item rest ih =>
      rw [List.forall_mem_cons] at hitems
      obtain ⟨value, hvalue, h⟩ := bind_eq_ok.mp h
      obtain ⟨values, hvalues, h⟩ := bind_eq_ok.mp h
      cases h
      exact (hitems.1 value hvalue).append (ih hitems.2 hvalues) (· :: ·)

theorem substitutedEntries_stops
    (hentries : ∀ entry ∈ entries, ∀ result, entry.2.substituted false owner = .ok result →
      StopsAtFirst (entry.2.citations owner) result (entry.2.substituted true owner))
    (h : substitutedEntries false owner entries = .ok others) :
    StopsAtFirst (citationsOfEntries owner entries) others
      (substitutedEntries true owner entries) := by
  induction entries generalizing others with
  | nil =>
      cases h
      exact .nothing []
  | cons entry rest ih =>
      rw [List.forall_mem_cons] at hentries
      obtain ⟨value, hvalue, h⟩ := bind_eq_ok.mp h
      obtain ⟨values, hvalues, h⟩ := bind_eq_ok.mp h
      cases h
      exact (hentries.1 value hvalue).append (ih hentries.2 hvalues) fun value values =>
        (entry.1, value) :: values

theorem Value.substituted_stops (h : value.substituted false owner = .ok result) :
    StopsAtFirst (value.citations owner) result (value.substituted true owner) := by
  induction value using Value.induction generalizing owner result with
  | text s =>
      rw [substituted] at h ⊢
      rw [citations]
      split_ifs at h ⊢
      · exact replacement_stops h
      · cases h
        exact .nothing _
  | array items ih =>
      obtain ⟨results, hresults, rfl⟩ := map_eq_ok.mp h
      exact (substitutedItems_stops (fun item hitem _ => ih item hitem) hresults).map array
  | frame node _ ih =>
      obtain ⟨others, hothers, rfl⟩ := map_eq_ok.mp h
      exact (substitutedEntries_stops (fun entry hentry _ => ih entry hentry) hothers).map
        fun entries => frame ⟨node.type, entries⟩
  | _ =>
      cases h
      exact .nothing _

end Stopping

-- Where resolution goes through, strict resolution gives the same frame exactly if each reference
-- resolves in the innermost frame around it, and otherwise fails at the first that does not.
theorem Node.resolveAll_strict (h : frame.resolveAll false = .ok resolved) :
    ((∀ inner, frame.Reaches inner → inner.OwnResolve) →
      frame.resolveAll true = .ok resolved) ∧
    (¬(∀ inner, frame.Reaches inner → inner.OwnResolve) →
      ∃ before first after fault, frame.citations = before ++ first :: after ∧
        (∀ citation ∈ before, citation.Resolves) ∧ ¬first.Resolves ∧
          frame.resolveAll true = .error (.fault fault) ∧ fault.code = .referenceNotFound ∧
            fault.context =
              ([("reference", .text first.reference), ("frame_type", first.owner.type)] :
                Entries Value)) := by
  obtain ⟨entries, hentries, rfl⟩ := map_eq_ok.mp h
  have hstops := (substitutedEntries_stops
    (fun entry _ _ hresult => Value.substituted_stops hresult) hentries).map
      fun entries => (⟨frame.type, entries⟩ : Frame)
  rw [← Node.forall_citations_iff]
  rcases hstops with ⟨hall, hstrict⟩ | ⟨before, first, after, hcited, hbefore, hfirst, hstrict⟩
  · exact ⟨fun _ => hstrict, fun hnot => absurd hall hnot⟩
  · have hmem : first ∈ frame.citations := by
      rw [citations, hcited]
      simp
    refine ⟨fun hall => absurd (hall first hmem) hfirst, fun _ => ?_⟩
    exact ⟨before, first, after, _, hcited, hbefore, hfirst, hstrict, rfl, rfl⟩

-- The tea of the tray is none of the break in it, and the milk that comes after that is nowhere.
def teaBreak : Frame := ⟨.text "event", [("agent", .text "$tea")]⟩

def teaTray : Frame := ⟨.text "query", [("tea", .text "mint"),
  ("cups", .array [.text "$tea", .array [.frame teaBreak]]), ("method", .text "$milk")]⟩

def teaTrayResolved : Frame := ⟨.text "query", [("tea", .text "mint"),
  ("cups", .array [.text "mint", .array [.frame teaBreak]]), ("method", .text "$milk")]⟩

theorem Node.resolveAll_strict_teaTray : teaTray.resolveAll false = .ok teaTrayResolved ∧
    ¬(∀ inner, teaTray.Reaches inner → inner.OwnResolve) ∧
    ∃ before first after fault, teaTray.citations = before ++ first :: after ∧
      (∀ citation ∈ before, citation.Resolves) ∧ ¬first.Resolves ∧
        teaTray.resolveAll true = .error (.fault fault) ∧ fault.code = .referenceNotFound ∧
          fault.context =
            ([("reference", .text first.reference), ("frame_type", first.owner.type)] :
              Entries Value) := by
  have htea : pathOf "$tea" = .ok (some [.key "tea"]) := by decide +kernel
  have hmilk : pathOf "$milk" = .ok (some [.key "milk"]) := by decide +kernel
  have hresolved : teaTray.resolveAll false = .ok teaTrayResolved := by
    simp only [resolveAll, teaTray, teaBreak, substitutedEntries, Value.substituted,
      substitutedItems, replacement, resolve, htea, hmilk]
    rfl
  have hnot : ¬(∀ inner, teaTray.Reaches inner → inner.OwnResolve) := by
    rw [← Node.forall_citations_iff]
    intro hall
    obtain ⟨value, hvalue⟩ := hall ⟨teaBreak, "$tea"⟩ (.tail _ (.head _))
    simp only [resolve, htea] at hvalue
    cases hvalue
  exact ⟨hresolved, hnot, (resolveAll_strict hresolved).2 hnot⟩

end FrameNotation
