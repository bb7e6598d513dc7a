import FrameNotation.Proofs.Frame.Nested
import FrameNotation.Proofs.Frame.Reordered
import FrameNotation.Proofs.Similarity.Texts
import FrameNotation.Similarity.Integrity

namespace FrameNotation

variable {a b : Value} {entries others : Entries Value}

theorem sharedScores_eq (entries others : Entries Value) : sharedScores entries others =
    entries.filterMap fun entry =>
      (others.get? entry.1).map fun other => (entry.1, entry.2.similarity other) := by
  induction entries with
  | nil => rfl
  | cons entry rest ih =>
      rw [sharedScores, List.filterMap_cons, ih]
      cases others.get? entry.1 <;> rfl

theorem mem_sharedScores {score : Str × Float} : score ∈ sharedScores entries others ↔
    ∃ entry ∈ entries, ∃ other, others.get? entry.1 = some other ∧
      (entry.1, entry.2.similarity other) = score := by
  rw [sharedScores_eq, List.mem_filterMap]
  simp only [Option.map_eq_some_iff]

theorem nodup_sharedScores (h : (Entries.names entries).Nodup) :
    (Entries.names (sharedScores entries others)).Nodup := by
  have hsublist : (Entries.names (sharedScores entries others)).Sublist (Entries.names entries) := by
    induction entries with
    | nil => exact .slnil
    | cons entry rest ih =>
        rw [Entries.names_cons, List.nodup_cons] at h
        rw [sharedScores]
        cases others.get? entry.1 with
        | none => exact (ih h.2).cons _
        | some other => exact (ih h.2).cons_cons _
  exact h.sublist hsublist

-- Scores count by their names, in whatever order they are found.
theorem blendScores_perm {leftSize rightSize : Nat} {scores found : Entries Float}
    (h : scores.Perm found) (hnames : (Entries.names scores).Nodup) :
    blendScores leftSize rightSize scores = blendScores leftSize rightSize found := by
  simp only [blendScores]
  rw [Entries.sorted_perm h hnames, h.length_eq, h.isEmpty_eq]

theorem blendScores_comm (leftSize rightSize : Nat) (scores : Entries Float) :
    blendScores leftSize rightSize scores = blendScores rightSize leftSize scores := by
  simp only [blendScores, Nat.add_comm leftSize]

-- Two sides share the same scores with each other, if values that they share do.
theorem sharedScores_perm (hentries : (Entries.names entries).Nodup)
    (hothers : (Entries.names others).Nodup)
    (h : ∀ entry ∈ entries, ∀ other ∈ others,
      entry.2.similarity other.2 = other.2.similarity entry.2) :
    (sharedScores entries others).Perm (sharedScores others entries) := by
  have hnodup {left right : Entries Value} (hleft : (Entries.names left).Nodup) :
      (sharedScores left right).Nodup := (nodup_sharedScores hleft).of_map _
  refine (List.perm_ext_iff_of_nodup (hnodup hentries) (hnodup hothers)).mpr fun score => ?_
  have hback {left right : Entries Value} (hleft : (Entries.names left).Nodup)
      (hsame : ∀ entry ∈ left, ∀ other ∈ right,
        entry.2.similarity other.2 = other.2.similarity entry.2)
      (hscore : score ∈ sharedScores left right) : score ∈ sharedScores right left := by
    obtain ⟨entry, hentry, other, hother, rfl⟩ := mem_sharedScores.mp hscore
    have hmem := Entries.mem_of_get? hother
    refine mem_sharedScores.mpr ⟨(entry.1, other), hmem, entry.2, ?_, ?_⟩
    · exact Entries.get?_of_mem hleft hentry
    · rw [hsame entry hentry _ hmem]
  refine ⟨hback hentries h, hback hothers fun other hother entry hentry => ?_⟩
  exact (h entry hentry other hother).symm

theorem Node.similarity_eq (frame other : Frame) : frame.similarity other =
    if !frame.type.equalsType other.type then 0.0
    else if (Value.frame frame).same (.frame other) then 1.0
    else blendScores frame.attributes.length other.attributes.length
      (sharedScores frame.attributes other.attributes) := by
  cases frame
  rw [Node.similarity]

namespace Value

theorem similarity_frame (node other : Frame) :
    (frame node).similarity (.frame other) = node.similarity other := by
  rw [similarity]

theorem similarity_text (s t : Str) :
    (text s).similarity (.text t) = stringSimilarity s t := by
  rw [similarity]

-- Other than texts and frames, values are alike or they are not.
theorem similarity_eq_same (htext : ∀ s t, ¬(a = .text s ∧ b = .text t))
    (hframe : ∀ node other, ¬(a = .frame node ∧ b = .frame other)) :
    a.similarity b = if a.same b then 1.0 else 0.0 := by
  cases a with
  | text s =>
      cases b with
      | text t => exact absurd ⟨rfl, rfl⟩ (htext s t)
      | _ => simp [similarity, same]
  | frame node =>
      cases b with
      | frame other => exact absurd ⟨rfl, rfl⟩ (hframe node other)
      | _ => simp [similarity, same]
  | _ => rw [similarity] <;> simp

theorem similarity_comm_of_apart (ha : a.Unrepeated) (hb : b.Unrepeated)
    (htext : ∀ s t, ¬(a = .text s ∧ b = .text t))
    (hframe : ∀ node other, ¬(a = .frame node ∧ b = .frame other)) :
    a.similarity b = b.similarity a := by
  rw [similarity_eq_same htext hframe, same_comm ha hb, similarity_eq_same]
  · exact fun s t h => htext t s h.symm
  · exact fun node other h => hframe other node h.symm

-- Either side may come first.
theorem similarity_comm (ha : a.Unrepeated) (hb : b.Unrepeated) :
    a.similarity b = b.similarity a := by
  induction a using Value.induction generalizing b with
  | text s =>
      cases b with
      | text t => rw [similarity_text, similarity_text, stringSimilarity_comm]
      | _ => exact similarity_comm_of_apart ha hb (by simp) (by simp)
  | frame node _ ih =>
      cases b with
      | frame other =>
          have hsame := same_comm ha hb
          cases ha with
          | frame type attributes hnames _ htype hattributes =>
              cases hb with
              | frame otherType others hothers _ hotherType hvalues =>
                  have hshared : (sharedScores attributes others).Perm
                      (sharedScores others attributes) :=
                    sharedScores_perm hnames hothers fun entry hentry other hother =>
                      ih entry hentry (hattributes entry hentry) (hvalues other hother)
                  rw [similarity_frame, similarity_frame, Node.similarity_eq, Node.similarity_eq,
                    equalsType_comm htype hotherType, hsame, blendScores_comm,
                    blendScores_perm hshared (nodup_sharedScores hnames)]
      | _ => exact similarity_comm_of_apart ha hb (by simp) (by simp)
  | _ => exact similarity_comm_of_apart ha hb (by simp) (by simp)

-- The order of attributes does not matter for similarity.
theorem Reordered.similarity_eq (h : a.Reordered b) (ha : a.Unrepeated) (c : Value) :
    a.similarity c = b.similarity c := by
  induction h generalizing c with
  | refl value => rfl
  | trans hfirst _ ihfirst ihsecond => rw [ihfirst ha, ihsecond (hfirst.unrepeated ha)]
  | @order type entries others hperm =>
      cases c with
      | frame other =>
          have hshared : (sharedScores entries other.attributes).Perm
              (sharedScores others other.attributes) := by
            rw [sharedScores_eq, sharedScores_eq]
            exact hperm.filterMap _
          rw [similarity_frame, similarity_frame, Node.similarity_eq, Node.similarity_eq,
            (Reordered.order type hperm).same_eq, hperm.length_eq,
            blendScores_perm hshared (nodup_sharedScores ha.nodup)]
      | _ => simp [similarity]
  | @role type front back name value changed hvalue ih =>
      cases c with
      | frame other =>
          have hshared : sharedScores (front ++ (name, value) :: back) other.attributes =
              sharedScores (front ++ (name, changed) :: back) other.attributes := by
            simp only [sharedScores_eq, List.filterMap_append, List.filterMap_cons, ih ha.of_role]
          rw [similarity_frame, similarity_frame, Node.similarity_eq, Node.similarity_eq,
            (Reordered.role type front back name hvalue).same_eq, hshared]
          simp only [List.length_append, List.length_cons]
      | _ => simp [similarity]
  | item front back hvalue _ =>
      rw [similarity_eq_same (by simp) (by simp), similarity_eq_same (by simp) (by simp),
        (Reordered.item front back hvalue).same_eq]

end Value

end FrameNotation
