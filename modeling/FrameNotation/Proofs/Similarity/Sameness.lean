import FrameNotation.Proofs.Frame.Sameness
import FrameNotation.Proofs.Similarity.Integrity

namespace FrameNotation

variable {a b again other : Value} {entries others : Entries Value}

-- Two sides share the same scores with a third one, if what they have under each name does.
theorem sharedScores_perm_of_matches (hentries : (Entries.names entries).Nodup)
    (hothers : (Entries.names others).Nodup)
    (h : entries.Matches (fun x y => ∀ c, x.similarity c = y.similarity c) others)
    (third : Entries Value) : (sharedScores entries third).Perm (sharedScores others third) := by
  have hleft : (sharedScores entries third).Nodup := (nodup_sharedScores hentries).of_map _
  have hright : (sharedScores others third).Nodup := (nodup_sharedScores hothers).of_map _
  refine (List.perm_ext_iff_of_nodup hleft hright).mpr fun score => ?_
  rw [mem_sharedScores, mem_sharedScores]
  constructor
  · rintro ⟨entry, hentry, compared, hcompared, rfl⟩
    obtain ⟨found, hfound, hsame⟩ := h.2 entry hentry
    exact ⟨_, Entries.mem_of_get? hfound, compared, hcompared, by rw [hsame]⟩
  · rintro ⟨entry, hentry, compared, hcompared, rfl⟩
    obtain ⟨source, hsource, hname, hsame⟩ := h.exists_entry hothers hentry
    exact ⟨source, hsource, compared, hname ▸ hcompared, by rw [hsame, hname]⟩

namespace Value

-- Two values that are the same are the same as the same others.
theorem same_congr (ha : a.Unrepeated) (hb : b.Unrepeated) (h : a.same b = true) (c : Value) :
    a.same c = b.same c :=
  Bool.eq_iff_iff.mpr ⟨same_trans (same_symm ha hb h), same_trans h⟩

theorem equalsType_congr (ha : a.Unrepeated) (hb : b.Unrepeated) (h : a.equalsType b = true)
    (c : Value) : a.equalsType c = b.equalsType c :=
  Bool.eq_iff_iff.mpr ⟨equalsAt_trans (equalsAt_symm ha hb h), equalsAt_trans h⟩

-- The order of attributes does not matter on either side.
theorem Reordered.same_iff (ha : a.Unrepeated) (hb : b.Unrepeated) (hagain : a.Reordered again)
    (hother : b.Reordered other) : again.same other = a.same b :=
  calc again.same other
    _ = a.same other := (hagain.same_eq other).symm
    _ = other.same a := same_comm ha (hother.unrepeated hb)
    _ = b.same a := (hother.same_eq a).symm
    _ = a.same b := same_comm hb ha

-- Where scores do not go into a value, sameness decides alone.
theorem similarity_congr_of_apart {c : Value} (hsame : a.same c = b.same c)
    (htext : ∀ s, a ≠ .text s ∧ b ≠ .text s) (hframe : ∀ node, a ≠ .frame node ∧ b ≠ .frame node) :
    a.similarity c = b.similarity c := by
  have ha : a.similarity c = if a.same c then 1.0 else 0.0 :=
    similarity_eq_same (fun s _ h => (htext s).1 h.1) fun node _ h => (hframe node).1 h.1
  have hb : b.similarity c = if b.same c then 1.0 else 0.0 :=
    similarity_eq_same (fun s _ h => (htext s).2 h.1) fun node _ h => (hframe node).2 h.1
  rw [ha, hb, hsame]

-- Frames are as similar as each other to anything, if what they have under each name is, and if
-- neither their types nor the frames themselves are told apart.
theorem similarity_frame_congr {type otherType : Value} (hentries : (Entries.names entries).Nodup)
    (hothers : (Entries.names others).Nodup)
    (htypes : ∀ c : Value, type.equalsType c = otherType.equalsType c)
    (hmatches : entries.Matches (fun x y => ∀ c, x.similarity c = y.similarity c) others)
    (hsame : ∀ c, (Value.frame ⟨type, entries⟩).same c = (Value.frame ⟨otherType, others⟩).same c)
    (c : Value) : (Value.frame ⟨type, entries⟩).similarity c =
      (Value.frame ⟨otherType, others⟩).similarity c := by
  cases c with
  | frame third =>
      rw [similarity_frame, similarity_frame, Node.similarity_eq, Node.similarity_eq, hsame, htypes,
        hmatches.length_eq hentries hothers,
        blendScores_perm (sharedScores_perm_of_matches hentries hothers hmatches _)
          (nodup_sharedScores hentries)]
  | _ => simp [similarity]

-- Two values that are the same are as similar as each other to anything. By induction on the first:
-- what the two have under each name is the same, so they share the same scores with a third one.
theorem similarity_congr (ha : a.Unrepeated) (hb : b.Unrepeated) (h : a.same b = true)
    (c : Value) : a.similarity c = b.similarity c := by
  have hsame := same_congr ha hb h
  rw [same_iff] at h
  induction ha generalizing b c with
  | text s =>
      cases h with
      | text => rfl
  | frame type attributes hnames _ htype hattributes _ ih =>
      cases h with
      | frame htypes hmatches =>
          cases hb with
          | frame _ _ hothers _ hotherType hvalues =>
              refine similarity_frame_congr hnames hothers (equalsType_congr htype hotherType htypes)
                ⟨hmatches.1, fun entry hentry => ?_⟩ hsame c
              obtain ⟨found, hfound, hequal⟩ := hmatches.2 entry hentry
              have hvalue := hvalues _ (Entries.mem_of_get? hfound)
              have hcongr := same_congr (hattributes entry hentry) hvalue hequal
              exact ⟨found, hfound, fun c => ih entry hentry hvalue (same_iff.mp hequal) c hcongr⟩
  | _ =>
      cases h
      all_goals exact similarity_congr_of_apart (hsame c) (by simp) (by simp)

end Value

theorem Node.similarity_of_same {a b : Frame} (h : a.same b = true) : a.similarity b = 1.0 := by
  have hsame : (Value.frame a).same (.frame b) = true := h
  rw [similarity_eq, (Value.same_frame.mp hsame).1, if_neg (by simp), if_pos hsame]

-- A value of a frame without a double that is no number.
def DefiniteValue : Type := {value : Value // value.Unrepeated ∧ value.Definite}

-- Sameness is an equivalence of values, finer than equality, that does not see the order of
-- attributes. Frames that are the same are fully similar, and as similar as each other to any
-- third one.
theorem same_equivalence :
    (Equivalence fun a b : DefiniteValue => a.1.same b.1 = true) ∧
      (∀ a b again other : Value, a.Unrepeated → b.Unrepeated → a.Reordered again →
        b.Reordered other → again.same other = a.same b) ∧
      (∀ a b : Value, a.same b = true → a.equals b = true) ∧
      ∀ a b : Frame, a.Unrepeated → b.Unrepeated → a.same b = true →
        a.similarity b = 1.0 ∧ ∀ c : Frame, a.similarity c = b.similarity c := by
  refine ⟨⟨?refl, ?symm, ?trans⟩, fun a b again other => Value.Reordered.same_iff,
    fun a b => Value.equalsAt_of_same,
    fun a b ha hb h => ⟨Node.similarity_of_same h, fun c => ?_⟩⟩
  case refl => exact fun a => Value.same_of_definite a.2.1 a.2.2
  case symm => exact fun {a b} h => Value.same_symm a.2.1 b.2.1 h
  case trans => exact fun h hother => Value.same_trans h hother
  · rw [← Value.similarity_frame, ← Value.similarity_frame, Value.similarity_congr ha hb h]

-- The same state twice, with its attributes in another order and another zero, and a state like it.
def chilledTea : Frame :=
  ⟨.text "state", [("entity", .array [.text "tea", .bool true]), ("value", .number (.float 0.0))]⟩

def teaChilled : Frame :=
  ⟨.text "state", [("value", .number (.float (-0.0))),
    ("entity", .array [.text "tea", .bool true])]⟩

def chilledMilk : Frame :=
  ⟨.text "state", [("entity", .array [.text "milk", .bool true]), ("value", .number (.float 0.0))]⟩

theorem same_equivalence_chilled : chilledTea.Unrepeated ∧ teaChilled.Unrepeated ∧
    chilledTea.same teaChilled = true ∧
      chilledTea.similarity teaChilled = 1.0 ∧
        chilledTea.similarity chilledMilk = teaChilled.similarity chilledMilk := by
  have hentity (name : Str) : (Value.array [.text name, .bool true]).Unrepeated := by
    refine .array _ ?_
    simp only [List.forall_mem_cons]
    exact ⟨.text _, .bool _, by simp⟩
  have htea : chilledTea.Unrepeated := by
    refine .frame _ _ (by decide) (by decide) (.text _) ?_
    simp only [List.forall_mem_cons]
    exact ⟨hentity _, .number _, by simp⟩
  have hchilled : teaChilled.Unrepeated := by
    refine .frame _ _ (by decide) (by decide) (.text _) ?_
    simp only [List.forall_mem_cons]
    exact ⟨.number _, hentity _, by simp⟩
  have hsame : chilledTea.same teaChilled = true := by decide +kernel
  obtain ⟨-, -, -, hsimilarity⟩ := same_equivalence
  obtain ⟨hfull, hthird⟩ := hsimilarity chilledTea teaChilled htea hchilled hsame
  exact ⟨htea, hchilled, hsame, hfull, hthird chilledMilk⟩

end FrameNotation
