import FrameNotation.Proofs.Frame.Plain
import FrameNotation.Proofs.Json
import FrameNotation.Proofs.Similarity.Frames

namespace FrameNotation

variable {a b : Value} {frame again source processed : Frame}

-- The members of the JSON object that stands for a frame, before they are sorted.
def members (type : Value) (attributes : Entries Value) :
    Entries (Except Mishap (List CodePoint)) :=
  (discriminant, Json.canonicalChars type) ::
    attributes.map fun entry => (entry.1, Json.canonicalChars entry.2.thaw)

theorem names_members (type : Value) (attributes : Entries Value) :
    Entries.names (members type attributes) = discriminant :: Entries.names attributes := by
  rw [members, Entries.names_cons, Entries.names, List.map_map]
  rfl

theorem canonicalChars_thaw_frame (type : Value) (attributes : Entries Value) :
    Json.canonicalChars (Value.frame ⟨type, attributes⟩).thaw = (do
      let parts ← Json.sequence (Entries.sorted (members type attributes))
      return char '\x7b' :: Json.commaJoined parts ++ [char '\x7d']) := by
  have hentries : Json.canonicalEntries (Value.thawEntries attributes) =
      attributes.map fun entry => (entry.1, Json.canonicalChars entry.2.thaw) := by
    rw [Value.thawEntries_eq, Json.canonicalEntries_eq, List.map_map]
    rfl
  rw [Value.thaw, Json.canonicalChars, Json.canonicalEntries, hentries, members]

namespace Value

-- The JSON of a value sorts its names, so their order does not matter.
theorem Reordered.canonicalChars_thaw (h : a.Reordered b) (ha : a.Unrepeated) :
    Json.canonicalChars a.thaw = Json.canonicalChars b.thaw := by
  induction h with
  | refl value => rfl
  | trans hfirst _ ihfirst ihsecond => rw [ihfirst ha, ihsecond (hfirst.unrepeated ha)]
  | @order type entries others hperm =>
      cases ha with
      | frame _ _ hnames hdiscriminant =>
          have hmembers : (members type entries).Perm (members type others) :=
            (hperm.map _).cons _
          have hnodup : (Entries.names (members type entries)).Nodup := by
            rw [names_members]
            exact List.nodup_cons.mpr ⟨hdiscriminant, hnames⟩
          rw [canonicalChars_thaw_frame, canonicalChars_thaw_frame,
            Entries.sorted_perm hmembers hnodup]
  | @role type front back name value changed _ ih =>
      have hmembers : members type (front ++ (name, value) :: back) =
          members type (front ++ (name, changed) :: back) := by
        simp only [members, List.map_append, List.map_cons, ih ha.of_role]
      rw [canonicalChars_thaw_frame, canonicalChars_thaw_frame, hmembers]
  | item front back _ ih =>
      rw [thaw, thaw, thawItems_eq, thawItems_eq, List.map_append, List.map_append, List.map_cons,
        List.map_cons, Json.canonicalChars, Json.canonicalChars,
        Json.canonicalItems_congr _ _ (ih ha.of_item)]

theorem Reordered.text?_eq (h : a.Reordered b) : a.text? = b.text? := by
  induction h with
  | trans _ _ ihfirst ihsecond => rw [ihfirst, ihsecond]
  | _ => rfl

-- What a change of order leaves of a frame: its type, and the texts under its roles.
theorem Reordered.exists_frame (h : a.Reordered b) (ha : a.Unrepeated) {node : Frame}
    (hnode : a = .frame node) : ∃ other, b = .frame other ∧ other.type = node.type ∧
      ∀ role, (other.getOrNull role).text? = (node.getOrNull role).text? := by
  induction h generalizing node with
  | refl value => exact ⟨node, hnode, rfl, fun _ => rfl⟩
  | trans hfirst _ ihfirst ihsecond =>
      obtain ⟨middle, hmiddle, htype, htexts⟩ := ihfirst ha hnode
      obtain ⟨other, hother, hlater, hothers⟩ := ihsecond (hfirst.unrepeated ha) hmiddle
      exact ⟨other, hother, hlater.trans htype, fun role => (hothers role).trans (htexts role)⟩
  | @order type entries others hperm =>
      cases hnode
      refine ⟨_, rfl, rfl, fun role => ?_⟩
      simp only [Node.getOrNull]
      rw [Entries.get?_perm hperm ha.nodup]
  | @role type front back name value changed hvalue _ =>
      cases hnode
      refine ⟨_, rfl, rfl, fun role => ?_⟩
      simp only [Node.getOrNull]
      rw [Entries.get?_append, Entries.get?_append, Entries.get?_cons, Entries.get?_cons]
      cases Entries.get? front role with
      | some found => rfl
      | none =>
          by_cases hrole : role = name
          · rw [if_pos hrole, if_pos hrole]
            exact hvalue.text?_eq.symm
          · rw [if_neg hrole, if_neg hrole]
  | item => cases hnode

end Value

namespace Node

def Unrepeated (frame : Frame) : Prop := (Value.frame frame).Unrepeated

-- The frame with attributes in another order, its own or those of frames in it.
def Reordered (frame again : Frame) : Prop := (Value.frame frame).Reordered (.frame again)

theorem Reordered.jsonChars_eq (h : frame.Reordered again) (hframe : frame.Unrepeated) :
    frame.jsonChars = again.jsonChars := by
  rw [jsonChars, jsonChars, toRecord_eq_thaw, toRecord_eq_thaw]
  exact h.canonicalChars_thaw hframe

theorem Reordered.entities_eq (h : frame.Reordered again) (hframe : frame.Unrepeated) :
    frame.entities = again.entities := by
  rw [entities, entities, h.jsonChars_eq hframe]

theorem Reordered.type_eq (h : frame.Reordered again) (hframe : frame.Unrepeated) :
    frame.type = again.type := by
  obtain ⟨_, hagain, htype, -⟩ := h.exists_frame hframe rfl
  cases hagain
  exact htype.symm

theorem Reordered.concepts_eq (h : frame.Reordered again) (hframe : frame.Unrepeated) :
    frame.concepts = again.concepts := by
  obtain ⟨_, hagain, -, htexts⟩ := h.exists_frame hframe rfl
  cases hagain
  simp only [concepts, htexts, h.jsonChars_eq hframe]

-- Similarity is the same from both sides, and it is the same for the same attributes in any order at
-- any depth. So is integrity.
theorem similarity_comm_and_reordered (hsource : source.Unrepeated)
    (hprocessed : processed.Unrepeated) :
    source.similarity processed = processed.similarity source ∧
      ∀ again other, source.Reordered again → processed.Reordered other →
        again.similarity other = source.similarity processed ∧
          integrity again other = integrity source processed := by
  have hcomm {frame other : Frame} (hframe : frame.Unrepeated) (hother : other.Unrepeated) :
      frame.similarity other = other.similarity frame := by
    rw [← Value.similarity_frame, ← Value.similarity_frame, Value.similarity_comm hframe hother]
  have hmoved {frame again : Frame} (hframe : frame.Unrepeated) (h : frame.Reordered again)
      (other : Frame) : frame.similarity other = again.similarity other := by
    rw [← Value.similarity_frame, ← Value.similarity_frame, Value.Reordered.similarity_eq h hframe]
  refine ⟨hcomm hsource hprocessed, fun again other hagain hother => ?_⟩
  have hsimilarity : again.similarity other = source.similarity processed :=
    calc again.similarity other
      _ = source.similarity other := (hmoved hsource hagain other).symm
      _ = other.similarity source := hcomm hsource (Value.Reordered.unrepeated hother hprocessed)
      _ = processed.similarity source := (hmoved hprocessed hother source).symm
      _ = source.similarity processed := (hcomm hsource hprocessed).symm
  refine ⟨hsimilarity, ?_⟩
  simp only [integrity, measureIntegrity, hsimilarity, hagain.type_eq hsource,
    hother.type_eq hprocessed, hagain.entities_eq hsource, hother.entities_eq hprocessed,
    hagain.concepts_eq hsource, hother.concepts_eq hprocessed]

def drink (attributes : Entries Value) : Value := .frame ⟨.text "entity", attributes⟩

-- An event with a frame in it, and what is left of it after some change.
def servedTea : Frame :=
  ⟨.text "event", [("action", .text "serve tea"),
    ("target", drink [("name", .text "tea"), ("hot", .bool true)])]⟩

def servedMilk : Frame :=
  ⟨.text "event", [("action", .text "serving tea"), ("target", drink [("name", .text "milk")])]⟩

-- The same two events with their attributes in the opposite order.
def teaServed : Frame :=
  ⟨.text "event", [("target", drink [("hot", .bool true), ("name", .text "tea")]),
    ("action", .text "serve tea")]⟩

def milkServed : Frame :=
  ⟨.text "event", [("target", drink [("name", .text "milk")]), ("action", .text "serving tea")]⟩

theorem similarity_comm_and_reordered_served : servedTea.Unrepeated ∧ servedMilk.Unrepeated ∧
    servedTea.Reordered teaServed ∧ servedMilk.Reordered milkServed ∧
      servedTea.similarity servedMilk = servedMilk.similarity servedTea ∧
        teaServed.similarity milkServed = servedTea.similarity servedMilk ∧
          integrity teaServed milkServed = integrity servedTea servedMilk := by
  have htea : servedTea.Unrepeated := by
    refine .frame _ _ (by decide) (by decide) (.text _) ?_
    simp only [List.forall_mem_cons]
    refine ⟨.text _, .frame _ _ (by decide) (by decide) (.text _) ?_, by simp⟩
    simp only [List.forall_mem_cons]
    exact ⟨.text _, .bool _, by simp⟩
  have hmilk : servedMilk.Unrepeated := by
    refine .frame _ _ (by decide) (by decide) (.text _) ?_
    simp only [List.forall_mem_cons]
    refine ⟨.text _, .frame _ _ (by decide) (by decide) (.text _) ?_, by simp⟩
    simp only [List.forall_mem_cons]
    exact ⟨.text _, by simp⟩
  have hserved : servedTea.Reordered teaServed :=
    .trans (.role _ [("action", .text "serve tea")] [] "target" (.order _ (.swap _ _ _)))
      (.order _ (.swap _ _ _))
  have hdrunk : servedMilk.Reordered milkServed := .order _ (.swap _ _ _)
  obtain ⟨hcomm, hreordered⟩ := similarity_comm_and_reordered htea hmilk
  obtain ⟨hsimilarity, hintegrity⟩ := hreordered teaServed milkServed hserved hdrunk
  exact ⟨htea, hmilk, hserved, hdrunk, hcomm, hsimilarity, hintegrity⟩

end Node

end FrameNotation
