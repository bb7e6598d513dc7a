import FrameNotation.Proofs.Frame.Nested
import FrameNotation.Proofs.Frame.Reordered
import FrameNotation.Proofs.Reference.Substitution

namespace FrameNotation

-- Of two lists that are related item by item, the steps from the first have some from the second.
theorem forall₂_steps {α β γ δ : Type} {related : α → β → Prop} {step : α → γ → Prop}
    {next : β → δ → Prop} {reached : γ → δ → Prop} {as : List α} {bs : List β} {cs : List γ}
    (h : List.Forall₂ related as bs) (hsteps : List.Forall₂ step as cs)
    (hnext : ∀ a ∈ as, ∀ b ∈ bs, ∀ c, related a b → step a c → ∃ d, next b d ∧ reached c d) :
    ∃ ds, List.Forall₂ next bs ds ∧ List.Forall₂ reached cs ds := by
  induction h generalizing cs with
  | nil =>
      cases hsteps
      exact ⟨[], .nil, .nil⟩
  | cons hfirst _ ih =>
      cases hsteps with
      | cons hstep hrest =>
          obtain ⟨d, hd, hreached⟩ := hnext _ (by simp) _ (by simp) _ hfirst hstep
          obtain ⟨ds, hds, hreaches⟩ := ih hrest fun a ha b hb =>
            hnext a (by simp [ha]) b (by simp [hb])
          exact ⟨d :: ds, .cons hd hds, .cons hreached hreaches⟩

theorem getElem?_rel {α β : Type} {related : α → β → Prop} {as : List α} {bs : List β}
    (h : List.Forall₂ related as bs) (index : Nat) : Option.Rel related as[index]? bs[index]? := by
  induction h generalizing index with
  | nil => exact .none
  | cons hfirst _ ih =>
      cases index with
      | zero => exact .some hfirst
      | succ index => exact ih index

theorem exists_of_rel_some {α β : Type} {related : α → β → Prop} {a : α} {found : Option β}
    (h : Option.Rel related (some a) found) : ∃ b, found = some b ∧ related a b := by
  cases h with
  | some h => exact ⟨_, rfl, h⟩

namespace Entries

variable {α β : Type} {related : α → β → Prop} {entries : Entries α} {others : Entries β}

theorem Matches.get?_rel (h : entries.Matches related others) (name : Str) :
    Option.Rel related (get? entries name) (get? others name) := by
  cases hfound : get? entries name with
  | some content =>
      obtain ⟨other, hother, hrelated⟩ := h.2 _ (mem_of_get? hfound)
      rw [hother]
      exact .some hrelated
  | none =>
      have hnone : name ∉ names others := by
        intro hname
        have hhas := has_iff.mpr (h.1 name hname)
        rw [has, hfound] at hhas
        cases hhas
      rw [get?_eq_none hnone]
      exact .none

-- The same for entries that match. The step from the second list is a function of what it steps from.
theorem Matches.exists_aligned {γ δ : Type} {step : α → γ → Prop} {next : β → δ → Prop}
    {reached : γ → δ → Prop} {results : Entries γ} (h : entries.Matches related others)
    (hothers : (names others).Nodup) (hsteps : Aligned step entries results)
    (hunique : ∀ b d e, next b d → next b e → d = e)
    (hnext : ∀ entry ∈ entries, ∀ other ∈ others, ∀ c, related entry.2 other.2 →
      step entry.2 c → ∃ d, next other.2 d ∧ reached c d) :
    ∃ founds, Aligned next others founds ∧ results.Matches reached founds := by
  have hfounds : ∀ other ∈ others, ∃ d, next other.2 d := by
    intro other hother
    obtain ⟨entry, hentry, -, hrelated⟩ := h.exists_entry hothers hother
    obtain ⟨result, -, -, hstep⟩ := hsteps.exists_result hentry
    obtain ⟨d, hd, -⟩ := hnext entry hentry other hother result.2 hrelated hstep
    exact ⟨d, hd⟩
  obtain ⟨founds, haligned⟩ := Aligned.exists_of_forall next hfounds
  refine ⟨founds, haligned, fun name hname => ?_, fun result hresult => ?_⟩
  · rw [haligned.names_eq] at hname
    rw [hsteps.names_eq]
    exact h.1 name hname
  · obtain ⟨entry, hentry, hname, hstep⟩ := hsteps.exists_source hresult
    obtain ⟨other, hother, hrelated⟩ := h.2 entry hentry
    obtain ⟨found, hfound, hreaches⟩ := haligned.exists_get? hother
    obtain ⟨d, hd, hreached⟩ := hnext entry hentry _ (mem_of_get? hother) result.2 hrelated hstep
    cases hunique _ _ _ hreaches hd
    exact ⟨found, hname ▸ hfound, hreached⟩

end Entries

namespace Value

variable {a b result : Value} {segment : Segment} {path : List Segment} {reference : Str}
variable {found other : Option Value} {node owner another : Frame} {strict : Bool}

-- Equality of values that stand inside something else.
def EqualInside (a b : Value) : Prop := equalsAt false true a b = true

-- Frames are equal inside something else if they are equal by themselves.
theorem equalInside_frame : (frame node).EqualInside (.frame another) ↔
    node.equals another = true := by
  rw [EqualInside, Node.equals, equals, equalsAt_frame, equalsAt_frame, Bool.false_and,
    Bool.false_and]

theorem equals_frame_iff : node.equals another = true ↔ node.type.equalsType another.type = true ∧
    Entries.Matches EqualInside node.attributes another.attributes :=
  equalsAt_frame

theorem isNull_eq (h : a.EqualInside b) : a.isNull = b.isNull := by
  cases a <;> cases b <;> first
    | rfl
    | simp [EqualInside, equalsAt, number?] at h

theorem filter_rel (h : Option.Rel EqualInside found other) :
    Option.Rel EqualInside (found.filter fun value => !value.isNull)
      (other.filter fun value => !value.isNull) := by
  cases h with
  | none => exact .none
  | some h =>
      rw [Option.filter_some, Option.filter_some, isNull_eq h]
      split_ifs
      · exact .some h
      · exact .none

-- A step from equal values leads to equal ones or to nothing.
theorem step_rel (h : a.EqualInside b) (hstep : a.step segment = .ok found) :
    ∃ other, b.step segment = .ok other ∧ Option.Rel EqualInside found other := by
  cases a with
  | array xs =>
      obtain ⟨ys, rfl, hitems⟩ := equalsAt_array_left.mp h
      cases segment with
      | index position =>
          cases hstep
          exact ⟨_, rfl, filter_rel (getElem?_rel hitems position)⟩
      | key name =>
          simp only [step, map_eq_ok] at hstep ⊢
          obtain ⟨_, ⟨index, hindex, rfl⟩, rfl⟩ := hstep
          refine ⟨_, ⟨_, ⟨index, hindex, rfl⟩, rfl⟩, filter_rel ?_⟩
          cases index with
          | none => exact .none
          | some position => exact getElem?_rel hitems position
  | record entries =>
      obtain ⟨others, rfl, hmatches⟩ := equalsAt_record_left.mp h
      cases segment with
      | index position =>
          cases hstep
          exact ⟨_, rfl, .none⟩
      | key name =>
          cases hstep
          exact ⟨_, rfl, filter_rel (hmatches.get?_rel name)⟩
  | frame node =>
      obtain ⟨another, rfl, -, hmatches⟩ := equalsAt_frame_left.mp h
      cases segment with
      | index position =>
          cases hstep
          exact ⟨_, rfl, .none⟩
      | key name =>
          cases hstep
          exact ⟨_, rfl, filter_rel (hmatches.get?_rel name)⟩
  | _ =>
      -- nothing is inside a value of any other kind, nor inside one that equals it
      have hnone : found = none := by
        cases segment <;>
        · cases hstep
          rfl
      subst hnone
      cases b <;> first
        | simp [EqualInside, equalsAt, number?] at h; done
        | cases segment <;> exact ⟨none, rfl, .none⟩

theorem follow_rel (h : a.EqualInside b) (hfollow : a.follow path = .ok found) :
    ∃ other, b.follow path = .ok other ∧ Option.Rel EqualInside found other := by
  induction path generalizing a b with
  | nil =>
      cases hfollow
      exact ⟨some b, rfl, .some h⟩
  | cons segment rest ih =>
      obtain ⟨next, hstep, hrest⟩ := bind_eq_ok.mp hfollow
      obtain ⟨other, hother, hrel⟩ := step_rel h hstep
      rw [follow, hother, ok_bind]
      cases hrel with
      | none =>
          cases hrest
          exact ⟨none, rfl, .none⟩
      | some hnext => exact ih hnext hrest

theorem resolve_rel (h : a.EqualInside b) (hfound : resolve reference a = .ok found) :
    ∃ other, resolve reference b = .ok other ∧ Option.Rel EqualInside found other := by
  obtain ⟨path, hpath, hfollow⟩ := bind_eq_ok.mp hfound
  rw [resolve, hpath, ok_bind]
  cases path with
  | none =>
      cases hfollow
      exact ⟨none, rfl, .none⟩
  | some path => exact follow_rel h hfollow

theorem replacement_rel (h : owner.equals another = true)
    (hresult : replacement strict owner reference = .ok result) :
    ∃ found, replacement strict another reference = .ok found ∧ result.EqualInside found := by
  simp only [replacement_eq_ok] at hresult ⊢
  rcases hresult with hfound | ⟨hnone, hlenient, rfl⟩
  · obtain ⟨_, hother, hrel⟩ := resolve_rel (equalInside_frame.mpr h) hfound
    cases hrel with
    | some hequal => exact ⟨_, .inl hother, hequal⟩
  · obtain ⟨_, hother, hrel⟩ := resolve_rel (equalInside_frame.mpr h) hnone
    cases hrel with
    | none => exact ⟨_, .inr ⟨hother, hlenient, rfl⟩, equalsAt_text.mpr rfl⟩

-- Equal frames have equal results if what stands under their roles does.
theorem resolveAll_rel_of_values {resolved : Frame}
    (hnames : (Entries.names another.attributes).Nodup) (h : owner.equals another = true)
    (hvalues : ∀ entry ∈ owner.attributes, ∀ other ∈ another.attributes, ∀ result,
      entry.2.EqualInside other.2 → entry.2.substituted strict owner = .ok result →
        ∃ found, other.2.substituted strict another = .ok found ∧ result.EqualInside found)
    (hresolved : owner.resolveAll strict = .ok resolved) :
    ∃ result, another.resolveAll strict = .ok result ∧ resolved.equals result = true := by
  obtain ⟨htype, haligned⟩ := Node.resolveAll_eq_ok.mp hresolved
  obtain ⟨htypes, hmatches⟩ := equals_frame_iff.mp h
  have hunique (content first second : Value)
      (hfirst : content.substituted strict another = .ok first)
      (hsecond : content.substituted strict another = .ok second) : first = second := by
    rw [hfirst] at hsecond
    exact Except.ok.inj hsecond
  obtain ⟨founds, hfounds, hequal⟩ := hmatches.exists_aligned hnames haligned hunique hvalues
  refine ⟨⟨another.type, founds⟩, Node.resolveAll_eq_ok.mpr ⟨rfl, hfounds⟩,
    equals_frame_iff.mpr ⟨?_, hequal⟩⟩
  rw [htype]
  exact htypes

-- Substitution in equal frames makes equal values of equal ones.
theorem substituted_rel (hfree : b.Unrepeated) (h : a.EqualInside b)
    (howner : owner.equals another = true) (hresult : a.substituted strict owner = .ok result) :
    ∃ found, b.substituted strict another = .ok found ∧ result.EqualInside found := by
  induction a using Value.induction generalizing b owner another result with
  | text s =>
      obtain rfl := equalsAt_text_left.mp h
      simp only [substituted_text] at hresult ⊢
      split_ifs at hresult ⊢
      · exact replacement_rel howner hresult
      · subst hresult
        exact ⟨_, rfl, h⟩
  | array items ih =>
      obtain ⟨ys, rfl, hitems⟩ := equalsAt_array_left.mp h
      cases hfree with
      | array _ hys =>
          obtain ⟨results, rfl, hresults⟩ := substituted_array.mp hresult
          obtain ⟨founds, hfounds, hequal⟩ := forall₂_steps hitems hresults
            fun x hx y hy _ hxy => ih x hx (hys y hy) hxy howner
          exact ⟨.array founds, substituted_array.mpr ⟨founds, rfl, hfounds⟩,
            equalsAt_array.mpr hequal⟩
  | frame node _ ih =>
      obtain ⟨other, rfl, -⟩ := equalsAt_frame_left.mp h
      cases hfree with
      | frame type attributes hnames _ _ hattributes =>
          have hnode := equalInside_frame.mp h
          obtain ⟨resolved, rfl, hresolved⟩ := substituted_frame.mp hresult
          obtain ⟨result, hresult, hequal⟩ := resolveAll_rel_of_values hnames hnode
            (fun entry hentry other hother _ hsame =>
              ih entry hentry (hattributes other hother) hsame hnode) hresolved
          exact ⟨.frame result, substituted_frame.mpr ⟨_, rfl, hresult⟩,
            equalInside_frame.mpr hequal⟩
  | _ =>
      cases hresult
      cases b <;> first
        | exact ⟨_, rfl, h⟩
        | simp [EqualInside, equalsAt, number?] at h

end Value

-- Equal frames have equal results.
theorem Node.resolveAll_rel {strict : Bool} {frame other resolved : Frame}
    (hfree : (Value.frame other).Unrepeated) (h : frame.equals other = true)
    (hresolved : frame.resolveAll strict = .ok resolved) :
    ∃ result, other.resolveAll strict = .ok result ∧ resolved.equals result = true := by
  have hframe : (Value.frame frame).substituted strict frame = .ok (.frame resolved) :=
    Value.substituted_frame.mpr ⟨resolved, rfl, hresolved⟩
  obtain ⟨found, hfound, hequal⟩ :=
    Value.substituted_rel hfree (Value.equalInside_frame.mpr h) h hframe
  obtain ⟨result, rfl, hresult⟩ := Value.substituted_frame.mp hfound
  exact ⟨result, hresult, Value.equalInside_frame.mp hequal⟩

end FrameNotation
