import FrameNotation.Proofs.Reference.Equality

namespace FrameNotation

-- What may stand in place of a value after substitution, if the frame is the innermost one around
-- it. The items of an array and the attributes of a frame have places of their own.
def Node.Replaces (owner : Frame) : Value → Value → Prop
  | .text s, result =>
    if isReference s then
      resolve s (.frame owner) = .ok (some result) ∨
        resolve s (.frame owner) = .ok none ∧ result = .text s
    else result = .text s
  | .array items, result => ∃ results, result = .array results ∧ results.length = items.length
  | .frame node, result => ∃ other, result = .frame other ∧ other.type = node.type ∧
      Entries.names other.attributes = Entries.names node.attributes
  | value, result => result = value

namespace Value

-- What stands at a place in a value, with the innermost frame around it. The owner is the frame
-- around the whole value.
def atPlace? (owner : Frame) : Value → List Segment → Option (Frame × Value)
  | value, [] => some (owner, value)
  | .frame node, .key name :: rest =>
    (Entries.get? node.attributes name).bind (·.atPlace? node rest)
  | .array items, .index position :: rest => items[position]?.bind (·.atPlace? owner rest)
  | _, _ :: _ => none

variable {strict : Bool} {owner around : Frame} {value found result : Value} {place : List Segment}

theorem replaces_of_substituted (h : value.substituted strict owner = .ok result) :
    owner.Replaces value result := by
  cases value with
  | text s =>
      rw [Node.Replaces]
      rw [substituted_text] at h
      split_ifs at h ⊢
      · rcases replacement_eq_ok.mp h with hfound | ⟨hnone, -, rfl⟩
        · exact .inl hfound
        · exact .inr ⟨hnone, rfl⟩
      · exact h
  | array items =>
      obtain ⟨results, rfl, hresults⟩ := substituted_array.mp h
      exact ⟨results, rfl, hresults.length_eq.symm⟩
  | frame node =>
      obtain ⟨resolved, rfl, hresolved⟩ := substituted_frame.mp h
      obtain ⟨htype, hentries⟩ := Node.resolveAll_eq_ok.mp hresolved
      exact ⟨resolved, rfl, htype, hentries.names_eq⟩
  | _ =>
      cases h
      rfl

-- Whatever stands at a place is substituted there, and on its own: by the innermost frame around it
-- as it was before.
theorem exists_atPlace (h : value.substituted strict owner = .ok result)
    (hfound : value.atPlace? owner place = some (around, found)) (outer : Frame) :
    ∃ behind put, result.atPlace? outer place = some (behind, put) ∧
      found.substituted strict around = .ok put := by
  induction place generalizing value owner result outer with
  | nil =>
      cases hfound
      exact ⟨outer, result, rfl, h⟩
  | cons segment rest ih =>
      cases value with
      | array items =>
          cases segment with
          | index position =>
              obtain ⟨results, rfl, hresults⟩ := substituted_array.mp h
              obtain ⟨item, hitem, hrest⟩ := Option.bind_eq_some_iff.mp hfound
              obtain ⟨other, hother, hsubstituted⟩ :=
                exists_of_rel_some (hitem ▸ getElem?_rel hresults position)
              obtain ⟨behind, put, hput, hstands⟩ := ih hsubstituted hrest outer
              refine ⟨behind, put, ?_, hstands⟩
              rw [atPlace?, hother, Option.bind_some, hput]
          | key name => cases hfound
      | frame node =>
          cases segment with
          | key name =>
              obtain ⟨resolved, rfl, hresolved⟩ := substituted_frame.mp h
              obtain ⟨content, hcontent, hrest⟩ := Option.bind_eq_some_iff.mp hfound
              obtain ⟨other, hother, hsubstituted⟩ :=
                (Node.resolveAll_eq_ok.mp hresolved).2.exists_get? hcontent
              obtain ⟨behind, put, hput, hstands⟩ := ih hsubstituted hrest resolved
              refine ⟨behind, put, ?_, hstands⟩
              rw [atPlace?, hother, Option.bind_some, hput]
          | index position => cases hfound
      | _ => simp [atPlace?] at hfound

end Value

variable {strict : Bool} {frame resolved : Frame}

-- Substitution is simultaneous. Type and names stay, each place holds what its value comes to in the
-- innermost frame around it as that was before, and so attributes in another order give an equal
-- result. Nothing equals a frame whose type, or that of a frame in it, is NaN: not even the frame
-- itself.
theorem Node.resolveAll_simultaneous (hfree : (Value.frame frame).Unrepeated)
    (hresolved : frame.resolveAll strict = .ok resolved) :
    resolved.type = frame.type ∧
      Entries.names resolved.attributes = Entries.names frame.attributes ∧
      (∀ place owner value, (Value.frame frame).atPlace? frame place = some (owner, value) →
        ∃ around result, (Value.frame resolved).atPlace? resolved place = some (around, result) ∧
          owner.Replaces value result) ∧
      ∀ other, (Value.frame frame).Reordered (.frame other) → frame.equals frame = true →
        ∃ result, other.resolveAll strict = .ok result ∧ result.equals resolved = true := by
  obtain ⟨htype, hentries⟩ := resolveAll_eq_ok.mp hresolved
  refine ⟨htype, hentries.names_eq, fun place owner value hvalue => ?_, fun other hother hself => ?_⟩
  · have hframe : (Value.frame frame).substituted strict frame = .ok (.frame resolved) :=
      Value.substituted_frame.mpr ⟨resolved, rfl, hresolved⟩
    obtain ⟨around, result, hresult, hput⟩ := Value.exists_atPlace hframe hvalue resolved
    exact ⟨around, result, hresult, Value.replaces_of_substituted hput⟩
  · have hback : other.equals frame = true :=
      calc other.equals frame
        _ = frame.equals frame := (hother.equalsAt_eq false false (.frame frame)).symm
        _ = true := hself
    have hequal : frame.equals other = true :=
      Value.equalsAt_symm (hother.unrepeated hfree) hfree hback
    obtain ⟨result, hresult, -⟩ := resolveAll_rel (hother.unrepeated hfree) hequal hresolved
    obtain ⟨again, hagain, hsame⟩ := resolveAll_rel hfree hback hresult
    rw [hresolved] at hagain
    cases hagain
    exact ⟨result, hresult, hsame⟩

-- A chain of references, an array that refers to itself and to nothing, a frame in the frame.
def teaRound : Frame := ⟨.text "query", [
  ("first", .text "$second"), ("second", .text "$third"), ("third", .text "tea"),
  ("cups", .array [.text "$first", .text "$cups", .text "$nothing"]),
  ("break", .frame ⟨.text "event", [("third", .text "rest"), ("agent", .text "$third")]⟩)]⟩

def teaRoundResolved : Frame := ⟨.text "query", [
  ("first", .text "$third"), ("second", .text "tea"), ("third", .text "tea"),
  ("cups", .array [.text "$second", .array [.text "$first", .text "$cups", .text "$nothing"],
    .text "$nothing"]),
  ("break", .frame ⟨.text "event", [("third", .text "rest"), ("agent", .text "rest")]⟩)]⟩

-- The same with attributes in another order, those of the frame in it as well.
def teaRoundBackwards : Frame := ⟨.text "query", [
  ("break", .frame ⟨.text "event", [("agent", .text "$third"), ("third", .text "rest")]⟩),
  ("cups", .array [.text "$first", .text "$cups", .text "$nothing"]),
  ("third", .text "tea"), ("second", .text "$third"), ("first", .text "$second")]⟩

theorem Node.resolveAll_simultaneous_teaRound : (Value.frame teaRound).Unrepeated ∧
    teaRound.resolveAll false = .ok teaRoundResolved ∧
    (Value.frame teaRound).Reordered (.frame teaRoundBackwards) ∧
    teaRound.equals teaRound = true ∧
    ((Value.frame teaRound).atPlace? teaRound [.key "cups", .index 1] =
        some (teaRound, .text "$cups") ∧
      ∃ around result, (Value.frame teaRoundResolved).atPlace? teaRoundResolved
          [.key "cups", .index 1] = some (around, result) ∧
        teaRound.Replaces (.text "$cups") result) ∧
    ∃ result, teaRoundBackwards.resolveAll false = .ok result ∧
      result.equals teaRoundResolved = true := by
  have hfree : (Value.frame teaRound).Unrepeated := by
    refine .frame _ _ (by decide) (by decide) (.text _) ?_
    simp only [List.forall_mem_cons]
    refine ⟨.text _, .text _, .text _, .array _ ?_, .frame _ _ (by decide) (by decide) (.text _) ?_,
      by simp⟩
    · simp only [List.forall_mem_cons]
      exact ⟨.text _, .text _, .text _, by simp⟩
    · simp only [List.forall_mem_cons]
      exact ⟨.text _, .text _, by simp⟩
  have hresolved : teaRound.resolveAll false = .ok teaRoundResolved := by
    have hfirst : pathOf "$first" = .ok (some [.key "first"]) := by decide +kernel
    have hsecond : pathOf "$second" = .ok (some [.key "second"]) := by decide +kernel
    have hthird : pathOf "$third" = .ok (some [.key "third"]) := by decide +kernel
    have hcups : pathOf "$cups" = .ok (some [.key "cups"]) := by decide +kernel
    have hnothing : pathOf "$nothing" = .ok (some [.key "nothing"]) := by decide +kernel
    simp only [resolveAll, teaRound, substitutedEntries, Value.substituted, substitutedItems,
      replacement, resolve, hfirst, hsecond, hthird, hcups, hnothing]
    rfl
  have hbackwards : (Value.frame teaRound).Reordered (.frame teaRoundBackwards) :=
    .trans (.order _ (List.reverse_perm _).symm) (.role _ [] _ "break" (.order _ (.swap _ _ _)))
  have hself : teaRound.equals teaRound = true := by decide +kernel
  obtain ⟨-, -, hplaces, horders⟩ := resolveAll_simultaneous hfree hresolved
  exact ⟨hfree, hresolved, hbackwards, hself, ⟨rfl, hplaces _ _ _ rfl⟩,
    horders _ hbackwards hself⟩

end FrameNotation
