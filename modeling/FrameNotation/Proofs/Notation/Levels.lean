import FrameNotation.Proofs.Notation.Grammar

namespace FrameNotation

open Text

variable {cs text text' token : List CodePoint}

section Lengths

theorem Text.length_trim_le (cs : List CodePoint) : (trim cs).length ≤ cs.length := by
  obtain ⟨before, after, hcs, -, -⟩ := exists_eq_trim cs
  have hlength := congrArg List.length hcs
  simp only [List.length_append] at hlength
  omega

theorem Layout.length_uncommented_le (mode : Mode) (cs : List CodePoint) :
    (uncommented mode cs).length ≤ cs.length := by
  fun_induction uncommented mode cs <;> simp only [List.length_cons, List.length_nil] <;> omega

theorem Layout.length_collapsed_le (mode : Mode) (cs : List CodePoint) :
    (collapsed mode cs).length ≤ cs.length := by
  fun_induction collapsed mode cs <;> simp only [List.length_cons, List.length_nil] <;> omega

theorem Layout.length_canonical_le (cs : List CodePoint) : (canonical cs).length ≤ cs.length :=
  calc
    (canonical cs).length ≤ (collapsed .outside (stripComments cs)).length := length_trim_le _
    _ ≤ (stripComments cs).length := length_collapsed_le _ _
    _ ≤ cs.length := length_uncommented_le _ _

theorem length_of_mem_cut {separates : CodePoint → Bool} {pieces : List (List CodePoint)}
    (hseparates : ∀ c, separates c = true → Nesting.isPlain c = true)
    (h : Nesting.cut separates .start cs = .ok pieces) (hpiece : token ∈ pieces) :
    token.length ≤ cs.length := by
  obtain ⟨-, hpieces⟩ := Nesting.exists_of_mem_cut hseparates h
  obtain ⟨before, after, rfl, -, -⟩ := hpieces token hpiece
  simp only [List.length_append]
  omega

theorem length_of_mem_tokens {found : List (List CodePoint)} (h : tokens cs = .ok found)
    (htoken : token ∈ found) : token.length ≤ cs.length := by
  obtain ⟨pieces, hcut, rfl⟩ := tokens_eq_ok h
  exact length_of_mem_cut (fun _ => isPlain_of_isBlank) hcut (List.mem_of_mem_filter htoken)

theorem length_of_mem_items {found : List (List CodePoint)} (h : items cs = .ok found)
    (htoken : token ∈ found) : token.length ≤ cs.length := by
  rcases items_eq_ok h with ⟨rfl, -⟩ | ⟨pieces, hcut, rfl, -⟩
  · cases htoken
  · obtain ⟨piece, hpiece, rfl⟩ := List.mem_map.mp htoken
    exact Nat.le_trans (length_trim_le piece)
      (length_of_mem_cut (fun _ => isPlain_of_isComma) hcut hpiece)

end Lengths

namespace Reader

variable {read read' : List CodePoint → Except Failure Value} {bound : Nat}
variable {tokens : List (List CodePoint)} {entries kept : Entries Value}

theorem length_of_isSource (h : IsSource token cs) : cs.length ≤ token.length := by
  rcases h with rfl | ⟨role, hsplit⟩
  · exact Nat.le_refl _
  · obtain ⟨rfl, -⟩ := Token.roleSplit?_eq_some hsplit
    simp only [List.length_append, List.length_cons]
    omega

-- Of texts below a length, what one reader reads the other reads alike.
def Extends (bound : Nat) (read read' : List CodePoint → Except Failure Value) : Prop :=
  ∀ cs value, cs.length < bound → read cs = .ok value → read' cs = .ok value

theorem explicitRoles_extends {index : Nat} (hread : Extends bound read read')
    (htokens : ∀ token ∈ tokens, token.length < bound)
    (h : explicitRoles read index kept tokens = .ok entries) :
    explicitRoles read' index kept tokens = .ok entries := by
  fun_induction explicitRoles read index kept tokens with
  | case1 => exact h
  | case2 index kept token rest role cs hform ih =>
      obtain ⟨content, hcontent, h⟩ := bind_eq_ok.mp h
      obtain ⟨name, hsplit, -, -⟩ := form_assigns hform
      have hlength := length_of_isSource (.inr ⟨name, hsplit⟩)
      have htoken := htokens token (by simp)
      rw [explicitRoles, hform]
      simp only [hread cs content (by omega) hcontent, ok_bind]
      exact ih content (fun t ht => htokens t (by simp [ht])) h
  | case3 => cases h
  | case4 => cases h
  | case5 index kept token role hform next others hcolon ih =>
      obtain ⟨content, hcontent, h⟩ := bind_eq_ok.mp h
      have hnext := htokens next (by simp)
      rw [explicitRoles, hform]
      simp only [hcolon, hread next content hnext hcontent, ok_bind, Bool.false_eq_true, if_false]
      exact ih content (fun t ht => htokens t (by simp [ht])) h
  | case6 => cases h
  | case7 => cases h

theorem positionalRoles_extends {typeName : Str} {index : Nat}
    (hread : Extends bound read read') (htokens : ∀ token ∈ tokens, token.length < bound)
    (h : positionalRoles read typeName index kept tokens = .ok entries) :
    positionalRoles read' typeName index kept tokens = .ok entries := by
  induction tokens generalizing index kept with
  | nil => exact h
  | cons token rest ih =>
      obtain ⟨content, hcontent, h⟩ := bind_eq_ok.mp h
      rw [positionalRoles, hread token content (htokens token (by simp)) hcontent]
      exact ih (fun t ht => htokens t (by simp [ht])) h

theorem roles_extends {typeName : Str} (hread : Extends bound read read')
    (htokens : ∀ token ∈ tokens, token.length < bound)
    (h : roles read typeName tokens = .ok entries) : roles read' typeName tokens = .ok entries := by
  unfold roles at h ⊢
  split_ifs at h ⊢
  · exact explicitRoles_extends hread htokens h
  · exact positionalRoles_extends hread htokens h

theorem mapM_extends {parts : List (List CodePoint)} {values : List Value}
    (hread : Extends bound read read') (hparts : ∀ part ∈ parts, part.length < bound)
    (h : parts.mapM read = .ok values) : parts.mapM read' = .ok values := by
  induction parts generalizing values with
  | nil => exact h
  | cons part rest ih =>
      rw [List.mapM_cons] at h ⊢
      obtain ⟨value, hvalue, h⟩ := bind_eq_ok.mp h
      obtain ⟨others, hothers, h⟩ := bind_eq_ok.mp h
      rw [hread part value (hparts part (by simp)) hvalue, ok_bind,
        ih (fun p hp => hparts p (by simp [hp])) hothers]
      exact h

-- A frame is read from the canonical form of its text alone.
theorem frame_extends {node : Frame} (hread : Extends bound read read')
    (hcanonical : Layout.canonical text = Layout.canonical text')
    (hlength : (Layout.canonical text).length ≤ bound) (h : frame read text = .ok node) :
    frame read' text' = .ok node := by
  unfold frame at h ⊢
  rw [← hcanonical]
  split at h
  · cases h
  · rename_i content hcontent
    have hbody : frameBody read text content = .ok node := by
      split at h
      · cases h
        assumption
      · cases h
      · cases h
    rw [Token.enclosed?_eq_some hcontent] at hlength
    simp only [List.length_append, List.length_cons, List.length_nil] at hlength
    have hbody' : frameBody read' text' content = .ok node := by
      obtain ⟨found, hfound, hbody⟩ := bind_eq_ok.mp hbody
      refine bind_eq_ok.mpr ⟨found, hfound, ?_⟩
      cases found with
      | nil => cases hbody
      | cons first body =>
          obtain ⟨type, htype, hbody⟩ := bind_eq_ok.mp hbody
          obtain ⟨entries, hentries, hbody⟩ := bind_eq_ok.mp hbody
          have hshort : ∀ token ∈ body, token.length < bound := by
            intro token htoken
            have hle := length_of_mem_tokens (mapError_eq_ok.mp hfound)
              (List.mem_cons_of_mem first htoken)
            omega
          refine bind_eq_ok.mpr ⟨type, htype, bind_eq_ok.mpr ⟨entries, ?_, hbody⟩⟩
          exact roles_extends hread hshort hentries
    simp only [hbody']

-- Levels that are more than the characters of a text are as good as any.
theorem value_extends (levels more : Nat) :
    Extends more (Reader.value levels) (Reader.value more) := by
  induction levels generalizing more with
  | zero =>
      intro token value _ h
      cases h
  | succ levels ih =>
      intro token value hlength h
      cases more with
      | zero => exact absurd hlength (Nat.not_lt_zero _)
      | succ more =>
          have htrim := length_trim_le token
          rw [Reader.value] at h ⊢
          split_ifs at h ⊢ with hempty hround
          · obtain ⟨node, hnode, h⟩ := bind_eq_ok.mp h
            have hcanonical := Layout.length_canonical_le (trim token)
            have hframe := frame_extends (ih more) rfl (by omega) (mapError_eq_ok.mp hnode)
            exact bind_eq_ok.mpr ⟨node, mapError_eq_ok.mpr hframe, h⟩
          · split at h
            · rename_i content hcontent
              obtain ⟨found, hfound, h⟩ := bind_eq_ok.mp h
              obtain ⟨values, hvalues, h⟩ := bind_eq_ok.mp h
              have hsquare := congrArg List.length (Token.enclosed?_eq_some hcontent)
              simp only [List.length_append, List.length_cons, List.length_nil] at hsquare
              have hshort : ∀ part ∈ found, part.length < more := by
                intro part hpart
                have hle := length_of_mem_items (mapError_eq_ok.mp hfound) hpart
                omega
              simp only [hfound, ok_bind]
              exact bind_eq_ok.mpr ⟨values, mapM_extends (ih more) hshort hvalues, h⟩
            · exact h

end Reader

-- Texts with one canonical form stand for the same frame, or for none.
theorem Node.read_congr {frame : Frame} (h : Layout.canonical text = Layout.canonical text') :
    Node.read text = .ok frame ↔ Node.read text' = .ok frame := by
  have hread {text text' : List CodePoint} (h : Layout.canonical text = Layout.canonical text')
      (hframe : Node.read text = .ok frame) : Node.read text' = .ok frame := by
    have hlength := Layout.length_canonical_le text'
    rw [← h] at hlength
    exact Reader.frame_extends (Reader.value_extends _ _) h (by omega) hframe
  exact ⟨hread h, hread h.symm⟩

end FrameNotation
