import FrameNotation.Proofs.Notation.Tidy

namespace FrameNotation

open Text Layout

variable {text part : List CodePoint}

-- What is cut out of a text level by level: what stands between brackets, the tokens of a body, the
-- items of an array, what follows a role colon, and any of these without blanks around it.
inductive IsFragment (text : List CodePoint) : List CodePoint → Prop
  | whole : IsFragment text text
  | content {outer content : List CodePoint} (b : Bracket) (houter : IsFragment text outer)
      (hcontent : Token.enclosed? b.opener b.closer outer = some content) : IsFragment text content
  | token {outer token : List CodePoint} {found : List (List CodePoint)}
      (houter : IsFragment text outer) (hfound : tokens outer = .ok found)
      (htoken : token ∈ found) : IsFragment text token
  | item {outer item : List CodePoint} {found : List (List CodePoint)}
      (houter : IsFragment text outer) (hfound : items outer = .ok found)
      (hitem : item ∈ found) : IsFragment text item
  | value {token role value : List CodePoint} (htoken : IsFragment text token)
      (hsplit : Token.roleSplit? token = some (role, value)) : IsFragment text value
  | trimmed {outer : List CodePoint} (houter : IsFragment text outer) : IsFragment text (trim outer)

-- No cut goes through a string or an escape, and none lets a comment or further blanks begin.
theorem IsFragment.tidy (h : IsFragment text part) (htext : Tidy true text) : Tidy true part := by
  induction h with
  | whole => exact htext
  | content b _ hcontent ih =>
      rw [Token.enclosed?_eq_some hcontent] at ih
      exact ih.content
  | token _ hfound htoken ih =>
      obtain ⟨pieces, hcut, rfl⟩ := tokens_eq_ok hfound
      exact ih.piece (fun _ => isPlain_of_isBlank) hcut (List.mem_of_mem_filter htoken)
  | item _ hfound hitem ih =>
      rcases items_eq_ok hfound with ⟨rfl, -⟩ | ⟨pieces, hcut, rfl, -⟩
      · cases hitem
      · obtain ⟨piece, hpiece, rfl⟩ := List.mem_map.mp hitem
        exact (ih.piece (fun _ => isPlain_of_isComma) hcut hpiece).trim_tidy
  | @value token role value _ hsplit ih =>
      obtain ⟨rfl, hrole⟩ := Token.roleSplit?_eq_some hsplit
      have happend : role ++ char ':' :: value = role ++ [char ':'] ++ value := by simp
      rw [happend] at ih
      refine ih.of_append_right fun c hc => ?_
      rcases List.mem_append.mp hc with hc | hc
      · obtain ⟨-, -, -, -, hquote, hescape, -⟩ := Token.isRoleChar_eq_true.mp (hrole c hc)
        exact ⟨hquote, hescape⟩
      · cases List.mem_singleton.mp hc
        decide
  | trimmed _ ih => exact ih.trim_tidy

-- The canonical form of a text has no other canonical form, and neither has a group that is cut out
-- of it at any level: nested frames stay as they are when their text is brought into canonical form
-- again.
theorem canonical_stable (text : List CodePoint) : canonical (canonical text) = canonical text ∧
    ∀ part, IsFragment (canonical text) part → part.head? = some (char '(') →
      part.getLast? = some (char ')') → canonical part = part := by
  constructor
  · rw [(tidy_canonical text).canonical_eq]
    exact trim_trim
  · intro part hpart hfirst hlast
    rw [(hpart.tidy (tidy_canonical text)).canonical_eq]
    refine trim_eq_self (fun c hc => ?_) fun c hc => ?_
    · cases hfirst.symm.trans hc
      rfl
    · cases hlast.symm.trans hc
      rfl

-- A list in an array in a query, with blanks, comments, an escaped quote and slashes in a string.
def layeredText : List CodePoint :=
  ("(query // \"\n a:[b, (list\t\"//  ,\"  \\\" )])//)" : Str).toList

def layeredList : List CodePoint := ("(list \"//  ,\" \\\" )" : Str).toList

theorem canonical_stable_layeredText :
    IsFragment (canonical layeredText) layeredList ∧ layeredList.head? = some (char '(') ∧
      layeredList.getLast? = some (char ')') ∧
        canonical (canonical layeredText) = ("(query a:[b, (list \"//  ,\" \\\" )])" : Str).toList ∧
          canonical layeredList = layeredList := by
  have hcanonical : canonical layeredText =
      ("(query a:[b, (list \"//  ,\" \\\" )])" : Str).toList := rfl
  have hbody : IsFragment (canonical layeredText)
      ("query a:[b, (list \"//  ,\" \\\" )]" : Str).toList := .content .round .whole rfl
  have htokens : tokens ("query a:[b, (list \"//  ,\" \\\" )]" : Str).toList =
      .ok [("query" : Str).toList, ("a:[b, (list \"//  ,\" \\\" )]" : Str).toList] := rfl
  have harray : IsFragment (canonical layeredText) ("[b, (list \"//  ,\" \\\" )]" : Str).toList :=
    .value (.token hbody htokens (.tail _ (.head _))) rfl
  have hitems : items ("b, (list \"//  ,\" \\\" )" : Str).toList =
      .ok [("b" : Str).toList, layeredList] := rfl
  have hlist : IsFragment (canonical layeredText) layeredList :=
    .item (.content .square harray rfl) hitems (.tail _ (.head _))
  obtain ⟨hstable, hparts⟩ := canonical_stable layeredText
  exact ⟨hlist, rfl, rfl, hstable.trans hcanonical, hparts layeredList hlist rfl rfl⟩

end FrameNotation
