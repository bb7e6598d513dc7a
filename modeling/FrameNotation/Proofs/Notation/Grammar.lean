import FrameNotation.Notation.Reader
import FrameNotation.Proofs.Frame.Entries
import FrameNotation.Proofs.Notation.Literal
import FrameNotation.Proofs.Notation.Scan
import FrameNotation.Proofs.Text.Trim

namespace FrameNotation

open Text

variable {cs text token : List CodePoint}

section Tokens

variable {first last : CodePoint} {content : List CodePoint}

theorem Token.enclosed?_eq_some (h : Token.enclosed? first last cs = some content) :
    cs = first :: content ++ [last] := by
  cases cs with
  | nil => cases h
  | cons c rest =>
      simp only [Token.enclosed?] at h
      split at h
      · rename_i hends
        cases h
        simp only [Bool.and_eq_true, decide_eq_true_eq] at hends
        obtain ⟨before, rfl⟩ := List.getLast?_eq_some_iff.mp hends.2
        rw [hends.1, List.dropLast_concat, List.cons_append]
      · cases h

theorem isPlain_of_isBlank {c : CodePoint} (hc : isBlank c = true) : Nesting.isPlain c = true := by
  simp only [Nesting.isPlain, List.contains_cons, List.contains_nil, Bool.not_eq_true',
    Bool.or_eq_false_iff, beq_eq_false_iff_ne]
  refine ⟨?_, ?_, ?_, ?_, ?_, ?_, trivial⟩ <;>
  · rintro rfl
    exact absurd hc (by decide)

theorem isPlain_of_isComma {c : CodePoint} (hc : (c == ',') = true) : Nesting.isPlain c = true := by
  rw [beq_iff_eq.mp hc]
  decide

theorem isPlain_of_isRoleChar {c : CodePoint} (hc : Token.isRoleChar c = true) :
    Nesting.isPlain c = true := by
  obtain ⟨h₁, h₂, h₃, h₄, h₅, h₆, -⟩ := Token.isRoleChar_eq_true.mp hc
  simp [Nesting.isPlain, h₁, h₂, h₃, h₄, h₅, h₆]

end Tokens

namespace Nesting

variable {separates : CodePoint → Bool} {pieces : List (List CodePoint)} {s : Nesting}

theorem walk_plain {groups : List Bracket} (h : ∀ c ∈ cs, isPlain c = true) :
    walk ⟨groups, .nothing⟩ cs = .ok ⟨groups, .nothing⟩ := by
  induction cs with
  | nil => rfl
  | cons c rest ih =>
      rw [walk_cons, step_plain (h c (by simp))]
      exact ih fun d hd => h d (by simp [hd])

-- Every piece of a text stands between balanced parts of it, and no separator cuts the piece.
theorem exists_of_mem_cut (hseparates : ∀ c, separates c = true → isPlain c = true)
    (h : cut separates start cs = .ok pieces) :
    walk start cs = .ok start ∧ ∀ piece ∈ pieces, ∃ before after, cs = before ++ piece ++ after ∧
      walk start before = .ok start ∧ through separates start piece = .ok start := by
  induction pieces generalizing cs with
  | nil => exact absurd rfl (cut_ne_nil h)
  | cons piece others ih =>
      obtain ⟨_, _, hpieces, hthrough, hrest⟩ := cut_eq_ok h
      cases hpieces
      have hpiece : walk start piece = .ok start := walk_of_through hthrough
      rcases hrest with ⟨rfl, rfl⟩ | ⟨c, rest, hc, rfl, hcut⟩
      · refine ⟨hpiece, fun other hother => ?_⟩
        cases List.mem_singleton.mp hother
        exact ⟨[], [], by simp, rfl, hthrough⟩
      · obtain ⟨hwalk, hothers⟩ := ih hcut
        have hseparator : walk start (piece ++ [c]) = .ok start := by
          rw [walk_append, hpiece]
          have hplain : ∀ d ∈ [c], isPlain d = true := by simpa using hseparates c hc
          exact walk_plain hplain
        refine ⟨?_, fun other hother => ?_⟩
        · rw [List.append_cons, walk_append, hseparator]
          exact hwalk
        · rcases List.mem_cons.mp hother with rfl | hother
          · exact ⟨[], c :: rest, by simp, rfl, hthrough⟩
          · obtain ⟨before, after, rfl, hbefore, hother⟩ := hothers other hother
            refine ⟨piece ++ [c] ++ before, after, by simp, ?_, hother⟩
            rw [walk_append, hseparator]
            exact hbefore

-- In plain characters that are not cut there is no separator.
theorem separates_eq_false (hcs : ∀ c ∈ cs, isPlain c = true)
    (h : through separates start (cs ++ text) = .ok s) : ∀ c ∈ cs, separates c = false := by
  induction cs with
  | nil => simp
  | cons c rest ih =>
      obtain ⟨next, hstep, hrest⟩ := bind_eq_ok.mp h
      obtain ⟨hfree, hstep⟩ := stepWithin_eq_ok.mp hstep
      have hplain : start.step c = .ok start := step_plain (hcs c (by simp))
      cases hplain.symm.trans hstep
      intro d hd
      rcases List.mem_cons.mp hd with rfl | hd
      · simpa using hfree
      · exact ih (fun e he => hcs e (by simp [he])) hrest d hd

end Nesting

-- What the tokens of a body and the items of an array are.
theorem tokens_eq_ok {found : List (List CodePoint)} (h : tokens cs = .ok found) :
    ∃ pieces, Nesting.cut isBlank .start cs = .ok pieces ∧
      found = pieces.filter fun piece => !piece.isEmpty := by
  obtain ⟨pieces, hpieces, rfl⟩ := map_eq_ok.mp h
  refine ⟨pieces, ?_, rfl⟩
  unfold Nesting.pieces at hpieces
  split at hpieces
  · cases hpieces
    assumption
  · cases hpieces
  · cases hpieces

theorem items_eq_ok {found : List (List CodePoint)} (h : items cs = .ok found) :
    (found = [] ∧ cs.all isBlank = true) ∨
      ∃ pieces, Nesting.cut (· == ',') .start cs = .ok pieces ∧ found = pieces.map trim ∧
        [] ∉ found := by
  unfold items at h
  split at h
  · cases h
    exact .inl ⟨rfl, by assumption⟩
  · obtain ⟨pieces, hpieces, h⟩ := bind_eq_ok.mp h
    refine .inr ⟨pieces, ?_, ?_⟩
    · unfold Nesting.pieces at hpieces
      split at hpieces
      · cases hpieces
        assumption
      · cases hpieces
      · cases hpieces
    · simp only at h
      split at h
      · cases h
      · rename_i hempty
        cases h
        exact ⟨rfl, fun hnil => hempty (List.any_eq_true.mpr ⟨[], hnil, rfl⟩)⟩

-- The pieces between commas are the items of an array if none of them is blank.
theorem items_of_cut {pieces : List (List CodePoint)}
    (hcut : Nesting.cut (· == ',') .start cs = .ok pieces) (hpieces : [] ∉ pieces.map trim) :
    items cs = .ok (pieces.map trim) := by
  have hcs : cs.all isBlank = false := by
    rw [← Bool.not_eq_true]
    intro hblank
    obtain ⟨-, hparts⟩ := Nesting.exists_of_mem_cut (fun _ => isPlain_of_isComma) hcut
    obtain ⟨first, others, rfl⟩ := List.exists_cons_of_ne_nil (Nesting.cut_ne_nil hcut)
    obtain ⟨before, after, rfl, -, -⟩ := hparts first (by simp)
    simp only [List.all_append, Bool.and_eq_true] at hblank
    exact hpieces (by simp [trim_eq_nil_iff.mpr hblank.1.2])
  have hempty : (pieces.map trim).any List.isEmpty = false := by
    rw [← Bool.not_eq_true, List.any_eq_true]
    rintro ⟨item, hitem, hnil⟩
    rw [List.isEmpty_iff.mp hnil] at hitem
    exact hpieces hitem
  rw [items, hcs, Nesting.pieces, hcut]
  simp only [Bool.false_eq_true, if_false, ok_bind, hempty, pure_eq_ok]

namespace Reader

open Entries

variable {read : List CodePoint → Except Failure Value} {typeName : Str}
variable {body : List (List CodePoint)} {entries kept : Entries Value} {entry : Str × Value}

-- What a value of a frame is read from: a token of the body, or what follows its role colon.
def IsSource (token cs : List CodePoint) : Prop :=
  cs = token ∨ ∃ role, Token.roleSplit? token = some (role, cs)

-- What a role of a frame comes from: what precedes a colon, a token without a colon, or the type.
def IsRoleOf (typeName : Str) (body : List (List CodePoint)) (name : Str) : Prop :=
  (∃ role value, role ++ char ':' :: value ∈ body ∧ (∀ c ∈ role, Token.isRoleChar c = true) ∧
    trim role ≠ [] ∧ name = Str.ofList (trim role)) ∨
  (∃ role ∈ body, role ≠ [] ∧ (∀ c ∈ role, Token.isRoleChar c = true) ∧
    name = Str.ofList role) ∨
  ∃ index, name = defaultRole typeName index

-- What is known about an entry of a frame that was read.
structure IsEntry (read : List CodePoint → Except Failure Value) (typeName : Str)
    (body : List (List CodePoint)) (entry : Str × Value) : Prop where
  role : IsRoleOf typeName body entry.1
  source : ∃ token ∈ body, ∃ cs, IsSource token cs ∧ read cs = .ok entry.2

-- The entries of a frame that was read.
structure AreEntries (read : List CodePoint → Except Failure Value) (typeName : Str)
    (body : List (List CodePoint)) (entries : Entries Value) : Prop where
  nodup : (Entries.names entries).Nodup
  isEntry : ∀ entry ∈ entries, IsEntry read typeName body entry

theorem AreEntries.put {name : Str} {content : Value}
    (h : AreEntries read typeName body kept) (hentry : IsEntry read typeName body (name, content)) :
    AreEntries read typeName body (Entries.put kept name content) := by
  refine ⟨Entries.nodup_put h.nodup, fun entry hmem => ?_⟩
  rcases Entries.mem_put hmem with rfl | hmem
  · exact hentry
  · exact h.isEntry entry hmem

-- The two forms of tokens that name a role.
theorem form_assigns {role value : List CodePoint} (h : Token.form token = .assigns role value) :
    ∃ name, Token.roleSplit? token = some (name, value) ∧ role = trim name ∧ role ≠ [] := by
  unfold Token.form at h
  split at h
  · rename_i name content hsplit
    simp only at h
    split_ifs at h with hrole hvalue
    cases h
    exact ⟨name, hsplit, rfl, by simpa using hrole⟩
  · split_ifs at h

theorem form_names {role : List CodePoint} (h : Token.form token = .names role)
    (body : List (List CodePoint)) (hmem : token ∈ body) : IsRoleOf typeName body (Str.ofList role) := by
  unfold Token.form at h
  split at h
  · rename_i name content hsplit
    obtain ⟨rfl, hname⟩ := Token.roleSplit?_eq_some hsplit
    simp only at h
    split_ifs at h with hrole hvalue
    cases h
    exact .inl ⟨name, content, hmem, hname, by simpa using hrole, rfl⟩
  · split_ifs at h with hrole
    cases h
    simp only [Bool.and_eq_true, Bool.not_eq_true', List.all_eq_true,
      List.isEmpty_eq_false_iff] at hrole
    exact .inr (.inl ⟨token, hmem, hrole.1, fun c hc => (hrole.2 c hc).1, rfl⟩)

theorem explicitRoles_eq_ok {index : Nat} {tokens : List (List CodePoint)}
    (hbody : ∀ token ∈ tokens, token ∈ body) (hkept : AreEntries read typeName body kept)
    (h : explicitRoles read index kept tokens = .ok entries) :
    AreEntries read typeName body entries := by
  fun_induction explicitRoles read index kept tokens with
  | case1 => cases h; exact hkept
  | case2 index kept token rest role cs hform ih =>
      obtain ⟨content, hread, h⟩ := bind_eq_ok.mp h
      obtain ⟨name, hsplit, rfl, hrole⟩ := form_assigns hform
      obtain ⟨htoken, hname⟩ := Token.roleSplit?_eq_some hsplit
      refine ih content (fun t ht => hbody t (by simp [ht])) (hkept.put ⟨.inl ?_, ?_⟩) h
      · exact ⟨name, cs, htoken ▸ hbody token (by simp), hname, hrole, rfl⟩
      · exact ⟨token, hbody token (by simp), cs, .inr ⟨name, hsplit⟩, hread⟩
  | case3 => cases h
  | case4 => cases h
  | case5 index kept token role hform next others hcolon ih =>
      obtain ⟨content, hread, h⟩ := bind_eq_ok.mp h
      refine ih content (fun t ht => hbody t (by simp [ht])) (hkept.put ⟨?_, ?_⟩) h
      · exact form_names hform body (hbody token (by simp))
      · exact ⟨next, hbody next (by simp), next, .inl rfl, hread⟩
  | case6 => cases h
  | case7 => cases h

theorem positionalRoles_eq_ok {index : Nat} {tokens : List (List CodePoint)}
    (hbody : ∀ token ∈ tokens, token ∈ body) (hkept : AreEntries read typeName body kept)
    (h : positionalRoles read typeName index kept tokens = .ok entries) :
    AreEntries read typeName body entries := by
  induction tokens generalizing index kept with
  | nil => cases h; exact hkept
  | cons token rest ih =>
      obtain ⟨content, hread, h⟩ := bind_eq_ok.mp h
      refine ih (fun t ht => hbody t (by simp [ht])) (hkept.put ⟨?_, ?_⟩) h
      · exact .inr (.inr ⟨index, rfl⟩)
      · exact ⟨token, hbody token (by simp), token, .inl rfl, hread⟩

theorem roles_eq_ok (h : roles read typeName body = .ok entries) :
    AreEntries read typeName body entries := by
  have hnil : AreEntries read typeName body [] := ⟨List.nodup_nil, by simp⟩
  unfold roles at h
  split at h
  · exact explicitRoles_eq_ok (fun _ ht => ht) hnil h
  · exact positionalRoles_eq_ok (fun _ ht => ht) hnil h

-- All that a frame that was read can be.
theorem frame_eq_ok {node : Frame} (h : frame read text = .ok node) :
    ∃ content first body, ∃ type : FrameType, ∃ entries,
      Layout.canonical text = char '(' :: content ++ [char ')'] ∧
      tokens content = .ok (first :: body) ∧
      AreEntries read type.name body entries ∧
      node = ⟨.text type.name, Entries.without entries [discriminant]⟩ := by
  unfold frame at h
  split at h
  · cases h
  · rename_i content hcontent
    have hbody : frameBody read text content = .ok node := by
      split at h
      · cases h
        assumption
      · cases h
      · cases h
    obtain ⟨found, hfound, hbody⟩ := bind_eq_ok.mp hbody
    split at hbody
    · cases hbody
    · rename_i first body
      obtain ⟨type, -, hbody⟩ := bind_eq_ok.mp hbody
      obtain ⟨entries, hentries, hbody⟩ := bind_eq_ok.mp hbody
      cases hbody
      exact ⟨content, first, body, type, entries, Token.enclosed?_eq_some hcontent,
        mapError_eq_ok.mp hfound, roles_eq_ok hentries, rfl⟩

theorem mapM_eq_ok {parts : List (List CodePoint)} {items : List Value}
    (h : parts.mapM read = .ok items) :
    List.Forall₂ (fun part item => read part = .ok item) parts items := by
  induction parts generalizing items with
  | nil => cases h; exact .nil
  | cons part rest ih =>
      rw [List.mapM_cons] at h
      obtain ⟨item, hitem, h⟩ := bind_eq_ok.mp h
      obtain ⟨others, hothers, h⟩ := bind_eq_ok.mp h
      cases h
      exact .cons hitem (ih hothers)

-- All that a value that was read can be.
theorem value_eq_ok {levels : Nat} {value : Value}
    (h : Reader.value (levels + 1) token = .ok value) :
    (∃ content node, trim token = char '(' :: content ++ [char ')'] ∧ value = .frame node ∧
      frame (fun cs => Reader.value levels cs) (trim token) = .ok node) ∨
    (∃ content parts items, trim token = char '[' :: content ++ [char ']'] ∧ value = .array items ∧
      FrameNotation.items content = .ok parts ∧
      List.Forall₂ (fun part item => Reader.value levels part = .ok item) parts items) ∨
    (trim token ≠ [] ∧ Token.scalar (trim token) = .ok value) := by
  rw [Reader.value] at h
  split_ifs at h with hempty hround
  · obtain ⟨content, hcontent⟩ := Option.isSome_iff_exists.mp hround
    obtain ⟨node, hnode, h⟩ := bind_eq_ok.mp h
    cases h
    exact .inl ⟨content, node, Token.enclosed?_eq_some hcontent, rfl, mapError_eq_ok.mp hnode⟩
  · split at h
    · rename_i content hcontent
      obtain ⟨parts, hparts, h⟩ := bind_eq_ok.mp h
      obtain ⟨items, hitems, h⟩ := bind_eq_ok.mp h
      cases h
      exact .inr (.inl ⟨content, parts, items, Token.enclosed?_eq_some hcontent, rfl,
        mapError_eq_ok.mp hparts, mapM_eq_ok hitems⟩)
    · exact .inr (.inr ⟨by simpa using hempty, mapError_eq_ok.mp h⟩)

end Reader

end FrameNotation
