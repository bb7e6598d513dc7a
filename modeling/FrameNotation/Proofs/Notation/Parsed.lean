import FrameNotation.Proofs.Notation.Carried
import FrameNotation.Proofs.Notation.Grammar

namespace FrameNotation

open Text Layout

variable {cs token : List CodePoint} {value : Value}

-- What a role can be that notation names.
def IsReadRole (name : Str) : Prop :=
  name.toList ≠ [] ∧ ∀ c ∈ name.toList, Token.isRoleChar c = true ∧ isBlank c = false

instance {name : Str} : Decidable (IsReadRole name) :=
  have : Decidable (∀ c ∈ name.toList, Token.isRoleChar c = true ∧ isBlank c = false) :=
    List.decidableBAll _ _
  inferInstanceAs (Decidable (_ ∧ _))

-- What every value keeps to that notation stands for.
def Limits.read : Limits where
  number n := (∃ i : Int, n = .int i ∧ i.natAbs < tenPow maxDigits) ∨ ∃ x, n = .float x
  text _ := True
  role := IsReadRole
  void := False

section Numbers

theorem number_of_numeral {numeral : Numeral} {n : Number} (h : numeral.value = .ok n) :
    Limits.read.number n := by
  unfold Numeral.value at h
  split at h
  · obtain ⟨i, hi, rfl⟩ := map_eq_ok.mp h
    obtain ⟨natural, hnatural, ⟨⟩⟩ := bind_eq_ok.mp hi
    have hlt := lt_tenPow_of_readDigits hnatural
    refine .inl ⟨_, rfl, ?_⟩
    split <;> simpa using hlt
  · cases h
    exact .inr ⟨_, rfl⟩

end Numbers

section Roles

theorem isRoleChar_of_isDigit {c : CodePoint} (hc : c.isDigit = true) :
    Token.isRoleChar c = true ∧ isBlank c = false := by
  refine ⟨Token.isRoleChar_eq_true.mpr ⟨?_, ?_, ?_, ?_, ?_, ?_, ?_⟩,
    isBlank_of_isAlphanum (CodePoint.isAlphanum_of_isDigit hc)⟩ <;>
  · rintro rfl
    exact absurd hc (by decide)

-- The role of a place is a word of its type, or a numbered one.
theorem defaultRole_cases (type : FrameType) (index : Nat) :
    type.roles[index]? = some (defaultRole type.name index) ∨
      defaultRole type.name index = "property_" ++ toString (index + 1) := by
  have hroles : rolesOf type.name = type.roles := by
    cases type <;> rfl
  unfold defaultRole
  rw [hroles]
  cases hrole : type.roles[index]? with
  | some role => exact .inl rfl
  | none => exact .inr rfl

theorem forall_mem_defaultRole (holds : CodePoint → Bool) (type : FrameType) (index : Nat)
    (hroles : (("property_" : Str) :: type.roles).all (fun name => name.toList.all holds) = true)
    (hdigit : ∀ c, c.isDigit = true → holds c = true) :
    ∀ c ∈ (defaultRole type.name index).toList, holds c = true := by
  have hword : ∀ name ∈ ("property_" : Str) :: type.roles, ∀ c ∈ name.toList, holds c = true := by
    simpa only [List.all_eq_true] using hroles
  rcases defaultRole_cases type index with hrole | hnumbered
  · exact hword _ (List.mem_cons_of_mem _ (List.mem_of_getElem? hrole))
  · rw [hnumbered]
    exact forall_mem_numbered _ (hword "property_" List.mem_cons_self) hdigit

theorem defaultRole_ne_nil (type : FrameType) (index : Nat) :
    (defaultRole type.name index).toList ≠ [] := by
  rcases defaultRole_cases type index with hrole | hnumbered
  · have hroles : ∀ name ∈ type.roles, name.toList ≠ [] := by
      cases type <;> decide
    exact hroles _ (List.mem_of_getElem? hrole)
  · rw [hnumbered]
    simp

-- No comma stands in it either.
theorem isRoleChar_defaultRole (type : FrameType) (index : Nat) :
    ∀ c ∈ (defaultRole type.name index).toList,
      Token.isRoleChar c = true ∧ c ≠ ',' ∧ isBlank c = false := by
  have hdigit (c : CodePoint) (hc : c.isDigit = true) :
      (Token.isRoleChar c && c != ',' && !isBlank c) = true := by
    obtain ⟨hrole, hblank⟩ := isRoleChar_of_isDigit hc
    have hcomma : c ≠ ',' := by
      rintro rfl
      exact absurd hc (by decide)
    simp [hrole, hcomma, hblank]
  have hchars := forall_mem_defaultRole _ type index (by cases type <;> decide) hdigit
  simpa [and_assoc] using hchars

theorem isReadRole_defaultRole (type : FrameType) (index : Nat) :
    IsReadRole (defaultRole type.name index) := by
  refine ⟨defaultRole_ne_nil type index, fun c hc => ?_⟩
  obtain ⟨hrole, -, hblank⟩ := isRoleChar_defaultRole type index c hc
  exact ⟨hrole, hblank⟩

-- Between blanks there is none in a role.
theorem isReadRole_of_isRoleOf {type : FrameType} {body : List (List CodePoint)} {name : Str}
    (hbody : ∀ token ∈ body, Nesting.through isBlank .start token = .ok .start)
    (h : Reader.IsRoleOf type.name body name) : IsReadRole name := by
  have hchars {role rest : List CodePoint} (hrole : ∀ c ∈ role, Token.isRoleChar c = true)
      (htoken : role ++ rest ∈ body) :
      ∀ c ∈ role, Token.isRoleChar c = true ∧ isBlank c = false := fun c hc =>
    ⟨hrole c hc, Nesting.separates_eq_false (fun d hd => isPlain_of_isRoleChar (hrole d hd))
      (hbody _ htoken) c hc⟩
  rcases h with ⟨role, value, htoken, hrole, hne, rfl⟩ | ⟨role, htoken, hne, hrole, rfl⟩ |
    ⟨index, rfl⟩
  · have hclean := hchars hrole htoken
    rw [trim_of_forall fun c hc => (hclean c hc).2] at hne ⊢
    rw [IsReadRole, Str.toList_ofList]
    exact ⟨hne, hclean⟩
  · rw [IsReadRole, Str.toList_ofList]
    have hmem : role ++ [] ∈ body := by simpa using htoken
    exact ⟨hne, hchars hrole hmem⟩
  · exact isReadRole_defaultRole type index

end Roles

-- A frame that was read keeps to the limits if its values do.
theorem within_of_frame {read : List CodePoint → Except Failure Value} {node : Frame}
    (h : Reader.frame read cs = .ok node)
    (hread : ∀ part value, read part = .ok value → value.Within .read) :
    (Value.frame node).Within .read := by
  obtain ⟨content, first, body, type, entries, -, htokens, hentries, rfl⟩ := Reader.frame_eq_ok h
  obtain ⟨pieces, hcut, hfound⟩ := tokens_eq_ok htokens
  have hbody : ∀ token ∈ body, Nesting.through isBlank .start token = .ok .start := by
    intro token htoken
    have hmem : token ∈ first :: body := by simp [htoken]
    rw [hfound] at hmem
    obtain ⟨-, hpieces⟩ := Nesting.exists_of_mem_cut (fun _ => isPlain_of_isBlank) hcut
    obtain ⟨_, _, -, -, hthrough⟩ := hpieces token (List.mem_of_mem_filter hmem)
    exact hthrough
  have hvalues (entry : Str × Value) (hentry : entry ∈ Entries.without entries [discriminant]) :
      entry.2.Within .read := by
    obtain ⟨token, -, part, -, hvalue⟩ :=
      (hentries.isEntry entry (List.mem_of_mem_filter hentry)).source
    exact hread part _ hvalue
  refine .frame type _ ?_ ?_ ?_ ?_ fun entry hentry _ => hvalues entry hentry
  · exact hentries.nodup.sublist (List.Sublist.map _ List.filter_sublist)
  · exact Entries.notMem_without (List.mem_singleton_self discriminant)
  · intro entry hentry hnull
    have hwithin := hvalues entry hentry
    rw [hnull] at hwithin
    cases hwithin
  · intro entry hentry _
    exact isReadRole_of_isRoleOf hbody
      (hentries.isEntry entry (List.mem_of_mem_filter hentry)).role

-- Whatever is read keeps to the limits. The induction is on the levels that are left to read.
theorem within_of_value {levels : Nat} (h : Reader.value levels token = .ok value) :
    value.Within .read := by
  induction levels generalizing token value with
  | zero => cases h
  | succ levels ih =>
      rcases Reader.value_eq_ok h with ⟨content, node, -, rfl, hnode⟩ |
        ⟨content, parts, items, -, rfl, -, hitems⟩ | ⟨-, hscalar⟩
      · exact within_of_frame hnode fun _ _ => ih
      · refine .array items fun item hitem => ?_
        obtain ⟨part, -, hread⟩ := exists_mem_of_forall₂ hitems hitem
        exact ih hread
      · unfold Token.scalar at hscalar
        split at hscalar
        · cases hscalar
          exact .text _ trivial
        · split at hscalar
          · obtain ⟨n, hn, rfl⟩ := map_eq_ok.mp hscalar
            exact .number n (number_of_numeral hn)
          · split_ifs at hscalar <;> cases hscalar
            · exact .bool true
            · exact .bool false
            · exact .text _ trivial
            · exact .text _ trivial

theorem Node.within_of_ofText {text : Str} {frame : Frame} (h : Node.ofText text = .ok frame) :
    frame.Within .read :=
  within_of_frame h fun _ _ => within_of_value

end FrameNotation
