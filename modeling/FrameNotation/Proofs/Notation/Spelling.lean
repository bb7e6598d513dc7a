import FrameNotation.Proofs.Frame.Entries
import FrameNotation.Proofs.Notation.Parsed

namespace FrameNotation.Reader

open Text

-- Tokens spell pairs of a role and the text of its value, each pair in a form of its own: as one
-- token with a colon, as a role with a colon and a value, or as a role and a value.
inductive Spells : List (List CodePoint × List CodePoint) → List (List CodePoint) → Prop
  | nil : Spells [] []
  | joined {pairs : List (List CodePoint × List CodePoint)} {tokens : List (List CodePoint)}
      (role value : List CodePoint) (h : Spells pairs tokens) :
      Spells ((role, value) :: pairs) ((role ++ char ':' :: value) :: tokens)
  | marked {pairs : List (List CodePoint × List CodePoint)} {tokens : List (List CodePoint)}
      (role value : List CodePoint) (h : Spells pairs tokens) :
      Spells ((role, value) :: pairs) ((role ++ [char ':']) :: value :: tokens)
  | bare {pairs : List (List CodePoint × List CodePoint)} {tokens : List (List CodePoint)}
      (role value : List CodePoint) (h : Spells pairs tokens) :
      Spells ((role, value) :: pairs) (role :: value :: tokens)

-- A role and a text for its value that may stand side by side in any form.
structure IsSpellable (pair : List CodePoint × List CodePoint) : Prop where
  role_ne : pair.1 ≠ []
  role_chars : ∀ c ∈ pair.1, Token.isRoleChar c = true ∧ c ≠ ',' ∧ isBlank c = false
  value_ne : pair.2 ≠ []
  colonless : Token.hasRoleColon pair.2 = false

instance {pair : List CodePoint × List CodePoint} : Decidable (IsSpellable pair) :=
  have : Decidable (∀ c ∈ pair.1, Token.isRoleChar c = true ∧ c ≠ ',' ∧ isBlank c = false) :=
    List.decidableBAll _ _
  decidable_of_iff (pair.1 ≠ [] ∧
    (∀ c ∈ pair.1, Token.isRoleChar c = true ∧ c ≠ ',' ∧ isBlank c = false) ∧ pair.2 ≠ [] ∧
      Token.hasRoleColon pair.2 = false)
    ⟨fun ⟨hrole, hchars, hvalue, hcolon⟩ => ⟨hrole, hchars, hvalue, hcolon⟩,
      fun ⟨hrole, hchars, hvalue, hcolon⟩ => ⟨hrole, hchars, hvalue, hcolon⟩⟩

-- The roles with their values, which are read one after the other.
def assignments (read : List CodePoint → Except Failure Value)
    (pairs : List (List CodePoint × List CodePoint)) : Except Failure (Entries Value) :=
  pairs.mapM fun pair => (read pair.2).map fun value => (Str.ofList pair.1, value)

variable {read : List CodePoint → Except Failure Value}
variable {pairs : List (List CodePoint × List CodePoint)}
variable {tokens : List (List CodePoint)} {role value : List CodePoint}
variable {kept : Entries Value} {index : Nat}

theorem assignments_cons : assignments read ((role, value) :: pairs) =
    read value >>= fun content => (assignments read pairs).map
      ((Str.ofList role, content) :: ·) := by
  rw [assignments, List.mapM_cons]
  cases read value <;> rfl

namespace IsSpellable

variable (h : IsSpellable (role, value))
include h

theorem trim_eq : trim role = role := trim_of_forall fun c hc => (h.role_chars c hc).2.2

theorem roleSplit?_eq (rest : List CodePoint) :
    Token.roleSplit? (role ++ char ':' :: rest) = some (role, rest) :=
  Token.roleSplit?_append fun c hc => (h.role_chars c hc).1

theorem form_joined : Token.form (role ++ char ':' :: value) = .assigns role value := by
  have hrole : role.isEmpty = false := by simpa using h.role_ne
  have hvalue : value.isEmpty = false := by simpa using h.value_ne
  simp [Token.form, h.roleSplit?_eq, h.trim_eq, hrole, hvalue]

theorem form_marked : Token.form (role ++ [char ':']) = .names role := by
  have hrole : role.isEmpty = false := by simpa using h.role_ne
  simp [Token.form, h.roleSplit?_eq, h.trim_eq, hrole]

theorem form_bare : Token.form role = .names role := by
  have hnone : Token.roleSplit? role = none := by
    cases hsplit : Token.roleSplit? role with
    | none => rfl
    | some parts =>
        obtain ⟨hcolon, -⟩ := Token.roleSplit?_eq_some hsplit
        have hmem : char ':' ∈ role := by
          rw [hcolon]
          simp
        exact absurd (h.role_chars ':' hmem).1 (by decide)
  have hall : role.all (fun c => Token.isRoleChar c && c != ',') = true := by
    rw [List.all_eq_true]
    intro c hc
    simp [h.role_chars c hc]
  have hrole : role.isEmpty = false := by simpa using h.role_ne
  simp [Token.form, hnone, hall, hrole]

-- A token that names a role takes the next one for its value, which has no colon.
theorem explicitRoles_names {token : List CodePoint} {rest : List (List CodePoint)}
    (hform : Token.form token = .names role) :
    explicitRoles read index kept (token :: value :: rest) =
      read value >>= fun content =>
        explicitRoles read (index + 2) (kept.put (Str.ofList role) content) rest := by
  have hcolon : Token.hasRoleColon value = false := h.colonless
  rw [explicitRoles, hform]
  simp only [hcolon, Bool.false_eq_true, if_false]

end IsSpellable

-- Reading one value and putting it under its role leads to the assignments that start with it.
theorem assignments_putAll : (assignments read ((role, value) :: pairs)).map kept.putAll =
    read value >>= fun content =>
      (assignments read pairs).map (kept.put (Str.ofList role) content).putAll := by
  rw [assignments_cons]
  cases read value with
  | error failure => rfl
  | ok content =>
      rw [ok_bind, ok_bind]
      cases assignments read pairs <;> rfl

-- Whatever the forms, each step takes one pair and leaves the tokens of the others.
theorem explicitRoles_putAll (h : Spells pairs tokens)
    (hpairs : ∀ pair ∈ pairs, IsSpellable pair) :
    explicitRoles read index kept tokens = (assignments read pairs).map kept.putAll := by
  induction h generalizing index kept with
  | nil => rfl
  | joined role value _ ih =>
      have hpair := hpairs (role, value) (by simp)
      rw [explicitRoles, hpair.form_joined, assignments_putAll]
      exact bind_congr fun content => ih fun pair hmem => hpairs pair (by simp [hmem])
  | marked role value _ ih =>
      have hpair := hpairs (role, value) (by simp)
      rw [hpair.explicitRoles_names hpair.form_marked, assignments_putAll]
      exact bind_congr fun content => ih fun pair hmem => hpairs pair (by simp [hmem])
  | bare role value _ ih =>
      have hpair := hpairs (role, value) (by simp)
      rw [hpair.explicitRoles_names hpair.form_bare, assignments_putAll]
      exact bind_congr fun content => ih fun pair hmem => hpairs pair (by simp [hmem])

-- All spellings of pairs are read alike: as the roles in the order in which they first come, each
-- with the last of its values, unless one of the values cannot be read.
theorem explicitRoles_of_spells (h : Spells pairs tokens)
    (hpairs : ∀ pair ∈ pairs, IsSpellable pair) :
    explicitRoles read 1 [] tokens = (assignments read pairs).map Entries.ofList ∧
      ∀ found, assignments read pairs = .ok found →
        Entries.names (Entries.ofList found) = (Entries.names found).eraseDups ∧
        ∀ front entry back, found = front ++ entry :: back → entry.1 ∉ Entries.names back →
          Entries.get? (Entries.ofList found) entry.1 = some entry.2 := by
  refine ⟨explicitRoles_putAll h hpairs, fun found _ => ⟨Entries.names_ofList found, ?_⟩⟩
  rintro front entry back rfl hlast
  exact Entries.get?_ofList hlast

-- Three values for two roles, the first of which is named twice.
def servingPairs : List (List CodePoint × List CodePoint) :=
  [(("target" : Str).toList, ("(entity name:tea)" : Str).toList),
    (("agent" : Str).toList, ("$target" : Str).toList),
    (("target" : Str).toList, ("[1, true]" : Str).toList)]

theorem explicitRoles_servingPairs : ∃ tokens : List (List CodePoint),
    tokens = (["target:(entity name:tea)", "agent:", "$target", "target", "[1, true]"] :
      List Str).map Str.toList ∧
    Spells servingPairs tokens ∧ (∀ pair ∈ servingPairs, IsSpellable pair) ∧
      explicitRoles Value.read 1 [] tokens =
        .ok [("target", .array [.number (.int 1), .bool true]), ("agent", .text "$target")] := by
  have hspells : Spells servingPairs
      ((["target:(entity name:tea)", "agent:", "$target", "target", "[1, true]"] :
        List Str).map Str.toList) := .joined _ _ (.marked _ _ (.bare _ _ .nil))
  have hpairs : ∀ pair ∈ servingPairs, IsSpellable pair := by decide
  refine ⟨_, rfl, hspells, hpairs, (explicitRoles_of_spells hspells hpairs).1.trans ?_⟩
  rfl

end FrameNotation.Reader
