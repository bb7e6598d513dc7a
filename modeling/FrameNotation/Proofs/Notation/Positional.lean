import FrameNotation.Proofs.Notation.Spelling

namespace FrameNotation.Reader

open Text

variable {read : List CodePoint → Except Failure Value} {type : FrameType} {index : Nat}
variable {values : List (List CodePoint)} {kept entries found : Entries Value}

-- Values with the roles of their places, the first of which has the given index.
def placed (type : FrameType) (index : Nat) :
    List (List CodePoint) → List (List CodePoint × List CodePoint)
  | [] => []
  | value :: rest => ((defaultRole type.name index).toList, value) :: placed type (index + 1) rest

-- Each role glued to its value by a colon.
def glued (pairs : List (List CodePoint × List CodePoint)) : List (List CodePoint) :=
  pairs.map fun pair => pair.1 ++ char ':' :: pair.2

-- Attributes that hold the values in order, each under the role of its place.
structure Fills (read : List CodePoint → Except Failure Value) (type : FrameType)
    (values : List (List CodePoint)) (entries : Entries Value) : Prop where
  names_eq : Entries.names entries = (List.range values.length).map (defaultRole type.name)
  nodup : (Entries.names entries).Nodup
  reads : List.Forall₂ (fun value entry => read value = .ok entry.2) values entries

-- Different places have different roles.
theorem defaultRole_injective (type : FrameType) : (defaultRole type.name).Injective := by
  have hnodup : type.roles.Nodup := by
    cases type <;> decide
  have hproperty (other : Nat) : ("property_" ++ toString other : Str) ∉ type.roles := by
    intro hmem
    have hstart :
        ("property_" : Str).toList <+: ("property_" ++ toString other : Str).toList := by simp
    have hnone : ∀ role ∈ type.roles, ¬("property_" : Str).toList <+: role.toList := by
      cases type <;> decide
    exact hnone _ hmem hstart
  intro i j h
  rcases defaultRole_cases type i with hi | hi <;> rcases defaultRole_cases type j with hj | hj
  · obtain ⟨hlt, -⟩ := List.getElem?_eq_some_iff.mp hi
    rw [h, ← hj] at hi
    exact (List.getElem?_inj hlt hnodup).mp hi
  · exact absurd (List.mem_of_getElem? hi) (by rw [h, hj]; exact hproperty _)
  · exact absurd (List.mem_of_getElem? hj) (by rw [← h, hi]; exact hproperty _)
  · have hnumber := numbered_inj (hi.symm.trans (h.trans hj))
    omega

theorem isSpellable_defaultRole {value : List CodePoint} (hne : value ≠ [])
    (hcolon : Token.hasRoleColon value = false) :
    IsSpellable ((defaultRole type.name index).toList, value) :=
  ⟨defaultRole_ne_nil type index, isRoleChar_defaultRole type index, hne, hcolon⟩

theorem isSpellable_of_mem_placed
    (hvalues : ∀ value ∈ values, value ≠ [] ∧ Token.hasRoleColon value = false) :
    ∀ pair ∈ placed type index values, IsSpellable pair := by
  induction values generalizing index with
  | nil => exact nofun
  | cons value rest ih =>
      obtain ⟨⟨hne, hcolon⟩, hrest⟩ := List.forall_mem_cons.mp hvalues
      exact List.forall_mem_cons.mpr ⟨isSpellable_defaultRole hne hcolon, ih hrest⟩

theorem spells_glued (pairs : List (List CodePoint × List CodePoint)) :
    Spells pairs (glued pairs) := by
  induction pairs with
  | nil => exact .nil
  | cons pair rest ih => exact ih.joined pair.1 pair.2

-- Each step reads one value and puts it under the role of its place.
theorem positionalRoles_putAll : positionalRoles read type.name index kept values =
    (assignments read (placed type index values)).map kept.putAll := by
  induction values generalizing index kept with
  | nil => rfl
  | cons value rest ih =>
      rw [positionalRoles, placed, assignments_putAll, Str.ofList_toList]
      exact bind_congr fun content => ih

theorem assignments_placed (h : assignments read (placed type index values) = .ok found) :
    Entries.names found = (List.range' index values.length).map (defaultRole type.name) ∧
      List.Forall₂ (fun value entry => read value = .ok entry.2) values found := by
  induction values generalizing index found with
  | nil =>
      cases h
      exact ⟨rfl, .nil⟩
  | cons value rest ih =>
      rw [placed, assignments_cons, Str.ofList_toList] at h
      obtain ⟨content, hread, h⟩ := bind_eq_ok.mp h
      obtain ⟨others, hothers, rfl⟩ := map_eq_ok.mp h
      obtain ⟨hnames, hreads⟩ := ih hothers
      refine ⟨?_, .cons hread hreads⟩
      rw [Entries.names_cons, hnames, List.length_cons, List.range'_succ, List.map_cons]

theorem fills_of_positionalRoles
    (h : positionalRoles read type.name 0 [] values = .ok entries) :
    Fills read type values entries := by
  rw [positionalRoles_putAll] at h
  obtain ⟨found, hfound, rfl⟩ := map_eq_ok.mp h
  obtain ⟨hnames, hreads⟩ := assignments_placed hfound
  rw [← List.range_eq_range'] at hnames
  have hnodup : (Entries.names found).Nodup := by
    rw [hnames]
    exact List.nodup_range.map (defaultRole_injective type)
  have hsame : Entries.putAll [] found = found := Entries.ofList_eq_self hnodup
  rw [hsame]
  exact ⟨hnames, hnodup, hreads⟩

-- No place has the role that names the type of a frame.
theorem Fills.without_discriminant (h : Fills read type values entries) :
    Entries.without entries [discriminant] = entries := by
  refine List.filter_eq_self.mpr fun entry hentry => ?_
  have hmem : entry.1 ∈ Entries.names entries := List.mem_map_of_mem hentry
  rw [h.names_eq] at hmem
  obtain ⟨place, -, hplace⟩ := List.mem_map.mp hmem
  have hdifferent : entry.1 ≠ discriminant := by
    intro hname
    have hdigit (c : CodePoint) (hc : c.isDigit = true) : (c != 'T') = true := by
      rw [bne_iff_ne]
      rintro rfl
      exact absurd hc (by decide)
    have hchars := forall_mem_defaultRole _ type place (by cases type <;> decide) hdigit
    rw [hplace, hname] at hchars
    exact absurd (hchars 'T' (by decide)) (by decide)
  simp [hdifferent]

-- Bare values are shorthand for the values with the roles of their places in front, and none of
-- them is lost: if they can be read, the frame has exactly the attributes that they fill.
theorem positionalRoles_eq_glued
    (hvalues : ∀ value ∈ values, value ≠ [] ∧ Token.hasRoleColon value = false) :
    positionalRoles read type.name 0 [] values =
        explicitRoles read 1 [] (glued (placed type 0 values)) ∧
      ∀ entries, positionalRoles read type.name 0 [] values = .ok entries →
        Fills read type values entries ∧
        ∀ text content first, tokens content = .ok (first :: values) →
          Token.frameType first = .ok type →
            frameBody read text content = .ok ⟨.text type.name, entries⟩ := by
  constructor
  · rw [positionalRoles_putAll,
      explicitRoles_putAll (spells_glued _) (isSpellable_of_mem_placed hvalues)]
  · intro entries hentries
    have hfills := fills_of_positionalRoles hentries
    refine ⟨hfills, fun text content first htokens htype => ?_⟩
    have hcolon : values.any Token.hasRoleColon = false :=
      List.any_eq_false.mpr fun value hvalue => by simp [(hvalues value hvalue).2]
    have hroles : roles read type.name values = .ok entries := by
      rw [roles, hcolon]
      exact hentries
    simp only [frameBody, htokens, htype, mapError_ok, ok_bind, hroles, hfills.without_discriminant]
    rfl

-- Six values of a list, which has five roles.
def sixValues : List (List CodePoint) :=
  [("tea" : Str).toList, ("12" : Str).toList, ("[a, b]" : Str).toList,
    ("(query coffee)" : Str).toList, ("$item_1" : Str).toList, ("true" : Str).toList]

theorem positionalRoles_sixValues :
    (∀ value ∈ sixValues, value ≠ [] ∧ Token.hasRoleColon value = false) ∧
      glued (placed .list 4 [("$item_1" : Str).toList, ("true" : Str).toList]) =
        [("item_5:$item_1" : Str).toList, ("property_6:true" : Str).toList] ∧
      explicitRoles Value.read 1 [] (glued (placed .list 0 sixValues)) =
        .ok [("item_1", .text "tea"), ("item_2", .number (.int 12)),
          ("item_3", .array [.text "a", .text "b"]),
          ("item_4", .frame ⟨.text "query", [("action", .text "coffee")]⟩),
          ("item_5", .text "$item_1"), ("property_6", .bool true)] := by
  have hvalues : ∀ value ∈ sixValues, value ≠ [] ∧ Token.hasRoleColon value = false := by decide
  refine ⟨hvalues, rfl, ?_⟩
  exact (positionalRoles_eq_glued hvalues).1.symm.trans rfl

end FrameNotation.Reader
