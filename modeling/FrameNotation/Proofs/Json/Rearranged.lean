import FrameNotation.Proofs.Json
import FrameNotation.Proofs.Frame.Display

namespace FrameNotation

namespace Value

-- What JSON has forms of its own for, doubles left aside: null, truth values, integers of no more
-- digits than may be written, texts, and arrays and records of such values. A record repeats no
-- name.
inductive IsJson : Value → Prop
  | null : IsJson .null
  | bool (b : Bool) : IsJson (.bool b)
  | int (i : Int) (hdigits : i.natAbs < tenPow maxDigits) : IsJson (.number (.int i))
  | text (s : Str) : IsJson (.text s)
  | array (items : List Value) (hitems : ∀ item ∈ items, IsJson item) : IsJson (.array items)
  | record (entries : Entries Value) (hnames : (Entries.names entries).Nodup)
      (hentries : ∀ entry ∈ entries, IsJson entry.2) : IsJson (.record entries)

-- One value comes from another by changes to the order of entries: of the value itself if it is a
-- record, and of records in entries and in arrays at any depth. All else stays as it is.
inductive Rearranged : Value → Value → Prop
  | refl (value : Value) : Rearranged value value
  | trans {a b c : Value} (hfirst : Rearranged a b) (hsecond : Rearranged b c) : Rearranged a c
  | order {entries others : Entries Value} (h : entries.Perm others) :
      Rearranged (.record entries) (.record others)
  | entry (front back : Entries Value) (name : Str) {value other : Value}
      (h : Rearranged value other) :
      Rearranged (.record (front ++ (name, value) :: back))
        (.record (front ++ (name, other) :: back))
  | item (front back : List Value) {value other : Value} (h : Rearranged value other) :
      Rearranged (.array (front ++ value :: back)) (.array (front ++ other :: back))

mutual

-- A value with other texts and other names.
def retold (tell : Str → Str) : Value → Value
  | .text s => .text (tell s)
  | .array items => .array (retoldItems tell items)
  | .record entries => .record (retoldEntries tell entries)
  | value => value

def retoldItems (tell : Str → Str) : List Value → List Value
  | [] => []
  | item :: rest => retold tell item :: retoldItems tell rest

def retoldEntries (tell : Str → Str) : List (Str × Value) → List (Str × Value)
  | [] => []
  | (name, content) :: rest => (tell name, retold tell content) :: retoldEntries tell rest

end

variable {a b : Value} {items others : List Value} {entries peers : Entries Value}
variable {tell : Str → Str}

theorem retold_array : (array items).retold tell = .array (items.map (retold tell)) := by
  have hitems : retoldItems tell items = items.map (retold tell) := by
    induction items with
    | nil => rfl
    | cons item rest ih => rw [retoldItems, ih, List.map_cons]
  rw [retold, hitems]

theorem retold_record : (record entries).retold tell =
    .record (entries.map fun entry => (tell entry.1, entry.2.retold tell)) := by
  have hentries :
      retoldEntries tell entries = entries.map fun entry => (tell entry.1, entry.2.retold tell) := by
    induction entries with
    | nil => rfl
    | cons entry rest ih => rw [retoldEntries, ih, List.map_cons]
  rw [retold, hentries]

namespace Rearranged

theorem array (h : List.Forall₂ Rearranged items others) :
    (array items).Rearranged (array others) := by
  have hbehind (front : List Value) :
      (Value.array (front ++ items)).Rearranged (.array (front ++ others)) := by
    induction h generalizing front with
    | nil => exact .refl _
    | @cons item other rest _ hfirst _ ih =>
        have hrest := ih (front ++ [other])
        simp only [List.append_assoc, List.singleton_append] at hrest
        exact .trans (.item front rest hfirst) hrest
  exact hbehind []

theorem record (h : entries.Aligned Rearranged peers) :
    (record entries).Rearranged (record peers) := by
  have hbehind (front : Entries Value) :
      (Value.record (front ++ entries)).Rearranged (.record (front ++ peers)) := by
    induction h generalizing front with
    | nil => exact .refl _
    | @cons entry other rest _ hfirst _ ih =>
        have hrest := ih (front ++ [other])
        simp only [List.append_assoc, List.singleton_append] at hrest
        refine .trans (.entry front rest entry.1 hfirst.2) ?_
        rw [← hfirst.1]
        exact hrest
  exact hbehind []

theorem isJson (h : a.Rearranged b) (ha : a.IsJson) : b.IsJson := by
  induction h with
  | refl value => exact ha
  | trans _ _ ihfirst ihsecond => exact ihsecond (ihfirst ha)
  | order hperm =>
      cases ha with
      | record _ hnames hentries =>
          refine .record _ ((hperm.map Prod.fst).nodup_iff.mp hnames) fun entry hentry => ?_
          exact hentries entry (hperm.mem_iff.mpr hentry)
  | entry front back name _ ih =>
      cases ha with
      | record _ hnames hentries =>
          exact .record _ (Entries.names_replace ▸ hnames) (forall_mem_replace hentries ih)
  | item front back _ ih =>
      cases ha with
      | array _ hitems => exact .array _ (forall_mem_replace hitems ih)

theorem retold (h : a.Rearranged b) (tell : Str → Str) :
    (a.retold tell).Rearranged (b.retold tell) := by
  induction h with
  | refl value => exact .refl _
  | trans _ _ ihfirst ihsecond => exact .trans ihfirst ihsecond
  | order hperm =>
      rw [retold_record, retold_record]
      exact .order (hperm.map _)
  | entry front back name _ ih =>
      rw [retold_record, retold_record, List.map_append, List.map_append, List.map_cons,
        List.map_cons]
      exact .entry _ _ _ ih
  | item front back _ ih =>
      rw [retold_array, retold_array, List.map_append, List.map_append, List.map_cons,
        List.map_cons]
      exact .item _ _ ih

theorem eq_text {s : Str} (h : a.Rearranged b) (ha : a = .text s) : b = .text s := by
  induction h with
  | refl value => exact ha
  | trans _ _ ihfirst ihsecond => exact ihsecond (ihfirst ha)
  | order | entry | item => cases ha

end Rearranged

-- Such a value has a canonical text.
theorem IsJson.exists_canonicalChars (h : a.IsJson) : ∃ cs, Json.canonicalChars a = .ok cs := by
  induction h with
  | null => exact ⟨_, rfl⟩
  | bool b => exact ⟨_, rfl⟩
  | int i hdigits =>
      rw [Json.canonicalChars_int]
      exact exists_intChars_iff.mpr hdigits
  | text s => exact ⟨_, rfl⟩
  | array items _ ih =>
      obtain ⟨parts, hparts⟩ := exists_forall₂ ih
      rw [Json.canonicalChars, Json.canonicalItems_eq_ok.mpr hparts]
      exact ⟨_, rfl⟩
  | record entries _ _ ih =>
      have hmembers : ∀ entry ∈ Entries.sorted entries, ∃ part, Json.IsMember entry part := by
        intro entry hentry
        obtain ⟨text, htext⟩ := ih entry ((Entries.perm_sorted entries).mem_iff.mp hentry)
        exact ⟨_, text, htext, rfl⟩
      obtain ⟨parts, hparts⟩ := exists_forall₂ hmembers
      rw [Json.canonicalChars, Json.sorted_canonicalEntries, Json.sequence_eq_ok.mpr hparts]
      exact ⟨_, rfl⟩

-- The order of entries does not show in the canonical text.
theorem Rearranged.canonicalChars_eq (h : a.Rearranged b) (ha : a.IsJson) :
    Json.canonicalChars a = Json.canonicalChars b := by
  induction h with
  | refl value => rfl
  | trans hfirst _ ihfirst ihsecond => exact (ihfirst ha).trans (ihsecond (hfirst.isJson ha))
  | order hperm =>
      cases ha with
      | record _ hnames _ => exact Json.canonicalChars_perm hperm hnames
  | entry front back name _ ih =>
      cases ha with
      | record _ _ hentries =>
          simp only [Json.canonicalChars, Json.canonicalEntries_eq, List.map_append, List.map_cons,
            ih (hentries (name, _) (by simp))]
  | item front back _ ih =>
      cases ha with
      | array _ hitems =>
          rw [Json.canonicalChars, Json.canonicalChars,
            Json.canonicalItems_congr front back (ih (hitems _ (by simp)))]

end Value

end FrameNotation
