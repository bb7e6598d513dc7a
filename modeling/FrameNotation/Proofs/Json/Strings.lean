import FrameNotation.Proofs.Frame.Plain
import FrameNotation.Proofs.Json
import FrameNotation.Proofs.Number.Digits

namespace FrameNotation

namespace Value

variable {n : Number} {s : Str} {value : Value} {items : List Value} {entries : Entries Value}

mutual

-- The strings in the JSON of a value, from the left: texts, names in their order, each before what
-- stands under it, and frames as they are shown.
def strings : Value → List Str
  | .text s => [s]
  | .array items => stringsOfItems items
  | .record entries =>
    (Entries.sorted (stringsOfEntries entries)).flatMap fun entry => entry.1 :: entry.2
  | .frame node => node.display.toOption.toList
  | _ => []

def stringsOfItems : List Value → List Str
  | [] => []
  | item :: rest => strings item ++ stringsOfItems rest

def stringsOfEntries : List (Str × Value) → List (Str × List Str)
  | [] => []
  | (name, value) :: rest => (name, strings value) :: stringsOfEntries rest

end

theorem stringsOfItems_eq (items : List Value) : stringsOfItems items = items.flatMap strings := by
  induction items with
  | nil => rfl
  | cons item rest ih => rw [stringsOfItems, ih, List.flatMap_cons]

theorem stringsOfEntries_eq (entries : Entries Value) :
    stringsOfEntries entries = entries.map fun entry => (entry.1, entry.2.strings) := by
  induction entries with
  | nil => rfl
  | cons entry rest ih => rw [stringsOfEntries, ih, List.map_cons]

theorem strings_array : (array items).strings = items.flatMap strings := by
  rw [strings, stringsOfItems_eq]

theorem strings_record : (record entries).strings =
    (Entries.sorted entries).flatMap fun entry => entry.1 :: entry.2.strings := by
  rw [strings, stringsOfEntries_eq, Entries.sorted_map, List.flatMap_map]

-- A text is a leaf of a value: the value itself, or a leaf of an item or of an attribute, or the
-- type of a frame.
inductive Leaf (s : Str) : Value → Prop
  | text : Leaf s (.text s)
  | item {items : List Value} {item : Value} (hitem : item ∈ items) (h : Leaf s item) :
      Leaf s (.array items)
  | frameType {attributes : Entries Value} : Leaf s (.frame ⟨.text s, attributes⟩)
  | frameEntry {node : Frame} {entry : Str × Value} (hentry : entry ∈ node.attributes)
      (h : Leaf s entry.2) : Leaf s (.frame node)

theorem mem_strings_entry {entry : Str × Value} (hentry : entry ∈ entries)
    (h : s ∈ entry.2.strings) : s ∈ (record entries).strings := by
  rw [strings_record, List.mem_flatMap]
  exact ⟨entry, (Entries.perm_sorted entries).mem_iff.mpr hentry, List.mem_cons_of_mem _ h⟩

theorem mem_strings_thaw (h : value.Leaf s) : s ∈ value.thaw.strings := by
  induction h with
  | text => exact List.mem_singleton_self s
  | @item items item hitem _ ih =>
      rw [thaw, strings_array, thawItems_eq, List.mem_flatMap]
      exact ⟨item.thaw, List.mem_map_of_mem hitem, ih⟩
  | frameType =>
      rw [thaw]
      exact mem_strings_entry List.mem_cons_self (List.mem_singleton_self s)
  | @frameEntry node entry hentry _ ih =>
      obtain ⟨type, attributes⟩ := node
      have hthawed : (entry.1, entry.2.thaw) ∈ thawEntries attributes := by
        rw [thawEntries_eq]
        exact List.mem_map_of_mem hentry
      rw [thaw]
      exact mem_strings_entry (List.mem_cons_of_mem _ hthawed) ih

-- The plain form of a value mentions the numbers that the value mentions.
theorem mentions_thaw : value.thaw.Mentions n ↔ value.Mentions n := by
  induction value using Value.induction with
  | array items ih =>
      rw [thaw, thawItems_eq]
      constructor
      · intro h
        cases h with
        | item hthawed h =>
            obtain ⟨item, hitem, rfl⟩ := List.mem_map.mp hthawed
            exact .item hitem ((ih item hitem).mp h)
      · intro h
        cases h with
        | item hitem h => exact .item (List.mem_map_of_mem hitem) ((ih _ hitem).mpr h)
  | frame node _ ih =>
      obtain ⟨type, attributes⟩ := node
      rw [thaw, thawEntries_eq]
      constructor
      · intro h
        cases h with
        | entry hthawed h =>
            rcases List.mem_cons.mp hthawed with rfl | hthawed
            · exact .frameType h
            · obtain ⟨entry, hentry, rfl⟩ := List.mem_map.mp hthawed
              exact .frameEntry hentry ((ih entry hentry).mp h)
      · intro h
        cases h with
        | frameType h => exact .entry List.mem_cons_self h
        | @frameEntry _ entry hentry h =>
            exact .entry (List.mem_cons_of_mem _ (List.mem_map_of_mem hentry))
              ((ih entry hentry).mpr h)
  | _ => exact Iff.rfl

theorem keepsDigits_thaw : value.thaw.KeepsDigits ↔ value.KeepsDigits :=
  forall_congr' fun _ => imp_congr_left mentions_thaw

end Value

namespace Json

variable {value : Value} {items : List Value} {entries : Entries Value} {cs : List CodePoint}

theorem exists_canonicalItems_iff : (∃ parts, canonicalItems items = .ok parts) ↔
    ∀ item ∈ items, ∃ part, canonicalChars item = .ok part := by
  simp only [canonicalItems_eq_ok, exists_forall₂_iff]

theorem exists_sequence_iff : (∃ parts, sequence (canonicalEntries entries) = .ok parts) ↔
    ∀ entry ∈ entries, ∃ part, canonicalChars entry.2 = .ok part := by
  simp only [sequence_eq_ok, exists_forall₂_iff, IsMember]
  refine forall₂_congr fun entry _ => ⟨?_, ?_⟩
  · rintro ⟨_, text, htext, -⟩
    exact ⟨text, htext⟩
  · rintro ⟨text, htext⟩
    exact ⟨_, text, htext, rfl⟩

-- A value of finite numbers has a JSON text exactly if all of its integers can be shown.
theorem exists_canonicalChars_iff (hfinite : ∀ n, value.Mentions n → n.isFinite = true) :
    (∃ cs, canonicalChars value = .ok cs) ↔ value.KeepsDigits := by
  induction value using Value.induction with
  | null => exact iff_of_true ⟨_, rfl⟩ fun _ h => nomatch h
  | bool b => exact iff_of_true ⟨_, rfl⟩ fun _ h => nomatch h
  | text s => exact iff_of_true ⟨_, rfl⟩ fun _ h => nomatch h
  | number n =>
      rw [canonicalChars, number, if_pos (hfinite n .number), exists_map_iff,
        Value.exists_display_number_iff, Value.keepsDigits_number]
  | array items ih =>
      rw [canonicalChars, exists_bind_pure_iff, exists_canonicalItems_iff,
        Value.keepsDigits_array]
      exact forall₂_congr fun item hitem => ih item hitem fun n hn => hfinite n (.item hitem hn)
  | record entries ih =>
      rw [canonicalChars, exists_bind_pure_iff, sorted_canonicalEntries, exists_sequence_iff,
        Value.keepsDigits_record]
      simp only [(Entries.perm_sorted entries).mem_iff]
      exact forall₂_congr fun entry hentry =>
        ih entry hentry fun n hn => hfinite n (.entry hentry hn)
  | frame node _ _ =>
      rw [canonicalChars, exists_bind_pure_iff]
      exact Value.exists_display_iff

section Numbers

-- What numbers are written with.
def isNumberChar (c : CodePoint) : Bool := c.isDigit || ("-+.einfa" : Str).toList.contains c

theorem isNumberChar_digitChars (n : Nat) : ∀ c ∈ Decimal.digitChars n, isNumberChar c = true := by
  intro c hc
  rw [isNumberChar, Decimal.isDigit_digitChars hc, Bool.true_or]

theorem isNumberChar_replicate (count : Nat) :
    ∀ c ∈ List.replicate count (char '0'), isNumberChar c = true := by
  intro c hc
  rw [List.eq_of_mem_replicate hc]
  rfl

theorem isNumberChar_exponentChars (exponent : Int) :
    ∀ c ∈ Decimal.exponentChars exponent, isNumberChar c = true := by
  have hdigits := isNumberChar_digitChars exponent.natAbs
  simp only [Decimal.exponentChars, List.forall_mem_cons]
  refine ⟨rfl, by split_ifs <;> rfl, ?_⟩
  split_ifs
  · exact List.forall_mem_cons.mpr ⟨rfl, hdigits⟩
  · exact hdigits

theorem isNumberChar_positional (d : Decimal) : ∀ c ∈ d.positional, isNumberChar c = true := by
  have hdigits := isNumberChar_digitChars d.digits
  simp only [Decimal.positional]
  split_ifs
  · exact List.forall_mem_append.mpr ⟨hdigits, isNumberChar_replicate _⟩
  · refine List.forall_mem_append.mpr ⟨fun c hc => hdigits c (List.mem_of_mem_take hc), ?_⟩
    exact List.forall_mem_cons.mpr ⟨rfl, fun c hc => hdigits c (List.mem_of_mem_drop hc)⟩
  · refine List.forall_mem_append.mpr ⟨?_, hdigits⟩
    exact List.forall_mem_cons.mpr ⟨rfl, List.forall_mem_cons.mpr ⟨rfl, isNumberChar_replicate _⟩⟩

theorem isNumberChar_scientific (d : Decimal) : ∀ c ∈ d.scientific, isNumberChar c = true := by
  have hexponent := isNumberChar_exponentChars d.leading
  have hdigits := isNumberChar_digitChars d.digits
  unfold Decimal.scientific
  split
  · exact List.forall_mem_nil _
  · next c hchars =>
      rw [hchars, List.forall_mem_cons] at hdigits
      exact List.forall_mem_cons.mpr ⟨hdigits.1, hexponent⟩
  · next c rest _ hchars =>
      rw [hchars, List.forall_mem_cons] at hdigits
      refine List.forall_mem_cons.mpr ⟨hdigits.1, List.forall_mem_cons.mpr ⟨rfl, ?_⟩⟩
      exact List.forall_mem_append.mpr ⟨hdigits.2, hexponent⟩

theorem isNumberChar_display (d : Decimal) : ∀ c ∈ d.display, isNumberChar c = true := by
  unfold Decimal.display
  split_ifs
  · exact isNumberChar_scientific d
  · exact List.forall_mem_append.mpr ⟨isNumberChar_positional d, by decide⟩
  · exact isNumberChar_positional d

theorem isNumberChar_signed {negative : Bool} (h : ∀ c ∈ cs, isNumberChar c = true) :
    ∀ c ∈ Number.signed negative cs, isNumberChar c = true := by
  cases negative with
  | false => exact h
  | true => exact List.forall_mem_cons.mpr ⟨rfl, h⟩

theorem isNumberChar_floatChars (x : Float) :
    ∀ c ∈ Number.floatChars Decimal.display x, isNumberChar c = true := by
  unfold Number.floatChars
  split
  · decide
  · exact isNumberChar_signed (by decide)
  · exact isNumberChar_signed (isNumberChar_display _)

theorem isNumberChar_number {n : Number} (h : number n = .ok cs) :
    ∀ c ∈ cs, isNumberChar c = true := by
  unfold number at h
  split_ifs at h
  obtain ⟨shown, hshown, rfl⟩ := map_eq_ok.mp h
  cases n with
  | int i =>
      rw [Number.display] at hshown
      obtain ⟨chars, hchars, rfl⟩ := map_eq_ok.mp hshown
      unfold Number.intChars at hchars
      split_ifs at hchars
      cases hchars
      exact isNumberChar_signed (isNumberChar_digitChars _)
  | float x =>
      cases hshown
      exact isNumberChar_floatChars x
  | nan label =>
      cases hshown
      exact isNumberChar_floatChars _

-- The JSON of a number holds no quotes.
theorem quote_notMem_number {n : Number} (h : number n = .ok cs) : char '"' ∉ cs :=
  fun hquote => absurd (isNumberChar_number h _ hquote) (by decide)

end Numbers

end Json

end FrameNotation
