import FrameNotation.Proofs.Compression.Repeated
import FrameNotation.Proofs.Frame.Sameness

namespace FrameNotation

open Compression

variable {a b c value : Value} {values kept front back : List Value} {entries : Entries Value}

-- An entry of a frame that repeats no name.
structure IsUnrepeatedEntry (entry : Str × Value) : Prop where
  name : entry.1 ≠ discriminant
  value : entry.2.Unrepeated

theorem keeps_isUnrepeatedEntry : Keeps IsUnrepeatedEntry := by
  constructor
  · intro items hitems
    have hname : targetListRole ≠ discriminant := by decide
    refine ⟨hname, .array items fun item hitem => ?_⟩
    obtain ⟨name, hentry, -⟩ := hitems item hitem
    exact hentry.value
  · intro name content index hentry
    exact ⟨item_ne_discriminant index, hentry.value⟩

theorem Value.Unrepeated.compress (h : value.Unrepeated) : value.compress.Unrepeated := by
  induction h with
  | array items _ ih =>
      rw [Value.compress, compressItems_eq]
      refine .array _ fun item hitem => ?_
      obtain ⟨source, hsource, rfl⟩ := List.mem_map.mp hitem
      exact ih source hsource
  | frame type attributes hnames hdiscriminant htype _ _ ih =>
      have hroles : ∀ entry ∈ rearranged type (compressEntries attributes),
          IsUnrepeatedEntry entry := by
        apply rearranged_forall keeps_isUnrepeatedEntry
        intro entry hentry
        obtain ⟨source, hsource, rfl⟩ := mem_compressEntries hentry
        refine ⟨fun hname => hdiscriminant ?_, ih source hsource⟩
        exact List.mem_map.mpr ⟨source, hsource, hname⟩
      rw [Value.compress, Node.compress]
      refine .frame type _ (nodup_rearranged (nodup_compressEntries hnames)) (fun hmem => ?_) htype
        fun entry hentry => (hroles entry hentry).value
      obtain ⟨entry, hentry, hname⟩ := List.mem_map.mp hmem
      exact (hroles entry hentry).name hname
  | null => exact .null
  | bool b => exact .bool b
  | number n => exact .number n
  | text s => exact .text s
  | record entries hnames hentries => exact .record entries hnames hentries

namespace Compression

theorem isSameItem_iff : isSameItem a b = true ↔
    a.kind = b.kind ∧ Value.equalsAt false false a b = true := by
  rw [isSameItem, Bool.and_eq_true, beq_iff_eq]
  rfl

theorem isSameItem_trans (h : isSameItem a b = true) (hother : isSameItem b c = true) :
    isSameItem a c = true := by
  rw [isSameItem_iff] at h hother ⊢
  exact ⟨h.1.trans hother.1, Value.equalsAt_trans h.2 hother.2⟩

theorem isSameItem_symm (ha : a.Unrepeated) (hb : b.Unrepeated) (h : isSameItem a b = true) :
    isSameItem b a = true := by
  rw [isSameItem_iff] at h ⊢
  exact ⟨h.1.symm, Value.equalsAt_symm ha hb h.2⟩

theorem isSameItem_of_same (h : a.same b = true) : isSameItem a b = true := by
  refine isSameItem_iff.mpr ⟨?_, Value.equalsAt_of_same h⟩
  cases a <;> cases b <;> simp_all [Value.same, Value.kind]

theorem distinctItems_append (kept front back : List Value) :
    distinctItems kept (front ++ back) =
      distinctItems kept front ++ distinctItems (kept ++ distinctItems kept front) back := by
  induction front generalizing kept with
  | nil => simp [distinctItems]
  | cons value rest ih =>
      rw [List.cons_append, distinctItems, distinctItems]
      split_ifs
      · exact ih kept
      · rw [ih, List.cons_append, List.append_assoc, List.singleton_append]

-- What is left out is one with something that stays before it.
theorem exists_isSameItem (kept : List Value) (h : value ∈ values) :
    value ∈ distinctItems kept values ∨
      ∃ other ∈ kept ++ distinctItems kept values, isSameItem other value = true := by
  induction values generalizing kept with
  | nil => cases h
  | cons first rest ih =>
      rw [distinctItems]
      split_ifs with hsame
      · rcases List.mem_cons.mp h with rfl | h
        · obtain ⟨other, hother, hsame⟩ := List.any_eq_true.mp hsame
          exact .inr ⟨other, by simp [hother], hsame⟩
        · exact ih kept h
      · rcases List.mem_cons.mp h with rfl | h
        · exact .inl List.mem_cons_self
        · have hlater := ih (kept ++ [first]) h
          rw [List.append_assoc, List.singleton_append] at hlater
          exact hlater.imp_left (List.mem_cons_of_mem first)

theorem isSameItem_distinctItems (hkept : a ∈ kept) (h : b ∈ distinctItems kept values) :
    isSameItem a b = false := by
  induction values generalizing kept with
  | nil => cases h
  | cons first rest ih =>
      rw [distinctItems] at h
      split_ifs at h with hsame
      · exact ih hkept h
      · rcases List.mem_cons.mp h with rfl | h
        · rw [← Bool.not_eq_true]
          exact fun hone => hsame (List.any_eq_true.mpr ⟨a, hkept, hone⟩)
        · exact ih (List.mem_append_left _ hkept) h

theorem pairwise_distinctItems (kept values : List Value) :
    (distinctItems kept values).Pairwise fun a b => isSameItem a b = false := by
  induction values generalizing kept with
  | nil => exact .nil
  | cons first rest ih =>
      rw [distinctItems]
      split_ifs
      · exact ih kept
      · exact .cons (fun b hb => isSameItem_distinctItems (by simp) hb) (ih _)

theorem eq_of_isSameItem (ha : a ∈ distinctItems kept values) (hb : b ∈ distinctItems kept values)
    (h : isSameItem a b = true) (hback : isSameItem b a = true) : a = b := by
  have hapart : (distinctItems kept values).Pairwise fun x y =>
      ¬(isSameItem x y = true ∧ isSameItem y x = true) := by
    refine (pairwise_distinctItems kept values).imp fun hone hboth => ?_
    rw [hone] at hboth
    exact Bool.false_ne_true hboth.1
  have hsymm : Std.Symm fun x y => ¬(isSameItem x y = true ∧ isSameItem y x = true) :=
    ⟨fun _ _ hnot hboth => hnot hboth.symm⟩
  by_contra hne
  exact hapart.forall ha hb hne ⟨h, hback⟩

-- Of any number of values from the first one on, something is left that is the same as each of them,
-- those with a number that is nowhere aside.
def CoversEach (values left : List Value) : Prop :=
  ∀ front back, values = front ++ back → ∃ first rest, left = first ++ rest ∧
    first.Sublist front ∧ rest.Sublist back ∧
      ∀ value ∈ front, value.Definite → ∃ other ∈ first, other.same value = true

theorem coversEach_distinctItems_iff (hfree : ∀ value ∈ values, value.Unrepeated) :
    CoversEach values (distinctItems [] values) ↔ ∀ value ∈ values, ∀ other ∈ values,
      other.Definite → isSameItem value other = true → value.same other = true := by
  constructor
  · intro h value hvalue other hother hdefinite hone
    obtain ⟨first, rest, hleft, -, hrest, hcovers⟩ := h values [] (by simp)
    obtain rfl := List.sublist_nil.mp hrest
    rw [List.append_nil] at hleft
    have hexact : value.Definite :=
      Value.definite_of_equals (isSameItem_iff.mp hone).2 hdefinite
    obtain ⟨a, ha, hvalueSame⟩ := hcovers value hvalue hexact
    obtain ⟨b, hb, hotherSame⟩ := hcovers other hother hdefinite
    rw [← hleft] at ha hb
    have hvalueBack : value.same a = true :=
      Value.same_symm (hfree a (distinctItems_subset a ha)) (hfree value hvalue) hvalueSame
    have hotherBack : other.same b = true :=
      Value.same_symm (hfree b (distinctItems_subset b hb)) (hfree other hother) hotherSame
    have honeBack := isSameItem_symm (hfree value hvalue) (hfree other hother) hone
    -- What both are the same as cannot be two values, since these would be one item.
    have hab : isSameItem a b = true := isSameItem_trans (isSameItem_of_same hvalueSame)
      (isSameItem_trans hone (isSameItem_of_same hotherBack))
    have hba : isSameItem b a = true := isSameItem_trans (isSameItem_of_same hotherSame)
      (isSameItem_trans honeBack (isSameItem_of_same hvalueBack))
    obtain rfl := eq_of_isSameItem ha hb hab hba
    exact Value.same_trans hvalueBack hotherSame
  · intro h front back hvalues
    refine ⟨distinctItems [] front, distinctItems (distinctItems [] front) back, ?_,
      distinctItems_sublist _ _, distinctItems_sublist _ _, fun value hvalue hdefinite => ?_⟩
    · rw [hvalues, distinctItems_append, List.nil_append]
    · have hmem : value ∈ values := by simp [hvalues, hvalue]
      rcases exists_isSameItem [] hvalue with hleft | ⟨other, hother, hone⟩
      · exact ⟨value, hleft, Value.same_of_definite (hfree value hmem) hdefinite⟩
      · rw [List.nil_append] at hother
        have hbefore : other ∈ values := by simp [hvalues, distinctItems_subset other hother]
        exact ⟨other, hother, h other hbefore value hmem hdefinite hone⟩

end Compression

-- The roles of items that are numbered from one on.
def itemRoles (count : Nat) : List Str :=
  (List.range' 1 count).map fun index => itemMark ++ toString index

theorem names_itemsOf_dedupeItems
    (hfewer : (distinctItems [] ((itemsOf entries).map Prod.snd)).length <
      (itemsOf entries).length) : Entries.names (itemsOf (dedupeItems entries)) =
        itemRoles (distinctItems [] ((itemsOf entries).map Prod.snd)).length := by
  rw [itemsOf_dedupeItems hfewer, Entries.names, List.map_map, itemRoles, ← List.zipIdx_map_snd,
    List.map_map]
  rfl

namespace Node

variable {frame : Frame}

def items (frame : Frame) : List Value := (itemsOf frame.attributes).map Prod.snd

-- The frame before its own roles are rearranged: without void attributes, and with all frames in it
-- compressed.
def prepared (frame : Frame) : Frame := ⟨frame.type, compressEntries frame.attributes⟩

theorem attributes_compress_list (htype : frame.type = .text "list") :
    frame.compress.attributes = dedupeItems frame.prepared.attributes := by
  rw [compress_attributes, htype]
  rfl

theorem items_compress_list (htype : frame.type = .text "list") :
    frame.compress.items = distinctItems [] frame.prepared.items := by
  rw [items, attributes_compress_list htype, values_dedupeItems]
  rfl

-- Of the items of a list something is left for each that is the same, in the order in which they
-- first stand, exactly if no two of them that count as one differ in the kind of a value inside.
-- Those left of more than there were have the numbers from one on, and no other attribute changes.
theorem coversEach_compress_iff (frame : Frame) (htype : frame.type = .text "list")
    (hfree : (Value.frame frame).Unrepeated) :
    (CoversEach frame.prepared.items frame.compress.items ↔
      ∀ value ∈ frame.prepared.items, ∀ other ∈ frame.prepared.items,
        other.Definite → isSameItem value other = true → value.same other = true) ∧
    (frame.compress.items.length < frame.prepared.items.length →
      Entries.names (itemsOf frame.compress.attributes) =
        itemRoles frame.compress.items.length) ∧
    frame.compress.attributes.filter (fun entry => !isItemRole entry.1) =
      frame.prepared.attributes.filter fun entry => !isItemRole entry.1 := by
  refine ⟨?_, fun hfewer => ?_, ?_⟩
  · rw [items_compress_list htype]
    apply coversEach_distinctItems_iff
    intro value hvalue
    obtain ⟨entry, hentry, rfl⟩ := List.mem_map.mp hvalue
    obtain ⟨source, hsource, rfl⟩ := mem_compressEntries (List.mem_of_mem_filter hentry)
    cases hfree with
    | frame _ _ _ _ _ hattributes => exact (hattributes source hsource).compress
  · rw [items_compress_list htype] at hfewer ⊢
    rw [attributes_compress_list htype]
    exact names_itemsOf_dedupeItems (by simpa [items] using hfewer)
  · rw [attributes_compress_list htype, filter_dedupeItems]

-- A list with a gap in its numbers, and with a frame that comes again without its empty array.
def priceList : Frame :=
  ⟨.text "list", [("item_4", .number (.int 1)), ("title", .text "prices"), ("item_2", .bool true),
    ("item_9", .frame ⟨.text "entity", [("price", .number (.int 1))]⟩),
    ("item_7", .frame ⟨.text "entity", [("tags", .array []), ("price", .number (.int 1))]⟩)]⟩

theorem coversEach_compress_priceList :
    priceList.type = .text "list" ∧ (Value.frame priceList).Unrepeated ∧
      CoversEach priceList.prepared.items priceList.compress.items ∧
        Entries.names (itemsOf priceList.compress.attributes) =
          (["item_1", "item_2", "item_3"] : List Str) := by
  have hone : (Value.number (.int 1)).Unrepeated := .number _
  have hfree : (Value.frame priceList).Unrepeated := by
    refine .frame _ _ (by decide) (by decide) (.text _) ?_
    simp only [List.forall_mem_cons]
    refine ⟨.number _, .text _, .bool _, .frame _ _ (by decide) (by decide) (.text _) ?_,
      .frame _ _ (by decide) (by decide) (.text _) ?_, nofun⟩
    · simpa using hone
    · simpa using ⟨Value.Unrepeated.array [] nofun, hone⟩
  have hkinds : ∀ value ∈ priceList.prepared.items, ∀ other ∈ priceList.prepared.items,
      isSameItem value other = true → value.same other = true := by decide
  obtain ⟨hcovers, hnumbered, -⟩ := coversEach_compress_iff priceList rfl hfree
  refine ⟨rfl, hfree, hcovers.mpr fun value hvalue other hother _ => ?_, hnumbered (by decide)⟩
  exact hkinds value hvalue other hother

-- A list of two arrays that differ in the kind of their item.
def flagList : Frame :=
  ⟨.text "list", [("item_1", .array [.number (.int 1)]), ("item_2", .array [.bool true])]⟩

theorem not_coversEach_compress_flagList :
    flagList.type = .text "list" ∧ (Value.frame flagList).Unrepeated ∧
      ¬CoversEach flagList.prepared.items flagList.compress.items := by
  refine ⟨rfl, .frame _ _ (by decide) (by decide) (.text _) ?_, fun h => ?_⟩
  · simp only [List.forall_mem_cons]
    refine ⟨.array _ ?_, .array _ ?_, nofun⟩
    · simpa using Value.Unrepeated.number (.int 1)
    · simpa using Value.Unrepeated.bool true
  · have hvalues : flagList.prepared.items = [.array [.number (.int 1)], .array [.bool true]] := rfl
    have hleft : flagList.compress.items = [.array [.number (.int 1)]] := rfl
    have hdefinite : (Value.array [.bool true]).Definite := by
      intro n hn
      cases hn with
      | item hitem hn =>
          rw [List.mem_singleton.mp hitem] at hn
          cases hn
    obtain ⟨first, rest, hfirst, -, hrest, hcovers⟩ := h _ [] (List.append_nil _).symm
    obtain rfl := List.sublist_nil.mp hrest
    rw [List.append_nil, hleft] at hfirst
    subst hfirst
    obtain ⟨other, hother, hsame⟩ := hcovers (.array [.bool true]) (by simp [hvalues]) hdefinite
    rw [List.mem_singleton.mp hother] at hsame
    exact absurd hsame (by decide)

end Node

end FrameNotation
