import FrameNotation.Proofs.Compression.Distinct
import FrameNotation.Proofs.Notation.References
import Mathlib.Algebra.BigOperators.Group.Finset.Basic
import Mathlib.Algebra.Order.BigOperators.Group.List
import Mathlib.Data.Finset.Max
import Mathlib.Order.Interval.Finset.Nat

namespace FrameNotation

open Compression

variable {attributes : List (Str × Value)} {entries others : Entries Value} {items : List Value}
variable {value : Value} {cs : List CodePoint}

theorem length_intercalate {α : Type} (separator : List α) (parts : List (List α)) :
    (separator.intercalate parts).length =
      (parts.map List.length).sum + separator.length * (parts.length - 1) := by
  induction parts with
  | nil => simp
  | cons first rest ih =>
      cases rest with
      | nil => simp
      | cons second rest =>
          rw [List.intercalate_cons_cons, List.length_append, List.length_append, ih]
          simp only [List.map_cons, List.sum_cons, List.length_cons, Nat.add_sub_cancel,
            Nat.mul_succ]
          omega

theorem map_eq_of_forall₂ {α β γ : Type} {related : α → β → Prop} {f : α → γ} {g : β → γ}
    {as : List α} {bs : List β} (h : List.Forall₂ related as bs)
    (hsame : ∀ a b, related a b → f a = g b) : as.map f = bs.map g := by
  induction h with
  | nil => rfl
  | cons hfirst _ ih => rw [List.map_cons, List.map_cons, hsame _ _ hfirst, ih]

theorem sum_map_add_const {α : Type} (f : α → Nat) (as : List α) (n : Nat) :
    (as.map fun a => f a + n).sum = (as.map f).sum + as.length * n := by
  rw [List.sum_map_add, List.map_const', List.sum_replicate, smul_eq_mul]

-- The number of characters of a value's notation, if it has one.
def Value.width (value : Value) : Nat :=
  match Writer.value value with
  | .ok cs => cs.length
  | .error _ => 0

-- The room that attributes take in a notation, each with the blank before it and with its colon.
def Entries.width (entries : Entries Value) : Nat :=
  (entries.map fun entry => entry.1.length + (entry.2.width + 2)).sum

theorem Value.width_of_value (h : Writer.value value = .ok cs) : value.width = cs.length := by
  rw [width, h]

theorem Value.width_array (h : (Value.array items).IsWritable) :
    (Value.array items).width = (items.map width).sum + 2 * (items.length - 1) + 2 := by
  obtain ⟨cs, hcs⟩ := h.exists_value
  rw [width_of_value hcs]
  rw [Writer.value] at hcs
  split_ifs at hcs
  obtain ⟨parts, hparts, hcs⟩ := bind_eq_ok.mp hcs
  cases hcs
  have hwidths : items.map width = parts.map List.length :=
    map_eq_of_forall₂ (values_eq_ok hparts) fun item part => width_of_value
  rw [List.length_append, List.length_cons, length_intercalate, hwidths,
    (values_eq_ok hparts).length_eq]
  rfl

theorem Value.width_frame {type : FrameType}
    (h : (Value.frame ⟨.text type.name, attributes⟩).IsWritable) :
    (Value.frame ⟨.text type.name, attributes⟩).width =
      type.name.length + Entries.width (present attributes) + 2 := by
  obtain ⟨cs, hcs⟩ := h.exists_value
  rw [width_of_value hcs]
  obtain ⟨known, tokens, hknown, htokens, rfl⟩ := frame_eq_ok hcs
  obtain rfl : type = known := Option.some_inj.mp ((ofName?_name type).symm.trans hknown)
  have hwidths : (present attributes).map (fun entry => entry.1.length + (entry.2.width + 2)) =
      tokens.map fun token => token.length + 1 := by
    refine map_eq_of_forall₂ (roles_eq_ok htokens) ?_
    rintro entry token ⟨-, part, hpart, rfl⟩
    rw [width_of_value hpart, List.length_append, List.length_cons, Str.length_toList,
      Str.length_ofList, Nat.add_assoc]
  have hplain : (tokens.map fun token => token.length + 1).sum =
      (tokens.map List.length).sum + tokens.length * 1 := sum_map_add_const _ _ _
  rw [frameText, List.length_append, List.length_cons, length_intercalate, Entries.width, hwidths,
    hplain]
  simp only [List.map_cons, List.sum_cons, List.length_cons, List.length_nil, Str.length_toList,
    Nat.add_sub_cancel]
  omega

namespace Entries

@[simp] theorem width_nil : width [] = 0 := rfl

theorem width_cons (entry : Str × Value) (rest : Entries Value) :
    width (entry :: rest) = entry.1.length + (entry.2.width + 2) + width rest :=
  List.sum_cons

theorem width_append (entries others : Entries Value) :
    width (entries ++ others) = width entries + width others := by
  rw [width, List.map_append, List.sum_append]
  rfl

theorem width_le_of_sublist (h : entries.Sublist others) : width entries ≤ width others :=
  (h.map _).sum_le_sum fun _ _ => Nat.zero_le _

theorem width_filter_add (keep : Str × Value → Bool) (entries : Entries Value) :
    width (entries.filter keep) + width (entries.filter fun entry => !keep entry) =
      width entries := by
  induction entries with
  | nil => rfl
  | cons entry rest ih =>
      rw [List.filter_cons, List.filter_cons, width_cons]
      cases keep entry <;>
      · simp only [Bool.false_eq_true, if_false, if_true, Bool.not_true, Bool.not_false, width_cons]
        omega

-- The roles and the values take their room apart.
theorem width_eq (entries : Entries Value) : width entries =
    ((names entries).map Str.length).sum +
      ((entries.map Prod.snd).map fun value => value.width + 2).sum := by
  rw [width, List.sum_map_add, names, List.map_map, List.map_map]
  rfl

end Entries

namespace Compression

theorem width_compressEntries_le
    (h : ∀ entry ∈ present attributes, entry.2.compress.width ≤ entry.2.width) :
    Entries.width (compressEntries attributes) ≤ Entries.width (present attributes) := by
  rw [compressEntries_eq, ← filter_present, Entries.width, List.map_map]
  calc
    _ ≤ Entries.width ((present attributes).filter fun entry => !isVoid entry.2) := by
      refine List.sum_le_sum fun entry hentry => ?_
      have hle := h entry (List.mem_of_mem_filter hentry)
      simp only [Function.comp_apply]
      omega
    _ ≤ Entries.width (present attributes) := Entries.width_le_of_sublist List.filter_sublist

theorem length_of_isTargetRole {name : Str} (h : isTargetRole name = true) :
    6 ≤ name.length := by
  have hmark {mark : Str} (hstart : startsWith mark name = true) :
      mark.length ≤ name.length := by
    rw [← Str.length_toList, ← Str.length_toList]
    exact (List.isPrefixOf_iff_prefix.mp hstart).length_le
  exact (Bool.or_eq_true_iff.mp h).elim hmark hmark

theorem le_width_targetsOf (entries : Entries Value) :
    (((targetsOf entries).map Prod.snd).map Value.width).sum + (targetsOf entries).length * 8 ≤
      Entries.width (targetsOf entries) := by
  rw [List.map_map, ← sum_map_add_const, Entries.width]
  refine List.sum_le_sum fun entry hentry => ?_
  have hlong := length_of_isTargetRole (List.mem_filter.mp hentry).2
  simp only [Function.comp_apply]
  omega

-- Each of more than two targets gives up a role that is longer than what the list needs for it.
theorem width_foldTargets_le (h : ∀ entry ∈ entries, entry.2.IsWritable) :
    Entries.width (foldTargets entries) ≤ Entries.width entries := by
  rcases foldTargets_cases entries with ⟨-, hself⟩ | ⟨hmany, hfolded⟩
  · rw [hself]
  · have hkept : (((targetsOf entries).map Prod.snd).filter Value.holds).Sublist
        ((targetsOf entries).map Prod.snd) := List.filter_sublist
    have hlength := hkept.length_le
    have hwidths := (hkept.map Value.width).sum_le_sum fun _ _ => Nat.zero_le _
    have hwritable : (Value.array
        (((targetsOf entries).map Prod.snd).filter Value.holds)).IsWritable := by
      refine .array _ fun item hitem => ?_
      obtain ⟨entry, hentry, rfl⟩ := List.mem_map.mp (List.mem_of_mem_filter hitem)
      exact h entry (List.mem_of_mem_filter hentry)
    have hsplit := Entries.width_filter_add (fun entry => isTargetRole entry.1) entries
    have htargets := le_width_targetsOf entries
    have hname : targetListRole.length = 11 := by decide
    rw [List.length_map] at hlength
    rw [← targetsOf] at hsplit
    rw [hfolded, Entries.width_append, Entries.width_cons, Value.width_array hwritable, hname,
      Entries.width_nil]
    omega

end Compression

-- No set of as many positive numbers takes less room than the first ones.
theorem sum_range'_le {f : Nat → Nat} (hf : Monotone f) (numbers : Finset Nat)
    (hpositive : ∀ n ∈ numbers, 0 < n) {count : Nat} (hcount : count ≤ numbers.card) :
    ((List.range' 1 count).map f).sum ≤ ∑ n ∈ numbers, f n := by
  induction numbers using Finset.induction_on_max generalizing count with
  | empty =>
      obtain rfl : count = 0 := by simpa using hcount
      simp
  | insert last rest hlast ih =>
      have hnew : last ∉ rest := fun hmem => (hlast last hmem).false
      have hrest : ∀ n ∈ rest, 0 < n := fun n hn => hpositive n (Finset.mem_insert_of_mem hn)
      rw [Finset.card_insert_of_notMem hnew] at hcount
      rw [Finset.sum_insert hnew]
      by_cases hless : count ≤ rest.card
      · exact (ih hrest hless).trans (Nat.le_add_left _ _)
      · obtain rfl : count = rest.card + 1 := by omega
        have hcard : rest.card ≤ last - 1 := by
          have hbetween : rest ⊆ Finset.Ioo 0 last := fun n hn =>
            Finset.mem_Ioo.mpr ⟨hrest n hn, hlast n hn⟩
          simpa using Finset.card_le_card hbetween
        have hpos : 0 < last := hpositive last (Finset.mem_insert_self last rest)
        have hbefore := ih hrest (Nat.le_refl _)
        have hstep : f (1 + 1 * rest.card) ≤ f last := hf (by omega)
        rw [List.range'_concat, List.map_append, List.sum_append, List.map_singleton,
          List.sum_singleton]
        omega

namespace Node

variable {frame : Frame}

-- If items of a list are left out, the roles of the others need no more room than all old roles and
-- what is left out.
def HasRoom (frame : Frame) : Prop :=
  frame.type = .text "list" → frame.compress.items.length < frame.prepared.items.length →
    ((itemRoles frame.compress.items.length).map Str.length).sum +
        (frame.compress.items.map fun item => item.width + 2).sum ≤
      ((Entries.names (itemsOf frame.prepared.attributes)).map Str.length).sum +
        (frame.prepared.items.map fun item => item.width + 2).sum

theorem hasRoom_iff (htype : frame.type = .text "list") : frame.HasRoom ↔
    Entries.width frame.compress.attributes ≤ Entries.width frame.prepared.attributes := by
  have hitems := attributes_compress_list htype
  rcases dedupeItems_cases frame.prepared.attributes with ⟨hsame, hself⟩ | ⟨hfewer, -⟩
  · have hlength : frame.compress.items.length = frame.prepared.items.length := by
      rw [items_compress_list htype]
      simpa [items] using hsame
    refine iff_of_true (fun _ hless => ?_) ?_
    · omega
    · rw [hitems, hself]
  · have hlength : frame.compress.items.length < frame.prepared.items.length := by
      rw [items_compress_list htype]
      simpa [items] using hfewer
    have hroles : Entries.names (itemsOf frame.compress.attributes) =
        itemRoles frame.compress.items.length := by
      rw [hitems, items_compress_list htype]
      exact names_itemsOf_dedupeItems hfewer
    have hothers := congrArg Entries.width (filter_dedupeItems frame.prepared.attributes)
    rw [← hitems] at hothers
    have hsplit (entries : Entries Value) :=
      Entries.width_filter_add (fun entry => isItemRole entry.1) entries
    have hleft := hsplit frame.compress.attributes
    have hgiven := hsplit frame.prepared.attributes
    rw [← itemsOf, Entries.width_eq (itemsOf _), ← items] at hleft hgiven
    rw [hroles] at hleft
    constructor
    · intro hroom
      have hle := hroom htype hlength
      omega
    · intro hle _ _
      omega

theorem width_attributes_compress_le
    (h : ∀ entry ∈ frame.prepared.attributes, entry.2.IsWritable) (hroom : frame.HasRoom) :
    Entries.width frame.compress.attributes ≤ Entries.width frame.prepared.attributes := by
  by_cases htype : frame.type = .text "list"
  · exact (hasRoom_iff htype).mp hroom
  · rw [compress_attributes]
    rcases rearranged_cases frame.type (compressEntries frame.attributes) with
      ⟨-, hsame⟩ | ⟨hlist, -⟩ | ⟨-, -, hsame⟩
    · rw [hsame]
      calc
        _ ≤ Entries.width (keepOneAction frame.prepared.attributes) := by
          apply width_foldTargets_le
          exact fun entry hentry => h entry (keepOneAction_subset entry hentry)
        _ ≤ Entries.width frame.prepared.attributes :=
          Entries.width_le_of_sublist (keepOneAction_sublist _)
    · exact absurd hlist htype
    · rw [hsame]
      exact Nat.le_refl _

theorem ne_null_of_mem_compress {entry : Str × Value} (h : entry ∈ frame.compress.attributes) :
    entry.2 ≠ .null := by
  intro hnull
  rw [compress_attributes] at h
  obtain ⟨-, rfl⟩ := eq_targetList_of_isVoid (fun _ => isVoid_of_mem_compressEntries) h
    (by rw [hnull]; rfl)
  cases hnull

-- A frame and its compression differ in the room of their attributes only.
theorem exists_width (h : (Value.frame frame).IsWritable) : ∃ base,
    (Value.frame frame).width = base + Entries.width (present frame.attributes) ∧
      (Value.frame frame.compress).width = base + Entries.width frame.compress.attributes := by
  have hcompressed := h.compress
  rw [Value.compress_frame] at hcompressed
  have hpresent := present_eq_self fun entry (hentry : entry ∈ frame.compress.attributes) =>
    ne_null_of_mem_compress hentry
  have hwritable := h
  cases h with
  | frame type attributes =>
      refine ⟨type.name.length + 2, ?_, ?_⟩
      · rw [Value.width_frame hwritable]
        exact Nat.add_right_comm _ _ 2
      · rw [Node.compress] at hcompressed hpresent ⊢
        rw [Value.width_frame hcompressed, hpresent]
        exact Nat.add_right_comm _ _ 2

end Node

theorem Value.width_compress_le (h : value.IsWritable) (hroom : value.EveryFrame Node.HasRoom) :
    value.compress.width ≤ value.width := by
  induction h with
  | array items hitems ih =>
      rw [Value.everyFrame_array] at hroom
      have hwritable := (Value.IsWritable.array items hitems).compress
      rw [Value.compress, compressItems_eq] at hwritable ⊢
      rw [width_array hwritable, width_array (.array items hitems), List.map_map, List.length_map]
      have hsum : (items.map (width ∘ compress)).sum ≤ (items.map width).sum :=
        List.sum_le_sum fun item hitem => ih item hitem (hroom item hitem)
      omega
  | frame type attributes hroles hvalues ih =>
      obtain ⟨hnode, hinner⟩ := everyFrame_frame.mp hroom
      obtain ⟨base, hwidth, hshorter⟩ := Node.exists_width (.frame type attributes hroles hvalues)
      rw [compress_frame, hwidth, hshorter]
      have hrearranged : Entries.width (Node.compress ⟨.text type.name, attributes⟩).attributes ≤
          Entries.width (compressEntries attributes) := by
        refine Node.width_attributes_compress_le (fun entry hentry => ?_) hnode
        obtain ⟨source, hsource, rfl⟩ := mem_compressEntries hentry
        have hvoid := isVoid_of_mem_compressEntries hentry
        rw [isVoid_compress] at hvoid
        exact (hvalues source hsource (ne_null_of_not_isVoid hvoid)).compress
      have hcompressed : Entries.width (compressEntries attributes) ≤
          Entries.width (present attributes) := by
        refine width_compressEntries_le fun entry hentry => ?_
        obtain ⟨hmem, hne⟩ := mem_present.mp hentry
        exact ih entry hmem hne (hinner entry hmem)
      exact Nat.add_le_add_left (hrearranged.trans hcompressed) base
  | _ => exact Nat.le_refl _

theorem monotone_length_item : Monotone fun index : Nat => (itemMark ++ toString index).length := by
  intro index other hle
  have hpos : 0 < (Decimal.digitChars other).length := Decimal.length_digitChars_pos
  have hother := (Decimal.length_digitChars_le_iff hpos).mp (Nat.le_refl _)
  have hshorter := (Decimal.length_digitChars_le_iff hpos).mpr (hle.trans_lt hother)
  simp only [← Str.length_toList, Str.toList_append, List.length_append,
    Str.toList_ofString_toString]
  omega

theorem exists_numbers {names : List Str}
    (h : ∀ name ∈ names, ∃ index > 0, name = itemMark ++ toString index) :
    ∃ numbers : List Nat, (∀ n ∈ numbers, 0 < n) ∧
      names = numbers.map fun index => itemMark ++ toString index := by
  induction names with
  | nil => exact ⟨[], nofun, rfl⟩
  | cons name rest ih =>
      obtain ⟨index, hindex, rfl⟩ := h name (by simp)
      obtain ⟨numbers, hnumbers, rfl⟩ := ih fun other hother => h other (by simp [hother])
      exact ⟨index :: numbers, List.forall_mem_cons.mpr ⟨hindex, hnumbers⟩, rfl⟩

-- A list in which each item has a number of its own never lacks room.
theorem Node.hasRoom_of_numbered {frame : Frame} (hnames : (Entries.names frame.attributes).Nodup)
    (hnumbered : ∀ entry ∈ itemsOf frame.attributes,
      ∃ index > 0, entry.1 = itemMark ++ toString index) : frame.HasRoom := by
  intro htype hfewer
  have hleft : frame.compress.items.Sublist frame.prepared.items := by
    rw [items_compress_list htype]
    exact distinctItems_sublist [] _
  have hvalues := (hleft.map fun item => item.width + 2).sum_le_sum fun _ _ => Nat.zero_le _
  have hnodup : (Entries.names (itemsOf frame.prepared.attributes)).Nodup :=
    nodup_filter (nodup_compressEntries hnames)
  obtain ⟨numbers, hpositive, hroles⟩ :
      ∃ numbers : List Nat, (∀ n ∈ numbers, 0 < n) ∧
        Entries.names (itemsOf frame.prepared.attributes) =
          numbers.map fun index => itemMark ++ toString index := by
    apply exists_numbers
    intro name hname
    obtain ⟨entry, hentry, rfl⟩ := List.mem_map.mp hname
    obtain ⟨hmem, hitem⟩ := List.mem_filter.mp hentry
    obtain ⟨source, hsource, rfl⟩ := mem_compressEntries hmem
    exact hnumbered source (List.mem_filter.mpr ⟨hsource, hitem⟩)
  rw [hroles] at hnodup
  have hcount : frame.compress.items.length ≤ numbers.toFinset.card := by
    have hlength := congrArg List.length hroles
    rw [List.length_map] at hlength
    rw [List.toFinset_card_of_nodup hnodup.of_map, ← hlength]
    simpa [items, Entries.names] using hfewer.le
  have hnumbers := sum_range'_le monotone_length_item numbers.toFinset (by simpa using hpositive)
    hcount
  rw [List.sum_toFinset _ hnodup.of_map] at hnumbers
  rw [hroles, itemRoles, List.map_map, List.map_map]
  exact Nat.add_le_add hnumbers hvalues

namespace Node

variable {frame : Frame} {text : Str}

theorem width_eq_length (h : frame.write = .ok text) : (Value.frame frame).width = text.length := by
  obtain ⟨cs, hcs, rfl⟩ := map_eq_ok.mp h
  rw [Str.length_ofList]
  exact Value.width_of_value hcs

-- A compressed frame can be written. Its notation is no longer if no list in the frame lacks room,
-- and where nothing but the order of attributes and their roles changes, only then.
theorem length_write_compress (h : frame.write = .ok text) :
    ∃ shorter, frame.compress.write = .ok shorter ∧
      ((∀ inner, frame.Reaches inner → inner.HasRoom) → shorter.length ≤ text.length) ∧
      (frame.prepared = frame → shorter.length ≤ text.length → frame.HasRoom) := by
  have hwritable := isWritable_iff.mpr ⟨text, h⟩
  have hcompressed := hwritable.compress
  rw [Value.compress_frame] at hcompressed
  obtain ⟨shorter, hshorter⟩ := isWritable_iff.mp hcompressed
  refine ⟨shorter, hshorter, fun hroom => ?_, fun hprepared hle htype => ?_⟩
  · rw [← width_eq_length h, ← width_eq_length hshorter, ← Value.compress_frame]
    exact Value.width_compress_le hwritable (Value.everyFrame_iff_reaches.mpr hroom)
  · obtain ⟨base, hwidth, hcompress⟩ := exists_width hwritable
    have hpresent : present frame.attributes = frame.prepared.attributes := by
      rw [hprepared]
      refine present_eq_self fun entry hentry => ?_
      rw [← hprepared] at hentry
      exact ne_null_of_not_isVoid (isVoid_of_mem_compressEntries hentry)
    rw [hpresent] at hwidth
    rw [← width_eq_length h, ← width_eq_length hshorter, hwidth, hcompress] at hle
    exact (hasRoom_iff htype).mpr (Nat.le_of_add_le_add_left hle) htype

-- An answer with a list in which one item comes twice.
def menuAnswer : Frame :=
  ⟨.text "answer", [("content", .frame ⟨.text "list",
    [("item_1", .text "tea"), ("item_3", .text "milk"), ("item_7", .text "tea")]⟩)]⟩

theorem length_write_compress_menuAnswer :
    menuAnswer.write = .ok "(answer content:(list item_1:tea item_3:milk item_7:tea))" ∧
      ∃ shorter, menuAnswer.compress.write = .ok shorter ∧ shorter.length ≤ 57 := by
  have hwrite : menuAnswer.write =
      .ok "(answer content:(list item_1:tea item_3:milk item_7:tea))" := rfl
  have htext (s : Str) : (Value.text s).EveryFrame HasRoom := by
    intro depth outer inner hshows
    cases hshows
  have hroom : (Value.frame menuAnswer).EveryFrame HasRoom := by
    refine Value.everyFrame_frame.mpr ⟨fun htype => ?_, ?_⟩
    · simp [menuAnswer] at htype
    · simp only [menuAnswer, List.forall_mem_singleton, Value.everyFrame_frame, List.forall_mem_cons]
      refine ⟨hasRoom_of_numbered (by decide) fun entry hentry => ?_, htext _, htext _, htext _⟩
      have hmem := List.mem_of_mem_filter hentry
      simp only [List.mem_cons, List.not_mem_nil, or_false] at hmem
      rcases hmem with rfl | rfl | rfl
      · exact ⟨1, by decide, rfl⟩
      · exact ⟨3, by decide, rfl⟩
      · exact ⟨7, by decide, rfl⟩
  obtain ⟨shorter, hshorter, hle, -⟩ := length_write_compress hwrite
  exact ⟨hwrite, shorter, hshorter, hle (Value.everyFrame_iff_reaches.mp hroom)⟩

-- A list with one item under two of nineteen roles, each with a single character for a number.
def crowdedList : Frame :=
  ⟨.text "list",
    (["", "1", "2", "3", "4", "5", "6", "7", "8", "9", "a", "b", "c", "d", "e", "f", "g", "h",
        "i"].zip
      ["a", "b", "c", "d", "e", "f", "g", "h", "i", "j", "k", "l", "m", "n", "o", "p", "q", "r",
        "a"]).map fun (number, letter) => (itemMark ++ number, .text letter)⟩

theorem length_lt_write_compress_crowdedList : ∃ text longer, crowdedList.write = .ok text ∧
    crowdedList.compress.write = .ok longer ∧ text.length < longer.length := by
  have hwidths : (Value.frame crowdedList).width < (Value.frame crowdedList.compress).width := by
    decide +kernel
  obtain ⟨text, htext⟩ : ∃ text, crowdedList.write = .ok text := ⟨_, rfl⟩
  obtain ⟨longer, hlonger⟩ : ∃ longer, crowdedList.compress.write = .ok longer := ⟨_, rfl⟩
  rw [width_eq_length htext, width_eq_length hlonger] at hwidths
  exact ⟨text, longer, htext, hlonger, hwidths⟩

end Node

end FrameNotation
