import FrameNotation.Frame.Plain
import FrameNotation.Proofs.Frame.Display
import FrameNotation.Proofs.Frame.Entries

namespace FrameNotation

variable {value : Value} {items : List Value} {entries : Entries Value} {frame : Frame}

theorem Node.toRecord_eq_thaw (frame : Frame) : frame.toRecord = (Value.frame frame).thaw := by
  obtain ⟨type, attributes⟩ := frame
  rw [Value.thaw]
  rfl

namespace Value

theorem thawItems_eq (items : List Value) : thawItems items = items.map thaw := by
  induction items with
  | nil => rfl
  | cons item rest ih => rw [thawItems, ih, List.map_cons]

theorem thawEntries_eq (entries : Entries Value) :
    thawEntries entries = entries.map fun entry => (entry.1, entry.2.thaw) := by
  induction entries with
  | nil => rfl
  | cons entry rest ih => rw [thawEntries, ih, List.map_cons]

-- What stands in frames: no records, and among the attributes of a frame no name twice and none
-- under which a record keeps the type. The type itself may be anything.
inductive Frozen : Value → Prop
  | null : Frozen .null
  | bool (b : Bool) : Frozen (.bool b)
  | number (n : Number) : Frozen (.number n)
  | text (s : Str) : Frozen (.text s)
  | array (items : List Value) (hitems : ∀ item ∈ items, Frozen item) : Frozen (.array items)
  | frame (type : Value) (attributes : Entries Value) (hnames : (Entries.names attributes).Nodup)
      (hdiscriminant : discriminant ∉ Entries.names attributes)
      (hattributes : ∀ entry ∈ attributes, Frozen entry.2) : Frozen (.frame ⟨type, attributes⟩)

theorem freezeItems_thaw (h : ∀ item ∈ items, item.thaw.freeze = .ok item) :
    freezeItems (thawItems items) = .ok items := by
  induction items with
  | nil => rfl
  | cons item rest ih =>
      rw [List.forall_mem_cons] at h
      rw [thawItems, freezeItems, h.1, ih h.2]
      rfl

theorem freezeEntries_thaw (hdiscriminant : discriminant ∉ Entries.names entries)
    (h : ∀ entry ∈ entries, entry.2.thaw.freeze = .ok entry.2) :
    freezeEntries (thawEntries entries) = .ok entries := by
  induction entries with
  | nil => rfl
  | cons entry rest ih =>
      rw [Entries.names_cons, List.mem_cons, not_or] at hdiscriminant
      rw [List.forall_mem_cons] at h
      rw [thawEntries, freezeEntries, if_neg (Ne.symm hdiscriminant.1), h.1, ih hdiscriminant.2 h.2]
      rfl

-- The type that stands in front is left out of the attributes.
theorem freezeEntries_toEntries (hdiscriminant : discriminant ∉ Entries.names frame.attributes)
    (h : ∀ entry ∈ frame.attributes, entry.2.thaw.freeze = .ok entry.2) :
    freezeEntries frame.toEntries = .ok frame.attributes := by
  rw [Node.toEntries, freezeEntries, if_pos rfl, freezeEntries_thaw hdiscriminant h]

theorem get?_toEntries : Entries.get? frame.toEntries discriminant = some frame.type := by
  rw [Node.toEntries, Entries.get?_cons, if_pos rfl]

theorem freeze_thaw (h : value.Frozen) : value.thaw.freeze = .ok value := by
  induction h with
  | array items _ ih => rw [thaw, freeze, freezeItems_thaw ih, map_ok]
  | frame type attributes _ hdiscriminant _ ih =>
      have hattributes : freezeEntries (Node.toEntries ⟨type, attributes⟩) = .ok attributes :=
        freezeEntries_toEntries hdiscriminant ih
      have htype : Entries.get? (Node.toEntries ⟨type, attributes⟩) discriminant = some type :=
        get?_toEntries
      rw [thaw, freeze]
      rw [Node.toEntries] at hattributes htype
      simp only [htype, hattributes, map_ok]
  | _ => rfl

-- Plain data, as a dictionary holds them: no frames, and no name twice in a record. What a record
-- keeps as its type may be anything.
inductive Plain : Value → Prop
  | null : Plain .null
  | bool (b : Bool) : Plain (.bool b)
  | number (n : Number) : Plain (.number n)
  | text (s : Str) : Plain (.text s)
  | array (items : List Value) (hitems : ∀ item ∈ items, Plain item) : Plain (.array items)
  | record (entries : Entries Value) (hnames : (Entries.names entries).Nodup)
      (hentries : ∀ entry ∈ entries, entry.1 ≠ discriminant → Plain entry.2) :
      Plain (.record entries)

-- The second value is the first one with the type of every record moved to its front. All other
-- entries keep their order, and what is kept as a type stays as it is.
inductive TypeFirst : Value → Value → Prop
  | null : TypeFirst .null .null
  | bool (b : Bool) : TypeFirst (.bool b) (.bool b)
  | number (n : Number) : TypeFirst (.number n) (.number n)
  | text (s : Str) : TypeFirst (.text s) (.text s)
  | array {items others : List Value} (h : List.Forall₂ TypeFirst items others) :
      TypeFirst (.array items) (.array others)
  | record (front back others : Entries Value) (type : Value)
      (hnames : Entries.names others = Entries.names (front ++ back))
      (h : List.Forall₂ TypeFirst ((front ++ back).map Prod.snd) (others.map Prod.snd)) :
      TypeFirst (.record (front ++ (discriminant, type) :: back))
        (.record ((discriminant, type) :: others))

mutual

-- Every record in a value that names no type, in the order in which one comes to them. What a
-- record keeps as its type is not looked into.
def untyped : Value → List (Entries Value)
  | .array items => untypedItems items
  | .record entries =>
    (if Entries.has entries discriminant then [] else [entries]) ++ untypedEntries entries
  | _ => []

def untypedItems : List Value → List (Entries Value)
  | [] => []
  | item :: rest => untyped item ++ untypedItems rest

def untypedEntries : List (Str × Value) → List (Entries Value)
  | [] => []
  | (name, value) :: rest =>
    (if name = discriminant then [] else untyped value) ++ untypedEntries rest

end

-- How a record without a type is refused. The record is shown, which may fail in itself.
def refusal (entries : Entries Value) : Failure :=
  match (record entries).display false with
  | .ok shown => .structural (.unsupportedValue (record entries).kind shown)
  | .error cause => .mishap cause

theorem refusal_iff : (∃ fault, refusal entries = .fault fault ∧ fault.code = .invalidStructure) ↔
    (record entries).KeepsDigits := by
  have hshown : (∃ text, (record entries).display false = .ok text) ↔
      (record entries).KeepsDigits := exists_display_iff
  rw [← hshown, refusal]
  cases (record entries).display false with
  | ok shown => exact iff_of_true ⟨_, rfl, rfl⟩ ⟨shown, rfl⟩
  | error cause => exact iff_of_false (by rintro ⟨_, ⟨⟩, -⟩) nofun

section Refusing

variable {α β γ : Type} {missing more : List (Entries Value)} {good : α → Prop} {fine : β → Prop}
variable {both : γ → Prop} {outcome : Except Failure α} {next : Except Failure β}

-- What comes of plain data, given the records in it that name no type: something good if there are
-- none, and otherwise the refusal of the first.
def RefusesFirst (missing : List (Entries Value)) (good : α → Prop) (outcome : Except Failure α) :
    Prop :=
  match missing with
  | [] => ∃ a, outcome = .ok a ∧ good a
  | first :: _ => outcome = .error (refusal first)

namespace RefusesFirst

theorem map {f : α → β} (h : RefusesFirst missing good outcome) (hf : ∀ a, good a → fine (f a)) :
    RefusesFirst missing fine (outcome.map f) := by
  cases missing with
  | nil =>
      obtain ⟨a, rfl, ha⟩ := h
      exact ⟨f a, rfl, hf a ha⟩
  | cons first rest => exact map_eq_error.mpr h

theorem append {f : α → β → γ} (h : RefusesFirst missing good outcome)
    (hnext : RefusesFirst more fine next) (hf : ∀ a b, good a → fine b → both (f a b)) :
    RefusesFirst (missing ++ more) both
      (outcome >>= fun a => next >>= fun b => pure (f a b)) := by
  cases missing with
  | cons first rest => exact bind_eq_error.mpr (.inl h)
  | nil =>
      obtain ⟨a, rfl, ha⟩ := h
      cases more with
      | nil =>
          obtain ⟨b, rfl, hb⟩ := hnext
          exact ⟨f a b, rfl, hf a b ha hb⟩
      | cons first rest => exact bind_eq_error.mpr (.inr ⟨a, rfl, bind_eq_error.mpr (.inl hnext)⟩)

end RefusesFirst

end Refusing

-- What frames are made of the value, if it is thawed again, is the value with types in front.
def FreezesWell (value : Value) : Prop :=
  RefusesFirst value.untyped (fun frozen => value.TypeFirst frozen.thaw) value.freeze

theorem freezeItems_refuses (h : ∀ item ∈ items, item.FreezesWell) :
    RefusesFirst (untypedItems items)
      (fun frozen => List.Forall₂ (fun item content => item.TypeFirst content.thaw) items frozen)
      (freezeItems items) := by
  induction items with
  | nil => exact ⟨[], rfl, .nil⟩
  | cons item rest ih =>
      rw [List.forall_mem_cons] at h
      exact h.1.append (ih h.2) fun _ _ hitem hrest => .cons hitem hrest

theorem freezeEntries_refuses
    (h : ∀ entry ∈ entries, entry.1 ≠ discriminant → entry.2.FreezesWell) :
    RefusesFirst (untypedEntries entries)
      (fun frozen => (Entries.without entries [discriminant]).Aligned
        (fun value content => value.TypeFirst content.thaw) frozen)
      (freezeEntries entries) := by
  induction entries with
  | nil => exact ⟨[], rfl, .nil⟩
  | cons entry rest ih =>
      obtain ⟨name, value⟩ := entry
      rw [List.forall_mem_cons] at h
      rw [untypedEntries, freezeEntries]
      by_cases hname : name = discriminant
      · have hwithout : Entries.without ((name, value) :: rest) [discriminant] =
            Entries.without rest [discriminant] := List.filter_cons_of_neg (by simp [hname])
        rw [if_pos hname, if_pos hname, hwithout]
        exact ih h.2
      · have hwithout : Entries.without ((name, value) :: rest) [discriminant] =
            (name, value) :: Entries.without rest [discriminant] :=
          List.filter_cons_of_pos (by simp [hname])
        rw [if_neg hname, if_neg hname, hwithout]
        exact (h.1 hname).append (ih h.2) fun _ _ hvalue hrest => .cons ⟨rfl, hvalue⟩ hrest

-- The entries other than the type stand as they stood around it.
theorem exists_around {type : Value} (hnames : (Entries.names entries).Nodup)
    (htype : entries.get? discriminant = some type) :
    ∃ front back, entries = front ++ (discriminant, type) :: back ∧
      Entries.without entries [discriminant] = front ++ back := by
  obtain ⟨front, back, rfl⟩ := List.append_of_mem (Entries.mem_of_get? htype)
  refine ⟨front, back, rfl, ?_⟩
  simp only [Entries.names, List.map_append, List.map_cons] at hnames
  have hothers : ∀ entry ∈ front ++ back, entry.1 ≠ discriminant := by
    intro entry hentry hname
    have hmem : discriminant ∈ front.map Prod.fst ++ back.map Prod.fst := by
      rw [← List.map_append]
      exact hname ▸ List.mem_map_of_mem hentry
    exact (List.nodup_cons.mp (List.nodup_middle.mp hnames)).1 hmem
  rw [Entries.without, List.filter_append, List.filter_cons_of_neg (by simp), ← List.filter_append,
    List.filter_eq_self.mpr fun entry hentry => by simpa using hothers entry hentry]

theorem typeFirst_of_aligned {type : Value} {frozen : Entries Value}
    (hnames : (Entries.names entries).Nodup) (htype : entries.get? discriminant = some type)
    (h : (Entries.without entries [discriminant]).Aligned
      (fun value content => value.TypeFirst content.thaw) frozen) :
    (record entries).TypeFirst (Node.mk type frozen).toRecord := by
  obtain ⟨front, back, rfl, hwithout⟩ := exists_around hnames htype
  rw [hwithout] at h
  refine .record front back _ type ?_ ?_
  · rw [thawEntries_eq, ← h.names_eq, Entries.names, List.map_map]
    rfl
  · rw [thawEntries_eq, List.map_map, List.forall₂_map_left_iff, List.forall₂_map_right_iff]
    exact h.imp fun _ _ hentry => hentry.2

-- A record with a type freezes to a frame of this type, if its other entries freeze.
theorem freeze_record {type : Value} (htype : entries.get? discriminant = some type) :
    (record entries).freeze = (freezeEntries entries).map fun frozen => .frame ⟨type, frozen⟩ := by
  rw [freeze]
  simp only [htype]

theorem freeze_untyped (htype : entries.get? discriminant = none) :
    (record entries).freeze = .error (refusal entries) := by
  rw [freeze, refusal]
  simp only [htype]
  cases (record entries).display false <;> rfl

theorem untyped_record {type : Value} (htype : entries.get? discriminant = some type) :
    (record entries).untyped = untypedEntries entries := by
  rw [untyped, Entries.has, htype, Option.isSome_some, if_pos rfl, List.nil_append]

theorem Plain.freezesWell (h : value.Plain) : value.FreezesWell := by
  induction h with
  | null => exact ⟨_, rfl, .null⟩
  | bool b => exact ⟨_, rfl, .bool b⟩
  | number n => exact ⟨_, rfl, .number n⟩
  | text s => exact ⟨_, rfl, .text s⟩
  | array items _ ih =>
      refine (freezeItems_refuses ih).map fun frozen hfrozen => ?_
      rw [thaw, thawItems_eq]
      exact .array (List.forall₂_map_right_iff.mpr hfrozen)
  | record entries hnames _ ih =>
      rw [FreezesWell]
      cases htype : entries.get? discriminant with
      | some type =>
          rw [freeze_record htype, untyped_record htype]
          refine (freezeEntries_refuses ih).map fun frozen hfrozen => ?_
          rw [thaw]
          exact typeFirst_of_aligned hnames htype hfrozen
      | none =>
          rw [untyped, Entries.has, htype, Option.isSome_none, if_neg Bool.false_ne_true]
          exact freeze_untyped htype

end Value

namespace Node

open Value

theorem ofEntries_toEntries (h : (Value.frame frame).Frozen) :
    Node.ofEntries frame.toEntries = .ok frame := by
  obtain ⟨type, attributes⟩ := frame
  cases h with
  | frame _ _ hnames hdiscriminant hattributes =>
      have hfreeze : freezeEntries (toEntries ⟨type, attributes⟩) = .ok attributes :=
        freezeEntries_toEntries hdiscriminant fun entry hentry =>
          freeze_thaw (hattributes entry hentry)
      have hrecord : (Entries.names (toEntries ⟨type, attributes⟩)).Nodup := by
        rw [toEntries, Entries.names_cons, thawEntries_eq, Entries.names, List.map_map]
        exact List.nodup_cons.mpr ⟨hdiscriminant, hnames⟩
      rw [ofEntries, get?_toEntries]
      simp only [build, Entries.ofList_eq_self hrecord, hfreeze, map_ok]

theorem ofEntries_refuses (h : (Value.record entries).Plain)
    (htype : Entries.has entries discriminant = true) :
    RefusesFirst (Value.record entries).untyped
      (fun built => (Value.record entries).TypeFirst built.toRecord) (Node.ofEntries entries) := by
  obtain ⟨type, htype⟩ := Option.isSome_iff_exists.mp htype
  cases h with
  | record _ hnames hentries =>
      rw [untyped_record htype, ofEntries]
      simp only [htype, build, Entries.ofList_eq_self hnames]
      refine (freezeEntries_refuses fun entry hentry hname =>
        (hentries entry hentry hname).freezesWell).map fun frozen hfrozen => ?_
      exact typeFirst_of_aligned hnames htype hfrozen

-- Frames and what stands in them come back from the plain data that they become. Plain data comes
-- back from the frame that it becomes, with types in front, unless a record in it has no type. Then
-- the first such record is refused as no structure exactly if it can be shown.
theorem ofEntries_plain (hframe : (Value.frame frame).Frozen) (hvalue : value.Frozen)
    (hplain : (Value.record entries).Plain) (htype : Entries.has entries discriminant = true) :
    Node.ofEntries frame.toEntries = .ok frame ∧ value.thaw.freeze = .ok value ∧
      ((Value.record entries).untyped = [] → ∃ built, Node.ofEntries entries = .ok built ∧
        (Value.record entries).TypeFirst built.toRecord) ∧
      ∀ first rest, (Value.record entries).untyped = first :: rest →
        ∃ failure, Node.ofEntries entries = .error failure ∧
          ((∃ fault, failure = .fault fault ∧ fault.code = .invalidStructure) ↔
            (Value.record first).KeepsDigits) := by
  have hrefuses := ofEntries_refuses hplain htype
  refine ⟨ofEntries_toEntries hframe, freeze_thaw hvalue, fun hnone => ?_, ?_⟩
  · rw [hnone] at hrefuses
    exact hrefuses
  · intro first rest hsome
    rw [hsome] at hrefuses
    exact ⟨refusal first, hrefuses, refusal_iff⟩

-- An order as plain data, which names the type of its tea last and that of its pot first.
def teaRecord : Entries Value := [("name", .text "tea"), (discriminant, .text "entity")]

def potRecord : Entries Value := [(discriminant, .text "entity"), ("full", .bool true)]

def plainOrder : Entries Value :=
  [("target", .record teaRecord), (discriminant, .text "event"),
    ("pots", .array [.null, .record potRecord])]

def tea : Frame := ⟨.text "entity", [("name", .text "tea")]⟩

def teaPot : Frame := ⟨.text "entity", [("full", .bool true)]⟩

def potOrder : Frame :=
  ⟨.text "event", [("target", .frame tea), ("pots", .array [.null, .frame teaPot])]⟩

-- The same order with a note of which nobody says what it is.
def notedNote : Str × Value := ("note", .record [("cups", .number (.int 2))])

def notedOrder : Entries Value := plainOrder ++ [notedNote]

theorem frozen_tea : (Value.frame tea).Frozen := by
  refine .frame _ _ (by decide) (by decide) ?_
  simp only [List.forall_mem_cons]
  exact ⟨.text _, by simp⟩

theorem frozen_pots : (Value.array [.null, .frame teaPot]).Frozen := by
  refine .array _ ?_
  simp only [List.forall_mem_cons]
  refine ⟨.null, .frame _ _ (by decide) (by decide) ?_, by simp⟩
  simp only [List.forall_mem_cons]
  exact ⟨.bool _, by simp⟩

theorem frozen_potOrder : (Value.frame potOrder).Frozen := by
  refine .frame _ _ (by decide) (by decide) ?_
  simp only [List.forall_mem_cons]
  exact ⟨frozen_tea, frozen_pots, by simp⟩

theorem plain_plainOrder : (Value.record plainOrder).Plain := by
  refine .record _ (by decide) ?_
  simp only [plainOrder, List.forall_mem_cons]
  refine ⟨fun _ => .record _ (by decide) ?_, fun _ => .text _, fun _ => .array _ ?_, by simp⟩
  · simp only [teaRecord, List.forall_mem_cons]
    exact ⟨fun _ => .text _, fun _ => .text _, by simp⟩
  · simp only [List.forall_mem_cons]
    refine ⟨.null, .record _ (by decide) ?_, by simp⟩
    simp only [potRecord, List.forall_mem_cons]
    exact ⟨fun _ => .text _, fun _ => .bool _, by simp⟩

theorem plain_notedOrder : (Value.record notedOrder).Plain := by
  have horder := plain_plainOrder
  cases horder with
  | record _ _ hentries =>
      refine .record _ (by decide) (List.forall_mem_append.mpr ⟨hentries, ?_⟩)
      simp only [List.forall_mem_cons]
      refine ⟨fun _ => .record _ (by decide) ?_, by simp⟩
      simp only [List.forall_mem_cons]
      exact ⟨fun _ => .number _, by simp⟩

theorem ofEntries_plain_potOrder :
    Node.ofEntries potOrder.toEntries = .ok potOrder ∧
      Value.freeze (Value.array [.null, .frame teaPot]).thaw = .ok (.array [.null, .frame teaPot]) ∧
        (∃ built, Node.ofEntries plainOrder = .ok built ∧
          (Value.record plainOrder).TypeFirst built.toRecord) ∧
            ∃ fault, Node.ofEntries notedOrder = .error (.fault fault) ∧
              fault.code = .invalidStructure := by
  obtain ⟨horder, hpots, hplain, -⟩ :=
    ofEntries_plain frozen_potOrder frozen_pots plain_plainOrder rfl
  obtain ⟨-, -, -, hnoted⟩ := ofEntries_plain frozen_tea frozen_pots plain_notedOrder rfl
  obtain ⟨_, hrefused, hshown⟩ := hnoted _ [] rfl
  have hdigits : (Value.record [("cups", .number (.int 2))]).KeepsDigits := by
    rw [keepsDigits_record, List.forall_mem_singleton, keepsDigits_number]
    rintro i ⟨⟩
    decide +kernel
  obtain ⟨fault, rfl, hcode⟩ := hshown.mpr hdigits
  exact ⟨horder, hpots, hplain rfl, fault, hrefused, hcode⟩

-- A note that counts more cups than can be shown.
def countedOrder : Entries Value :=
  [(discriminant, .text "event"),
    ("note", .record [("cups", .number (.int (tenPow maxDigits)))])]

theorem not_refused_countedOrder : (Value.record countedOrder).Plain ∧
    Entries.has countedOrder discriminant = true ∧ (Value.record countedOrder).untyped ≠ [] ∧
      ¬∃ fault, Node.ofEntries countedOrder = .error (.fault fault) ∧
        fault.code = .invalidStructure := by
  have hplain : (Value.record countedOrder).Plain := by
    refine .record _ (by decide) ?_
    simp only [countedOrder, List.forall_mem_cons]
    refine ⟨fun _ => .text _, fun _ => .record _ (by decide) ?_, by simp⟩
    simp only [List.forall_mem_cons]
    exact ⟨fun _ => .number _, by simp⟩
  refine ⟨hplain, rfl, List.cons_ne_nil _ _, ?_⟩
  rintro ⟨fault, hfault, hcode⟩
  have hrefused : Node.ofEntries countedOrder = .error (refusal _) := ofEntries_refuses hplain rfl
  rw [hrefused, Except.error.injEq] at hfault
  have hdigits := refusal_iff.mp ⟨fault, hfault, hcode⟩
  rw [keepsDigits_record, List.forall_mem_singleton, keepsDigits_number] at hdigits
  have hlt := hdigits _ rfl
  rw [Int.natAbs_natCast] at hlt
  exact Nat.lt_irrefl _ hlt

end Node

end FrameNotation
