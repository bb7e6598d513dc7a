import FrameNotation.Proofs.Frame.Equality

namespace FrameNotation

-- Both have the same names, and what stands under each name is related.
def Entries.Matches {α β : Type} (related : α → β → Prop) (entries : Entries α)
    (others : Entries β) : Prop :=
  (∀ name ∈ names others, name ∈ names entries) ∧
    ∀ entry ∈ entries, ∃ other, others.get? entry.1 = some other ∧ related entry.2 other

-- Where names are not repeated, the contents of matching entries are related from both sides.
theorem Entries.Matches.exists_entry {α β : Type} {related : α → β → Prop} {entries : Entries α}
    {others : Entries β} (h : entries.Matches related others) (hothers : (names others).Nodup)
    {other : Str × β} (hother : other ∈ others) :
    ∃ entry ∈ entries, entry.1 = other.1 ∧ related entry.2 other.2 := by
  obtain ⟨entry, hentry, hname⟩ := List.mem_map.mp (h.1 other.1 (List.mem_map_of_mem hother))
  obtain ⟨found, hfound, hrelated⟩ := h.2 entry hentry
  rw [hname, get?_of_mem hothers hother] at hfound
  cases hfound
  exact ⟨entry, hentry, hname, hrelated⟩

theorem Entries.Matches.symm {α β : Type} {related : α → β → Prop} {back : β → α → Prop}
    {entries : Entries α} {others : Entries β} (h : entries.Matches related others)
    (hentries : (names entries).Nodup) (hothers : (names others).Nodup)
    (hback : ∀ entry ∈ entries, ∀ other ∈ others, related entry.2 other.2 → back other.2 entry.2) :
    others.Matches back entries := by
  constructor
  · intro name hname
    obtain ⟨entry, hentry, rfl⟩ := List.mem_map.mp hname
    obtain ⟨other, hother, -⟩ := h.2 entry hentry
    exact List.mem_map_of_mem (mem_of_get? hother)
  · intro other hother
    obtain ⟨entry, hentry, hname, hsame⟩ := h.exists_entry hothers hother
    exact ⟨entry.2, hname ▸ get?_of_mem hentries hentry, hback entry hentry other hother hsame⟩

theorem forall₂_symm {α β : Type} {related : α → β → Prop} {back : β → α → Prop} {as : List α}
    {bs : List β} (h : List.Forall₂ related as bs)
    (hback : ∀ a ∈ as, ∀ b ∈ bs, related a b → back b a) : List.Forall₂ back bs as := by
  induction h with
  | nil => exact .nil
  | cons hfirst _ ih =>
      refine .cons (hback _ (by simp) _ (by simp) hfirst) (ih fun a ha b hb => ?_)
      exact hback a (by simp [ha]) b (by simp [hb])

namespace Number

theorem equals_comm (m n : Number) : m.equals n = n.equals m := by
  have hstanding (a b : Standing) : a.equals b = b.equals a := by
    cases a <;> cases b <;> simp only [Standing.equals]
    exact BEq.comm
  exact hstanding _ _

theorem isCopy_comm (m n : Number) : m.isCopy n = n.isCopy m := by
  cases m <;> cases n <;> simp only [isCopy]
  exact BEq.comm

end Number

-- No name is repeated, at any level and within the types of frames as well, and no attribute has the
-- name under which a record keeps the type. Dictionaries are like this.
inductive Value.Unrepeated : Value → Prop
  | null : Unrepeated .null
  | bool (b : Bool) : Unrepeated (.bool b)
  | number (n : Number) : Unrepeated (.number n)
  | text (s : Str) : Unrepeated (.text s)
  | array (items : List Value) (hitems : ∀ item ∈ items, Unrepeated item) :
      Unrepeated (.array items)
  | record (entries : Entries Value) (hnames : (Entries.names entries).Nodup)
      (hentries : ∀ entry ∈ entries, Unrepeated entry.2) : Unrepeated (.record entries)
  | frame (type : Value) (attributes : Entries Value) (hnames : (Entries.names attributes).Nodup)
      (hdiscriminant : discriminant ∉ Entries.names attributes) (htype : Unrepeated type)
      (hattributes : ∀ entry ∈ attributes, Unrepeated entry.2) :
      Unrepeated (.frame ⟨type, attributes⟩)

namespace Value

section Unrepeated

variable {type value : Value} {attributes front back : Entries Value} {name : Str}

theorem Unrepeated.nodup (h : (Value.frame ⟨type, attributes⟩).Unrepeated) :
    (Entries.names attributes).Nodup := by
  cases h with
  | frame _ _ hnames => exact hnames

theorem Unrepeated.of_role
    (h : (Value.frame ⟨type, front ++ (name, value) :: back⟩).Unrepeated) : value.Unrepeated := by
  cases h with
  | frame _ _ _ _ _ hattributes => exact hattributes (name, value) (by simp)

theorem Unrepeated.of_item {front back : List Value}
    (h : (Value.array (front ++ value :: back)).Unrepeated) : value.Unrepeated := by
  cases h with
  | array _ hitems => exact hitems value (by simp)

end Unrepeated

variable {inType inside : Bool} {a b : Value}

theorem equalsAt_record {entries others : Entries Value} :
    equalsAt inType inside (.record entries) (.record others) = true ↔
      entries.Matches (fun x y => equalsAt inType true x y = true) others := by
  rw [equalsAt, Bool.and_eq_true, equalsEntries_iff]
  exact and_congr_left fun _ => Entries.all_has_iff

theorem equalsAt_frame {type otherType : Value} {attributes others : Entries Value} :
    equalsAt inType inside (.frame ⟨type, attributes⟩) (.frame ⟨otherType, others⟩) = true ↔
      equalsAt true (inType && inside) type otherType = true ∧
        attributes.Matches (fun x y => equalsAt inType true x y = true) others :=
  equalsAt_frame_iff

theorem same_frame {type otherType : Value} {attributes others : Entries Value} :
    same (.frame ⟨type, attributes⟩) (.frame ⟨otherType, others⟩) = true ↔
      type.equalsType otherType = true ∧
        attributes.Matches (fun x y => same x y = true) others :=
  same_frame_iff

-- What counts as a number equals what counts as an equal one.
theorem equalsAt_of_number {m : Number} (h : a.number? = some m) :
    equalsAt inType inside a b = true ↔
      ∃ n, b.number? = some n ∧ (m.equals n || inside && m.isCopy n) = true := by
  cases a <;> cases h <;> cases b <;> simp [equalsAt, number?]

-- What a record or a frame equals is one as well.
theorem equalsAt_record_left {entries : Entries Value} :
    equalsAt inType inside (.record entries) b = true ↔
      ∃ others, b = .record others ∧
        entries.Matches (fun x y => equalsAt inType true x y = true) others := by
  cases b with
  | record others => simp [equalsAt_record]
  | _ => simp [equalsAt, number?]

theorem equalsAt_frame_left {node : Frame} :
    equalsAt inType inside (.frame node) b = true ↔
      ∃ other : Frame, b = .frame other ∧
        equalsAt true (inType && inside) node.type other.type = true ∧
          Entries.Matches (fun x y => equalsAt inType true x y = true) node.attributes
            other.attributes := by
  cases b with
  | frame other =>
      simp only [frame.injEq, exists_eq_left']
      exact equalsAt_frame
  | _ => simp [equalsAt, number?]

-- Equality goes both ways where no names are repeated.
theorem equalsAt_symm (ha : a.Unrepeated) (hb : b.Unrepeated)
    (h : equalsAt inType inside a b = true) : equalsAt inType inside b a = true := by
  induction ha generalizing b inType inside with
  | null =>
      obtain rfl := equalsAt_null_left.mp h
      exact h
  | bool | number =>
      obtain ⟨n, hn, halike⟩ := (equalsAt_of_number rfl).mp h
      refine (equalsAt_of_number hn).mpr ⟨_, rfl, ?_⟩
      rwa [Number.equals_comm, Number.isCopy_comm]
  | text s =>
      obtain rfl := equalsAt_text_left.mp h
      exact h
  | array xs _ ih =>
      obtain ⟨ys, rfl, hitems⟩ := equalsAt_array_left.mp h
      cases hb with
      | array _ hys =>
          refine equalsAt_array.mpr (forall₂_symm hitems fun x hx y hy hsame => ?_)
          exact ih x hx (hys y hy) hsame
  | record entries hnames _ ih =>
      obtain ⟨others, rfl, hmatches⟩ := equalsAt_record_left.mp h
      cases hb with
      | record _ hothers hvalues =>
          refine equalsAt_record.mpr (hmatches.symm hnames hothers ?_)
          intro entry hentry other hother hsame
          exact ih entry hentry (hvalues other hother) hsame
  | frame type attributes hnames _ _ _ ihtype ih =>
      obtain ⟨other, rfl, htypes, hmatches⟩ := equalsAt_frame_left.mp h
      cases hb with
      | frame otherType others hothers _ htype hvalues =>
          refine equalsAt_frame.mpr ⟨ihtype htype htypes, hmatches.symm hnames hothers ?_⟩
          intro entry hentry other hother hsame
          exact ih entry hentry (hvalues other hother) hsame

theorem equalsType_comm (ha : a.Unrepeated) (hb : b.Unrepeated) :
    a.equalsType b = b.equalsType a :=
  Bool.eq_iff_iff.mpr ⟨equalsAt_symm ha hb, equalsAt_symm hb ha⟩

-- The ways in which two values can be the same, one for each kind.
inductive SameAs : Value → Value → Prop
  | null : SameAs .null .null
  | bool (b : Bool) : SameAs (.bool b) (.bool b)
  | number {m n : Number} (hkind : m.kind = n.kind) (hequal : m.equals n = true) :
      SameAs (.number m) (.number n)
  | text (s : Str) : SameAs (.text s) (.text s)
  | array {xs ys : List Value} (hitems : List.Forall₂ (fun x y => same x y = true) xs ys) :
      SameAs (.array xs) (.array ys)
  | record {entries others : Entries Value}
      (hequal : equalsAt false false (.record entries) (.record others) = true) :
      SameAs (.record entries) (.record others)
  | frame {type otherType : Value} {attributes others : Entries Value}
      (htypes : equalsAt true false type otherType = true)
      (hmatches : attributes.Matches (fun x y => same x y = true) others) :
      SameAs (.frame ⟨type, attributes⟩) (.frame ⟨otherType, others⟩)

theorem same_iff : a.same b = true ↔ a.SameAs b := by
  constructor
  · intro h
    cases a <;> cases b <;> simp only [same, Bool.false_eq_true] at h
    case null.null => exact .null
    case bool.bool x y => exact eq_of_beq h ▸ .bool x
    case number.number m n =>
      rw [Bool.and_eq_true, beq_iff_eq] at h
      exact .number h.1 h.2
    case text.text s t => exact eq_of_beq h ▸ .text s
    case array.array xs ys => exact .array (sameItems_iff.mp h)
    case record.record entries others => exact .record h
    case frame.frame node other =>
      obtain ⟨htypes, hmatches⟩ := same_frame.mp h
      exact .frame htypes hmatches
  · intro h
    cases h with
    | null => rfl
    | bool x | text s => exact beq_self_eq_true _
    | number hkind hequal => rw [same, hkind, hequal, beq_self_eq_true, Bool.and_self]
    | array hitems => exact sameItems_iff.mpr hitems
    | record hequal => exact hequal
    | frame htypes hmatches => exact same_frame.mpr ⟨htypes, hmatches⟩

theorem same_symm (ha : a.Unrepeated) (hb : b.Unrepeated) (h : a.same b = true) :
    b.same a = true := by
  rw [same_iff] at h ⊢
  induction ha generalizing b with
  | null =>
      cases h with
      | null => exact .null
  | bool x =>
      cases h with
      | bool => exact .bool x
  | number m =>
      cases h with
      | number hkind hequal => exact .number hkind.symm (Number.equals_comm _ _ ▸ hequal)
  | text s =>
      cases h with
      | text => exact .text s
  | array xs _ ih =>
      cases h with
      | array hitems =>
          cases hb with
          | array ys hys =>
              refine .array (forall₂_symm hitems fun x hx y hy hsame => ?_)
              exact same_iff.mpr (ih x hx (hys y hy) (same_iff.mp hsame))
  | record entries hnames hentries =>
      cases h with
      | record hequal => exact .record (equalsAt_symm (.record entries hnames hentries) hb hequal)
  | frame type attributes hnames _ htype _ _ ih =>
      cases h with
      | frame htypes hmatches =>
          cases hb with
          | frame otherType others hothers _ hotherType hvalues =>
              refine .frame (equalsAt_symm htype hotherType htypes)
                (hmatches.symm hnames hothers fun entry hentry other hother hsame => ?_)
              exact same_iff.mpr (ih entry hentry (hvalues other hother) (same_iff.mp hsame))

theorem same_comm (ha : a.Unrepeated) (hb : b.Unrepeated) : a.same b = b.same a :=
  Bool.eq_iff_iff.mpr ⟨same_symm ha hb, same_symm hb ha⟩

end Value

-- One value comes from another by changes to the order of attributes: of the value itself if it is a
-- frame, and of frames in attributes and in arrays at any depth. Types stay as they are.
inductive Value.Reordered : Value → Value → Prop
  | refl (value : Value) : Reordered value value
  | trans {a b c : Value} (hfirst : Reordered a b) (hsecond : Reordered b c) : Reordered a c
  | order (type : Value) {entries others : Entries Value} (h : entries.Perm others) :
      Reordered (.frame ⟨type, entries⟩) (.frame ⟨type, others⟩)
  | role (type : Value) (front back : Entries Value) (name : Str) {value other : Value}
      (h : Reordered value other) :
      Reordered (.frame ⟨type, front ++ (name, value) :: back⟩)
        (.frame ⟨type, front ++ (name, other) :: back⟩)
  | item (front back : List Value) {value other : Value} (h : Reordered value other) :
      Reordered (.array (front ++ value :: back)) (.array (front ++ other :: back))

namespace Value

variable {a b : Value}

theorem Reordered.unrepeated (h : a.Reordered b) (ha : a.Unrepeated) : b.Unrepeated := by
  induction h with
  | refl value => exact ha
  | trans _ _ ihfirst ihsecond => exact ihsecond (ihfirst ha)
  | order type hperm =>
      cases ha with
      | frame _ _ hnames hdiscriminant htype hattributes =>
          have hrenamed := hperm.map Prod.fst
          refine .frame type _ (hrenamed.nodup_iff.mp hnames) ?_ htype ?_
          · exact fun hmem => hdiscriminant (hrenamed.mem_iff.mpr hmem)
          · exact fun entry hentry => hattributes entry (hperm.mem_iff.mpr hentry)
  | role type front back name _ ih =>
      cases ha with
      | frame _ _ hnames hdiscriminant htype hattributes =>
          exact .frame type _ (Entries.names_replace ▸ hnames) (Entries.names_replace ▸ hdiscriminant)
            htype (forall_mem_replace hattributes ih)
  | item front back _ ih =>
      cases ha with
      | array _ hitems => exact .array _ (forall_mem_replace hitems ih)

-- What a value equals does not depend on the order of its attributes.
theorem Reordered.equalsAt_eq (h : a.Reordered b) (inType inside : Bool) (c : Value) :
    equalsAt inType inside a c = equalsAt inType inside b c := by
  induction h generalizing inType inside c with
  | refl value => rfl
  | trans _ _ ihfirst ihsecond => rw [ihfirst, ihsecond]
  | order type hperm =>
      rw [Bool.eq_iff_iff, equalsAt_frame_left, equalsAt_frame_left]
      simp only [Entries.Matches, hperm.mem_iff, Entries.names, (hperm.map Prod.fst).mem_iff]
  | role type front back name _ ih =>
      rw [Bool.eq_iff_iff, equalsAt_frame_left, equalsAt_frame_left]
      simp only [Entries.Matches, List.forall_mem_append, List.forall_mem_cons, Entries.names,
        List.map_append, List.map_cons, ih]
  | item front back _ ih =>
      cases c with
      | array others =>
          rw [equalsAt, equalsAt]
          induction front generalizing others with
          | nil => cases others <;> simp [equalsItems, ih]
          | cons first rest ihfront => cases others <;> simp [equalsItems, ihfront]
      | _ => simp [equalsAt, number?]

-- What a value is the same as does not depend on the order of its attributes.
theorem Reordered.same_eq (h : a.Reordered b) (c : Value) : a.same c = b.same c := by
  induction h generalizing c with
  | refl value => rfl
  | trans _ _ ihfirst ihsecond => rw [ihfirst, ihsecond]
  | order type hperm =>
      cases c with
      | frame node =>
          cases node
          rw [Bool.eq_iff_iff, same_frame_iff, same_frame_iff]
          simp only [hperm.mem_iff, Entries.names, (hperm.map Prod.fst).mem_iff]
      | _ => simp [same]
  | role type front back name _ ih =>
      cases c with
      | frame node =>
          cases node
          rw [Bool.eq_iff_iff, same_frame_iff, same_frame_iff]
          simp only [List.forall_mem_append, List.forall_mem_cons, Entries.names, List.map_append,
            List.map_cons, ih]
      | _ => simp [same]
  | item front back _ ih =>
      cases c with
      | array others =>
          rw [same, same]
          induction front generalizing others with
          | nil => cases others <;> simp [sameItems, ih]
          | cons first rest ihfront => cases others <;> simp [sameItems, ihfront]
      | _ => simp [same]

end Value

end FrameNotation
