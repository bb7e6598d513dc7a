import FrameNotation.Proofs.Notation.RoundTrip

namespace FrameNotation

open Writer

-- A value that can be written. Nothing is said of how it comes back.
inductive Value.IsWritable : Value → Prop
  | bool (b : Bool) : IsWritable (.bool b)
  | number (n : Number) (hnumber : n.IsCarried) : IsWritable (.number n)
  | text (s : Str) : IsWritable (.text s)
  | array (items : List Value) (hitems : ∀ item ∈ items, IsWritable item) :
      IsWritable (.array items)
  | frame (type : FrameType) (attributes : List (Str × Value))
      (hroles : ∀ entry ∈ attributes, entry.2 ≠ .null → isRoleName entry.1.toList = true)
      (hvalues : ∀ entry ∈ attributes, entry.2 ≠ .null → IsWritable entry.2) :
      IsWritable (.frame ⟨.text type.name, attributes⟩)

theorem number_eq_ok {n : Number} {cs : List CodePoint} :
    Writer.number n = .ok cs ↔ n.isFinite = true ∧ n.wire = .ok cs := by
  unfold Writer.number
  split_ifs with hfinite
  · exact mapError_eq_ok.trans (and_iff_right hfinite).symm
  · refine iff_of_false (fun h => ?_) fun h => hfinite h.1
    obtain ⟨shown, -, h⟩ := bind_eq_ok.mp h
    cases h

theorem isCarried_of_number {n : Number} {cs : List CodePoint} (h : Writer.number n = .ok cs) :
    n.IsCarried := by
  obtain ⟨hfinite, hwire⟩ := number_eq_ok.mp h
  cases n with
  | int i =>
      unfold Number.IsCarried
      by_contra hlong
      rw [Number.wire, Number.intChars, if_neg hlong] at hwire
      cases hwire
  | float x => exact hfinite
  | nan label => exact hfinite

theorem eq_name_of_ofName? {s : Str} {type : FrameType} (h : FrameType.ofName? s = some type) :
    s = type.name := by
  have hname := List.find?_some h
  exact (of_decide_eq_true hname).symm

theorem eq_text_of_known {type : Value} {known : FrameType}
    (h : type.text?.bind FrameType.ofName? = some known) : type = .text known.name := by
  obtain ⟨s, hs, hknown⟩ := Option.bind_eq_some_iff.mp h
  cases type with
  | text t =>
      cases hs
      rw [eq_name_of_ofName? hknown]
  | _ => cases hs

mutual

theorem isWritable_of_value : (value : Value) → {cs : List CodePoint} →
    Writer.value value = .ok cs →
    value.IsWritable
  | .null, _, h => by cases h
  | .bool b, _, _ => .bool b
  | .number n, _, h => .number n (isCarried_of_number h)
  | .text s, _, _ => .text s
  | .array items, _, h => by
      unfold Writer.value at h
      split_ifs at h
      obtain ⟨parts, hparts, -⟩ := bind_eq_ok.mp h
      exact .array items (isWritable_of_values items hparts)
  | .record _, _, h => by cases h
  | .frame ⟨type, attributes⟩, _, h => by
      rw [Writer.value, Writer.frame] at h
      split at h
      · cases h
      · rename_i known htype
        cases eq_text_of_known htype
        split at h
        · rename_i tokens htokens
          have hentries := isWritable_of_roles attributes htokens
          exact .frame known attributes (fun entry hentry hne => (hentries entry hentry hne).1)
            fun entry hentry hne => (hentries entry hentry hne).2
        · cases h
        · cases h

theorem isWritable_of_values : (items : List Value) → {parts : List (List CodePoint)} →
    Writer.values items = .ok parts → ∀ item ∈ items, item.IsWritable
  | [], _, _ => by simp
  | first :: rest, _, h => by
      unfold Writer.values at h
      obtain ⟨part, hpart, h⟩ := bind_eq_ok.mp h
      obtain ⟨others, hothers, -⟩ := bind_eq_ok.mp h
      intro item hitem
      rcases List.mem_cons.mp hitem with hfirst | hitem
      · exact hfirst ▸ isWritable_of_value first hpart
      · exact isWritable_of_values rest hothers item hitem

theorem isWritable_of_roles : (attributes : List (Str × Value)) → {tokens : List (List CodePoint)} →
    Writer.roles attributes = .ok tokens → ∀ entry ∈ attributes, entry.2 ≠ .null →
      isRoleName entry.1.toList = true ∧ entry.2.IsWritable
  | [], _, _ => by simp
  | (name, content) :: rest, _, h => by
      unfold Writer.roles at h
      intro entry hentry hne
      split_ifs at h with hnull hrole
      · rcases List.mem_cons.mp hentry with rfl | hentry
        · exact absurd (isNull_eq_true.mp hnull) hne
        · exact isWritable_of_roles rest h entry hentry hne
      · obtain ⟨part, hpart, h⟩ := bind_eq_ok.mp h
        obtain ⟨others, hothers, -⟩ := bind_eq_ok.mp h
        rcases List.mem_cons.mp hentry with hfirst | hentry
        · exact hfirst ▸ ⟨by simpa using hrole, isWritable_of_value content hpart⟩
        · exact isWritable_of_roles rest hothers entry hentry hne

end

theorem isNull_of_isWritable {value : Value} (h : value.IsWritable) : value.isNull = false := by
  cases h <;> rfl

theorem Value.IsWritable.exists_value {value : Value} (h : value.IsWritable) :
    ∃ cs, Writer.value value = .ok cs := by
  induction h with
  | bool b => exact ⟨_, rfl⟩
  | number n hnumber =>
      obtain ⟨cs, hcs, -⟩ := written_number hnumber
      exact ⟨cs, hcs⟩
  | text s => exact ⟨_, rfl⟩
  | array items hitems ih =>
      obtain ⟨parts, hparts, -⟩ := exists_values (fun _ _ => True) fun item hitem =>
        (ih item hitem).imp fun _ hcs => ⟨hcs, trivial⟩
      have hnull : items.any Value.isNull = false := by
        rw [List.any_eq_false]
        intro item hitem
        simp [isNull_of_isWritable (hitems item hitem)]
      rw [Writer.value, hnull, hparts]
      exact ⟨_, rfl⟩
  | frame type attributes hroles _ ih =>
      obtain ⟨tokens, htokens, -⟩ := exists_roles (fun _ _ => True) hroles fun entry hentry hne =>
        (ih entry hentry hne).imp fun _ hcs => ⟨hcs, trivial⟩
      exact ⟨_, frame_eq htokens⟩

-- The frames that have a notation.
theorem Node.isWritable_iff {frame : Frame} :
    (Value.frame frame).IsWritable ↔ ∃ text, frame.write = .ok text := by
  constructor
  · intro h
    obtain ⟨cs, hcs⟩ := h.exists_value
    exact ⟨Str.ofList cs, map_eq_ok.mpr ⟨cs, hcs, rfl⟩⟩
  · rintro ⟨text, h⟩
    obtain ⟨cs, hcs, -⟩ := map_eq_ok.mp h
    exact isWritable_of_value (.frame frame) hcs

end FrameNotation
