import FrameNotation.Frame.Basic

namespace FrameNotation

-- What the numbers, texts and roles of a value may be, and whether an attribute may be null.
structure Limits where
  number : Number → Prop
  text : Str → Prop
  role : Str → Prop
  void : Prop

-- A value that keeps to limits in all its parts. Its arrays hold no null, and its frames have
-- known types and roles without repetition.
inductive Value.Within (limits : Limits) : Value → Prop
  | bool (b : Bool) : Within limits (.bool b)
  | number (n : Number) (hnumber : limits.number n) : Within limits (.number n)
  | text (s : Str) (htext : limits.text s) : Within limits (.text s)
  | array (items : List Value) (hitems : ∀ item ∈ items, Within limits item) :
      Within limits (.array items)
  | frame (type : FrameType) (attributes : List (Str × Value))
      (hnames : (Entries.names attributes).Nodup)
      (hdiscriminant : discriminant ∉ Entries.names attributes)
      (hvoid : ∀ entry ∈ attributes, entry.2 = .null → limits.void)
      (hroles : ∀ entry ∈ attributes, entry.2 ≠ .null → limits.role entry.1)
      (hvalues : ∀ entry ∈ attributes, entry.2 ≠ .null → Within limits entry.2) :
      Within limits (.frame ⟨.text type.name, attributes⟩)

def Node.Within (limits : Limits) (frame : Frame) : Prop := (Value.frame frame).Within limits

-- Wider limits admit more.
theorem Value.Within.mono {limits wider : Limits} {value : Value} (h : value.Within limits)
    (hnumber : ∀ n, limits.number n → wider.number n)
    (htext : ∀ s, limits.text s → wider.text s) (hrole : ∀ s, limits.role s → wider.role s)
    (hvoid : limits.void → wider.void) : value.Within wider := by
  induction h with
  | bool b => exact .bool b
  | number n hn => exact .number n (hnumber n hn)
  | text s hs => exact .text s (htext s hs)
  | array items _ ih => exact .array items ih
  | frame type attributes hnames hdiscriminant hvoids hroles _ ih =>
      exact .frame type attributes hnames hdiscriminant
        (fun entry hentry hnull => hvoid (hvoids entry hentry hnull))
        (fun entry hentry hnull => hrole _ (hroles entry hentry hnull)) ih

theorem Value.Within.parts {limits : Limits} {node : Frame} (h : (Value.frame node).Within limits) :
    (∀ entry ∈ node.attributes, entry.2 = .null → limits.void) ∧
      (∀ entry ∈ node.attributes, entry.2 ≠ .null → limits.role entry.1) ∧
        ∀ entry ∈ node.attributes, entry.2 ≠ .null → entry.2.Within limits := by
  cases h with
  | frame type attributes _ _ hvoid hroles hvalues => exact ⟨hvoid, hroles, hvalues⟩

-- A value within two limits.
theorem Value.Within.and {limits other both : Limits} {value : Value} (h : value.Within limits)
    (hother : value.Within other)
    (hnumber : ∀ n, limits.number n → other.number n → both.number n)
    (htext : ∀ s, limits.text s → other.text s → both.text s)
    (hrole : ∀ s, limits.role s → other.role s → both.role s)
    (hvoid : limits.void → other.void → both.void) : value.Within both := by
  induction h with
  | bool b => exact .bool b
  | number n hn =>
      cases hother with
      | number _ hn' => exact .number n (hnumber n hn hn')
  | text s hs =>
      cases hother with
      | text _ hs' => exact .text s (htext s hs hs')
  | array items _ ih =>
      cases hother with
      | array _ hitems => exact .array items fun item hitem => ih item hitem (hitems item hitem)
  | frame type attributes hnames hdiscriminant hvoids hroles _ ih =>
      obtain ⟨hvoids', hroles', hvalues'⟩ := hother.parts
      exact .frame type attributes hnames hdiscriminant
        (fun entry hentry hnull => hvoid (hvoids entry hentry hnull) (hvoids' entry hentry hnull))
        (fun entry hentry hne => hrole _ (hroles entry hentry hne) (hroles' entry hentry hne))
        fun entry hentry hne => ih entry hentry hne (hvalues' entry hentry hne)

namespace Value

mutual

-- A value with other numbers and without the attributes that are null.
def rebuilt (number : Number → Number) : Value → Value
  | .number n => .number (number n)
  | .array items => .array (rebuiltItems number items)
  | .frame ⟨type, attributes⟩ => .frame ⟨type, rebuiltEntries number attributes⟩
  | value => value

def rebuiltItems (number : Number → Number) : List Value → List Value
  | [] => []
  | item :: rest => rebuilt number item :: rebuiltItems number rest

def rebuiltEntries (number : Number → Number) : List (Str × Value) → List (Str × Value)
  | [] => []
  | (name, content) :: rest =>
    if content.isNull then rebuiltEntries number rest
    else (name, rebuilt number content) :: rebuiltEntries number rest

end

end Value

-- The frame without the attributes that are null, at every level.
def Node.pruned (frame : Frame) : Frame :=
  ⟨frame.type, Value.rebuiltEntries id frame.attributes⟩

end FrameNotation
