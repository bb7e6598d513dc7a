namespace FrameNotation

-- What texts consist of: characters, and the 2048 surrogates, which other encodings join into
-- pairs. In a text a surrogate may stand alone, and a pair of them is no character.
inductive CodePoint
  | char (c : Char)
  | surrogate (index : Fin 2048)
deriving DecidableEq

export CodePoint (char)

namespace CodePoint

instance : Coe Char CodePoint := ⟨char⟩

instance : Inhabited CodePoint := ⟨char default⟩

def toNat : CodePoint → Nat
  | char c => c.toNat
  | surrogate index => 0xd800 + index

def char? : CodePoint → Option Char
  | char c => some c
  | surrogate _ => none

def isSurrogate : CodePoint → Bool
  | char _ => false
  | surrogate _ => true

-- Letters and digits of ASCII.
def isAlphanum : CodePoint → Bool
  | char c => c.isAlphanum
  | surrogate _ => false

def toLower : CodePoint → CodePoint
  | char c => char c.toLower
  | surrogate index => surrogate index

@[simp] theorem toNat_char {c : Char} : (char c).toNat = c.toNat := rfl

theorem toNat_inj {c d : CodePoint} : c.toNat = d.toNat ↔ c = d := by
  constructor
  · intro h
    cases c with
    | char c =>
        have hc : c.toNat < 0xd800 ∨ 0xdfff < c.toNat ∧ c.toNat < 0x110000 := c.valid
        cases d with
        | char d => rw [Char.toNat_inj.mp h]
        | surrogate index =>
            simp only [toNat] at h
            omega
    | surrogate index =>
        cases d with
        | char d =>
            have hd : d.toNat < 0xd800 ∨ 0xdfff < d.toNat ∧ d.toNat < 0x110000 := d.valid
            simp only [toNat] at h
            omega
        | surrogate other =>
            simp only [toNat, Nat.add_left_cancel_iff] at h
            rw [Fin.ext h]
  · rintro rfl
    rfl

end CodePoint

structure Str where
  ofList ::
  toList : List CodePoint
deriving DecidableEq

namespace Str

variable {s t u : Str} {cs ds : List CodePoint}

def ofString (s : String) : Str := ⟨s.toList.map char⟩

instance : Coe String Str := ⟨ofString⟩

instance : Inhabited Str := ⟨⟨[]⟩⟩

instance : Append Str := ⟨fun s t => ⟨s.toList ++ t.toList⟩⟩

def length (s : Str) : Nat := s.toList.length

def isEmpty (s : Str) : Bool := s.toList.isEmpty

def intercalate (separator : Str) (parts : List Str) : Str :=
  ⟨separator.toList.intercalate (parts.map toList)⟩

-- The order by the numbers of the code points.
instance : LT Str :=
  ⟨fun s t => List.lt (s.toList.map CodePoint.toNat) (t.toList.map CodePoint.toNat)⟩

instance : LE Str := ⟨fun s t => ¬t < s⟩

instance : DecidableLT Str := fun s t =>
  List.decidableLT (s.toList.map CodePoint.toNat) (t.toList.map CodePoint.toNat)

theorem toList_inj : s.toList = t.toList ↔ s = t := by
  cases s
  cases t
  simp

theorem ofList_inj : ofList cs = ofList ds ↔ cs = ds := ⟨ofList.inj, congrArg ofList⟩

@[simp] theorem toList_ofList : (ofList cs).toList = cs := rfl

@[simp] theorem ofList_toList : ofList s.toList = s := rfl

@[simp] theorem toList_append : (s ++ t).toList = s.toList ++ t.toList := rfl

@[simp] theorem toList_ofString {text : String} :
    (ofString text).toList = text.toList.map char := rfl

@[simp] theorem ofString_inj {text other : String} :
    ofString text = ofString other ↔ text = other := by
  rw [← toList_inj, toList_ofString, toList_ofString, ← String.toList_inj]
  refine ⟨fun h => ?_, fun h => by rw [h]⟩
  exact (List.map_inj_right fun _ _ => CodePoint.char.inj).mp h

@[simp] theorem length_toList : s.toList.length = s.length := rfl

@[simp] theorem length_ofList : (ofList cs).length = cs.length := rfl

@[simp] theorem length_append : (s ++ t).length = s.length + t.length := List.length_append

@[simp] theorem append_right_inj (s : Str) : s ++ t = s ++ u ↔ t = u := by
  simp [← toList_inj]

@[simp] theorem append_left_inj (s : Str) : t ++ s = u ++ s ↔ t = u := by
  simp [← toList_inj]

theorem intercalate_singleton {separator : Str} : separator.intercalate [s] = s := by
  simp [intercalate]

theorem intercalate_cons_of_ne_nil {separator : Str} {parts : List Str} (h : parts ≠ []) :
    separator.intercalate (s :: parts) = s ++ separator ++ separator.intercalate parts := by
  obtain ⟨part, parts, rfl⟩ := List.exists_cons_of_ne_nil h
  simp [← toList_inj, intercalate, List.intercalate_cons_cons]

@[simp] theorem not_lt : ¬s < t ↔ t ≤ s := Iff.rfl

theorem le_trans (h : s ≤ t) (hnext : t ≤ u) : s ≤ u := List.le_trans h hnext

theorem le_total (s t : Str) : s ≤ t ∨ t ≤ s := List.le_total _ _

theorem le_antisymm (h : s ≤ t) (hback : t ≤ s) : s = t := by
  rw [← toList_inj]
  refine (List.map_inj_right fun _ _ => CodePoint.toNat_inj.mp).mp (List.le_antisymm h hback)

end Str

namespace Text

-- A set of code points, as inclusive ranges.
abbrev Ranges := List (Nat × Nat)

def Ranges.contains (ranges : Ranges) (c : CodePoint) : Bool :=
  ranges.any fun (first, last) => decide (first ≤ c.toNat ∧ c.toNat ≤ last)

end Text

end FrameNotation
