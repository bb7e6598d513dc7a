import FrameNotation.Proofs.Similarity.Texts
import Mathlib.Order.Bounds.Defs

namespace FrameNotation

-- One character of a text is put in, taken out or replaced.
inductive Edit : List CodePoint → List CodePoint → Prop
  | insert (front : List CodePoint) (c : CodePoint) (back : List CodePoint) :
      Edit (front ++ back) (front ++ c :: back)
  | delete (front : List CodePoint) (c : CodePoint) (back : List CodePoint) :
      Edit (front ++ c :: back) (front ++ back)
  | substitute (front : List CodePoint) (c d : CodePoint) (back : List CodePoint) :
      Edit (front ++ c :: back) (front ++ d :: back)

-- So many edits, one after the other, turn one text into another.
inductive Edits : Nat → List CodePoint → List CodePoint → Prop
  | nothing (cs : List CodePoint) : Edits 0 cs cs
  | next {count : Nat} {cs ds es : List CodePoint} (hfirst : Edit cs ds) (h : Edits count ds es) :
      Edits (count + 1) cs es

variable {c d : CodePoint} {cs ds es : List CodePoint} {count more : Nat}

theorem Edit.cons (c : CodePoint) (h : Edit cs ds) : Edit (c :: cs) (c :: ds) := by
  cases h with
  | insert front added back => exact .insert (c :: front) added back
  | delete front removed back => exact .delete (c :: front) removed back
  | substitute front old new back => exact .substitute (c :: front) old new back

theorem Edit.reverse (h : Edit cs ds) : Edit cs.reverse ds.reverse := by
  cases h with
  | insert front added back =>
      rw [List.reverse_append, List.reverse_append, List.reverse_cons, List.append_assoc]
      exact .insert back.reverse added front.reverse
  | delete front removed back =>
      rw [List.reverse_append, List.reverse_append, List.reverse_cons, List.append_assoc]
      exact .delete back.reverse removed front.reverse
  | substitute front old new back =>
      rw [List.reverse_append, List.reverse_append, List.reverse_cons, List.reverse_cons,
        List.append_assoc, List.append_assoc]
      exact .substitute back.reverse old new front.reverse

namespace Edits

theorem cons (c : CodePoint) (h : Edits count cs ds) : Edits count (c :: cs) (c :: ds) := by
  induction h with
  | nothing cs => exact .nothing _
  | next hfirst _ ih => exact .next (hfirst.cons c) ih

theorem reverse (h : Edits count cs ds) : Edits count cs.reverse ds.reverse := by
  induction h with
  | nothing cs => exact .nothing _
  | next hfirst _ ih => exact .next hfirst.reverse ih

theorem inserting (cs : List CodePoint) : Edits cs.length [] cs := by
  induction cs with
  | nil => exact .nothing []
  | cons c rest ih => exact .next (.insert [] c []) (ih.cons c)

theorem deleting (cs : List CodePoint) : Edits cs.length cs [] := by
  induction cs with
  | nil => exact .nothing []
  | cons c rest ih => exact .next (.delete [] c rest) ih

-- The recurrence tells which edit to begin with.
theorem edits_distance (cs ds : List CodePoint) : Edits (distance cs ds) cs ds := by
  induction cs, ds using distance.induct with
  | case1 ds =>
      rw [distance_nil_left]
      exact inserting ds
  | case2 c cs =>
      rw [distance_nil_right]
      exact deleting (c :: cs)
  | case3 c cs d ds ihdelete ihinsert ihboth =>
      have hdelete : Edits (distance cs (d :: ds) + 1) (c :: cs) (d :: ds) :=
        .next (.delete [] c cs) ihdelete
      have hinsert : Edits (distance (c :: cs) ds + 1) (c :: cs) (d :: ds) :=
        .next (.insert [] d (c :: cs)) (ihinsert.cons d)
      have hboth : Edits (distance cs ds + if c = d then 0 else 1) (c :: cs) (d :: ds) := by
        split_ifs with hsame
        · exact hsame ▸ ihboth.cons c
        · exact .next (.substitute [] c d cs) (ihboth.cons d)
      rw [distance]
      rcases Nat.le_total (min (distance cs (d :: ds) + 1) (distance (c :: cs) ds + 1))
        (distance cs ds + if c = d then 0 else 1) with hle | hle
      · rw [Nat.min_eq_left hle]
        rcases Nat.le_total (distance cs (d :: ds) + 1) (distance (c :: cs) ds + 1) with hle | hle
        · rwa [Nat.min_eq_left hle]
        · rwa [Nat.min_eq_right hle]
      · rwa [Nat.min_eq_right hle]

end Edits

theorem distance_self (cs : List CodePoint) : distance cs cs = 0 := by
  induction cs with
  | nil => rw [distance_nil_left, List.length_nil]
  | cons c rest ih => rw [distance, ih, if_pos rfl, Nat.min_zero]

section Bounds

theorem distance_cons_le (c : CodePoint) (cs ds : List CodePoint) :
    distance (c :: cs) ds ≤ distance cs ds + 1 := by
  cases ds with
  | nil =>
      rw [distance_nil_right, distance_nil_right]
      exact Nat.le_refl _
  | cons d rest =>
      rw [distance]
      omega

theorem distance_le_cons (c : CodePoint) (cs ds : List CodePoint) :
    distance cs ds ≤ distance (c :: cs) ds + 1 := by
  induction ds with
  | nil =>
      rw [distance_nil_right, distance_nil_right, List.length_cons]
      omega
  | cons d rest ih =>
      have hlonger : distance cs (d :: rest) ≤ distance cs rest + 1 := by
        rw [distance_comm, distance_comm cs]
        exact distance_cons_le d rest cs
      rw [distance]
      omega

theorem distance_replace_le (c d : CodePoint) (cs ds : List CodePoint) :
    distance (c :: cs) ds ≤ distance (d :: cs) ds + 1 := by
  induction ds with
  | nil =>
      rw [distance_nil_right, distance_nil_right, List.length_cons, List.length_cons]
      omega
  | cons e rest ih =>
      rw [distance, distance]
      split_ifs <;> omega

-- A change behind a character costs no more than the change alone.
theorem distance_cons_cons_le (h : ∀ es, distance cs es ≤ distance ds es + 1) (c : CodePoint)
    (es : List CodePoint) : distance (c :: cs) es ≤ distance (c :: ds) es + 1 := by
  induction es with
  | nil =>
      have hlength := h []
      rw [distance_nil_right, distance_nil_right] at hlength ⊢
      rw [List.length_cons, List.length_cons]
      omega
  | cons e rest ih =>
      have hbehind := h (e :: rest)
      have hboth := h rest
      rw [distance, distance]
      omega

-- One edit changes the distance to any text by one at most.
theorem Edit.distance_le (h : Edit cs ds) (es : List CodePoint) :
    distance cs es ≤ distance ds es + 1 := by
  have hbehind (front : List CodePoint) {cs ds : List CodePoint}
      (h : ∀ es, distance cs es ≤ distance ds es + 1) (es : List CodePoint) :
      distance (front ++ cs) es ≤ distance (front ++ ds) es + 1 := by
    induction front generalizing es with
    | nil => exact h es
    | cons c rest ih => exact distance_cons_cons_le ih c es
  cases h with
  | insert front c back => exact hbehind front (distance_le_cons c back) es
  | delete front c back => exact hbehind front (distance_cons_le c back) es
  | substitute front c d back => exact hbehind front (distance_replace_le c d back) es

-- No row of edits is shorter than the distance.
theorem Edits.distance_le (h : Edits count cs ds) : distance cs ds ≤ count := by
  induction h with
  | nothing cs => exact Nat.le_of_eq (distance_self cs)
  | @next count cs ds es hfirst _ ih =>
      calc distance cs es ≤ distance ds es + 1 := hfirst.distance_le es
        _ ≤ count + 1 := Nat.add_le_add_right ih 1

end Bounds

-- The table gives the least number of edits that turn one text into the other.
theorem isLeast_editDistance (a b : List CodePoint) :
    IsLeast {n | Edits n a b} (editDistance a b) := by
  rw [editDistance_eq]
  constructor
  · have hedits := (Edits.edits_distance a.reverse b.reverse).reverse
    rwa [List.reverse_reverse, List.reverse_reverse] at hedits
  · intro count hedits
    exact hedits.reverse.distance_le

end FrameNotation
