import FrameNotation.Proofs.Frame.Entries
import FrameNotation.Similarity.Strings

namespace FrameNotation

variable {c : CodePoint} {before other done word : List CodePoint}

-- The distance by its recurrence, on texts from their ends.
def distance : List CodePoint → List CodePoint → Nat
  | [], ys => ys.length
  | x :: xs, [] => (x :: xs).length
  | x :: xs, y :: ys =>
    min (min (distance xs (y :: ys) + 1) (distance (x :: xs) ys + 1))
      (distance xs ys + if x = y then 0 else 1)

theorem distance_nil_left (ys : List CodePoint) : distance [] ys = ys.length := by
  rw [distance]

theorem distance_nil_right (xs : List CodePoint) : distance xs [] = xs.length := by
  cases xs <;> simp [distance]

theorem distance_comm (xs ys : List CodePoint) : distance xs ys = distance ys xs := by
  induction xs generalizing ys with
  | nil => rw [distance_nil_right, distance_nil_left]
  | cons x xs ih =>
      induction ys with
      | nil => rw [distance_nil_right, distance_nil_left]
      | cons y ys ihy =>
          have hsame : (if x = y then 0 else 1) = if y = x then 0 else 1 := by
            simp only [eq_comm]
          rw [distance, distance, ih, ih, ihy, hsame, Nat.min_comm (distance (y :: ys) xs + 1)]

-- The distances from a text to another that grows by one character after the other.
def rowFrom (done before : List CodePoint) : List CodePoint → List Nat
  | [] => []
  | d :: rest => distance done (d :: before) :: rowFrom done (d :: before) rest

def fullRow (done other : List CodePoint) : List Nat := distance done [] :: rowFrom done [] other

theorem nextCells_rowFrom :
    nextCells c (distance (c :: done) before) (distance done before) (rowFrom done before other)
      other = rowFrom (c :: done) before other := by
  induction other generalizing before with
  | nil => rfl
  | cons d rest ih =>
      have hhere : distance (c :: done) (d :: before) =
          min (min (distance done (d :: before) + 1) (distance (c :: done) before + 1))
            (distance done before + if c = d then 0 else 1) := by
        rw [distance]
      rw [rowFrom, rowFrom, nextCells, ← hhere, ih]

theorem nextRow_fullRow : nextRow c (fullRow done other) other = fullRow (c :: done) other := by
  have hfirst : distance done [] + 1 = distance (c :: done) [] := by
    rw [distance_nil_right, distance_nil_right, List.length_cons]
  rw [fullRow, nextRow, hfirst, nextCells_rowFrom, fullRow]

-- The table goes through the longer text, and its rows hold the distances from what it has passed.
theorem lastRow_fullRow :
    lastRow other (fullRow done other) word = fullRow (word.reverse ++ done) other := by
  induction word generalizing done with
  | nil => rfl
  | cons c rest ih => rw [lastRow, nextRow_fullRow, ih, List.reverse_cons, List.append_assoc,
      List.singleton_append]

theorem range_eq_fullRow (other : List CodePoint) :
    List.range (other.length + 1) = fullRow [] other := by
  have hrow (before other : List CodePoint) :
      rowFrom [] before other = List.range' (before.length + 1) other.length := by
    induction other generalizing before with
    | nil => rfl
    | cons d rest ih =>
        rw [rowFrom, ih, distance_nil_left, List.length_cons, List.length_cons, List.range'_succ]
  rw [fullRow, hrow, List.range_eq_range', List.range'_succ, distance_nil_left, List.length_nil]

theorem getLastD_fullRow (done other : List CodePoint) :
    (fullRow done other).getLastD 0 = distance done other.reverse := by
  have hrow (before other : List CodePoint) :
      (rowFrom done before other).getLastD (distance done before) =
        distance done (other.reverse ++ before) := by
    induction other generalizing before with
    | nil => rfl
    | cons d rest ih =>
        rw [rowFrom, List.getLastD_cons, ih, List.reverse_cons, List.append_assoc,
          List.singleton_append]
  rw [fullRow, List.getLastD_cons, hrow, List.append_nil]

-- The table gives the distance, whichever text runs along its rows.
theorem editDistance_eq (a b : List CodePoint) :
    editDistance a b = distance a.reverse b.reverse := by
  have htable (long short : List CodePoint) :
      (lastRow short (List.range (short.length + 1)) long).getLastD 0 =
        distance long.reverse short.reverse := by
    rw [range_eq_fullRow, lastRow_fullRow, getLastD_fullRow, List.append_nil]
  unfold editDistance
  by_cases hshort : a.length < b.length
  · simp only [if_pos hshort]
    rw [htable, distance_comm]
  · simp only [if_neg hshort]
    rw [htable]

theorem editDistance_comm (a b : List CodePoint) : editDistance a b = editDistance b a := by
  rw [editDistance_eq, editDistance_eq, distance_comm]

theorem length_common_comm {α : Type} [BEq α] [LawfulBEq α] {as bs : List α} (has : as.Nodup)
    (hbs : bs.Nodup) : (common as bs).length = (common bs as).length := by
  refine ((List.perm_ext_iff_of_nodup (has.filter _) (hbs.filter _)).mpr fun a => ?_).length_eq
  simp [and_comm]

theorem sharedRatio_comm {α : Type} [BEq α] [LawfulBEq α] {as bs : List α} (has : as.Nodup)
    (hbs : bs.Nodup) : sharedRatio as bs = sharedRatio bs as := by
  simp only [sharedRatio]
  rw [length_common_comm has hbs, Nat.add_comm]

theorem editSimilarity_comm (a b : List CodePoint) : editSimilarity a b = editSimilarity b a := by
  rw [editSimilarity, editSimilarity, editDistance_comm, Nat.max_comm]

theorem wordOverlap_comm (a b : List CodePoint) : wordOverlap a b = wordOverlap b a := by
  simp only [wordOverlap]
  rw [sharedRatio_comm (nodup_eraseDups _) (nodup_eraseDups _), Bool.and_comm]

theorem keywordOverlap_comm (a b : List CodePoint) : keywordOverlap a b = keywordOverlap b a := by
  have hnodup (cs : List CodePoint) : (keywords cs).Nodup := nodup_eraseDups _
  simp only [keywordOverlap]
  rw [sharedRatio_comm (hnodup a) (hnodup b), Bool.and_comm, Bool.or_comm]

theorem stringSimilarity_comm (s t : Str) : stringSimilarity s t = stringSimilarity t s := by
  simp only [stringSimilarity]
  rw [wordOverlap_comm, editSimilarity_comm, keywordOverlap_comm, Bool.or_comm]
  simp only [eq_comm]

end FrameNotation
