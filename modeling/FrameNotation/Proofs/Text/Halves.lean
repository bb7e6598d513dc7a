import FrameNotation.Text.CodePoint
import Mathlib.Data.List.Basic
import Mathlib.Tactic.SplitIfs

namespace FrameNotation

variable {c d first : CodePoint} {cs ds rest : List CodePoint} {n : Nat}

namespace CodePoint

-- High halves come first among the surrogates, low ones behind them.
def half (n : Nat) : CodePoint := surrogate (Fin.ofNat 2048 n)

def IsHigh (c : CodePoint) : Prop := 0xd800 ≤ c.toNat ∧ c.toNat < 0xdc00

def IsLow (c : CodePoint) : Prop := 0xdc00 ≤ c.toNat ∧ c.toNat < 0xe000

instance : DecidablePred IsHigh := fun _ => inferInstanceAs (Decidable (_ ∧ _))

instance : DecidablePred IsLow := fun _ => inferInstanceAs (Decidable (_ ∧ _))

-- A code point in 16-bit units: as it is, or as one high and one low half.
def halves (c : CodePoint) : List CodePoint :=
  if c.toNat < 0x10000 then [c]
  else [half ((c.toNat - 0x10000) / 0x400), half (0x400 + (c.toNat - 0x10000) % 0x400)]

theorem toNat_half (h : n < 0x800) : (half n).toNat = 0xd800 + n := by
  rw [half, toNat, Fin.val_ofNat, Nat.mod_eq_of_lt h]

theorem toNat_lt (c : CodePoint) : c.toNat < 0x110000 := by
  cases c with
  | char c =>
      have hvalid : c.toNat < 0xd800 ∨ 0xdfff < c.toNat ∧ c.toNat < 0x110000 := c.valid
      rw [toNat_char]
      omega
  | surrogate index =>
      rw [toNat]
      omega

theorem halves_of_small (h : c.toNat < 0x10000) : c.halves = [c] := if_pos h

-- The units of a character beyond them are a high half and a low one, which tell it.
theorem exists_halves (h : 0x10000 ≤ c.toNat) : ∃ high low, c.halves = [high, low] ∧
    high.IsHigh ∧ low.IsLow ∧
      c.toNat = 0x10000 + (high.toNat - 0xd800) * 0x400 + (low.toNat - 0xdc00) := by
  have hlt := c.toNat_lt
  have hhigh := toNat_half (show (c.toNat - 0x10000) / 0x400 < 0x800 by omega)
  have hlow := toNat_half (show 0x400 + (c.toNat - 0x10000) % 0x400 < 0x800 by omega)
  refine ⟨_, _, if_neg (by omega), ?_, ?_, ?_⟩
  · rw [IsHigh]
    omega
  · rw [IsLow]
    omega
  · omega

theorem halves_ne_nil (c : CodePoint) : c.halves ≠ [] := by
  unfold halves
  split_ifs <;> exact List.cons_ne_nil _ _

theorem toNat_lt_of_mem_halves (h : d ∈ c.halves) : d.toNat < 0x10000 := by
  by_cases hsmall : c.toNat < 0x10000
  · rw [halves_of_small hsmall, List.mem_singleton] at h
    rwa [h]
  · obtain ⟨high, low, hhalves, hhigh, hlow, -⟩ := exists_halves (Nat.le_of_not_lt hsmall)
    rw [hhalves, List.mem_cons, List.mem_singleton] at h
    rcases h with rfl | rfl
    · exact Nat.lt_trans hhigh.2 (by decide)
    · exact Nat.lt_trans hlow.2 (by decide)

end CodePoint

namespace Text

-- No high half stands right in front of a low one.
def Unpaired (cs : List CodePoint) : Prop := cs.IsChain fun c d => ¬(c.IsHigh ∧ d.IsLow)

instance : DecidablePred Unpaired := fun _ => inferInstanceAs (Decidable (List.IsChain _ _))

theorem Unpaired.of_cons (h : Unpaired (c :: cs)) : Unpaired cs := by
  cases h with
  | singleton => exact .nil
  | cons_cons _ h => exact h

-- A half that stands for itself is not the first unit of a character behind which the second one
-- comes.
theorem Unpaired.not_halves (h : Unpaired (c :: cs)) (hlarge : 0x10000 ≤ d.toNat) :
    c :: cs.flatMap CodePoint.halves ≠ d.halves ++ rest := by
  obtain ⟨high, low, hhalves, hhigh, hlow, -⟩ := CodePoint.exists_halves hlarge
  rw [hhalves]
  intro heq
  obtain ⟨rfl, hrest⟩ := List.cons.inj heq
  cases h with
  | singleton => cases hrest
  | @cons_cons _ second _ hpair _ =>
      rw [List.flatMap_cons] at hrest
      by_cases hsmall : second.toNat < 0x10000
      · rw [CodePoint.halves_of_small hsmall] at hrest
        obtain ⟨rfl, -⟩ := List.cons.inj hrest
        exact hpair ⟨hhigh, hlow⟩
      · obtain ⟨other, _, hother, hotherHigh, -, -⟩ :=
          CodePoint.exists_halves (Nat.le_of_not_lt hsmall)
        rw [hother] at hrest
        obtain ⟨rfl, -⟩ := List.cons.inj hrest
        exact absurd hlow.1 (Nat.not_le_of_lt hotherHigh.2)

-- Texts without pairs are known from their units.
theorem flatMap_halves_inj (hcs : Unpaired cs) (hds : Unpaired ds)
    (h : cs.flatMap CodePoint.halves = ds.flatMap CodePoint.halves) : cs = ds := by
  have hnil {c : CodePoint} {cs : List CodePoint} :
      (c :: cs).flatMap CodePoint.halves ≠ [] := by
    simp [List.flatMap_cons, CodePoint.halves_ne_nil]
  induction cs generalizing ds with
  | nil =>
      cases ds with
      | nil => rfl
      | cons d ds => exact absurd h.symm hnil
  | cons c cs ih =>
      cases ds with
      | nil => exact absurd h hnil
      | cons d ds =>
          rw [List.flatMap_cons, List.flatMap_cons] at h
          by_cases hc : c.toNat < 0x10000 <;> by_cases hd : d.toNat < 0x10000
          · rw [CodePoint.halves_of_small hc, CodePoint.halves_of_small hd] at h
            obtain ⟨rfl, hrest⟩ := List.cons.inj h
            rw [ih hcs.of_cons hds.of_cons hrest]
          · rw [CodePoint.halves_of_small hc] at h
            exact absurd h (hcs.not_halves (Nat.le_of_not_lt hd))
          · rw [CodePoint.halves_of_small hd] at h
            exact absurd h.symm (hds.not_halves (Nat.le_of_not_lt hc))
          · obtain ⟨_, _, hchalves, -, -, hcnat⟩ := CodePoint.exists_halves (Nat.le_of_not_lt hc)
            obtain ⟨_, _, hdhalves, -, -, hdnat⟩ := CodePoint.exists_halves (Nat.le_of_not_lt hd)
            rw [hchalves, hdhalves] at h
            obtain ⟨rfl, hsecond⟩ := List.cons.inj h
            obtain ⟨rfl, hrest⟩ := List.cons.inj hsecond
            cases CodePoint.toNat_inj.mp (hcnat.trans hdnat.symm)
            rw [ih hcs.of_cons hds.of_cons hrest]

-- Units without halves are the text itself.
theorem eq_of_flatMap_halves (h : cs.flatMap CodePoint.halves = ds)
    (hds : ∀ c ∈ ds, c.isSurrogate = false) : cs = ds := by
  subst h
  have hself : ∀ c ∈ cs, c.halves = [c] := by
    intro c hc
    by_cases hsmall : c.toNat < 0x10000
    · exact CodePoint.halves_of_small hsmall
    · have hhalves : c.halves = [CodePoint.half _, CodePoint.half _] := if_neg hsmall
      have hmem := hds _ (List.mem_flatMap.mpr ⟨c, hc, hhalves ▸ List.mem_cons_self⟩)
      cases hmem
  rw [List.flatMap_congr hself, List.flatMap_singleton']

end Text

-- A text in 16-bit units.
def Str.units (s : Str) : Str := ⟨s.toList.flatMap CodePoint.halves⟩

theorem Str.units_inj {s t : Str} (hs : Text.Unpaired s.toList) (ht : Text.Unpaired t.toList)
    (h : s.units = t.units) : s = t :=
  Str.toList_inj.mp (Text.flatMap_halves_inj hs ht (Str.ofList_inj.mp h))

end FrameNotation
