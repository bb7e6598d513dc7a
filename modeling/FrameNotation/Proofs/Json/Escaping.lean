import FrameNotation.Json.Canonical
import FrameNotation.Proofs.Text.Halves
import Mathlib.Algebra.Ring.Nat
import Mathlib.Tactic.SplitIfs

namespace FrameNotation

variable {c d : CodePoint} {cs ds rest others : List CodePoint} {m n : Nat}

namespace Text

theorem length_hexDigits (width n : Nat) : (hexDigits width n).length = width := by
  induction width generalizing n with
  | zero => rfl
  | succ width ih => rw [hexDigits, List.length_append, ih, List.length_singleton]

-- Digits enough for both tell numbers apart.
theorem hexDigits_inj {width : Nat} (hm : m < 16 ^ width) (hn : n < 16 ^ width)
    (h : hexDigits width m = hexDigits width n) : m = n := by
  induction width generalizing m n with
  | zero =>
      rw [Nat.pow_zero] at hm hn
      omega
  | succ width ih =>
      obtain ⟨hfront, hlast⟩ := List.append_inj' h rfl
      have hdigits : ∀ a < 16, ∀ b < 16, Nat.digitChar a = Nat.digitChar b → a = b := by decide
      have hmod := hdigits _ (Nat.mod_lt m (by decide)) _ (Nat.mod_lt n (by decide))
        (CodePoint.char.inj (List.cons.inj hlast).1)
      rw [Nat.pow_succ'] at hm hn
      have hdiv := ih (Nat.div_lt_of_lt_mul hm) (Nat.div_lt_of_lt_mul hn) hfront
      omega

theorem quote_notMem_hexDigits (width n : Nat) : char '"' ∉ hexDigits width n := by
  have hdigits : ∀ digit < 16, char (Nat.digitChar digit) ≠ char '"' := by decide
  induction width generalizing n with
  | zero => exact List.not_mem_nil
  | succ width ih =>
      rw [hexDigits, List.mem_append, List.mem_singleton, not_or]
      exact ⟨ih _, (hdigits _ (Nat.mod_lt n (by decide))).symm⟩

end Text

namespace Json

theorem unitChars_append_inj (hm : m < 0x10000) (hn : n < 0x10000)
    (h : unitChars m ++ rest = unitChars n ++ others) : m = n ∧ rest = others := by
  have hlength : (unitChars m).length = (unitChars n).length := by
    rw [unitChars, unitChars, List.length_cons, List.length_cons, List.length_cons,
      List.length_cons, Text.length_hexDigits, Text.length_hexDigits]
  obtain ⟨hunits, hrest⟩ := List.append_inj h hlength
  exact ⟨Text.hexDigits_inj hm hn (List.cons.inj (List.cons.inj hunits).2).2, hrest⟩

-- Outside ASCII all characters are written by their numbers.
theorem escapedChar_coded (h : 0x7f ≤ c.toNat) : escapedChar c =
    if c.toNat < 0x10000 then unitChars c.toNat
    else unitChars (0xd800 + (c.toNat - 0x10000) / 0x400) ++
      unitChars (0xdc00 + (c.toNat - 0x10000) % 0x400) := by
  have hne {d : CodePoint} (hd : d.toNat < 0x7f) : c ≠ d := by
    rintro rfl
    omega
  rw [escapedChar, if_neg (hne (by decide)), if_neg (hne (by decide)), if_neg (hne (by decide)),
    if_neg (hne (by decide)), if_neg (hne (by decide)), if_neg (hne (by decide)),
    if_neg (hne (by decide)), if_neg (by omega)]

-- A character is written as its halves are.
theorem escapedChar_halves (c : CodePoint) : c.halves.flatMap escapedChar = escapedChar c := by
  by_cases hsmall : c.toNat < 0x10000
  · rw [CodePoint.halves_of_small hsmall, List.flatMap_singleton]
  · have hlt := c.toNat_lt
    have hcoded (n : Nat) (hn : n < 0x800) :
        escapedChar (CodePoint.half n) = unitChars (0xd800 + n) := by
      have hnat := CodePoint.toNat_half hn
      rw [escapedChar_coded (by omega), if_pos (by omega), hnat]
    rw [CodePoint.halves, if_neg hsmall, List.flatMap_cons, List.flatMap_singleton,
      hcoded _ (by omega), hcoded _ (by omega), escapedChar_coded (by omega), if_neg hsmall,
      ← Nat.add_assoc]

theorem flatMap_escapedChar_halves (cs : List CodePoint) :
    (cs.flatMap CodePoint.halves).flatMap escapedChar = cs.flatMap escapedChar := by
  rw [List.flatMap_assoc, List.flatMap_congr fun c _ => escapedChar_halves c]

-- Only a quote is written with a quote.
theorem quote_notMem_escapedChar (h : c ≠ '"') : char '"' ∉ escapedChar c := by
  have hunit (n : Nat) : char '"' ∉ unitChars n := by
    simp [unitChars, Text.quote_notMem_hexDigits]
  unfold escapedChar
  rw [if_neg h]
  split_ifs <;> simp [hunit, Ne.symm h]

-- The characters that are written as a backslash and a mark, with their marks.
def marks : List (CodePoint × CodePoint) :=
  [('"', '"'), ('\\', '\\'), ('\n', 'n'), ('\r', 'r'), ('\t', 't'), ('\x08', 'b'), ('\x0c', 'f')]

-- The three ways in which a character is written.
inductive Escaped (c : CodePoint) : List CodePoint → Prop
  | plain (hquote : c ≠ '"') (hbackslash : c ≠ '\\') : Escaped c [c]
  | marked {mark : CodePoint} (h : (c, mark) ∈ marks) : Escaped c [char '\\', mark]
  | coded (h : c.toNat < 0x10000) : Escaped c (unitChars c.toNat)

theorem escaped_escapedChar (h : c.toNat < 0x10000) : Escaped c (escapedChar c) := by
  unfold escapedChar
  split_ifs with hquote hbackslash hnewline hreturn htab hbackspace hfeed hascii
  · exact .marked (by simp [hquote, marks])
  · exact .marked (by simp [hbackslash, marks])
  · exact .marked (by simp [hnewline, marks])
  · exact .marked (by simp [hreturn, marks])
  · exact .marked (by simp [htab, marks])
  · exact .marked (by simp [hbackspace, marks])
  · exact .marked (by simp [hfeed, marks])
  · exact .plain hquote hbackslash
  · exact .coded h

theorem mark_ne_u {mark : CodePoint} (h : (c, mark) ∈ marks) : mark ≠ 'u' := by
  have hmarks : ∀ pair ∈ marks, pair.2 ≠ 'u' := by decide
  exact hmarks _ h

theorem eq_of_mark_eq {mark : CodePoint} (hc : (c, mark) ∈ marks) (hd : (d, mark) ∈ marks) :
    c = d := by
  have hmarks : ∀ pair ∈ marks, ∀ other ∈ marks, pair.2 = other.2 → pair.1 = other.1 := by decide
  exact hmarks _ hc _ hd rfl

-- A written character is known from the front of any text that it begins.
theorem Escaped.append_inj (hc : Escaped c cs) (hd : Escaped d ds)
    (h : cs ++ rest = ds ++ others) : c = d ∧ rest = others := by
  cases hc with
  | plain hquote hbackslash =>
      cases hd with
      | plain => simpa using h
      | marked => exact absurd (List.cons.inj h).1 hbackslash
      | coded => exact absurd (List.cons.inj h).1 hbackslash
  | marked hmark =>
      cases hd with
      | plain hquote hbackslash => exact absurd (List.cons.inj h).1.symm hbackslash
      | marked hother =>
          obtain ⟨rfl, rfl⟩ : _ = _ ∧ rest = others := by simpa using h
          exact ⟨eq_of_mark_eq hmark hother, rfl⟩
      | coded => exact absurd (List.cons.inj (List.cons.inj h).2).1 (mark_ne_u hmark)
  | coded hsmall =>
      cases hd with
      | plain hquote hbackslash => exact absurd (List.cons.inj h).1.symm hbackslash
      | marked hother =>
          exact absurd (List.cons.inj (List.cons.inj h).2).1.symm (mark_ne_u hother)
      | coded hother =>
          obtain ⟨hnat, hrest⟩ := unitChars_append_inj hsmall hother h
          exact ⟨CodePoint.toNat_inj.mp hnat, hrest⟩

theorem Escaped.head_ne_quote (hc : Escaped c cs) : cs ++ rest ≠ char '"' :: others := by
  intro h
  cases hc with
  | plain hquote => exact hquote (List.cons.inj h).1
  | marked => exact absurd (List.cons.inj h).1 (by decide)
  | coded => exact absurd (List.cons.inj h).1 (by decide)

theorem escaped_append_inj (hcs : ∀ c ∈ cs, c.toNat < 0x10000) (hds : ∀ d ∈ ds, d.toNat < 0x10000)
    (h : cs.flatMap escapedChar ++ char '"' :: rest =
      ds.flatMap escapedChar ++ char '"' :: others) :
    cs = ds ∧ rest = others := by
  induction cs generalizing ds with
  | nil =>
      cases ds with
      | nil => simpa using h
      | cons d ds =>
          rw [List.flatMap_cons, List.append_assoc] at h
          exact absurd h.symm (escaped_escapedChar (hds d List.mem_cons_self)).head_ne_quote
  | cons c cs ih =>
      have hc := escaped_escapedChar (hcs c List.mem_cons_self)
      rw [List.flatMap_cons, List.append_assoc] at h
      cases ds with
      | nil => exact absurd h hc.head_ne_quote
      | cons d ds =>
          have hd := escaped_escapedChar (hds d List.mem_cons_self)
          rw [List.flatMap_cons, List.append_assoc] at h
          obtain ⟨rfl, htail⟩ := hc.append_inj hd h
          obtain ⟨rfl, hrest⟩ := ih (fun c hc => hcs c (List.mem_cons_of_mem _ hc))
            (fun d hd => hds d (List.mem_cons_of_mem _ hd)) htail
          exact ⟨rfl, hrest⟩

-- The units of a text are known from its string, whatever stands behind that.
theorem halves_eq_of_escaped_append
    (h : cs.flatMap escapedChar ++ char '"' :: rest =
      ds.flatMap escapedChar ++ char '"' :: others) :
    cs.flatMap CodePoint.halves = ds.flatMap CodePoint.halves ∧ rest = others := by
  have hsmall (cs : List CodePoint) : ∀ d ∈ cs.flatMap CodePoint.halves, d.toNat < 0x10000 := by
    intro d hd
    obtain ⟨c, -, hmem⟩ := List.mem_flatMap.mp hd
    exact CodePoint.toNat_lt_of_mem_halves hmem
  rw [← flatMap_escapedChar_halves cs, ← flatMap_escapedChar_halves ds] at h
  exact escaped_append_inj (hsmall cs) (hsmall ds) h

theorem units_eq_of_string_append {s t : Str} (h : string s ++ rest = string t ++ others) :
    s.units = t.units ∧ rest = others := by
  have hchars : s.toList.flatMap escapedChar ++ char '"' :: rest =
      t.toList.flatMap escapedChar ++ char '"' :: others := by
    simpa [string] using h
  obtain ⟨hunits, hrest⟩ := halves_eq_of_escaped_append hchars
  exact ⟨Str.ofList_inj.mpr hunits, hrest⟩

-- A text is known from its characters as they are written, if no surrogates stand in it.
theorem eq_of_flatMap_escapedChar (h : cs.flatMap escapedChar = ds.flatMap escapedChar)
    (hds : ∀ d ∈ ds, d.isSurrogate = false ∧ d.toNat < 0x10000) : cs = ds := by
  obtain ⟨hunits, -⟩ := halves_eq_of_escaped_append (congrArg (· ++ [char '"']) h)
  have hself : ds.flatMap CodePoint.halves = ds := by
    rw [List.flatMap_congr fun d hd => CodePoint.halves_of_small (hds d hd).2,
      List.flatMap_singleton']
  exact Text.eq_of_flatMap_halves (hunits.trans hself) fun d hd => (hds d hd).1

end Json

end FrameNotation
