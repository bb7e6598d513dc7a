import FrameNotation.Proofs.Json.Escaping
import FrameNotation.Proofs.Json.Strings
import FrameNotation.Proofs.Text.Trim
import FrameNotation.Similarity.Integrity
import Mathlib.Algebra.Group.Nat.Even
import Mathlib.Data.List.DropRight
import Mathlib.Data.List.Permutation
import Mathlib.Tactic.SplitIfs

namespace FrameNotation

namespace Extract

variable {state mid next : Option (List CodePoint)} {found more : List (List CodePoint)}
variable {cs ds text pending : List CodePoint} {c : CodePoint} {s : Str}
variable {strings others : List Str} {start : Bool} {value : Value}

-- Letters, digits, underscores and spaces of ASCII.
def isPhraseChar (c : CodePoint) : Bool := c.isAlphanum || c == '_' || c == ' '

-- A text of these characters that is not empty.
def IsPhrase (cs : List CodePoint) : Prop := cs ≠ [] ∧ cs.all isPhraseChar = true

instance {cs : List CodePoint} : Decidable (IsPhrase cs) := inferInstanceAs (Decidable (_ ∧ _))

theorem IsPhrase.of_mem (h : IsPhrase cs) (hc : c ∈ cs) : isPhraseChar c = true :=
  List.all_eq_true.mp h.2 c hc

-- A quotation as it is found.
def inQuotes (cs : List CodePoint) : List CodePoint := char '"' :: cs ++ [char '"']

theorem inQuotes_inj (h : inQuotes cs = inQuotes ds) : cs = ds :=
  List.append_cancel_right (List.cons.inj h).2

-- What stands behind the last quote of a text.
def lastPart (cs : List CodePoint) : List CodePoint := cs.rtakeWhile fun c => c != '"'

theorem lastPart_quote : lastPart (cs ++ [char '"']) = [] := by simp [lastPart]

theorem lastPart_concat (h : c ≠ '"') : lastPart (cs ++ [c]) = lastPart cs ++ [c] := by
  simp [lastPart, h]

-- The quotes of a text come in pairs.
def pairsUp (cs : List CodePoint) : Bool := decide (Even (cs.count (char '"')))

theorem pairsUp_quote : pairsUp (cs ++ [char '"']) = !pairsUp cs := by
  simp only [pairsUp, List.count_append, List.count_singleton_self, Nat.even_add_one, decide_not]

theorem pairsUp_concat (h : c ≠ '"') : pairsUp (cs ++ [c]) = pairsUp cs := by
  simp [pairsUp, h]

theorem lastPart_eq_self (h : char '"' ∉ cs) : lastPart cs = cs := by
  rw [lastPart, List.rtakeWhile_eq_self_iff]
  intro c hc
  simpa using ne_of_mem_of_not_mem hc h

theorem pairsUp_of_notMem (h : char '"' ∉ cs) : pairsUp cs = true := by
  simp [pairsUp, List.count_eq_zero_of_not_mem h]

section Steps

-- A scan is in step while it stands outside quotes between two strings. It leaves a string in step
-- if it met the quotes of the string as pairs and the last part is not empty: in step it needs an
-- even number of them, and out of step an odd one.
def nextStep (inStep : Bool) (s : Str) : Bool :=
  inStep == pairsUp s.toList && !(lastPart s.toList).isEmpty

-- Whether a scan is in step behind the strings.
def stepBehind (start : Bool) (strings : List Str) : Bool := strings.foldl nextStep start

-- A scan sees the last part of a string that it leaves in step.
def Sees (start : Bool) (strings : List Str) (text : List CodePoint) : Prop :=
  ∃ front s, front ++ [s] <+: strings ∧ lastPart s.toList = text ∧
    stepBehind start (front ++ [s]) = true

theorem not_sees_nil : ¬Sees start [] text := by
  rintro ⟨front, s, hprefix, -⟩
  simp at hprefix

theorem sees_cons : Sees start (s :: strings) text ↔
    nextStep start s = true ∧ lastPart s.toList = text ∨
      Sees (nextStep start s) strings text := by
  constructor
  · rintro ⟨front, t, hprefix, htext, hstep⟩
    cases front with
    | nil =>
        obtain ⟨rfl, -⟩ := List.cons_prefix_cons.mp hprefix
        exact .inl ⟨hstep, htext⟩
    | cons first front =>
        obtain ⟨rfl, hrest⟩ := List.cons_prefix_cons.mp hprefix
        exact .inr ⟨front, t, hrest, htext, hstep⟩
  · rintro (⟨hstep, htext⟩ | ⟨front, t, hprefix, htext, hstep⟩)
    · exact ⟨[], s, List.cons_prefix_cons.mpr ⟨rfl, List.nil_prefix⟩, htext, hstep⟩
    · exact ⟨s :: front, t, List.cons_prefix_cons.mpr ⟨rfl, hprefix⟩, htext, hstep⟩

instance decidableSees (text : List CodePoint) :
    ∀ start strings, Decidable (Sees start strings text)
  | _, [] => isFalse not_sees_nil
  | start, s :: strings =>
    have := decidableSees text (nextStep start s) strings
    decidable_of_iff _ sees_cons.symm

theorem sees_append : Sees start (strings ++ others) text ↔
    Sees start strings text ∨ Sees (stepBehind start strings) others text := by
  induction strings generalizing start with
  | nil => exact (or_iff_right not_sees_nil).symm
  | cons s strings ih =>
      rw [List.cons_append, sees_cons, sees_cons, ih, or_assoc]
      rfl

-- A scan stays in step, and sees every string, where no string is empty or holds a quote.
theorem sees_of_forall (hstrings : ∀ t ∈ strings, t ≠ "" ∧ char '"' ∉ t.toList) (hs : s ∈ strings) :
    Sees true strings s.toList := by
  induction strings with
  | nil => cases hs
  | cons first strings ih =>
      rw [List.forall_mem_cons] at hstrings
      obtain ⟨⟨hne, hquote⟩, hstrings⟩ := hstrings
      have hlast := lastPart_eq_self hquote
      have hstep : nextStep true first = true := by
        have hchars : first.toList ≠ [] := fun hnil => hne (Str.toList_inj.mp hnil)
        simp [nextStep, pairsUp_of_notMem hquote, hlast, hchars]
      rw [sees_cons, hstep]
      rcases List.mem_cons.mp hs with rfl | hs
      · exact .inl ⟨rfl, hlast⟩
      · exact .inr (ih hstrings hs)

end Steps

section Runs

-- A scan goes through a text from one state to another and finds quotations on the way.
def Runs (state : Option (List CodePoint)) (cs : List CodePoint) (found : List (List CodePoint))
    (next : Option (List CodePoint)) : Prop :=
  ∀ rest, quotations state (cs ++ rest) = found ++ quotations next rest

theorem Runs.append (hfirst : Runs state cs found mid) (hsecond : Runs mid ds more next) :
    Runs state (cs ++ ds) (found ++ more) next := by
  intro rest
  rw [List.append_assoc, hfirst, hsecond, List.append_assoc]

theorem runs_nil (state : Option (List CodePoint)) : Runs state [] [] state := fun _ => rfl

theorem runs_char (h : c ≠ '"') : Runs state [c] [] (state.map (c :: ·)) := by
  intro rest
  cases state with
  | none => simp [quotations, h]
  | some pending => simp [quotations, h]

theorem runs_of_notMem (h : char '"' ∉ cs) : Runs state cs [] (state.map (cs.reverse ++ ·)) := by
  induction cs generalizing state with
  | nil => simpa using runs_nil state
  | cons c cs ih =>
      rw [List.mem_cons, not_or] at h
      have hfirst : Runs state [c] [] (state.map (c :: ·)) := runs_char (Ne.symm h.1)
      simpa [Function.comp_def] using hfirst.append (ih h.2)

theorem runs_open : Runs none [char '"'] [] (some []) := fun _ => rfl

-- Of two quotes in a row the second opens.
theorem runs_reopen : Runs (some []) [char '"'] [] (some []) := fun _ => rfl

theorem runs_close (h : pending ≠ []) :
    Runs (some pending) [char '"'] [inQuotes pending.reverse] none := by
  intro rest
  simp [quotations, h, inQuotes]

end Runs

section Characters

open Json

theorem toNat_phrase (h : isPhraseChar c = true) : 0x20 ≤ c.toNat ∧ c.toNat < 0x7f := by
  simp only [isPhraseChar, Bool.or_eq_true, beq_iff_eq] at h
  rcases h with (h | rfl) | rfl
  · have hrange := Text.toNat_of_isAlphanum h
    omega
  · decide
  · decide

theorem isSmall_phrase (h : isPhraseChar c = true) : c.isSurrogate = false ∧ c.toNat < 0x10000 := by
  have hascii := toNat_phrase h
  refine ⟨?_, by omega⟩
  cases c with
  | char c => rfl
  | surrogate index =>
      rw [CodePoint.toNat] at hascii
      omega

theorem escapedChar_phrase (h : isPhraseChar c = true) : escapedChar c = [c] := by
  have hne {d : CodePoint} (hd : isPhraseChar d = false) : c ≠ d := by
    rintro rfl
    rw [h] at hd
    cases hd
  have hascii := toNat_phrase h
  rw [escapedChar, if_neg (hne (by decide)), if_neg (hne (by decide)), if_neg (hne (by decide)),
    if_neg (hne (by decide)), if_neg (hne (by decide)), if_neg (hne (by decide)),
    if_neg (hne (by decide)), if_pos hascii]

-- A phrase is written as it is, and nothing else is written like it.
theorem flatMap_escapedChar_eq_iff (h : IsPhrase text) :
    cs.flatMap escapedChar = text ↔ cs = text := by
  have hsame : text.flatMap escapedChar = text := by
    rw [List.flatMap_congr fun c hc => escapedChar_phrase (h.of_mem hc), List.flatMap_singleton']
  constructor
  · intro hcs
    rw [← hsame] at hcs
    exact eq_of_flatMap_escapedChar hcs fun c hc => isSmall_phrase (h.of_mem hc)
  · rintro rfl
    exact hsame

end Characters

section Strings

open Json

-- What is pending within a string: its last part if the scan stands within quotes.
def behind (within : Bool) (cs : List CodePoint) : Option (List CodePoint) :=
  if within then some ((lastPart cs).flatMap escapedChar).reverse else none

theorem behind_concat (h : c ≠ '"') (within : Bool) :
    behind within (cs ++ [c]) = (behind within cs).map ((escapedChar c).reverse ++ ·) := by
  cases within with
  | true => simp [behind, lastPart_concat h]
  | false => rfl

-- No phrase is found before the end of a string, since a backslash stands before each quote in it.
theorem runs_escaped (within : Bool) (cs : List CodePoint) :
    ∃ found, (∀ text, IsPhrase text → inQuotes text ∉ found) ∧
      Runs (behind within []) (cs.flatMap escapedChar) found
        (behind (within == pairsUp cs) cs) := by
  induction cs using List.reverseRecOn with
  | nil => exact ⟨[], fun _ _ => List.not_mem_nil, by simpa [pairsUp] using runs_nil _⟩
  | append_singleton cs c ih =>
      obtain ⟨found, hfound, hrun⟩ := ih
      rw [List.flatMap_append, List.flatMap_singleton]
      by_cases hquote : c = '"'
      · subst hquote
        have hescaped : escapedChar '"' = [char '\\'] ++ [char '"'] := rfl
        have hturn : (within == !pairsUp cs) = !(within == pairsUp cs) := by
          cases within <;> cases pairsUp cs <;> rfl
        have hbackslash := hrun.append (runs_char (c := '\\') (by decide))
        rw [hescaped, ← List.append_assoc, pairsUp_quote, hturn]
        cases hwithin : within == pairsUp cs with
        | true =>
            rw [hwithin] at hbackslash
            refine ⟨_, fun text htext => ?_, hbackslash.append (runs_close (by simp))⟩
            simp only [List.append_nil, List.mem_append, List.mem_singleton, not_or]
            refine ⟨hfound text htext, fun h => ?_⟩
            have hmem : char '\\' ∈ text := by simp [inQuotes_inj h]
            exact absurd (htext.of_mem hmem) (by decide)
        | false =>
            rw [hwithin] at hbackslash
            have hempty : behind true (cs ++ [char '"']) = some [] := by
              simp [behind, lastPart_quote]
            rw [Bool.not_false, hempty]
            refine ⟨_, fun text htext => ?_, hbackslash.append runs_open⟩
            simpa using hfound text htext
      · have hnext := hrun.append (runs_of_notMem (quote_notMem_escapedChar hquote))
        rw [List.append_nil, ← behind_concat hquote, ← pairsUp_concat hquote] at hnext
        exact ⟨found, hfound, hnext⟩

-- A scan that stands between strings has nothing pending, or more than the characters of phrases.
def IsBetween (state : Option (List CodePoint)) : Prop :=
  ∀ pending, state = some pending → ∃ c ∈ pending, isPhraseChar c = false

theorem isBetween_map (h : isPhraseChar c = false) : IsBetween (state.map (c :: ·)) := by
  intro pending hpending
  obtain ⟨before, -, rfl⟩ := Option.map_eq_some_iff.mp hpending
  exact ⟨c, List.mem_cons_self, h⟩

theorem runs_opening (h : IsBetween state) : ∃ found,
    (∀ text, IsPhrase text → inQuotes text ∉ found) ∧
      Runs state [char '"'] found (behind state.isNone []) := by
  cases state with
  | none => exact ⟨[], fun _ _ => List.not_mem_nil, runs_open⟩
  | some pending =>
      obtain ⟨c, hc, hphrase⟩ := h pending rfl
      refine ⟨_, fun text htext hmem => ?_, runs_close (List.ne_nil_of_mem hc)⟩
      have hsame := inQuotes_inj (List.mem_singleton.mp hmem)
      have hchar := htext.of_mem (c := c) (by simpa [hsame] using hc)
      rw [hphrase] at hchar
      cases hchar

theorem runs_closing (within : Bool) (cs : List CodePoint) : ∃ found next,
    Runs (behind within cs) [char '"'] found next ∧
      next.isNone = (within && !(lastPart cs).isEmpty) ∧
      ∀ text, IsPhrase text → (inQuotes text ∈ found ↔
        (within && !(lastPart cs).isEmpty) = true ∧ lastPart cs = text) := by
  cases within with
  | false => exact ⟨[], some [], runs_open, rfl, by simp⟩
  | true =>
      by_cases hempty : lastPart cs = []
      · refine ⟨[], some [], ?_, by simp [hempty], by simp [hempty]⟩
        simpa [behind, hempty] using runs_reopen
      · have hpending : ((lastPart cs).flatMap escapedChar).reverse ≠ [] := by
          rw [ne_eq, List.reverse_eq_nil_iff, ← List.flatMap_nil]
          exact fun h => hempty (eq_of_flatMap_escapedChar h (List.forall_mem_nil _))
        refine ⟨_, none, runs_close hpending, by simp [hempty], fun text htext => ?_⟩
        rw [List.reverse_reverse, List.mem_singleton]
        have hiff : (lastPart cs).flatMap escapedChar = text ↔ lastPart cs = text :=
          flatMap_escapedChar_eq_iff htext
        constructor
        · intro h
          exact ⟨by simp [hempty], hiff.mp (inQuotes_inj h).symm⟩
        · rintro ⟨-, h⟩
          rw [hiff.mpr h]

-- A scan goes through a text with these strings, and sees the phrases that it has to see.
def Scans (state : Option (List CodePoint)) (cs : List CodePoint) (strings : List Str)
    (next : Option (List CodePoint)) : Prop :=
  ∃ found, Runs state cs found next ∧ next.isNone = stepBehind state.isNone strings ∧
    ∀ text, IsPhrase text → (inQuotes text ∈ found ↔ Sees state.isNone strings text)

theorem Scans.append (hfirst : Scans state cs strings mid) (hsecond : Scans mid ds others next) :
    Scans state (cs ++ ds) (strings ++ others) next := by
  obtain ⟨found, hrun, hstep, hphrases⟩ := hfirst
  obtain ⟨more, hrunMore, hstepMore, hphrasesMore⟩ := hsecond
  refine ⟨found ++ more, hrun.append hrunMore, ?_, fun text htext => ?_⟩
  · rw [hstepMore, hstep, stepBehind, stepBehind, stepBehind, List.foldl_append]
  · rw [List.mem_append, hphrases text htext, hphrasesMore text htext, sees_append, hstep]

theorem scans_notMem (h : char '"' ∉ cs) : Scans state cs [] (state.map (cs.reverse ++ ·)) := by
  refine ⟨[], runs_of_notMem h, ?_, fun _ _ => iff_of_false List.not_mem_nil not_sees_nil⟩
  cases state <;> rfl

-- A text with strings that a scan may meet between strings.
def Scanned (cs : List CodePoint) (strings : List Str) : Prop :=
  ∀ state, IsBetween state → ∃ next, Scans state cs strings next

theorem scanned_string (s : Str) : Scanned (string s) [s] := by
  intro state hstate
  obtain ⟨first, hfirst, hopening⟩ := runs_opening hstate
  obtain ⟨inner, hinner, hescaped⟩ := runs_escaped state.isNone s.toList
  obtain ⟨last, next, hclosing, hnext, hlast⟩ :=
    runs_closing (state.isNone == pairsUp s.toList) s.toList
  refine ⟨next, first ++ (inner ++ last), ?_, hnext, fun text htext => ?_⟩
  · exact hopening.append (hescaped.append hclosing)
  · rw [List.mem_append, List.mem_append, or_iff_right (hfirst text htext),
      or_iff_right (hinner text htext), hlast text htext, sees_cons, or_iff_left not_sees_nil]
    rfl

end Strings

section Values

open Json

variable {α : Type} {written : α → List CodePoint → Prop} {stringsOf : α → List Str} {xs : List α}
variable {parts : List (List CodePoint)} {opening closing : CodePoint}

theorem scanned_notMem (h : char '"' ∉ cs) : Scanned cs [] := fun _ _ => ⟨_, scans_notMem h⟩

-- Behind a mark that stands between values a scan stands between strings.
theorem scans_mark (h : c ≠ '"') (hphrase : isPhraseChar c = false) (hscanned : Scanned cs strings)
    (state : Option (List CodePoint)) : ∃ next, Scans state (c :: cs) strings next := by
  have hbetween : IsBetween (state.map (c :: ·)) := isBetween_map hphrase
  obtain ⟨next, hnext⟩ := hscanned _ hbetween
  have hmark : Scans state [c] [] (state.map (c :: ·)) := scans_notMem (by simpa using Ne.symm h)
  exact ⟨next, hmark.append hnext⟩

theorem scans_flatMap (hall : ∀ x ∈ xs, ∀ part, written x part → Scanned part (stringsOf x))
    (hparts : List.Forall₂ written xs parts) (state : Option (List CodePoint)) :
    ∃ next, Scans state (parts.flatMap ([char ','] ++ ·)) (xs.flatMap stringsOf) next := by
  induction hparts generalizing state with
  | nil => exact ⟨_, scans_notMem List.not_mem_nil⟩
  | cons hpart _ ih =>
      rw [List.forall_mem_cons] at hall
      obtain ⟨mid, hfirst⟩ :=
        scans_mark (by decide : char ',' ≠ '"') (by decide) (hall.1 _ hpart) state
      obtain ⟨next, hrest⟩ := ih hall.2 mid
      exact ⟨next, hfirst.append hrest⟩

-- Parts between commas and in brackets are scanned one after the other.
theorem scanned_enclosed (hopening : opening ≠ '"' ∧ isPhraseChar opening = false)
    (hclosing : closing ≠ '"')
    (hall : ∀ x ∈ xs, ∀ part, written x part → Scanned part (stringsOf x))
    (hparts : List.Forall₂ written xs parts) :
    Scanned (opening :: commaJoined parts ++ [closing]) (xs.flatMap stringsOf) := by
  have hend : char '"' ∉ [closing] := by simpa using Ne.symm hclosing
  intro state _
  cases hparts with
  | nil =>
      have hboth : char '"' ∉ [opening, closing] := by
        simp [Ne.symm hopening.1, Ne.symm hclosing]
      exact ⟨_, scans_notMem hboth⟩
  | @cons x part xs parts hpart hparts =>
      rw [List.forall_mem_cons] at hall
      obtain ⟨mid, hfirst⟩ := scans_mark hopening.1 hopening.2 (hall.1 _ hpart) state
      obtain ⟨next, hrest⟩ := scans_flatMap hall.2 hparts mid
      have hscans := hfirst.append (hrest.append (scans_notMem hend))
      have htext : opening :: commaJoined (part :: parts) ++ [closing] =
          opening :: part ++ (parts.flatMap ([char ','] ++ ·) ++ [closing]) := by
        simp [commaJoined, intercalate_cons_eq]
      rw [htext, List.flatMap_cons]
      rw [List.append_nil] at hscans
      exact ⟨_, hscans⟩

-- A scan goes through the JSON of a value from string to string.
theorem scanned_canonicalChars (h : canonicalChars value = .ok cs) :
    Scanned cs value.strings := by
  induction value using Value.induction generalizing cs with
  | null =>
      cases h
      exact scanned_notMem (by decide)
  | bool b =>
      cases h
      cases b <;> exact scanned_notMem (by decide)
  | number n =>
      rw [canonicalChars] at h
      exact scanned_notMem (quote_notMem_number h)
  | text s =>
      cases h
      exact scanned_string s
  | array items ih =>
      obtain ⟨parts, hparts, hcs⟩ := bind_eq_ok.mp h
      cases hcs
      rw [Value.strings_array]
      exact scanned_enclosed (by decide) (by decide) (fun item hitem part => ih item hitem)
        (canonicalItems_eq_ok.mp hparts)
  | record entries ih =>
      obtain ⟨parts, hparts, hcs⟩ := bind_eq_ok.mp h
      cases hcs
      rw [sorted_canonicalEntries] at hparts
      rw [Value.strings_record]
      refine scanned_enclosed (by decide) (by decide) ?_ (sequence_eq_ok.mp hparts)
      rintro entry hentry _ ⟨text, htext, rfl⟩ state hstate
      obtain ⟨mid, hname⟩ := scanned_string entry.1 state hstate
      have hcontent := ih entry ((Entries.perm_sorted entries).mem_iff.mp hentry) htext
      obtain ⟨next, hnext⟩ := scans_mark (by decide : char ':' ≠ '"') (by decide) hcontent mid
      exact ⟨next, hname.append hnext⟩
  | frame node _ _ =>
      obtain ⟨shown, hshown, hcs⟩ := bind_eq_ok.mp h
      cases hcs
      rw [Value.strings, hshown]
      exact scanned_string shown

end Values

section Entities

open Json

theorem head?_identifier {found : List CodePoint} (h : identifierAt? cs = some found) :
    found.head? ≠ some (char '"') := by
  obtain ⟨mark, hmark, hfound⟩ := List.exists_of_findSome?_eq_some h
  have hmarks : ∀ mark ∈ identifierMarks, ∀ name, (mark ++ name).head? ≠ some (char '"') := by
    intro mark hmark name
    simp only [identifierMarks, List.mem_cons, List.not_mem_nil, or_false] at hmark
    rcases hmark with rfl | rfl
    · exact (by decide : some (char 'e') ≠ some (char '"'))
    · exact (by decide : some (char 'c') ≠ some (char '"'))
  dsimp only at hfound
  split_ifs at hfound
  cases hfound
  exact hmarks mark hmark _

theorem inQuotes_notMem_identifiers (within : Bool) (cs : List CodePoint) :
    inQuotes text ∉ identifiers within cs := by
  induction cs generalizing within with
  | nil => simp [identifiers]
  | cons c rest ih =>
      cases within with
      | true => exact ih _
      | false =>
          unfold identifiers
          split
          · next found hfound =>
              rw [List.mem_cons, not_or]
              refine ⟨fun h => head?_identifier hfound ?_, ih _⟩
              rw [← h]
              rfl
          · exact ih _

theorem inQuotes_mem_found_iff (htext : IsPhrase text) (h : canonicalChars value = .ok cs) :
    inQuotes text ∈ identifiers false cs ++ quotations none cs ↔ Sees true value.strings text := by
  obtain ⟨next, found, hrun, -, hphrases⟩ := scanned_canonicalChars h none nofun
  have hfound : quotations none cs = found := by
    have hall := hrun []
    rw [List.append_nil] at hall
    cases next <;> simpa [quotations] using hall
  rw [List.mem_append, or_iff_right (inQuotes_notMem_identifiers false cs), hfound,
    hphrases text htext]
  rfl

end Entities

end Extract

open Extract

variable {frame : Frame} {s : Str} {cs : List CodePoint}

namespace Node

theorem exists_jsonChars_iff (hfinite : ∀ n, (Value.frame frame).Mentions n → n.isFinite = true) :
    (∃ cs, frame.jsonChars = .ok cs) ↔ (Value.frame frame).KeepsDigits := by
  have hthawed : ∀ n, (Value.frame frame).thaw.Mentions n → n.isFinite = true :=
    fun n hn => hfinite n (Value.mentions_thaw.mp hn)
  rw [jsonChars, toRecord_eq_thaw, Json.exists_canonicalChars_iff hthawed, Value.keepsDigits_thaw]

theorem mem_strings_toRecord (h : (Value.frame frame).Leaf s) : s ∈ frame.toRecord.strings := by
  rw [toRecord_eq_thaw]
  exact Value.mem_strings_thaw h

theorem mem_entities_iff (hphrase : IsPhrase s.toList) (h : frame.jsonChars = .ok cs) :
    (∃ found, frame.entities = .ok found ∧ "\"" ++ s ++ "\"" ∈ found) ↔
      Sees true frame.toRecord.strings s.toList := by
  have hquotation : "\"" ++ s ++ "\"" = Str.ofList (inQuotes s.toList) := by
    simp [← Str.toList_inj, inQuotes]
  simp only [entities, h, ok_bind, pure_eq_ok, Except.ok.injEq, exists_eq_left',
    List.mem_eraseDups]
  rw [hquotation, List.mem_map_of_injective fun _ _ => Str.ofList.inj]
  exact inQuotes_mem_found_iff hphrase h

-- Every phrase is among the entities of a frame where no string is empty or holds a quote.
theorem quotation_mem_entities (hfinite : ∀ n, (Value.frame frame).Mentions n → n.isFinite = true)
    (hdigits : (Value.frame frame).KeepsDigits)
    (hstrings : ∀ t ∈ frame.toRecord.strings, t ≠ "" ∧ char '"' ∉ t.toList)
    (hleaf : (Value.frame frame).Leaf s) (hphrase : IsPhrase s.toList) :
    ∃ found, frame.entities = .ok found ∧ "\"" ++ s ++ "\"" ∈ found := by
  obtain ⟨cs, hcs⟩ := (exists_jsonChars_iff hfinite).mpr hdigits
  exact (mem_entities_iff hphrase hcs).mpr
    (sees_of_forall hstrings (mem_strings_toRecord hleaf))

-- A phrase that is a leaf of a frame of finite numbers is among its entities exactly if all of its
-- integers can be shown, and a scan that goes through the strings of its JSON sees the phrase.
theorem quotation_mem_entities_iff
    (hfinite : ∀ n, (Value.frame frame).Mentions n → n.isFinite = true)
    (hleaf : (Value.frame frame).Leaf s) (hphrase : IsPhrase s.toList) :
    s ∈ frame.toRecord.strings ∧
      ((∃ found, frame.entities = .ok found ∧ "\"" ++ s ++ "\"" ∈ found) ↔
        (Value.frame frame).KeepsDigits ∧ Sees true frame.toRecord.strings s.toList) := by
  refine ⟨mem_strings_toRecord hleaf, ?_⟩
  rw [← exists_jsonChars_iff hfinite]
  constructor
  · rintro ⟨found, hfound, hmem⟩
    obtain ⟨cs, hcs, -⟩ := bind_eq_ok.mp hfound
    exact ⟨⟨cs, hcs⟩, (mem_entities_iff hphrase hcs).mp ⟨found, hfound, hmem⟩⟩
  · rintro ⟨⟨cs, hcs⟩, hsees⟩
    exact (mem_entities_iff hphrase hcs).mpr hsees

end Node

def cupsOrder : Frame :=
  ⟨.text FrameType.event.name,
    [("object", .text "\"hot\" tea"), ("target", .array [.text "two cups", .null])]⟩

-- Two quotes and a last part behind them leave the scan in step.
theorem Node.quotation_mem_entities_cups :
    (∀ n, (Value.frame cupsOrder).Mentions n → n.isFinite = true) ∧
      (Value.frame cupsOrder).Leaf "two cups" ∧ IsPhrase ("two cups" : Str).toList ∧
      ("two cups" : Str) ∈ cupsOrder.toRecord.strings ∧
      ∃ found, cupsOrder.entities = .ok found ∧ ("\"two cups\"" : Str) ∈ found := by
  have hnone (n : Number) : ¬(Value.frame cupsOrder).Mentions n := by
    intro h
    cases h with
    | frameType h => cases h
    | frameEntry hentry h =>
        simp only [cupsOrder, List.mem_cons, List.not_mem_nil, or_false] at hentry
        rcases hentry with rfl | rfl
        · cases h
        · cases h with
          | item hitem h =>
              simp only [List.mem_cons, List.not_mem_nil, or_false] at hitem
              rcases hitem with rfl | rfl <;> cases h
  have hleaf : (Value.frame cupsOrder).Leaf "two cups" :=
    .frameEntry (List.mem_cons_of_mem _ List.mem_cons_self) (.item List.mem_cons_self .text)
  have hphrase : IsPhrase ("two cups" : Str).toList := by decide
  have hfinite : ∀ n, (Value.frame cupsOrder).Mentions n → n.isFinite = true :=
    fun n hn => absurd hn (hnone n)
  have hstrings : cupsOrder.toRecord.strings =
      ["frameType", "event", "object", "\"hot\" tea", "target", "two cups"] := by
    have hrecord : cupsOrder.toRecord = .record [("frameType", .text "event"),
        ("object", .text "\"hot\" tea"), ("target", .array [.text "two cups", .null])] := rfl
    rw [hrecord, Value.strings_record, Entries.sorted_eq_self (by decide)]
    rfl
  obtain ⟨hmem, hiff⟩ := Node.quotation_mem_entities_iff hfinite hleaf hphrase
  refine ⟨hfinite, hleaf, hphrase, hmem, hiff.mpr ⟨fun i hi => absurd hi (hnone _), ?_⟩⟩
  rw [hstrings]
  decide

def blankOrder : Frame :=
  ⟨.text FrameType.event.name, [("object", .text ""), ("target", .text "tea")]⟩

-- Behind an empty string the scan takes what stands between two strings for a quotation.
theorem Node.not_quotation_mem_entities_blank :
    (∀ n, ¬(Value.frame blankOrder).Mentions n) ∧ (Value.frame blankOrder).Leaf "tea" ∧
      IsPhrase ("tea" : Str).toList ∧ ∃ found, blankOrder.entities = .ok found ∧
        ("\"tea\"" : Str) ∉ found := by
  have hleaf : (Value.frame blankOrder).Leaf "tea" :=
    .frameEntry (List.mem_cons_of_mem _ List.mem_cons_self) .text
  have hnone (n : Number) : ¬(Value.frame blankOrder).Mentions n := by
    intro h
    cases h with
    | frameType h => cases h
    | frameEntry hentry h =>
        simp only [blankOrder, List.mem_cons, List.not_mem_nil, or_false] at hentry
        rcases hentry with rfl | rfl <;> cases h
  have hentities : blankOrder.entities =
      .ok ["\"frameType\"", "\"event\"", "\"object\"", "\",\"", "\":\""] := by
    have hrecord : blankOrder.toRecord =
        .record [("frameType", .text "event"), ("object", .text ""), ("target", .text "tea")] := rfl
    rw [Node.entities, jsonChars, hrecord, Json.canonicalChars_record (by decide)]
    rfl
  exact ⟨hnone, hleaf, by decide, _, hentities, by decide⟩

end FrameNotation
