import FrameNotation.Proofs.Json.Escaping
import FrameNotation.Proofs.Json.Rearranged
import FrameNotation.Proofs.Json.Strings
import FrameNotation.Proofs.Notation.Unambiguous

namespace FrameNotation

variable {cs ds rest others : List CodePoint} {a b : Value}

theorem Number.intChars_inj {i j : Int} (hi : intChars i = .ok cs) (hj : intChars j = .ok cs) :
    i = j := by
  obtain ⟨digits, numeral, hdigits, -, -, hnumeral, hvalue⟩ :=
    read_intChars (Value.exists_intChars_iff.mp ⟨cs, hi⟩)
  obtain ⟨digits', numeral', hdigits', -, -, hnumeral', hvalue'⟩ :=
    read_intChars (Value.exists_intChars_iff.mp ⟨cs, hj⟩)
  rw [hi, Except.ok.injEq] at hdigits
  rw [hj, Except.ok.injEq] at hdigits'
  rw [← hdigits] at hnumeral
  rw [← hdigits', hnumeral, Option.some.injEq] at hnumeral'
  rw [← hnumeral', hvalue, Except.ok.injEq, Number.int.injEq] at hvalue'
  exact hvalue'

namespace Value

-- In no string of the JSON of a value a high half stands right in front of a low one.
def IsUnpaired (value : Value) : Prop := ∀ s ∈ value.strings, Text.Unpaired s.toList

theorem isUnpaired_text {s : Str} : (text s).IsUnpaired ↔ Text.Unpaired s.toList :=
  List.forall_mem_singleton

theorem isUnpaired_array {items : List Value} :
    (array items).IsUnpaired ↔ ∀ item ∈ items, item.IsUnpaired := by
  rw [IsUnpaired, strings_array]
  exact List.forall_mem_flatMap

theorem isUnpaired_record {entries : Entries Value} : (record entries).IsUnpaired ↔
    ∀ entry ∈ entries, Text.Unpaired entry.1.toList ∧ entry.2.IsUnpaired := by
  rw [IsUnpaired, strings_record]
  simp only [List.forall_mem_flatMap, (Entries.perm_sorted entries).mem_iff, List.forall_mem_cons,
    IsUnpaired]

-- Another order of entries brings no pairs about.
theorem Rearranged.isUnpaired (h : a.Rearranged b) (ha : a.IsUnpaired) : b.IsUnpaired := by
  induction h with
  | refl value => exact ha
  | trans _ _ ihfirst ihsecond => exact ihsecond (ihfirst ha)
  | order hperm =>
      rw [isUnpaired_record] at ha ⊢
      exact fun entry hentry => ha entry (hperm.mem_iff.mpr hentry)
  | entry front back name _ ih =>
      rw [isUnpaired_record] at ha ⊢
      exact forall_mem_replace ha fun h => ⟨h.1, ih h.2⟩
  | item front back _ ih =>
      rw [isUnpaired_array] at ha ⊢
      exact forall_mem_replace ha ih

-- One value is the other with entries in another order, as far as texts and names in 16-bit units
-- tell.
def RearrangedInUnits (a b : Value) : Prop :=
  (a.retold Str.units).Rearranged (b.retold Str.units)

theorem RearrangedInUnits.array {items peers : List Value}
    (h : List.Forall₂ RearrangedInUnits items peers) :
    (array items).RearrangedInUnits (.array peers) := by
  rw [RearrangedInUnits, retold_array, retold_array]
  exact .array (List.forall₂_map_left_iff.mpr (List.forall₂_map_right_iff.mpr h))

theorem RearrangedInUnits.record {entries peers : Entries Value}
    (h : List.Forall₂ (fun entry peer => peer.1.units = entry.1.units ∧
      entry.2.RearrangedInUnits peer.2) (Entries.sorted entries) (Entries.sorted peers)) :
    (record entries).RearrangedInUnits (.record peers) := by
  have hsorted := Entries.perm_sorted entries
  have hsorted' := Entries.perm_sorted peers
  rw [RearrangedInUnits, retold_record, retold_record]
  refine .trans (.order (hsorted.symm.map _)) (.trans (.record ?_) (.order (hsorted'.map _)))
  exact List.forall₂_map_left_iff.mpr (List.forall₂_map_right_iff.mpr h)

-- What tells texts without pairs brings their values back.
theorem IsUnpaired.retold_retold {back : Str → Str}
    (hback : ∀ s : Str, Text.Unpaired s.toList → back s.units = s) (h : a.IsUnpaired) :
    (a.retold Str.units).retold back = a := by
  induction a using Value.induction with
  | text s => rw [retold, retold, hback s (isUnpaired_text.mp h)]
  | array items ih =>
      rw [isUnpaired_array] at h
      have hitems : items.map (fun item => (item.retold Str.units).retold back) = items := by
        rw [List.map_congr_left fun item hitem => ih item hitem (h item hitem), List.map_id']
      rw [retold_array, retold_array, List.map_map]
      exact congrArg array hitems
  | record entries ih =>
      rw [isUnpaired_record] at h
      have hentries : entries.map (fun entry =>
          (back entry.1.units, (entry.2.retold Str.units).retold back)) = entries := by
        rw [List.map_congr_left fun entry hentry => Prod.ext (hback _ (h entry hentry).1)
          (ih entry hentry (h entry hentry).2), List.map_id']
      rw [retold_record, retold_record, List.map_map]
      exact congrArg record hentries
  | null => rfl
  | bool b => rfl
  | number n => rfl
  | frame node _ _ => rfl

-- Values without pairs are told from their units.
theorem RearrangedInUnits.rearranged (h : a.RearrangedInUnits b) (ha : a.IsUnpaired)
    (hb : b.IsUnpaired) : a.Rearranged b := by
  have hinj : Set.InjOn Str.units {s | Text.Unpaired s.toList} :=
    fun _ hs _ ht hunits => Str.units_inj hs ht hunits
  obtain ⟨back, hback⟩ : ∃ back : Str → Str,
      ∀ s : Str, Text.Unpaired s.toList → back s.units = s :=
    ⟨Function.invFunOn Str.units {s | Text.Unpaired s.toList},
      fun _ hs => hinj.leftInvOn_invFunOn hs⟩
  have hretold := Rearranged.retold h back
  rwa [ha.retold_retold hback, hb.retold_retold hback] at hretold

end Value

namespace Json

-- What may stand behind a value: nothing, or a comma or a closing bracket.
def IsBehind (cs : List CodePoint) : Prop := ∀ c, cs.head? = some c → c = ',' ∨ c = ']' ∨ c = '\x7d'

-- The kind of the values that begin with a character.
def kindAt (c : CodePoint) : Option Str :=
  if c.isDigit ∨ c = '-' then some "int"
  else ([('n', "NoneType"), ('t', "bool"), ('f', "bool"), ('"', "str"), ('[', "list"),
    ('\x7b', "dict")] : List (CodePoint × Str)).lookup c

theorem exists_kindAt (ha : a.IsJson) (hcs : canonicalChars a = .ok cs) :
    ∃ c more, cs = c :: more ∧ kindAt c = some a.kind := by
  cases ha with
  | null =>
      cases hcs
      exact ⟨char 'n', _, rfl, rfl⟩
  | bool b =>
      cases hcs
      cases b with
      | true => exact ⟨char 't', _, rfl, rfl⟩
      | false => exact ⟨char 'f', _, rfl, rfl⟩
  | int i hdigits =>
      obtain ⟨digits, -, hchars, hne, hdigit, -, -⟩ := Number.read_intChars hdigits
      rw [canonicalChars_int, hchars, Except.ok.injEq] at hcs
      subst hcs
      unfold Number.signed
      split
      · exact ⟨'-', digits, rfl, rfl⟩
      · obtain ⟨c, more, rfl⟩ := List.exists_cons_of_ne_nil hne
        exact ⟨c, more, rfl, if_pos (.inl (hdigit c List.mem_cons_self))⟩
  | text s =>
      cases hcs
      exact ⟨_, _, rfl, rfl⟩
  | array items _ =>
      obtain ⟨parts, -, hcs⟩ := bind_eq_ok.mp hcs
      cases hcs
      exact ⟨_, _, rfl, rfl⟩
  | record entries _ _ =>
      obtain ⟨parts, -, hcs⟩ := bind_eq_ok.mp hcs
      cases hcs
      exact ⟨_, _, rfl, rfl⟩

-- No value begins with what may stand behind one.
theorem not_isBehind (ha : a.IsJson) (hcs : canonicalChars a = .ok cs) :
    ¬IsBehind (cs ++ rest) := by
  obtain ⟨c, more, rfl, hkind⟩ := exists_kindAt ha hcs
  have hnone : kindAt ',' = none ∧ kindAt ']' = none ∧ kindAt '\x7d' = none := by decide
  intro hbehind
  rcases hbehind c rfl with rfl | rfl | rfl <;> simp [hnone] at hkind

theorem kind_eq (ha : a.IsJson) (hb : b.IsJson) (hcs : canonicalChars a = .ok cs)
    (hds : canonicalChars b = .ok ds) (h : cs ++ rest = ds ++ others) : a.kind = b.kind := by
  obtain ⟨c, more, rfl, hc⟩ := exists_kindAt ha hcs
  obtain ⟨d, more', rfl, hd⟩ := exists_kindAt hb hds
  obtain rfl : c = d := (List.cons.inj h).1
  exact Option.some.inj (hc.symm.trans hd)

section Parts

variable {α : Type} {written : α → List CodePoint → Prop} {same : α → α → Prop} {xs ys : List α}
variable {first second : List (List CodePoint)} {close : CodePoint}

-- What is written at the front of one text is the same, whatever stands behind it.
def KnownByFront (written : α → List CodePoint → Prop) (same : α → α → Prop) (x y : α) : Prop :=
  ∀ cs ds rest others, written x cs → written y ds → IsBehind rest → IsBehind others →
    cs ++ rest = ds ++ others → same x y ∧ rest = others

theorem isBehind_close (hclose : close = ']' ∨ close = '\x7d') : IsBehind (close :: rest) := by
  rintro _ ⟨⟩
  exact .inr hclose

theorem isBehind_flatMap (hclose : close = ']' ∨ close = '\x7d') :
    IsBehind (first.flatMap ([char ','] ++ ·) ++ close :: rest) := by
  cases first with
  | nil => exact isBehind_close hclose
  | cons part parts =>
      rintro _ ⟨⟩
      exact .inl rfl

theorem forall₂_of_flatMap_eq (hclose : close = ']' ∨ close = '\x7d')
    (hknown : ∀ x ∈ xs, ∀ y ∈ ys, KnownByFront written same x y)
    (hfirst : List.Forall₂ written xs first) (hsecond : List.Forall₂ written ys second)
    (htext : first.flatMap ([char ','] ++ ·) ++ close :: rest =
      second.flatMap ([char ','] ++ ·) ++ close :: others) :
    List.Forall₂ same xs ys ∧ rest = others := by
  have hcomma : close ≠ ',' := by
    rcases hclose with rfl | rfl <;> decide
  induction hfirst generalizing ys second with
  | nil =>
      cases hsecond with
      | nil => exact ⟨.nil, (List.cons.inj htext).2⟩
      | cons => exact absurd (List.cons.inj htext).1 hcomma
  | cons hcs _ ih =>
      cases hsecond with
      | nil => exact absurd (List.cons.inj htext).1.symm hcomma
      | cons hds hsecond =>
          simp only [List.forall_mem_cons] at hknown
          simp only [List.flatMap_cons, List.append_assoc] at htext
          obtain ⟨hsame, hrest⟩ := hknown.1.1 _ _ _ _ hcs hds (isBehind_flatMap hclose)
            (isBehind_flatMap hclose) (List.append_cancel_left htext)
          obtain ⟨hall, hothers⟩ := ih (fun x hx => (hknown.2 x hx).2) hsecond hrest
          exact ⟨.cons hsame hall, hothers⟩

-- Parts between commas up to a closing bracket, none of which begins with either.
theorem forall₂_of_commaJoined_eq (hclose : close = ']' ∨ close = '\x7d')
    (hbegins : ∀ x ∈ xs ++ ys, ∀ cs rest, written x cs → ¬IsBehind (cs ++ rest))
    (hknown : ∀ x ∈ xs, ∀ y ∈ ys, KnownByFront written same x y)
    (hfirst : List.Forall₂ written xs first) (hsecond : List.Forall₂ written ys second)
    (htext : commaJoined first ++ close :: rest = commaJoined second ++ close :: others) :
    List.Forall₂ same xs ys ∧ rest = others := by
  have hempty : commaJoined [] = [] := rfl
  cases hfirst with
  | nil =>
      cases hsecond with
      | nil => exact ⟨.nil, (List.cons.inj htext).2⟩
      | cons hds _ =>
          have hbehind : IsBehind (close :: rest) := isBehind_close hclose
          rw [hempty, List.nil_append, commaJoined, intercalate_cons_eq, List.append_assoc] at htext
          rw [htext] at hbehind
          exact absurd hbehind (hbegins _ (by simp) _ _ hds)
  | @cons x part xs parts hcs hfirst =>
      cases hsecond with
      | nil =>
          have hbehind : IsBehind (close :: others) := isBehind_close hclose
          rw [hempty, List.nil_append, commaJoined, intercalate_cons_eq, List.append_assoc] at htext
          rw [← htext] at hbehind
          exact absurd hbehind (hbegins _ (by simp) _ _ hcs)
      | @cons y part' ys parts' hds hsecond =>
          -- a comma in front makes the first part like all others
          apply forall₂_of_flatMap_eq hclose hknown (.cons hcs hfirst) (.cons hds hsecond)
          rw [← separated_eq (List.cons_ne_nil part parts),
            ← separated_eq (List.cons_ne_nil part' parts'), List.append_assoc, List.append_assoc]
          exact congrArg ([char ','] ++ ·) htext

end Parts

-- Values known in this way, up to the order of their entries and to pairs of halves, which are
-- written like the characters that they are the halves of.
def KnownValues : Value → Value → Prop :=
  KnownByFront (fun value cs => canonicalChars value = .ok cs) Value.RearrangedInUnits

-- Values of two kinds do not begin with one character.
theorem KnownValues.of_kind_eq (ha : a.IsJson) (hb : b.IsJson)
    (h : a.kind = b.kind → KnownValues a b) : KnownValues a b := by
  intro cs ds rest others hcs hds hrest hothers htext
  exact h (kind_eq ha hb hcs hds htext) cs ds rest others hcs hds hrest hothers htext

theorem knownValues_null : KnownValues .null .null := by
  intro cs ds rest others hcs hds _ _ htext
  cases hcs
  cases hds
  exact ⟨.refl _, List.append_cancel_left htext⟩

theorem knownValues_bool {x y : Bool} : KnownValues (.bool x) (.bool y) := by
  intro cs ds rest others hcs hds _ _ htext
  cases hcs
  cases hds
  cases x <;> cases y
  · exact ⟨.refl _, List.append_cancel_left htext⟩
  · exact absurd (List.cons.inj htext).1 (by decide)
  · exact absurd (List.cons.inj htext).1 (by decide)
  · exact ⟨.refl _, List.append_cancel_left htext⟩

theorem knownValues_text {s t : Str} : KnownValues (.text s) (.text t) := by
  intro cs ds rest others hcs hds _ _ htext
  cases hcs
  cases hds
  obtain ⟨hunits, hrest⟩ := units_eq_of_string_append htext
  refine ⟨?_, hrest⟩
  rw [Value.RearrangedInUnits, Value.retold, Value.retold, hunits]
  exact .refl _

-- A member is known by its name and its value.
theorem KnownValues.member {entry other : Str × Value} (h : KnownValues entry.2 other.2) :
    KnownByFront IsMember (fun entry other => other.1.units = entry.1.units ∧
      entry.2.RearrangedInUnits other.2) entry other := by
  rintro _ _ rest others ⟨cs, hcs, rfl⟩ ⟨ds, hds, rfl⟩ hrest hothers htext
  rw [List.append_assoc, List.append_assoc] at htext
  obtain ⟨hname, hvalues⟩ := units_eq_of_string_append htext
  obtain ⟨hsame, hbehind⟩ := h cs ds rest others hcs hds hrest hothers (List.cons.inj hvalues).2
  exact ⟨⟨hname.symm, hsame⟩, hbehind⟩

theorem not_isBehind_member {entry : Str × Value} (h : IsMember entry cs) :
    ¬IsBehind (cs ++ rest) := by
  obtain ⟨text, -, rfl⟩ := h
  intro hbehind
  exact absurd (hbehind '"' rfl) (by decide)

-- What cannot stand in an integer ends it.
def endsInt (c : CodePoint) : Bool := !c.isDigit && c != '-'

theorem endsInt_of_intChars {i : Int} (h : Number.intChars i = .ok cs) :
    ∀ c ∈ cs, endsInt c = false := by
  obtain ⟨digits, -, hdigits, -, hdigit, -, -⟩ :=
    Number.read_intChars (Value.exists_intChars_iff.mp ⟨cs, h⟩)
  have hends : ∀ c ∈ digits, endsInt c = false := by
    intro c hc
    rw [endsInt, hdigit c hc]
    rfl
  rw [h, Except.ok.injEq] at hdigits
  rw [hdigits, Number.signed]
  split
  · exact List.forall_mem_cons.mpr ⟨rfl, hends⟩
  · exact hends

theorem endsInt_of_isBehind (h : IsBehind rest) : ∀ c, rest.head? = some c → endsInt c = true := by
  intro c hc
  rcases h c hc with rfl | rfl | rfl <;> rfl

theorem knownValues_int {i j : Int} : KnownValues (.number (.int i)) (.number (.int j)) := by
  intro cs ds rest others hcs hds hrest hothers htext
  rw [canonicalChars_int] at hcs hds
  obtain rfl := eq_of_append_eq_append (endsInt_of_intChars hcs) (endsInt_of_intChars hds)
    (endsInt_of_isBehind hrest) (endsInt_of_isBehind hothers) htext
  rw [Number.intChars_inj hcs hds]
  exact ⟨.refl _, List.append_cancel_left htext⟩

theorem knownValues_array {items peers : List Value} (hitems : ∀ item ∈ items ++ peers, item.IsJson)
    (hknown : ∀ item ∈ items, ∀ peer ∈ peers, KnownValues item peer) :
    KnownValues (.array items) (.array peers) := by
  intro cs ds rest others hcs hds _ _ htext
  obtain ⟨first, hfirst, hcs⟩ := bind_eq_ok.mp hcs
  obtain ⟨second, hsecond, hds⟩ := bind_eq_ok.mp hds
  cases hcs
  cases hds
  have hparts : commaJoined first ++ char ']' :: rest =
      commaJoined second ++ char ']' :: others := by
    simpa using htext
  obtain ⟨hsame, hrest⟩ := forall₂_of_commaJoined_eq (.inl rfl)
    (fun item hitem _ _ hwritten => not_isBehind (hitems item hitem) hwritten) hknown
    (canonicalItems_eq_ok.mp hfirst) (canonicalItems_eq_ok.mp hsecond) hparts
  exact ⟨.array hsame, hrest⟩

theorem knownValues_record {entries peers : Entries Value}
    (hknown : ∀ entry ∈ entries, ∀ peer ∈ peers, KnownValues entry.2 peer.2) :
    KnownValues (.record entries) (.record peers) := by
  intro cs ds rest others hcs hds _ _ htext
  rw [canonicalChars, sorted_canonicalEntries] at hcs hds
  obtain ⟨first, hfirst, hcs⟩ := bind_eq_ok.mp hcs
  obtain ⟨second, hsecond, hds⟩ := bind_eq_ok.mp hds
  cases hcs
  cases hds
  have hparts : commaJoined first ++ char '\x7d' :: rest =
      commaJoined second ++ char '\x7d' :: others := by
    simpa using htext
  have hsorted := Entries.perm_sorted entries
  have hsorted' := Entries.perm_sorted peers
  obtain ⟨hsame, hrest⟩ := forall₂_of_commaJoined_eq (.inr rfl)
    (fun _ _ _ _ hwritten => not_isBehind_member hwritten)
    (fun entry hentry peer hpeer =>
      (hknown entry (hsorted.mem_iff.mp hentry) peer (hsorted'.mem_iff.mp hpeer)).member)
    (sequence_eq_ok.mp hfirst) (sequence_eq_ok.mp hsecond) hparts
  exact ⟨.record hsame, hrest⟩

theorem knownValues_of_isJson (ha : a.IsJson) (hb : b.IsJson) : KnownValues a b := by
  induction ha generalizing b with
  | null =>
      refine .of_kind_eq .null hb fun hkind => ?_
      cases hb with
      | null => exact knownValues_null
      | _ => simp [Value.kind, Number.kind] at hkind
  | bool x =>
      refine .of_kind_eq (.bool x) hb fun hkind => ?_
      cases hb with
      | bool y => exact knownValues_bool
      | _ => simp [Value.kind, Number.kind] at hkind
  | int i hdigits =>
      refine .of_kind_eq (.int i hdigits) hb fun hkind => ?_
      cases hb with
      | int j _ => exact knownValues_int
      | _ => simp [Value.kind, Number.kind] at hkind
  | text s =>
      refine .of_kind_eq (.text s) hb fun hkind => ?_
      cases hb with
      | text t => exact knownValues_text
      | _ => simp [Value.kind, Number.kind] at hkind
  | array items hitems ih =>
      refine .of_kind_eq (.array items hitems) hb fun hkind => ?_
      cases hb with
      | array peers hpeers =>
          exact knownValues_array (List.forall_mem_append.mpr ⟨hitems, hpeers⟩)
            fun item hitem peer hpeer => ih item hitem (hpeers peer hpeer)
      | _ => simp [Value.kind, Number.kind] at hkind
  | record entries hnames hentries ih =>
      refine .of_kind_eq (.record entries hnames hentries) hb fun hkind => ?_
      cases hb with
      | record peers _ hpeers =>
          exact knownValues_record fun entry hentry peer hpeer =>
            ih entry hentry (hpeers peer hpeer)
      | _ => simp [Value.kind, Number.kind] at hkind

end Json

namespace Value

-- Two values have one canonical text if one is the other with entries in another order. If they
-- have one text, they are so in units, and as they are if no pair of halves stands in them, which
-- is written like the character that it is the halves of.
theorem canonicalJson_eq_iff (ha : a.IsJson) (hb : b.IsJson) :
    ∃ s t, a.canonicalJson = .ok s ∧ b.canonicalJson = .ok t ∧ (a.Rearranged b → s = t) ∧
      (s = t → a.RearrangedInUnits b) ∧
      (a.IsUnpaired → b.IsUnpaired → (s = t ↔ a.Rearranged b)) := by
  obtain ⟨cs, hcs⟩ := ha.exists_canonicalChars
  obtain ⟨ds, hds⟩ := hb.exists_canonicalChars
  have hsame (h : a.Rearranged b) : Str.ofList cs = Str.ofList ds := by
    have hchars := h.canonicalChars_eq ha
    rw [hcs, hds] at hchars
    rw [Except.ok.inj hchars]
  have hunits (htext : Str.ofList cs = Str.ofList ds) : a.RearrangedInUnits b := by
    have hnone : Json.IsBehind [] := nofun
    exact (Json.knownValues_of_isJson ha hb cs ds [] [] hcs hds hnone hnone
      (by rw [Str.ofList_inj.mp htext])).1
  refine ⟨Str.ofList cs, Str.ofList ds, by rw [canonicalJson, hcs, map_ok],
    by rw [canonicalJson, hds, map_ok], hsame, hunits, fun hunpaired hother => ?_⟩
  exact ⟨fun htext => (hunits htext).rearranged hunpaired hother, hsame⟩

-- A card with its lines in two orders, and so for the pot on it.
def pot : Value := .record [("iced", .bool false), ("size", .number (.int (-2)))]

def turnedPot : Value := .record [("size", .number (.int (-2))), ("iced", .bool false)]

def teaCard : Value :=
  .record [("left", .null), ("pots", .array [pot]), ("tea", .text "\"green\" 🍵")]

def turnedCard : Value :=
  .record [("tea", .text "\"green\" 🍵"), ("left", .null), ("pots", .array [turnedPot])]

def cardText : Str :=
  "\x7b\"left\":null,\"pots\":[\x7b\"iced\":false,\"size\":-2\x7d]," ++
    "\"tea\":\"\\\"green\\\" \\ud83c\\udf75\"\x7d"

theorem canonicalJson_eq_iff_teaCard : teaCard.IsJson ∧ turnedCard.IsJson ∧
    teaCard.IsUnpaired ∧ turnedCard.IsUnpaired ∧ teaCard.Rearranged turnedCard ∧
      teaCard.canonicalJson = .ok cardText ∧ turnedCard.canonicalJson = .ok cardText := by
  have hsize : (-2 : Int).natAbs < tenPow maxDigits := by decide +kernel
  have hcard : teaCard.IsJson := by
    refine .record _ (by decide) ?_
    simp only [List.forall_mem_cons]
    refine ⟨.null, .array _ ?_, .text _, by simp⟩
    simp only [List.forall_mem_cons]
    refine ⟨.record _ (by decide) ?_, by simp⟩
    simp only [List.forall_mem_cons]
    exact ⟨.bool _, .int _ hsize, by simp⟩
  have hpot : pot.Rearranged turnedPot := .order (.swap _ _ _)
  have hrearranged : teaCard.Rearranged turnedCard := by
    refine .trans (.entry [("left", .null)] _ "pots" (.item [] [] hpot)) (.order ?_)
    exact ((List.Perm.swap _ _ _).cons _).trans (.swap _ _ _)
  have htext : teaCard.canonicalJson = .ok cardText := by
    have hpot :
        Json.canonicalChars pot = .ok ("\x7b\"iced\":false,\"size\":-2\x7d" : Str).toList := by
      have hdigits : Number.intChars (-2) = .ok ("-2" : Str).toList := by
        rw [Number.intChars, if_pos hsize]
        rfl
      rw [pot, Json.canonicalChars_record (by decide)]
      simp only [Json.canonicalEntries, Json.canonicalChars_int, hdigits]
      rfl
    rw [teaCard, canonicalJson, Json.canonicalChars_record (by decide)]
    simp only [Json.canonicalEntries, Json.canonicalChars, Json.canonicalItems, hpot]
    cbv
  have hunpaired : teaCard.IsUnpaired := by
    have hatom {value : Value} (h : value.strings = []) : value.IsUnpaired := by simp [IsUnpaired, h]
    simp only [teaCard, pot, isUnpaired_record, isUnpaired_array, isUnpaired_text,
      List.forall_mem_cons]
    exact ⟨⟨by decide, hatom rfl⟩,
      ⟨by decide, ⟨⟨by decide, hatom rfl⟩, ⟨by decide, hatom rfl⟩, by simp⟩, by simp⟩,
      ⟨by decide, by decide⟩, by simp⟩
  have hturned := hrearranged.isUnpaired hunpaired
  obtain ⟨s, t, hs, ht, -, -, hiff⟩ := canonicalJson_eq_iff hcard (hrearranged.isJson hcard)
  refine ⟨hcard, hrearranged.isJson hcard, hunpaired, hturned, hrearranged, htext, ?_⟩
  rw [ht, ← (hiff hunpaired hturned).mpr hrearranged, ← hs, htext]

-- The two halves of a character beyond the 16-bit units.
def splitTeacup : Str := ⟨[.half 0x3c, .half 0x775]⟩

-- They are written like the character itself.
theorem not_canonicalJson_eq_splitTeacup : (text "🍵").IsJson ∧ (text splitTeacup).IsJson ∧
    (text "🍵").canonicalJson = .ok "\"\\ud83c\\udf75\"" ∧
      (text splitTeacup).canonicalJson = .ok "\"\\ud83c\\udf75\"" ∧
        ¬(text "🍵").Rearranged (text splitTeacup) := by
  refine ⟨.text _, .text _, by cbv, by cbv, fun h => ?_⟩
  have hne : splitTeacup ≠ "🍵" := by decide
  exact hne (text.inj (h.eq_text rfl))

end Value

end FrameNotation
