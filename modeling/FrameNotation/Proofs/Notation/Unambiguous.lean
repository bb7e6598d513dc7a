import FrameNotation.Analysis
import FrameNotation.Engine.Request
import FrameNotation.Proofs.Frame.Reordered
import FrameNotation.Proofs.Notation.References

namespace FrameNotation

open Writer

variable {cs ds rest others : List CodePoint} {a b value : Value} {items : List Value}
variable {attributes : List (Str × Value)} {parts tokens : List (List CodePoint)} {n : Number}

section Rebuilt

theorem isNull_rebuilt (number : Number → Number) (value : Value) :
    (value.rebuilt number).isNull = value.isNull := by
  cases value <;> rfl

theorem number_echo (h : Writer.number n = .ok cs) : Writer.number n.echo = .ok cs := by
  rw [number_eq_ok] at h ⊢
  rwa [Number.isFinite_echo, Number.wire_echo]

theorem values_rebuilt
    (hitems : ∀ item ∈ items, ∀ cs, Writer.value item = .ok cs →
      Writer.value (item.rebuilt Number.echo) = .ok cs)
    (h : Writer.values items = .ok parts) :
    Writer.values (Value.rebuiltItems Number.echo items) = .ok parts := by
  induction items generalizing parts with
  | nil => exact h
  | cons item rest ih =>
      rw [List.forall_mem_cons] at hitems
      obtain ⟨part, hpart, h⟩ := bind_eq_ok.mp h
      obtain ⟨others, hothers, h⟩ := bind_eq_ok.mp h
      cases h
      rw [Value.rebuiltItems, Writer.values, hitems.1 part hpart, ih hitems.2 hothers]
      rfl

theorem roles_rebuilt
    (hvalues : ∀ entry ∈ attributes, entry.2 ≠ .null → ∀ cs, Writer.value entry.2 = .ok cs →
      Writer.value (entry.2.rebuilt Number.echo) = .ok cs)
    (h : Writer.roles attributes = .ok tokens) :
    Writer.roles (Value.rebuiltEntries Number.echo attributes) = .ok tokens := by
  induction attributes generalizing tokens with
  | nil => exact h
  | cons entry rest ih =>
      obtain ⟨name, content⟩ := entry
      rw [List.forall_mem_cons] at hvalues
      rw [Writer.roles] at h
      rw [Value.rebuiltEntries]
      split_ifs at h ⊢ with hnull hrole
      · exact ih hvalues.2 h
      · obtain ⟨part, hpart, h⟩ := bind_eq_ok.mp h
        obtain ⟨others, hothers, h⟩ := bind_eq_ok.mp h
        cases h
        have hne : content ≠ .null := fun hcontent => hnull (isNull_eq_true.mpr hcontent)
        rw [Writer.roles, isNull_rebuilt, if_neg hnull, if_neg hrole, hvalues.1 hne part hpart,
          ih hvalues.2 hothers]
        rfl

-- A value is written as what comes back after it was written.
theorem value_rebuilt (hwritable : value.IsWritable) (h : Writer.value value = .ok cs) :
    Writer.value (value.rebuilt Number.echo) = .ok cs := by
  induction hwritable generalizing cs with
  | bool b => exact h
  | number n _ => exact number_echo h
  | text s => exact h
  | array items _ ih =>
      rw [Writer.value] at h
      split_ifs at h with hnull
      obtain ⟨parts, hparts, h⟩ := bind_eq_ok.mp h
      have hnull' : (Value.rebuiltItems Number.echo items).any Value.isNull = false := by
        rw [rebuiltItems_eq, List.any_map, ← Bool.not_eq_true]
        simpa only [Function.comp_def, isNull_rebuilt] using hnull
      rw [Value.rebuilt, Writer.value, hnull',
        values_rebuilt (fun item hitem cs hcs => ih item hitem hcs) hparts]
      exact h
  | frame type attributes _ _ ih =>
      rw [Writer.value] at h
      obtain ⟨known, tokens, hknown, htokens, rfl⟩ := frame_eq_ok h
      obtain rfl : type = known := Option.some.inj ((ofName?_name type).symm.trans hknown)
      rw [Value.rebuilt, Writer.value]
      exact frame_eq
        (roles_rebuilt (fun entry hentry hne cs hcs => ih entry hentry hne hcs) htokens)

theorem value_congr (hsame : a.rebuilt Number.echo = b.rebuilt Number.echo)
    (ha : Writer.value a = .ok cs) (hb : Writer.value b = .ok ds) : cs = ds := by
  have hcs := value_rebuilt (isWritable_of_value a ha) ha
  have hds := value_rebuilt (isWritable_of_value b hb) hb
  rw [hsame, hds] at hcs
  exact (Except.ok.inj hcs).symm

end Rebuilt

-- Two texts end where the first stop stands, if stops stand only behind them.
theorem eq_of_append_eq_append {stops : CodePoint → Bool} (hcs : ∀ c ∈ cs, stops c = false)
    (hds : ∀ c ∈ ds, stops c = false) (hrest : ∀ c, rest.head? = some c → stops c = true)
    (hothers : ∀ c, others.head? = some c → stops c = true) (h : cs ++ rest = ds ++ others) :
    cs = ds := by
  have hfront (front back : List CodePoint) (hfront : ∀ c ∈ front, stops c = false)
      (hback : ∀ c, back.head? = some c → stops c = true) :
      (front ++ back).takeWhile (fun c => !stops c) = front := by
    rw [List.takeWhile_append_of_pos (by simpa using hfront)]
    cases back with
    | nil => simp
    | cons c more => rw [List.takeWhile_cons_of_neg (by simp [hback c rfl]), List.append_nil]
  rw [← hfront cs rest hcs hrest, h, hfront ds others hds hothers]

-- What may stand behind a value: nothing, or a character that no bare text holds.
def IsTail (cs : List CodePoint) : Prop := ∀ c, cs.head? = some c → forcesQuotes c = true

theorem isTail_separated {c d : CodePoint} {separator : List CodePoint} (hc : forcesQuotes c = true)
    (hd : forcesQuotes d = true) :
    IsTail (parts.flatMap ((c :: separator) ++ ·) ++ d :: rest) := by
  cases parts with
  | nil =>
      rintro _ ⟨⟩
      exact hd
  | cons part parts =>
      rintro _ ⟨⟩
      exact hc

theorem separated_eq {separator : List CodePoint} (h : parts ≠ []) :
    separator ++ separator.intercalate parts = parts.flatMap (separator ++ ·) := by
  obtain ⟨first, more, rfl⟩ := List.exists_cons_of_ne_nil h
  rw [intercalate_cons_eq, List.flatMap_cons, List.append_assoc]

namespace Value

-- Among the values that equal it, a value is known from its notation, whatever stands behind that,
-- as far as it comes back after it was written.
def IsTold (a : Value) : Prop :=
  ∀ (inside : Bool) (b : Value) (cs ds rest others : List CodePoint), b.Unrepeated →
    equalsAt false inside a b = true → Writer.value a = .ok cs → Writer.value b = .ok ds →
      IsTail rest → IsTail others → cs ++ rest = ds ++ others →
        a.rebuilt Number.echo = b.rebuilt Number.echo

theorem IsTold.rest_eq (h : a.IsTold) {inside : Bool} (hb : b.Unrepeated)
    (hequals : equalsAt false inside a b = true) (hcs : Writer.value a = .ok cs)
    (hds : Writer.value b = .ok ds) (hrest : IsTail rest) (hothers : IsTail others)
    (htext : cs ++ rest = ds ++ others) :
    a.rebuilt Number.echo = b.rebuilt Number.echo ∧ rest = others := by
  have hsame := h inside b cs ds rest others hb hequals hcs hds hrest hothers htext
  obtain rfl := value_congr hsame hcs hds
  exact ⟨hsame, List.append_cancel_left htext⟩

section Scalars

-- A token without delimiters that is read as the value.
structure IsToken (value : Value) (cs : List CodePoint) : Prop where
  written : Written value cs
  clean : isClean cs = true

theorem isToken_bool {b : Bool} (h : Writer.value (.bool b) = .ok cs) : IsToken (.bool b) cs := by
  cases h
  refine ⟨written_bool b, ?_⟩
  cases b <;> decide

theorem isToken_number (h : Writer.value (.number n) = .ok cs) : IsToken (.number n) cs := by
  rw [Writer.value] at h
  have hcarried := isCarried_of_number h
  obtain ⟨_, hwritten, hcs⟩ := written_number hcarried
  obtain ⟨negative, digits, hcarries⟩ := Number.exists_carries hcarried
  cases h.symm.trans hwritten
  cases hcarries.wire_eq.symm.trans (number_eq_ok.mp h).2
  exact ⟨hcs, isClean_of_carries hcarries⟩

theorem rebuilt_eq_of_tokens (ha : IsToken a cs) (hb : IsToken b ds) (hrest : IsTail rest)
    (hothers : IsTail others) (htext : cs ++ rest = ds ++ others) :
    a.rebuilt Number.echo = b.rebuilt Number.echo := by
  obtain rfl := eq_of_append_eq_append (isClean_iff.mp ha.clean).1 (isClean_iff.mp hb.clean).1
    hrest hothers htext
  have hread := ha.written.reads (cs.length + 1) (Nat.lt_succ_self _)
  rw [hb.written.reads (cs.length + 1) (Nat.lt_succ_self _)] at hread
  exact (Except.ok.inj hread).symm

-- Truth values and numbers equal only truth values and numbers.
theorem isTold_of_token (ha : ∀ cs, Writer.value a = .ok cs → IsToken a cs)
    (hscalar : a.number?.isSome = true) : a.IsTold := by
  intro inside b cs ds rest others _ hequals hcs hds hrest hothers htext
  obtain ⟨m, hm⟩ := Option.isSome_iff_exists.mp hscalar
  obtain ⟨n, hn, -⟩ := (equalsAt_of_number hm).mp hequals
  have hb : IsToken b ds := by
    cases b with
    | bool b => exact isToken_bool hds
    | number n => exact isToken_number hds
    | _ => cases hn
  exact rebuilt_eq_of_tokens (ha cs hcs) hb hrest hothers htext

end Scalars

-- The items of equal arrays, with what stands behind them.
theorem items_told {xs ys : List Value} {first second : List (List CodePoint)}
    (htold : ∀ x ∈ xs, x.IsTold) (hunrepeated : ∀ y ∈ ys, y.Unrepeated)
    (hequals : List.Forall₂ (fun x y => equalsAt false true x y = true) xs ys)
    (hfirst : List.Forall₂ (fun x cs => Writer.value x = .ok cs) xs first)
    (hsecond : List.Forall₂ (fun y cs => Writer.value y = .ok cs) ys second)
    (htext : first.flatMap ([char ',', char ' '] ++ ·) ++ char ']' :: rest =
      second.flatMap ([char ',', char ' '] ++ ·) ++ char ']' :: others) :
    xs.map (rebuilt Number.echo) = ys.map (rebuilt Number.echo) := by
  induction hequals generalizing first second with
  | nil => rfl
  | cons hequal _ ih =>
      cases hfirst with
      | cons hcs hfirst =>
          cases hsecond with
          | cons hds hsecond =>
              rw [List.forall_mem_cons] at htold hunrepeated
              simp only [List.flatMap_cons, List.append_assoc] at htext
              obtain ⟨hsame, htext⟩ := htold.1.rest_eq hunrepeated.1 hequal hcs hds
                (isTail_separated rfl rfl) (isTail_separated rfl rfl)
                (List.append_cancel_left htext)
              rw [List.map_cons, List.map_cons, hsame,
                ih htold.2 hunrepeated.2 hfirst hsecond htext]

theorem notMem_of_isRoleName {name : List CodePoint} (h : isRoleName name = true) :
    ∀ c ∈ name, (c == ':') = false := by
  obtain ⟨clean, -, hclean, rfl | rfl⟩ := isRoleName_cases h
  · intro c hc
    have hchar := forcesQuotes_eq_false.mp ((isClean_iff.mp hclean).1 c hc)
    simpa using hchar.2.1
  · intro c hc
    rcases List.mem_append.mp hc with hc | hc
    · have hchar := forcesQuotes_eq_false.mp ((isClean_iff.mp hclean).1 c hc)
      simpa using hchar.2.1
    · rw [List.mem_singleton.mp hc]
      rfl

-- The attributes of frames in which equal values stand under one role.
theorem roles_told {entries peers : Entries Value} {first second : List (List CodePoint)}
    (htold : ∀ entry ∈ entries, entry.2.IsTold)
    (hunrepeated : ∀ other ∈ peers, other.2.Unrepeated)
    (hequals : ∀ entry ∈ entries, ∀ other ∈ peers, entry.1 = other.1 →
      equalsAt false true entry.2 other.2 = true)
    (hfirst : List.Forall₂ (fun entry token => isRoleName entry.1.toList = true ∧
      ∃ cs, Writer.value entry.2 = .ok cs ∧ token = entry.1.toList ++ char ':' :: cs) entries first)
    (hsecond : List.Forall₂ (fun entry token => isRoleName entry.1.toList = true ∧
      ∃ cs, Writer.value entry.2 = .ok cs ∧ token = entry.1.toList ++ char ':' :: cs) peers second)
    (htext : first.flatMap ([char ' '] ++ ·) ++ char ')' :: rest =
      second.flatMap ([char ' '] ++ ·) ++ char ')' :: others) :
    entries.map (fun entry => (entry.1, entry.2.rebuilt Number.echo)) =
      peers.map (fun entry => (entry.1, entry.2.rebuilt Number.echo)) := by
  induction hfirst generalizing peers second with
  | nil =>
      cases hsecond with
      | nil => rfl
      | cons => simp at htext
  | cons hentry _ ih =>
      cases hsecond with
      | nil => simp at htext
      | cons hother hsecond =>
          obtain ⟨hname, cs, hcs, rfl⟩ := hentry
          obtain ⟨hname', ds, hds, rfl⟩ := hother
          rw [List.forall_mem_cons] at htold hunrepeated
          simp only [List.flatMap_cons, List.append_assoc] at htext
          have htext' := List.append_cancel_left htext
          have hnames := eq_of_append_eq_append (notMem_of_isRoleName hname)
            (notMem_of_isRoleName hname') (by simp) (by simp) htext'
          rw [hnames] at htext'
          have hvalues := (List.cons.inj (List.append_cancel_left htext')).2
          have hrole := Str.toList_inj.mp hnames
          have hequal := hequals _ (List.mem_cons_self ..) _ (List.mem_cons_self ..) hrole
          obtain ⟨hsame, hrest⟩ := htold.1.rest_eq hunrepeated.1 hequal hcs hds
            (isTail_separated rfl rfl) (isTail_separated rfl rfl) hvalues
          rw [List.map_cons, List.map_cons, hrole, hsame,
            ih htold.2 hunrepeated.2 (fun entry hentry other hother => hequals entry
              (List.mem_cons_of_mem _ hentry) other (List.mem_cons_of_mem _ hother)) hsecond hrest]

theorem isTold_array (ih : ∀ item ∈ items, item.IsTold) : (array items).IsTold := by
  intro inside b cs ds rest others hb hequals hcs hds _ _ htext
  obtain ⟨ys, rfl, hequal⟩ := equalsAt_array_left.mp hequals
  cases hb with
  | array _ hunrepeated =>
      rw [Writer.value] at hcs hds
      split_ifs at hcs hds
      obtain ⟨first, hfirst, hcs⟩ := bind_eq_ok.mp hcs
      obtain ⟨second, hsecond, hds⟩ := bind_eq_ok.mp hds
      cases hcs
      cases hds
      replace hfirst := values_eq_ok hfirst
      replace hsecond := values_eq_ok hsecond
      rw [rebuilt, rebuilt, rebuiltItems_eq, rebuiltItems_eq]
      by_cases hempty : items = []
      · subst hempty
        cases hequal
        rfl
      · -- a separator in front makes the first items like all others
        have hne : first ≠ [] := by
          rwa [← List.length_pos_iff, ← hfirst.length_eq, List.length_pos_iff]
        have hne' : second ≠ [] := by
          rwa [← List.length_pos_iff, ← hsecond.length_eq, ← hequal.length_eq,
            List.length_pos_iff]
        have hitems : [char ',', char ' '].intercalate first ++ char ']' :: rest =
            [char ',', char ' '].intercalate second ++ char ']' :: others := by
          simpa using htext
        rw [items_told ih hunrepeated hequal hfirst hsecond]
        rw [← separated_eq hne, ← separated_eq hne', List.append_assoc, List.append_assoc, hitems]

theorem isTold_frame {type : FrameType}
    (ih : ∀ entry ∈ attributes, entry.2 ≠ .null → entry.2.IsTold) :
    (frame ⟨.text type.name, attributes⟩).IsTold := by
  intro inside b cs ds rest others hb hequals hcs hds _ _ htext
  obtain ⟨node, rfl, htypes, -, hmatches⟩ := equalsAt_frame_left.mp hequals
  cases hb with
  | frame otherType peers hnames _ _ hunrepeated =>
      obtain rfl := equalsAt_text_left.mp htypes
      rw [Writer.value] at hcs hds
      obtain ⟨known, first, hknown, hfirst, rfl⟩ := frame_eq_ok hcs
      obtain ⟨known', second, hknown', hsecond, rfl⟩ := frame_eq_ok hds
      cases hknown.symm.trans hknown'
      have hroles : first.flatMap ([char ' '] ++ ·) ++ char ')' :: rest =
          second.flatMap ([char ' '] ++ ·) ++ char ')' :: others := by
        simpa [frameText, intercalate_cons_eq] using htext
      have hequal : ∀ entry ∈ present attributes, ∀ other ∈ present peers,
          entry.1 = other.1 → equalsAt false true entry.2 other.2 = true := by
        intro entry hentry other hother hname
        obtain ⟨found, hfound, hequal⟩ := hmatches entry (mem_present.mp hentry).1
        rw [hname, Entries.get?_of_mem hnames (mem_present.mp hother).1] at hfound
        cases hfound
        exact hequal
      have hentries := roles_told
        (fun entry hentry => ih entry (mem_present.mp hentry).1 (mem_present.mp hentry).2)
        (fun other hother => hunrepeated other (mem_present.mp hother).1) hequal
        (roles_eq_ok hfirst) (roles_eq_ok hsecond) hroles
      rw [rebuilt, rebuilt, rebuiltEntries_eq, rebuiltEntries_eq, hentries]

theorem isTold_of_isWritable (h : a.IsWritable) : a.IsTold := by
  induction h with
  | bool b => exact isTold_of_token (fun _ => isToken_bool) rfl
  | number n _ => exact isTold_of_token (fun _ => isToken_number) rfl
  | text s =>
      intro inside b cs ds rest others _ hequals _ _ _ _ _
      obtain rfl := equalsAt_text_left.mp hequals
      rfl
  | array items _ ih => exact isTold_array ih
  | frame type attributes _ _ ih => exact isTold_frame ih

end Value

namespace Node

variable {f g : Frame} {s t : Str}

theorem rebuilt_eq_iff : (Value.frame f).rebuilt Number.echo = (Value.frame g).rebuilt Number.echo ↔
    f.reread = g.reread := by
  cases f
  cases g
  exact Value.frame.injEq _ _ ▸ Iff.rfl

-- Equal frames have one notation exactly if they come back as one frame: with the same attributes
-- in the same order at every level, and with scalars of the same kinds. Null attributes do not
-- count. Then they have one hash, and requests about them one key.
theorem write_eq_iff (hunrepeated : (Value.frame g).Unrepeated) (hequals : f.equals g = true)
    (hf : f.write = .ok s) (hg : g.write = .ok t) :
    (s = t ↔ f.reread = g.reread) ∧ (f.reread = g.reread → f.hash = g.hash ∧
      ∀ (operation : Str) (options : Value) (prompt other : Option Str),
        (Request.mk (.frame f) operation options prompt).key =
          (Request.mk (.frame g) operation options other).key) := by
  obtain ⟨cs, hcs, rfl⟩ := map_eq_ok.mp hf
  obtain ⟨ds, hds, rfl⟩ := map_eq_ok.mp hg
  have hwritten : Writer.value (.frame f) = .ok cs := by rw [Writer.value, hcs]
  have hwritten' : Writer.value (.frame g) = .ok ds := by rw [Writer.value, hds]
  have hiff : Str.ofList cs = Str.ofList ds ↔ f.reread = g.reread := by
    rw [← rebuilt_eq_iff, Str.ofList_inj]
    constructor
    · rintro rfl
      exact Value.isTold_of_isWritable (isWritable_of_value _ hwritten) false _ cs cs [] []
        hunrepeated hequals hwritten hwritten' nofun nofun rfl
    · intro hsame
      exact value_congr hsame hwritten hwritten'
  refine ⟨hiff, fun hsame => ?_⟩
  have hwrite : f.write = g.write := by rw [hf, hg, hiff.mpr hsame]
  refine ⟨by rw [hash, hash, hwrite], fun operation options prompt other => ?_⟩
  simp only [Request.key, Value.writeFrame, hwrite]

def orderedItems : Value := .array [.text "green tea", .text "milk"]

-- An order at no known time. The time stands before what is ordered, or behind it.
def timedOrder : Frame :=
  ⟨.text "event", [("action", .text "order"), ("time", .null), ("object", orderedItems)]⟩

def orderTimed : Frame :=
  ⟨.text "event", [("action", .text "order"), ("object", orderedItems), ("time", .null)]⟩

theorem write_eq_iff_timedOrder : (Value.frame orderTimed).Unrepeated ∧
    timedOrder.equals orderTimed = true ∧
    timedOrder.write = .ok "(event action:order object:[\"green tea\", milk])" ∧
    orderTimed.write = .ok "(event action:order object:[\"green tea\", milk])" ∧
    timedOrder.reread = orderTimed.reread ∧ timedOrder.hash = orderTimed.hash := by
  have hunrepeated : (Value.frame orderTimed).Unrepeated := by
    refine .frame _ _ (by decide) (by decide) (.text _) ?_
    simp only [List.forall_mem_cons]
    refine ⟨.text _, .array _ ?_, .null, by simp⟩
    simp only [List.forall_mem_cons]
    exact ⟨.text _, .text _, by simp⟩
  have hequals : timedOrder.equals orderTimed = true := by decide +kernel
  have hwrite : timedOrder.write = .ok "(event action:order object:[\"green tea\", milk])" := by
    rfl
  have hwrite' : orderTimed.write = .ok "(event action:order object:[\"green tea\", milk])" := by
    rfl
  obtain ⟨hiff, hhash⟩ := write_eq_iff hunrepeated hequals hwrite hwrite'
  have hreread := hiff.mp rfl
  exact ⟨hunrepeated, hequals, hwrite, hwrite', hreread, (hhash hreread).1⟩

def teaOrder : Frame :=
  ⟨.text "event", [("action", .text "order"), ("object", .text "tea")]⟩

def orderTea : Frame :=
  ⟨.text "event", [("object", .text "tea"), ("action", .text "order")]⟩

-- The order of attributes shows in the notation and does not count for equality.
theorem not_write_eq_teaOrder : teaOrder.equals orderTea = true ∧
    teaOrder.write = .ok "(event action:order object:tea)" ∧
      orderTea.write = .ok "(event object:tea action:order)" :=
  ⟨by decide +kernel, rfl, rfl⟩

end Node

end FrameNotation
