import FrameNotation.Proofs.Frame.Reordered
import FrameNotation.Proofs.Notation.Parsed
import FrameNotation.Proofs.Notation.References

namespace FrameNotation

open Text Writer

variable {cs : List CodePoint} {a value : Value} {limits : Limits} {inType inside : Bool}

-- Values that can be written, each text however it comes back.
def Limits.writable : Limits where
  number := Number.IsCarried
  text _ := True
  role name := isRoleName name.toList = true
  void := True

theorem writable_of_value (h : value.Within limits) (hwrite : Writer.value value = .ok cs) :
    value.Within .writable := by
  induction h generalizing cs with
  | bool b => exact .bool b
  | number n _ => exact .number n (isCarried_of_number hwrite)
  | text s _ => exact .text s trivial
  | array items _ ih =>
      unfold Writer.value at hwrite
      split_ifs at hwrite with hnull
      obtain ⟨parts, hparts, -⟩ := bind_eq_ok.mp hwrite
      have hall : List.Forall₂ (fun part item => Writer.value item = .ok part) parts items :=
        List.Forall₂.flip (values_eq_ok hparts)
      refine .array items fun item hitem => ?_
      obtain ⟨part, -, hpart⟩ := exists_mem_of_forall₂ hall hitem
      exact ih item hitem hpart
  | frame type attributes hnames hdiscriminant _ _ _ ih =>
      obtain ⟨known, tokens, -, htokens, -⟩ := frame_eq_ok hwrite
      have hall : List.Forall₂ (fun token entry => isRoleName entry.1.toList = true ∧
          ∃ cs, Writer.value entry.2 = .ok cs ∧ token = entry.1.toList ++ char ':' :: cs)
          tokens (present attributes) := List.Forall₂.flip (roles_eq_ok htokens)
      have hentries (entry : Str × Value) (hentry : entry ∈ attributes)
          (hne : entry.2 ≠ .null) : isRoleName entry.1.toList = true ∧
            entry.2.Within .writable := by
        obtain ⟨_, -, hrole, part, hpart, -⟩ :=
          exists_mem_of_forall₂ hall (mem_present.mpr ⟨hentry, hne⟩)
        exact ⟨hrole, ih entry hentry hne hpart⟩
      exact .frame type attributes hnames hdiscriminant (fun _ _ _ => trivial)
        (fun entry hentry hne => (hentries entry hentry hne).1)
        fun entry hentry hne => (hentries entry hentry hne).2

-- What equals a stable value comes back as well, and is no deeper.
theorem stable_of_equals (h : Value.equalsAt inType inside a value = true)
    (hstable : a.Within .stable) (hread : value.Within .read) :
    value.Within .stable ∧ value.depth ≤ a.depth := by
  induction hread generalizing a inType inside with
  | bool b => exact ⟨.bool b, Nat.zero_le _⟩
  | number n _ => exact ⟨.number n trivial, Nat.zero_le _⟩
  | text s _ =>
      cases Value.eq_text_of_equals h
      exact ⟨hstable, Nat.le_refl _⟩
  | array items _ ih =>
      obtain ⟨xs, rfl, hall⟩ := Value.eq_array_of_equals h
      cases hstable with
      | array _ hxs =>
          have hitems (item : Value) (hitem : item ∈ items) :
              item.Within .stable ∧ item.depth ≤ Value.depthOfItems xs := by
            obtain ⟨x, hx, hequal⟩ := exists_mem_of_forall₂ hall hitem
            obtain ⟨hwithin, hdepth⟩ := ih item hitem hequal (hxs x hx)
            exact ⟨hwithin, Nat.le_trans hdepth (depth_le_depthOfItems hx)⟩
          refine ⟨.array items fun item hitem => (hitems item hitem).1, ?_⟩
          rw [Value.depth, Value.depth]
          exact Nat.succ_le_succ (depthOfItems_le fun item hitem => (hitems item hitem).2)
  | frame type attributes hnames hdiscriminant hvoid _ _ ih =>
      obtain ⟨⟨otherType, others⟩, rfl⟩ := Value.eq_frame_of_equals h
      obtain ⟨-, -, hothers⟩ := hstable.parts
      have hentries (entry : Str × Value) (hentry : entry ∈ attributes) :
          entry.2.Within .stable ∧ entry.2.depth ≤ Value.depthOfEntries others := by
        have hne : entry.2 ≠ .null := fun hnull => hvoid entry hentry hnull
        obtain ⟨other, hother, -, hequal⟩ :=
          (Value.equalsAt_frame.mp h).2.exists_entry hnames hentry
        have hpresent : other.2 ≠ .null := by
          intro hnull
          rw [hnull] at hequal
          exact hne (Value.equalsAt_null_left.mp hequal)
        obtain ⟨hwithin, hdepth⟩ := ih entry hentry hne hequal (hothers other hother hpresent)
        exact ⟨hwithin, Nat.le_trans hdepth (depth_le_depthOfEntries hother)⟩
      refine ⟨.frame type attributes hnames hdiscriminant (fun _ _ _ => trivial)
        (fun _ _ _ => trivial) fun entry hentry _ => (hentries entry hentry).1, ?_⟩
      rw [Value.depth, Value.depth]
      exact Nat.succ_le_succ (depthOfEntries_le fun entry hentry => (hentries entry hentry).2)

-- Values whose numbers come back as numbers that equal them.
def Limits.echoed : Limits where
  number n := n.echo.equals n = true
  text _ := True
  role _ := True
  void := True

theorem equals_echo_iff (h : value.Within .read) :
    Value.equalsAt inType inside (value.rebuilt Number.echo) value = true ↔
      value.Within .echoed := by
  induction h generalizing inType inside with
  | bool b =>
      refine iff_of_true ?_ (.bool b)
      cases b <;> rfl
  | number n hnumber =>
      have hcopy : Number.isCopy n.echo n = false := by
        rcases hnumber with ⟨i, rfl, -⟩ | ⟨x, rfl⟩ <;> cases Number.echo _ <;> rfl
      have hequals : Value.equalsAt inType inside (.number n.echo) (.number n) =
          n.echo.equals n := by
        simp [Value.equalsAt, Value.number?, hcopy]
      rw [Value.rebuilt, hequals]
      exact ⟨fun hequal => .number n hequal, fun hwithin => by cases hwithin; assumption⟩
  | text s _ => exact iff_of_true (Value.equalsAt_text.mpr rfl) (.text s trivial)
  | array items _ ih =>
      rw [Value.rebuilt, rebuiltItems_eq, Value.equalsAt_array, List.forall₂_map_left_iff,
        List.forall₂_same]
      constructor
      · exact fun hitems => .array items fun item hitem => (ih item hitem).mp (hitems item hitem)
      · rintro (_ | _ | _ | ⟨_, hitems⟩) item hitem
        exact (ih item hitem).mpr (hitems item hitem)
  | frame type attributes hnames hdiscriminant hvoid _ _ ih =>
      have hne (entry : Str × Value) (hentry : entry ∈ attributes) : entry.2 ≠ .null :=
        fun hnull => hvoid entry hentry hnull
      rw [Value.rebuilt, rebuiltEntries_eq, present_eq_self hne, Value.equalsAt_frame_iff]
      constructor
      · rintro ⟨-, -, hentries⟩
        refine .frame type attributes hnames hdiscriminant (fun _ _ _ => trivial)
          (fun _ _ _ => trivial) fun entry hentry hne => ?_
        obtain ⟨other, hother, hequal⟩ := hentries _ (List.mem_map_of_mem hentry)
        rw [Entries.get?_of_mem hnames hentry] at hother
        cases hother
        exact (ih entry hentry hne).mp hequal
      · intro hwithin
        refine ⟨Value.equalsAt_text.mpr rfl, fun name hname => ?_, fun entry hentry => ?_⟩
        · simpa [Entries.names] using hname
        · obtain ⟨source, hsource, rfl⟩ := List.mem_map.mp hentry
          exact ⟨source.2, Entries.get?_of_mem hnames hsource,
            (ih source hsource (hne source hsource)).mpr
              (hwithin.parts.2.2 source hsource (hne source hsource))⟩

-- What notation stands for and notation can carry again: no role holds a comma or a comment,
-- doubles are finite and equal what they are read as again, and bare references are stable.
def Limits.rewritable : Limits where
  number n := n.isFinite = true ∧ n.echo.equals n = true
  text s := IsStable s.toList
  role name := char ',' ∉ name.toList ∧ holdsComment name.toList = false
  void := True

theorem isPlainRole_of_read {name : Str} (h : IsReadRole name)
    (hrole : char ',' ∉ name.toList ∧ holdsComment name.toList = false) : IsPlainRole name := by
  refine ⟨h.1, isClean_iff.mpr ⟨fun c hc => ?_, hrole.2⟩⟩
  obtain ⟨hchar, hblank⟩ := h.2 c hc
  obtain ⟨h₁, h₂, h₃, h₄, h₅, h₆, h₇⟩ := Token.isRoleChar_eq_true.mp hchar
  have hcomma : c ≠ ',' := fun hcomma => hrole.1 (hcomma ▸ hc)
  exact forcesQuotes_eq_false.mpr ⟨hblank, h₇, h₁, h₂, h₃, h₄, h₅, h₆, hcomma⟩

theorem isClean_of_readRole {name : Str} (h : IsReadRole name)
    (hrole : isRoleName name.toList = true) : isClean name.toList = true := by
  obtain ⟨clean, -, hclean, hname | hname⟩ := isRoleName_cases hrole
  · rw [hname]
    exact hclean
  · have hmem : char '\n' ∈ name.toList := by simp [hname]
    exact absurd (h.2 _ hmem).2 (by decide)

theorem carried_of_read (h : value.Within .read) (hrewritable : value.Within .rewritable) :
    value.Within .carried := by
  refine h.and hrewritable ?_ (fun _ _ hs => hs) (fun _ => isPlainRole_of_read)
    fun _ _ => trivial
  rintro n (⟨i, rfl, hi⟩ | ⟨x, rfl⟩) ⟨hfinite, -⟩
  · exact hi
  · exact hfinite

theorem carried_of_writable (h : value.Within .read) (hwritable : value.Within .writable)
    (hstable : value.Within .stable) : value.Within .carried := by
  have hplain : value.Within ⟨Number.IsCarried, fun _ => True, IsPlainRole, True⟩ :=
    h.and hwritable (fun _ _ hn => hn) (fun _ _ _ => trivial)
      (fun _ hread hname => ⟨hread.1, isClean_of_readRole hread hname⟩) fun _ _ => trivial
  exact hplain.and hstable (fun _ hn _ => hn) (fun _ _ hs => hs) (fun _ hname _ => hname)
    fun _ _ => trivial

theorem rewritable_of_carried (h : value.Within .carried) (hechoed : value.Within .echoed) :
    value.Within .rewritable := by
  refine h.and hechoed ?_ (fun _ hs _ => hs) ?_ fun _ _ => trivial
  · intro n hn hecho
    cases n with
    | int i => exact ⟨rfl, hecho⟩
    | float x => exact ⟨hn, hecho⟩
    | nan label => exact ⟨hn, hecho⟩
  · rintro name ⟨-, hclean⟩ -
    obtain ⟨hchars, hcomment⟩ := isClean_iff.mp hclean
    exact ⟨fun hcomma => absurd (hchars _ hcomma) (by decide), hcomment⟩

theorem echoed_of_rewritable (h : value.Within .rewritable) : value.Within .echoed :=
  h.mono (fun _ hn => hn.2) (fun _ _ => trivial) (fun _ _ => trivial) id

-- Whatever was read can be written, and is read again as a frame that equals it, exactly if it
-- keeps to what notation can carry again.
theorem Node.equals_reread_iff {text : Str} {frame : Frame} (h : Node.ofText text = .ok frame) :
    (∃ again reread, frame.write = .ok again ∧ Node.ofText again = .ok reread ∧
      reread.equals frame = true) ↔ frame.Within .rewritable ∧ frame.depth ≤ maxDepth := by
  have hread : frame.Within .read := Node.within_of_ofText h
  constructor
  · rintro ⟨again, reread, hwrite, hagain, hequal⟩
    obtain ⟨hstable, hless⟩ := Node.stable_of_write hread hwrite hagain
    obtain ⟨hframe, hdepth⟩ := stable_of_equals hequal hstable hread
    rw [Value.depth, Value.depth] at hdepth
    have hroom : frame.depth ≤ maxDepth := Nat.le_trans (Nat.le_of_succ_le_succ hdepth) hless
    obtain ⟨cs, hcs, -⟩ := map_eq_ok.mp hwrite
    have hcarried : frame.Within .carried :=
      carried_of_writable hread (writable_of_value hread hcs) hframe
    obtain ⟨text', hwrite', hread'⟩ := Node.exists_read_write hcarried hroom
    cases hwrite.symm.trans hwrite'
    cases hagain.symm.trans hread'
    exact ⟨rewritable_of_carried hcarried ((equals_echo_iff hread).mp hequal), hroom⟩
  · rintro ⟨hrewritable, hdepth⟩
    obtain ⟨again, hwrite, hagain⟩ :=
      Node.exists_read_write (carried_of_read hread hrewritable) hdepth
    exact ⟨again, frame.reread, hwrite, hagain,
      (equals_echo_iff hread).mpr (echoed_of_rewritable hrewritable)⟩

-- An array of look-alikes under a positional role, and a quoted text that needs no quotes.
theorem Node.equals_reread_query : ∃ frame : Frame,
    Node.ofText "( query \"run\" // now\n [1, true, $t[0]])" = .ok frame ∧
      ∃ again reread, frame.write = .ok again ∧ Node.ofText again = .ok reread ∧
        reread.equals frame = true := by
  have hread : Node.ofText "( query \"run\" // now\n [1, true, $t[0]])" =
      .ok ⟨.text FrameType.query.name, [("action", .text "run"),
        ("agent", .array [.number (.int 1), .bool true, .text "$t[0]"])]⟩ := by rfl
  have htexts : ∀ s ∈ (["run", "$t[0]"] : List Str), IsStable s.toList := by decide
  have hroles : ∀ name ∈ (["action", "agent"] : List Str),
      char ',' ∉ name.toList ∧ holdsComment name.toList = false := by decide
  refine ⟨_, hread, (Node.equals_reread_iff hread).mpr ⟨?_, by decide⟩⟩
  refine .frame .query _ (by decide) (by decide) (by simp) ?_ ?_
  · intro entry hentry _
    simp only [List.mem_cons, List.not_mem_nil, or_false] at hentry
    rcases hentry with rfl | rfl <;> exact hroles _ (by simp)
  · intro entry hentry _
    simp only [List.mem_cons, List.not_mem_nil, or_false] at hentry
    rcases hentry with rfl | rfl
    · exact .text _ (htexts _ (by simp))
    · refine .array _ fun item hitem => ?_
      simp only [List.mem_cons, List.not_mem_nil, or_false] at hitem
      rcases hitem with rfl | rfl | rfl
      · exact .number _ ⟨rfl, rfl⟩
      · exact .bool true
      · exact .text _ (htexts _ (by simp))

-- A quoted text with an open bracket is read, but it is written bare.
theorem Node.not_reread_open : ∃ frame : Frame,
    Node.ofText "(query action:\"$[\")" = .ok frame ∧
      ¬∃ again reread, frame.write = .ok again ∧ Node.ofText again = .ok reread ∧
        reread.equals frame = true := by
  refine ⟨⟨.text "query", [("action", .text "$[")]⟩, by rfl, ?_⟩
  rintro ⟨again, reread, hwrite, hread, -⟩
  have hagain : (⟨.text "query", [("action", .text "$[")]⟩ : Frame).write =
      .ok "(query action:$[)" := by rfl
  cases hagain.symm.trans hwrite
  have hfail : (Node.ofText "(query action:$[)").isOk = false := by rfl
  rw [hread] at hfail
  cases hfail

end FrameNotation
