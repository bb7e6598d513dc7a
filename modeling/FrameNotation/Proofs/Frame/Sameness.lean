import FrameNotation.Proofs.Frame.Display
import FrameNotation.Proofs.Frame.Reordered
import FrameNotation.Proofs.Number.Digits

namespace FrameNotation

theorem Entries.Matches.trans {α β γ : Type} {first : α → β → Prop} {second : β → γ → Prop}
    {both : α → γ → Prop} {entries : Entries α} {others : Entries β} {more : Entries γ}
    (h : entries.Matches first others) (hothers : others.Matches second more)
    (hboth : ∀ entry ∈ entries, ∀ b c, first entry.2 b → second b c → both entry.2 c) :
    entries.Matches both more := by
  refine ⟨fun name hname => h.1 name (hothers.1 name hname), fun entry hentry => ?_⟩
  obtain ⟨other, hother, hfirst⟩ := h.2 entry hentry
  obtain ⟨last, hlast, hsecond⟩ := hothers.2 _ (mem_of_get? hother)
  exact ⟨last, hlast, hboth entry hentry other last hfirst hsecond⟩

theorem Entries.matches_self {α : Type} {related : α → α → Prop} {entries : Entries α}
    (hnames : (names entries).Nodup) (h : ∀ entry ∈ entries, related entry.2 entry.2) :
    entries.Matches related entries :=
  ⟨fun _ hname => hname, fun entry hentry => ⟨entry.2, get?_of_mem hnames hentry, h entry hentry⟩⟩

-- Matching entries without repeated names are as many on both sides.
theorem Entries.Matches.length_eq {α β : Type} {related : α → β → Prop} {entries : Entries α}
    {others : Entries β} (h : entries.Matches related others) (hentries : (names entries).Nodup)
    (hothers : (names others).Nodup) : entries.length = others.length := by
  have hperm : (names entries).Perm (names others) := by
    refine (List.perm_ext_iff_of_nodup hentries hothers).mpr fun name => ⟨fun hname => ?_, h.1 name⟩
    obtain ⟨entry, hentry, rfl⟩ := List.mem_map.mp hname
    obtain ⟨found, hfound, -⟩ := h.2 entry hentry
    exact List.mem_map_of_mem (mem_of_get? hfound)
  have hlength := hperm.length_eq
  rwa [names, names, List.length_map, List.length_map] at hlength

theorem forall₂_trans {α β γ : Type} {first : α → β → Prop} {second : β → γ → Prop}
    {both : α → γ → Prop} {as : List α} {bs : List β} {cs : List γ} (h : List.Forall₂ first as bs)
    (hothers : List.Forall₂ second bs cs)
    (hboth : ∀ a ∈ as, ∀ b c, first a b → second b c → both a c) : List.Forall₂ both as cs := by
  induction h generalizing cs with
  | nil =>
      cases hothers
      exact .nil
  | cons hfirst _ ih =>
      cases hothers with
      | cons hsecond hrest =>
          refine .cons (hboth _ (by simp) _ _ hfirst hsecond) (ih hrest fun a ha => ?_)
          exact hboth a (by simp [ha])

namespace Standing

variable {a b c : Standing}

theorem ne_nowhere_of_equals (h : a.equals b = true) : a ≠ .nowhere ∧ b ≠ .nowhere := by
  constructor <;>
  · rintro rfl
    simp [equals] at h

theorem equals_self (h : a ≠ .nowhere) : a.equals a = true := by
  cases a with
  | nowhere => exact absurd rfl h
  | point numerator halvings => exact beq_self_eq_true _
  | bottom | top => rfl

-- Equal fractions, each multiplied by the denominators of both others.
theorem equals_trans (h : a.equals b = true) (hother : b.equals c = true) : a.equals c = true := by
  cases a <;> cases b <;> cases c <;> simp only [equals, Bool.false_eq_true] at h hother ⊢
  rename_i p i q j r k
  rw [beq_iff_eq] at h hother ⊢
  have hpos : (twoPow j : Int) ≠ 0 := mod_cast (Nat.two_pow_pos j).ne'
  apply Int.eq_of_mul_eq_mul_right hpos
  calc
    p * twoPow k * twoPow j = p * twoPow j * twoPow k := Int.mul_right_comm _ _ _
    _ = q * twoPow k * twoPow i := by rw [h, Int.mul_right_comm]
    _ = r * twoPow i * twoPow j := by rw [hother, Int.mul_right_comm]

end Standing

namespace Number

variable {inside : Bool} {l m n : Number}

theorem isCopy_iff : m.isCopy n = true ↔ ∃ label, m = .nan label ∧ n = .nan label := by
  constructor
  · intro h
    cases m <;> cases n <;> simp only [isCopy, Bool.false_eq_true] at h
    exact ⟨_, rfl, congrArg nan (eq_of_beq h).symm⟩
  · rintro ⟨label, rfl, rfl⟩
    exact beq_self_eq_true label

-- Equal numbers, or copies of one that is no number if these count.
theorem alike_trans (h : (l.equals m || inside && l.isCopy m) = true)
    (hother : (m.equals n || inside && m.isCopy n) = true) :
    (l.equals n || inside && l.isCopy n) = true := by
  simp only [Bool.or_eq_true, Bool.and_eq_true, isCopy_iff] at h hother ⊢
  rcases h with hequal | ⟨hinside, label, rfl, rfl⟩
  · rcases hother with hnext | ⟨-, label, rfl, -⟩
    · exact .inl (Standing.equals_trans hequal hnext)
    · exact absurd rfl (Standing.ne_nowhere_of_equals hequal).2
  · rcases hother with hnext | ⟨-, other, hsame, rfl⟩
    · exact absurd rfl (Standing.ne_nowhere_of_equals hnext).1
    · exact .inr ⟨hinside, label, rfl, hsame.symm⟩

end Number

namespace Value

variable {inType inside : Bool} {a b c : Value}

theorem equalsAt_trans (h : equalsAt inType inside a b = true)
    (hother : equalsAt inType inside b c = true) : equalsAt inType inside a c = true := by
  induction a using Value.induction generalizing b c inType inside with
  | null =>
      obtain rfl := equalsAt_null_left.mp h
      exact hother
  | bool | number =>
      obtain ⟨m, hm, hleft⟩ := (equalsAt_of_number rfl).mp h
      obtain ⟨n, hn, hright⟩ := (equalsAt_of_number hm).mp hother
      exact (equalsAt_of_number rfl).mpr ⟨n, hn, Number.alike_trans hleft hright⟩
  | text s =>
      obtain rfl := equalsAt_text_left.mp h
      exact hother
  | array xs ih =>
      obtain ⟨ys, rfl, hfirst⟩ := equalsAt_array_left.mp h
      obtain ⟨zs, rfl, hsecond⟩ := equalsAt_array_left.mp hother
      refine equalsAt_array.mpr (forall₂_trans hfirst hsecond ?_)
      exact fun x hx y z hleft hright => ih x hx hleft hright
  | record entries ih =>
      obtain ⟨others, rfl, hfirst⟩ := equalsAt_record_left.mp h
      obtain ⟨more, rfl, hsecond⟩ := equalsAt_record_left.mp hother
      refine equalsAt_record.mpr (hfirst.trans hsecond ?_)
      exact fun entry hentry y z hleft hright => ih entry hentry hleft hright
  | frame node ihtype ih =>
      obtain ⟨other, rfl, htypes, hfirst⟩ := equalsAt_frame_left.mp h
      obtain ⟨last, rfl, htypes', hsecond⟩ := equalsAt_frame_left.mp hother
      refine equalsAt_frame.mpr ⟨ihtype htypes htypes', hfirst.trans hsecond ?_⟩
      exact fun entry hentry y z hleft hright => ih entry hentry hleft hright

theorem same_trans (h : a.same b = true) (hother : b.same c = true) : a.same c = true := by
  rw [same_iff] at h hother ⊢
  induction a using Value.induction generalizing b c with
  | null | bool x | text s =>
      cases h
      exact hother
  | number m =>
      cases h with
      | number hkind hequal =>
          cases hother with
          | number hkind' hequal' =>
              exact .number (hkind.trans hkind') (Standing.equals_trans hequal hequal')
  | array xs ih =>
      cases h with
      | array hfirst =>
          cases hother with
          | array hsecond =>
              refine .array (forall₂_trans hfirst hsecond fun x hx y z hleft hright => ?_)
              exact same_iff.mpr (ih x hx (same_iff.mp hleft) (same_iff.mp hright))
  | record entries =>
      cases h with
      | record hequal =>
          cases hother with
          | record hequal' => exact .record (equalsAt_trans hequal hequal')
  | frame node _ ih =>
      cases h with
      | frame htypes hfirst =>
          cases hother with
          | frame htypes' hsecond =>
              refine .frame (equalsAt_trans htypes htypes')
                (hfirst.trans hsecond fun entry hentry y z hleft hright => ?_)
              exact same_iff.mpr (ih entry hentry (same_iff.mp hleft) (same_iff.mp hright))

-- What is the same is equal.
theorem equalsAt_of_same (h : a.same b = true) : equalsAt false inside a b = true := by
  rw [same_iff] at h
  induction a using Value.induction generalizing b inside with
  | null =>
      cases h with
      | null => rfl
  | bool x =>
      cases h with
      | bool =>
          refine (equalsAt_of_number rfl).mpr ⟨_, rfl, Bool.or_eq_true_iff.mpr (.inl ?_)⟩
          exact Number.equals_self _ rfl
  | number m =>
      cases h with
      | number _ hequal =>
          exact (equalsAt_of_number rfl).mpr ⟨_, rfl, Bool.or_eq_true_iff.mpr (.inl hequal)⟩
  | text s =>
      cases h with
      | text => exact equalsAt_text.mpr rfl
  | array xs ih =>
      cases h with
      | array hitems =>
          refine equalsAt_array.mpr (((List.forall₂_and_left _ _).mpr ⟨ih, hitems⟩).imp ?_)
          exact fun x y hstep => hstep.1 (same_iff.mp hstep.2)
  | record entries =>
      cases h with
      | record hequal => exact equalsAt_record.mpr (equalsAt_record.mp hequal)
  | frame node _ ih =>
      cases h with
      | frame htypes hmatches =>
          refine equalsAt_frame.mpr ⟨htypes, hmatches.1, fun entry hentry => ?_⟩
          obtain ⟨found, hfound, hsame⟩ := hmatches.2 entry hentry
          exact ⟨found, hfound, ih entry hentry (same_iff.mp hsame)⟩

-- No number in the value is nowhere.
def Definite (value : Value) : Prop := ∀ n, value.Mentions n → n.standing ≠ .nowhere

theorem definite_of_equals (h : equalsAt inType inside a b = true) (hb : b.Definite) :
    a.Definite := by
  induction a using Value.induction generalizing b inType inside with
  | number m =>
      obtain ⟨n, hn, halike⟩ := (equalsAt_of_number rfl).mp h
      rintro k ⟨⟩
      rw [Bool.or_eq_true, Bool.and_eq_true, Number.isCopy_iff] at halike
      rcases halike with hequal | ⟨-, label, -, rfl⟩
      · exact (Standing.ne_nowhere_of_equals hequal).1
      · cases b with
        | number n =>
            cases hn
            exact absurd rfl (hb _ .number)
        | _ => cases hn
  | array xs ih =>
      obtain ⟨ys, rfl, hitems⟩ := equalsAt_array_left.mp h
      intro n hn
      cases hn with
      | item hitem hn =>
          obtain ⟨y, hy, hequal⟩ := exists_mem_of_forall₂ hitems.flip hitem
          exact ih _ hitem hequal (fun k hk => hb k (.item hy hk)) n hn
  | record entries ih =>
      obtain ⟨others, rfl, hmatches⟩ := equalsAt_record_left.mp h
      intro n hn
      cases hn with
      | entry hentry hn =>
          obtain ⟨other, hother, hequal⟩ := hmatches.2 _ hentry
          have hmem := Entries.mem_of_get? hother
          exact ih _ hentry hequal (fun k hk => hb k (.entry hmem hk)) n hn
  | frame node ihtype ih =>
      obtain ⟨⟨_, _⟩, rfl, htypes, hmatches⟩ := equalsAt_frame_left.mp h
      intro n hn
      cases hn with
      | frameType hn => exact ihtype htypes (fun k hk => hb k (.frameType hk)) n hn
      | frameEntry hentry hn =>
          obtain ⟨found, hfound, hequal⟩ := hmatches.2 _ hentry
          have hmem := Entries.mem_of_get? hfound
          exact ih _ hentry hequal (fun k hk => hb k (.frameEntry hmem hk)) n hn
  | _ =>
      intro n hn
      cases hn

theorem equalsAt_self (hfree : a.Unrepeated) (h : a.Definite) :
    equalsAt inType inside a a = true := by
  induction hfree generalizing inType inside with
  | null => rfl
  | bool b =>
      refine (equalsAt_of_number rfl).mpr ⟨_, rfl, Bool.or_eq_true_iff.mpr (.inl ?_)⟩
      exact Number.equals_self _ rfl
  | number n =>
      refine (equalsAt_of_number rfl).mpr ⟨_, rfl, Bool.or_eq_true_iff.mpr (.inl ?_)⟩
      exact Standing.equals_self (h n .number)
  | text s => exact equalsAt_text.mpr rfl
  | array items _ ih =>
      rw [equalsAt_array, List.forall₂_same]
      exact fun item hitem => ih item hitem fun n hn => h n (.item hitem hn)
  | record entries hnames _ ih =>
      refine equalsAt_record.mpr (Entries.matches_self hnames fun entry hentry => ?_)
      exact ih entry hentry fun n hn => h n (.entry hentry hn)
  | frame type attributes hnames _ _ _ ihtype ih =>
      refine equalsAt_frame.mpr ⟨ihtype fun n hn => h n (.frameType hn),
        Entries.matches_self hnames fun entry hentry => ?_⟩
      exact ih entry hentry fun n hn => h n (.frameEntry hentry hn)

theorem same_of_definite (hfree : a.Unrepeated) (h : a.Definite) : a.same a = true := by
  induction hfree with
  | null => rfl
  | bool b => simp [same]
  | number n =>
      rw [same, Bool.and_eq_true]
      exact ⟨beq_self_eq_true _, Standing.equals_self (h n .number)⟩
  | text s => simp [same]
  | array items _ ih =>
      rw [same, sameItems_iff, List.forall₂_same]
      exact fun item hitem => ih item hitem fun n hn => h n (.item hitem hn)
  | record entries hnames hentries =>
      rw [same]
      exact equalsAt_self (.record entries hnames hentries) h
  | frame type attributes hnames _ htype _ _ ih =>
      refine same_frame.mpr ⟨equalsAt_self htype fun n hn => h n (.frameType hn),
        Entries.matches_self hnames fun entry hentry => ?_⟩
      exact ih entry hentry fun n hn => h n (.frameEntry hentry hn)

end Value

end FrameNotation
