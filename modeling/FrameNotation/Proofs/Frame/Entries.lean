import FrameNotation.Frame.Entries
import FrameNotation.Proofs.Success
import Mathlib.Data.List.Induction
import Mathlib.Data.List.Nodup
import Mathlib.Tactic.SplitIfs

namespace FrameNotation

theorem nodup_eraseDups {α : Type} [BEq α] [LawfulBEq α] : ∀ as : List α, as.eraseDups.Nodup
  | [] => List.nodup_nil
  | a :: rest => by
      rw [List.eraseDups_cons, List.nodup_cons]
      exact ⟨by simp [List.mem_eraseDups], nodup_eraseDups _⟩
termination_by as => as.length
decreasing_by
  have hle := rest.length_filter_le fun b => !b == a
  simp only [List.length_cons]
  omega

-- What holds of all members of a list still does after one of them is replaced.
theorem forall_mem_replace {α : Type} {p : α → Prop} {front back : List α} {a b : α}
    (h : ∀ c ∈ front ++ a :: back, p c) (hreplace : p a → p b) : ∀ c ∈ front ++ b :: back, p c := by
  simp only [List.forall_mem_append, List.forall_mem_cons] at h ⊢
  exact ⟨h.1, hreplace h.2.1, h.2.2⟩

namespace Entries

variable {α : Type} {entries others kept : Entries α} {entry : Str × α} {name : Str}
variable {content : α}

@[simp] theorem names_cons {rest : Entries α} : names (entry :: rest) = entry.1 :: names rest := rfl

theorem names_replace {front back : Entries α} {other : α} :
    names (front ++ (name, other) :: back) = names (front ++ (name, content) :: back) := by
  simp only [names, List.map_append, List.map_cons]

theorem get?_cons {rest : Entries α} :
    get? (entry :: rest) name = if name = entry.1 then some entry.2 else get? rest name := by
  rw [get?, List.lookup_cons]
  split_ifs with hname
  · simp [hname]
  · rw [beq_eq_false_iff_ne.mpr hname]
    rfl

-- Without repetition every entry is the one under its name.
theorem get?_of_mem (hnames : (names entries).Nodup) (h : entry ∈ entries) :
    get? entries entry.1 = some entry.2 := by
  induction entries with
  | nil => cases h
  | cons first rest ih =>
      rw [names_cons, List.nodup_cons] at hnames
      rw [get?_cons]
      rcases List.mem_cons.mp h with rfl | h
      · rw [if_pos rfl]
      · rw [if_neg, ih hnames.2 h]
        intro hname
        exact hnames.1 (hname ▸ List.mem_map_of_mem h)

theorem mem_of_get? (h : get? entries name = some content) : (name, content) ∈ entries := by
  induction entries with
  | nil => cases h
  | cons first rest ih =>
      rw [get?_cons] at h
      split_ifs at h with hname
      · cases h
        rw [hname]
        exact List.mem_cons_self
      · exact List.mem_cons_of_mem first (ih h)

theorem get?_eq_some_iff (hnames : (names entries).Nodup) :
    get? entries name = some content ↔ (name, content) ∈ entries :=
  ⟨mem_of_get?, get?_of_mem hnames⟩

-- Where no name is repeated, the order of the entries does not matter.
theorem get?_perm (h : entries.Perm others) (hnames : (names entries).Nodup) :
    get? entries name = get? others name := by
  have hothers : (names others).Nodup := (h.map Prod.fst).nodup_iff.mp hnames
  ext content
  rw [get?_eq_some_iff hnames, get?_eq_some_iff hothers, h.mem_iff]

theorem has_iff : has entries name = true ↔ name ∈ names entries := by
  induction entries with
  | nil => simp [has, get?, names]
  | cons first rest ih =>
      rw [names_cons, List.mem_cons, ← ih, has, has, get?_cons]
      split_ifs with hname <;> simp [hname]

theorem get?_eq_none (h : name ∉ names entries) : get? entries name = none := by
  by_contra hfound
  exact h (has_iff.mp (Option.isSome_iff_ne_none.mpr hfound))

theorem get?_append :
    get? (entries ++ others) name = (get? entries name).or (get? others name) :=
  List.lookup_append

-- Whatever is kept by its name is found as before.
theorem get?_filter (keep : Str → Bool) (h : keep name = true) :
    get? (entries.filter fun entry => keep entry.1) name = get? entries name := by
  induction entries with
  | nil => rfl
  | cons entry rest ih =>
      rw [List.filter_cons, get?_cons]
      by_cases hname : name = entry.1
      · rw [if_pos hname, if_pos (hname ▸ h), get?_cons, if_pos hname]
      · rw [if_neg hname]
        split_ifs
        · rw [get?_cons, if_neg hname, ih]
        · exact ih

theorem all_has_iff :
    others.all (fun entry => has entries entry.1) = true ↔
      ∀ name ∈ names others, name ∈ names entries := by
  simp [List.all_eq_true, has_iff, names]

theorem put_of_notMem (content : α) (h : name ∉ names entries) :
    put entries name content = entries ++ [(name, content)] := by
  induction entries with
  | nil => rfl
  | cons entry rest ih =>
      rw [names_cons, List.mem_cons, not_or] at h
      rw [put, if_neg (Ne.symm h.1), ih h.2]
      rfl

theorem mem_put (h : entry ∈ put kept name content) :
    entry = (name, content) ∨ entry ∈ kept := by
  induction kept with
  | nil => exact .inl (List.mem_singleton.mp h)
  | cons known rest ih =>
      unfold put at h
      split at h
      · rename_i hname
        rcases List.mem_cons.mp h with rfl | h
        · exact .inl (by rw [hname])
        · exact .inr (by simp [h])
      · rcases List.mem_cons.mp h with rfl | h
        · exact .inr (by simp)
        · exact (ih h).imp id fun h => by simp [h]

theorem names_put :
    names (put kept name content) =
      if name ∈ names kept then names kept else names kept ++ [name] := by
  induction kept with
  | nil => rfl
  | cons known rest ih =>
      unfold put
      by_cases hknown : known.1 = name
      · rw [if_pos hknown, if_pos (by simp [hknown])]
        simp [hknown]
      · rw [if_neg hknown, names_cons, ih]
        by_cases hmem : name ∈ names rest
        · rw [if_pos hmem, if_pos (by simp [hmem]), names_cons]
        · rw [if_neg hmem, if_neg (by simp [hmem, Ne.symm hknown]), names_cons]
          rfl

theorem nodup_put (h : (names kept).Nodup) :
    (names (put kept name content)).Nodup := by
  rw [names_put]
  split_ifs with hmem
  · exact h
  · exact List.nodup_append.mpr ⟨h, by simp, fun a ha b hb => by
      rintro rfl
      exact hmem (List.mem_singleton.mp hb ▸ ha)⟩

theorem get?_put {other : Str} : get? (put kept name content) other =
    if other = name then some content else get? kept other := by
  induction kept with
  | nil => rw [put, get?_cons]
  | cons known rest ih =>
      rw [put]
      by_cases hknown : known.1 = name
      · rw [if_pos hknown, get?_cons, get?_cons, hknown]
        split_ifs <;> rfl
      · rw [if_neg hknown, get?_cons, get?_cons, ih]
        by_cases hother : other = known.1
        · rw [if_pos hother, if_pos hother, if_neg fun hname => hknown (hother.symm.trans hname)]
        · rw [if_neg hother, if_neg hother]

theorem get?_putAll_of_notMem {more : Entries α} (h : name ∉ names more) :
    get? (putAll kept more) name = get? kept name := by
  induction more generalizing kept with
  | nil => rfl
  | cons first rest ih =>
      rw [names_cons, List.mem_cons, not_or] at h
      rw [putAll, List.foldl_cons, ← putAll, ih h.2, get?_put, if_neg h.1]

theorem ofList_concat {front : Entries α} :
    ofList (front ++ [entry]) = put (ofList front) entry.1 entry.2 := by
  rw [ofList, putAll, List.foldl_append]
  rfl

-- Every name stands where it comes first.
theorem names_ofList (pairs : Entries α) : names (ofList pairs) = (names pairs).eraseDups := by
  induction pairs using List.reverseRecOn with
  | nil => rfl
  | append_singleton front entry ih =>
      have hnames : names (front ++ [entry]) = names front ++ [entry.1] := List.map_append
      rw [ofList_concat, names_put, ih, hnames, List.eraseDups_append]
      simp only [List.mem_eraseDups]
      split_ifs with hmem <;> simp [List.removeAll, hmem, List.eraseDups_cons]

theorem ofList_eq_self {pairs : Entries α} (h : (names pairs).Nodup) : ofList pairs = pairs := by
  induction pairs using List.reverseRecOn with
  | nil => rfl
  | append_singleton front entry ih =>
      have hnames : names (front ++ [entry]) = names front ++ [entry.1] := List.map_append
      rw [hnames, List.nodup_append] at h
      have hfresh : entry.1 ∉ names front := fun hmem =>
        h.2.2 _ hmem _ (List.mem_singleton_self entry.1) rfl
      rw [ofList_concat, ih h.1, put_of_notMem _ hfresh]

-- The last of several entries with one name counts.
theorem get?_ofList {front back : Entries α} (h : entry.1 ∉ names back) :
    get? (ofList (front ++ entry :: back)) entry.1 = some entry.2 := by
  have hsplit : ofList (front ++ entry :: back) =
      putAll (put (ofList front) entry.1 entry.2) back := by
    rw [ofList, putAll, List.foldl_append]
    rfl
  rw [hsplit, get?_putAll_of_notMem h, get?_put, if_pos rfl]

theorem notMem_without {left : List Str} (h : name ∈ left) :
    name ∉ names (without entries left) := by
  intro hname
  obtain ⟨entry, hentry, rfl⟩ := List.mem_map.mp hname
  have hkept := List.of_mem_filter hentry
  simp [h] at hkept

theorem perm_sorted (entries : Entries α) : (sorted entries).Perm entries :=
  List.mergeSort_perm _ _

-- What stands under the names does not matter for their order.
theorem sorted_map {β : Type} (f : α → β) (entries : Entries α) :
    sorted (entries.map fun entry => (entry.1, f entry.2)) =
      (sorted entries).map fun entry => (entry.1, f entry.2) := by
  rw [sorted, sorted, List.map_mergeSort]
  exact fun _ _ _ _ => rfl

-- Entries in order stay as they are.
theorem sorted_eq_self (h : (names entries).Pairwise fun a b => (!decide (b < a)) = true) :
    sorted entries = entries :=
  List.mergeSort_of_pairwise (List.pairwise_map.mp h)

-- Entries with the same names and contents come into the same order.
theorem sorted_perm (h : entries.Perm others) (hnames : (names entries).Nodup) :
    sorted entries = sorted others := by
  have htrans (a b c : Str × α) (hab : (!decide (b.1 < a.1)) = true)
      (hbc : (!decide (c.1 < b.1)) = true) : (!decide (c.1 < a.1)) = true := by
    simp only [Bool.not_eq_true', decide_eq_false_iff_not, Str.not_lt] at hab hbc ⊢
    exact Str.le_trans hab hbc
  have htotal (a b : Str × α) : (!decide (b.1 < a.1) || !decide (a.1 < b.1)) = true := by
    simp only [Bool.or_eq_true, Bool.not_eq_true', decide_eq_false_iff_not, Str.not_lt]
    exact Str.le_total a.1 b.1
  refine List.Perm.eq_of_pairwise ?_ (List.pairwise_mergeSort htrans htotal _)
    (List.pairwise_mergeSort htrans htotal _)
    ((perm_sorted entries).trans (h.trans (perm_sorted others).symm))
  intro a b ha hb hab hba
  simp only [Bool.not_eq_true', decide_eq_false_iff_not, Str.not_lt] at hab hba
  have hname : a.1 = b.1 := Str.le_antisymm hab hba
  have hmem : b ∈ entries := h.mem_iff.mpr ((perm_sorted others).mem_iff.mp hb)
  exact List.inj_on_of_nodup_map hnames ((perm_sorted entries).mem_iff.mp ha) hmem hname

section Aligned

variable {β : Type} {related : α → β → Prop} {peers : Entries β}

-- The same names in the same order, with related contents.
def Aligned (related : α → β → Prop) : Entries α → Entries β → Prop :=
  List.Forall₂ fun entry other => other.1 = entry.1 ∧ related entry.2 other.2

theorem Aligned.names_eq (h : Aligned related entries peers) : names peers = names entries := by
  induction h with
  | nil => rfl
  | cons hfirst _ ih => rw [names_cons, names_cons, hfirst.1, ih]

theorem Aligned.exists_get? (h : Aligned related entries peers)
    (hfound : get? entries name = some content) :
    ∃ peer, get? peers name = some peer ∧ related content peer := by
  induction h with
  | nil => cases hfound
  | cons hfirst _ ih =>
      rw [get?_cons] at hfound ⊢
      rw [hfirst.1]
      split_ifs at hfound ⊢
      · cases hfound
        exact ⟨_, rfl, hfirst.2⟩
      · exact ih hfound

theorem Aligned.exists_result (h : Aligned related entries peers) {entry : Str × α}
    (hentry : entry ∈ entries) : ∃ peer ∈ peers, peer.1 = entry.1 ∧ related entry.2 peer.2 :=
  exists_mem_of_forall₂ h.flip hentry

theorem Aligned.exists_source (h : Aligned related entries peers) {peer : Str × β}
    (hpeer : peer ∈ peers) : ∃ entry ∈ entries, peer.1 = entry.1 ∧ related entry.2 peer.2 :=
  exists_mem_of_forall₂ h hpeer

theorem Aligned.exists_of_forall (related : α → β → Prop)
    (h : ∀ entry ∈ entries, ∃ peer, related entry.2 peer) :
    ∃ peers, Aligned related entries peers := by
  apply exists_forall₂
  intro entry hentry
  obtain ⟨peer, hpeer⟩ := h entry hentry
  exact ⟨(entry.1, peer), rfl, hpeer⟩

end Aligned

end Entries

end FrameNotation
