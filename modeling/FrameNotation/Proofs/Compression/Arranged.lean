import FrameNotation.Proofs.Compression

namespace FrameNotation.Compression

variable {entries : Entries Value} {entry : Str × Value} {values kept : List Value}
variable {index : Nat} {type : Value}

def actionsOf (entries : Entries Value) : Entries Value :=
  entries.filter fun entry => isActionRole entry.1

def targetsOf (entries : Entries Value) : Entries Value :=
  entries.filter fun entry => isTargetRole entry.1

def itemsOf (entries : Entries Value) : Entries Value :=
  entries.filter fun entry => isItemRole entry.1

-- Roles that rearranging leaves as they are: those of a query with actions of one name and with no
-- more than two targets, of a list without duplicates, and of any other frame.
inductive Arranged : Value → Entries Value → Prop
  | query {entries : Entries Value} (action : Str)
      (hactions : ∀ entry ∈ actionsOf entries, entry.1 = action)
      (htargets : (targetsOf entries).length ≤ 2) : Arranged (.text "query") entries
  | list {entries : Entries Value}
      (hitems : (distinctItems [] ((itemsOf entries).map Prod.snd)).length =
        (itemsOf entries).length) : Arranged (.text "list") entries
  | other {type : Value} {entries : Entries Value} (hquery : type ≠ .text "query")
      (hlist : type ≠ .text "list") : Arranged type entries

-- Either there is no choice between actions, or all that are left have the name of one of them.
theorem keepOneAction_cases (entries : Entries Value) :
    (actionsOf entries).length ≤ 1 ∧ keepOneAction entries = entries ∨
      ∃ source ∈ actionsOf entries, keepOneAction entries =
        entries.filter fun entry => !isActionRole entry.1 || decide (entry.1 = source.1) := by
  by_cases hfew : (actionsOf entries).length ≤ 1
  · exact .inl ⟨hfew, if_pos hfew⟩
  · right
    cases hprimary : (actionsOf entries).find? fun entry : Str × Value => isPrimary entry.2 with
    | some source =>
        refine ⟨source, List.mem_of_find?_eq_some hprimary, ?_⟩
        unfold actionsOf at hfew hprimary
        simp [keepOneAction, if_neg hfew, hprimary]
    | none =>
        cases hactions : actionsOf entries with
        | nil => simp [hactions] at hfew
        | cons source rest =>
            have hrest : rest ≠ [] := by
              rintro rfl
              simp [hactions] at hfew
            refine ⟨source, by simp, ?_⟩
            unfold actionsOf at hprimary hactions
            simp [keepOneAction, hprimary, hactions, hrest]

theorem keepOneAction_eq_self {action : Str}
    (h : ∀ entry ∈ actionsOf entries, entry.1 = action) : keepOneAction entries = entries := by
  rcases keepOneAction_cases entries with ⟨-, hself⟩ | ⟨source, hsource, hkept⟩
  · exact hself
  · rw [hkept]
    apply List.filter_eq_self.mpr
    intro entry hentry
    cases haction : isActionRole entry.1 with
    | false => rfl
    | true => simp [h source hsource, h entry (List.mem_filter.mpr ⟨hentry, haction⟩)]

theorem exists_action (entries : Entries Value) :
    ∃ action, ∀ entry ∈ actionsOf (keepOneAction entries), entry.1 = action := by
  rcases keepOneAction_cases entries with ⟨hfew, hself⟩ | ⟨source, -, hkept⟩
  · rw [hself]
    match actionsOf entries, hfew with
    | [], _ => exact ⟨"", by simp⟩
    | [only], _ => exact ⟨only.1, by simp⟩
  · refine ⟨source.1, fun entry hentry => ?_⟩
    rw [hkept] at hentry
    obtain ⟨hentry, haction⟩ := List.mem_filter.mp hentry
    simpa [haction] using List.of_mem_filter hentry

-- Folding leaves either what there was, or one target in place of all others.
theorem foldTargets_cases (entries : Entries Value) :
    (targetsOf entries).length ≤ 2 ∧ foldTargets entries = entries ∨
      2 < (targetsOf entries).length ∧
        foldTargets entries = (entries.filter fun entry => !isTargetRole entry.1) ++
          [(targetListRole, .array (((targetsOf entries).map Prod.snd).filter Value.holds))] := by
  by_cases hfew : (targetsOf entries).length ≤ 2
  · exact .inl ⟨hfew, if_pos hfew⟩
  · have hnew : targetListRole ∉
        Entries.names (entries.filter fun entry => !isTargetRole entry.1) := by
      intro hmem
      obtain ⟨entry, hentry, hname⟩ := List.mem_map.mp hmem
      have hother := List.of_mem_filter hentry
      have hrole : isTargetRole targetListRole = true := by decide
      simp [hname, hrole] at hother
    refine .inr ⟨by omega, ?_⟩
    rw [← Entries.put_of_notMem _ hnew]
    exact if_neg hfew

theorem length_targetsOf_foldTargets (entries : Entries Value) :
    (targetsOf (foldTargets entries)).length ≤ 2 := by
  rcases foldTargets_cases entries with ⟨hfew, hself⟩ | ⟨-, hfolded⟩
  · rw [hself]
    exact hfew
  · have hrole : isTargetRole targetListRole = true := by decide
    rw [hfolded, targetsOf, List.filter_append, List.filter_filter]
    simp [hrole]

theorem actionsOf_foldTargets (entries : Entries Value) :
    ∀ entry ∈ actionsOf (foldTargets entries), entry ∈ actionsOf entries := by
  intro entry hentry
  obtain ⟨hentry, haction⟩ := List.mem_filter.mp hentry
  refine List.mem_filter.mpr ⟨?_, haction⟩
  rcases foldTargets_cases entries with ⟨-, hself⟩ | ⟨-, hfolded⟩
  · rwa [hself] at hentry
  · rw [hfolded, List.mem_append, List.mem_singleton] at hentry
    rcases hentry with hentry | rfl
    · exact List.mem_of_mem_filter hentry
    · exact absurd haction (by decide : isActionRole targetListRole ≠ true)

theorem isItemRole_item (index : Nat) : isItemRole (itemMark ++ toString index) = true := by
  simp [isItemRole, startsWith]

-- Where all numbers from the first one on are free, the items go to the end.
theorem renumbered_eq (hfree : ∀ later ≥ index, itemMark ++ toString later ∉ Entries.names entries) :
    renumbered index entries values =
      entries ++ (values.zipIdx index).map fun item => (itemMark ++ toString item.2, item.1) := by
  induction values generalizing index entries with
  | nil => simp [renumbered]
  | cons value rest ih =>
      have hnext : ∀ later ≥ index + 1, itemMark ++ toString later ∉
          Entries.names (entries ++ [(itemMark ++ toString index, value)]) := by
        intro later hlater hmem
        rw [Entries.names, List.map_append, List.mem_append] at hmem
        rcases hmem with hmem | hmem
        · exact hfree later (by omega) hmem
        · have hsame := numbered_inj (List.mem_singleton.mp hmem)
          omega
      rw [renumbered, Entries.put_of_notMem _ (hfree index (by omega)), ih hnext]
      simp

-- What is distinct stays so.
theorem distinctItems_distinctItems (kept values : List Value) :
    distinctItems kept (distinctItems kept values) = distinctItems kept values := by
  induction values generalizing kept with
  | nil => rfl
  | cons value rest ih =>
      rw [distinctItems]
      split_ifs with hsame
      · exact ih kept
      · rw [distinctItems, if_neg hsame, ih]

theorem distinctItems_sublist (kept values : List Value) :
    (distinctItems kept values).Sublist values := by
  induction values generalizing kept with
  | nil => exact .slnil
  | cons value rest ih =>
      rw [distinctItems]
      split_ifs
      · exact (ih kept).cons value
      · exact (ih _).cons_cons value

theorem dedupeItems_cases (entries : Entries Value) :
    (distinctItems [] ((itemsOf entries).map Prod.snd)).length = (itemsOf entries).length ∧
        dedupeItems entries = entries ∨
      (distinctItems [] ((itemsOf entries).map Prod.snd)).length < (itemsOf entries).length ∧
        dedupeItems entries = (entries.filter fun entry => !isItemRole entry.1) ++
          ((distinctItems [] ((itemsOf entries).map Prod.snd)).zipIdx 1).map fun item =>
            (itemMark ++ toString item.2, item.1) := by
  have hle := (distinctItems_sublist [] ((itemsOf entries).map Prod.snd)).length_le
  by_cases hsame : (distinctItems [] ((itemsOf entries).map Prod.snd)).length =
      ((itemsOf entries).map Prod.snd).length
  · exact .inl ⟨by simpa using hsame, if_pos hsame⟩
  · refine .inr ⟨by rw [List.length_map] at hle hsame; omega, ?_⟩
    rw [← renumbered_eq]
    · exact if_neg hsame
    · intro later _ hmem
      obtain ⟨entry, hentry, hname⟩ := List.mem_map.mp hmem
      have hother := List.of_mem_filter hentry
      rw [hname, isItemRole_item] at hother
      cases hother

-- If there were duplicates, the items that are left have the numbers from one on.
theorem itemsOf_dedupeItems (hfewer : (distinctItems [] ((itemsOf entries).map Prod.snd)).length <
    (itemsOf entries).length) : itemsOf (dedupeItems entries) =
      ((distinctItems [] ((itemsOf entries).map Prod.snd)).zipIdx 1).map fun item =>
        (itemMark ++ toString item.2, item.1) := by
  rcases dedupeItems_cases entries with ⟨hdistinct, -⟩ | ⟨-, hdeduped⟩
  · omega
  · have hall (items : List (Value × Nat)) : items.filter ((fun entry : Str × Value =>
        isItemRole entry.1) ∘ fun item => (itemMark ++ toString item.2, item.1)) = items :=
      List.filter_eq_self.mpr fun item _ => isItemRole_item item.2
    nth_rewrite 1 [hdeduped, itemsOf]
    rw [List.filter_append, List.filter_filter, List.filter_map, hall]
    simp

theorem values_dedupeItems (entries : Entries Value) : (itemsOf (dedupeItems entries)).map Prod.snd =
    distinctItems [] ((itemsOf entries).map Prod.snd) := by
  rcases dedupeItems_cases entries with ⟨hdistinct, hself⟩ | ⟨hfewer, -⟩
  · rw [← List.length_map (f := Prod.snd)] at hdistinct
    rw [hself, (distinctItems_sublist _ _).eq_of_length hdistinct]
  · rw [itemsOf_dedupeItems hfewer, List.map_map]
    simp [Function.comp_def]

theorem length_distinctItems_dedupeItems (entries : Entries Value) :
    (distinctItems [] ((itemsOf (dedupeItems entries)).map Prod.snd)).length =
      (itemsOf (dedupeItems entries)).length := by
  rw [← List.length_map (f := Prod.snd), values_dedupeItems, distinctItems_distinctItems]

theorem filter_dedupeItems (entries : Entries Value) :
    (dedupeItems entries).filter (fun entry => !isItemRole entry.1) =
      entries.filter fun entry => !isItemRole entry.1 := by
  rcases dedupeItems_cases entries with ⟨-, hself⟩ | ⟨-, hdeduped⟩
  · rw [hself]
  · have hnone (items : List (Value × Nat)) : items.filter ((fun entry : Str × Value =>
        !isItemRole entry.1) ∘ fun item => (itemMark ++ toString item.2, item.1)) = [] := by
      refine List.filter_eq_nil_iff.mpr fun item _ => ?_
      rw [Function.comp_apply, isItemRole_item]
      exact Bool.false_ne_true
    rw [hdeduped, List.filter_append, List.filter_filter, List.filter_map, hnone]
    simp

theorem arranged_rearranged (type : Value) (entries : Entries Value) :
    Arranged type (rearranged type entries) := by
  rcases rearranged_cases type entries with
    ⟨rfl, hsame⟩ | ⟨rfl, hsame⟩ | ⟨hquery, hlist, hsame⟩ <;> rw [hsame]
  · obtain ⟨action, haction⟩ := exists_action entries
    refine .query action (fun entry hentry => ?_) (length_targetsOf_foldTargets _)
    exact haction entry (actionsOf_foldTargets _ entry hentry)
  · exact .list (length_distinctItems_dedupeItems entries)
  · exact .other hquery hlist

theorem keepOneAction_sublist (entries : Entries Value) :
    (keepOneAction entries).Sublist entries := by
  rcases keepOneAction_cases entries with ⟨-, hself⟩ | ⟨source, -, hkept⟩
  · rw [hself]
  · rw [hkept]
    exact List.filter_sublist

theorem foldTargets_eq_self_or_lt (entries : Entries Value) :
    foldTargets entries = entries ∨ (foldTargets entries).length < entries.length := by
  rcases foldTargets_cases entries with ⟨-, hself⟩ | ⟨hmany, hfolded⟩
  · exact .inl hself
  · right
    have hsplit := List.length_eq_length_filter_add (l := entries)
      fun entry => isTargetRole entry.1
    rw [targetsOf] at hmany
    rw [hfolded, List.length_append, List.length_singleton]
    omega

theorem dedupeItems_eq_self_or_lt (entries : Entries Value) :
    dedupeItems entries = entries ∨ (dedupeItems entries).length < entries.length := by
  rcases dedupeItems_cases entries with ⟨-, hself⟩ | ⟨hfewer, hdeduped⟩
  · exact .inl hself
  · right
    have hsplit := List.length_eq_length_filter_add (l := entries)
      fun entry => isItemRole entry.1
    rw [itemsOf] at hfewer
    rw [hdeduped, List.length_append, List.length_map, List.length_zipIdx, itemsOf]
    omega

-- Rearranging changes nothing, or it leaves fewer roles.
theorem rearranged_eq_self_or_lt (type : Value) (entries : Entries Value) :
    rearranged type entries = entries ∨ (rearranged type entries).length < entries.length := by
  rcases rearranged_cases type entries with ⟨-, hsame⟩ | ⟨-, hsame⟩ | ⟨-, -, hsame⟩ <;> rw [hsame]
  · have hkept := keepOneAction_sublist entries
    rcases foldTargets_eq_self_or_lt (keepOneAction entries) with hself | hfewer
    · rw [hself]
      by_cases hlength : (keepOneAction entries).length = entries.length
      · exact .inl (hkept.eq_of_length hlength)
      · exact .inr (Nat.lt_of_le_of_ne hkept.length_le hlength)
    · exact .inr (Nat.lt_of_lt_of_le hfewer hkept.length_le)
  · exact dedupeItems_eq_self_or_lt entries
  · exact .inl rfl

theorem Arranged.rearranged_eq (h : Arranged type entries) : rearranged type entries = entries := by
  cases h with
  | query action hactions htargets =>
      change foldTargets (keepOneAction entries) = entries
      rw [keepOneAction_eq_self hactions]
      exact if_pos htargets
  | list hitems => exact if_pos (hitems.trans (List.length_map Prod.snd).symm)
  | other hquery hlist =>
      rcases rearranged_cases type entries with ⟨rfl, -⟩ | ⟨rfl, -⟩ | ⟨-, -, hsame⟩
      · contradiction
      · contradiction
      · exact hsame

end FrameNotation.Compression
