import FrameNotation.Proofs.Cache.Session

namespace FrameNotation

variable {α : Type}

-- A step touches the entry that it stores or reads.
def Effect.touches (key : Str) : Effect α → Bool
  | .stored other _ _ | .read other => other == key
  | .cleared | .nothing => false

-- When a key was touched last: the number of steps up to then, or 0 for a key that never was.
def lastTouch (past : List (Effect α)) (key : Str) : Nat :=
  past.length - past.reverse.findIdx (·.touches key)

section LastTouch

variable {past : List (Effect α)} {effect : Effect α} {key : Str}

theorem lastTouch_le (past : List (Effect α)) (key : Str) :
    lastTouch past key ≤ past.length := Nat.sub_le _ _

theorem lastTouch_append_touched (h : effect.touches key = true) :
    lastTouch (past ++ [effect]) key = past.length + 1 := by
  simp [lastTouch, List.findIdx_cons, h]

theorem lastTouch_append_other (h : effect.touches key = false) :
    lastTouch (past ++ [effect]) key = lastTouch past key := by
  simp [lastTouch, List.findIdx_cons, h]

end LastTouch

namespace Cache

variable {cache after : Cache α} {now : Float} {key : Str} {content : α}
variable {entry : CacheEntry α} {kept : List (CacheEntry α)} {events : List CacheEvent}
variable {past : List (Effect α)} {effect : Effect α}

section Storing

theorem length_others_lt (h : cache.has key = true) :
    (cache.others key).length < cache.entries.length := by
  obtain ⟨entry, hentry, hkey⟩ : ∃ entry ∈ cache.entries, entry.key = key := by
    simpa [has, find?] using h
  exact List.length_filter_lt_length_iff_exists.mpr ⟨entry, hentry, by simpa using hkey⟩

-- Storing under a known key puts the new entry in the place of the old one, but at the end.
theorem put_of_has (h : cache.has key = true) :
    (cache.put now key content).2.1 =
      cache.withEntries (cache.others key ++ [⟨key, content, now, 0⟩]) := by
  simp only [put, h, if_true]

-- Storing under a new key takes nothing away while there is room.
theorem put_of_room (h : cache.has key = false) (hroom : cache.size < cache.capacity) :
    (cache.put now key content).2.1 =
      cache.withEntries (cache.others key ++ [⟨key, content, now, 0⟩]) := by
  rw [others_eq_entries h]
  simp only [put, h, hroom, Bool.false_eq_true, if_false, if_true]

-- When there is none, the first entry goes.
theorem put_of_full (now : Float) (content : α) (h : cache.has key = false)
    (hfull : cache.size = cache.capacity) :
    ∃ oldest kept, cache.entries = oldest :: kept ∧
      (cache.put now key content).2.1 =
        cache.withEntries (kept ++ [⟨key, content, now, 0⟩]) := by
  have hpos := cache.capacity_pos
  rw [← hfull] at hpos
  obtain ⟨oldest, kept, hentries⟩ := List.exists_cons_of_length_pos hpos
  refine ⟨oldest, kept, hentries, ?_⟩
  simp only [put, h, hfull, hentries, Nat.lt_irrefl, Bool.false_eq_true, if_false, List.tail_cons]

end Storing

-- The entries stand in the order of their last touch, and there are no more than there may be.
structure Ranked (cache : Cache α) (past : List (Effect α)) : Prop where
  size_le : cache.size ≤ cache.capacity
  touched : ∀ entry ∈ cache.entries, 0 < lastTouch past entry.key
  ordered : cache.entries.Pairwise fun a b => lastTouch past a.key < lastTouch past b.key

namespace Ranked

theorem distinct (h : cache.Ranked past) : cache.Distinct := by
  unfold Distinct
  rw [List.Nodup, List.pairwise_map]
  refine h.ordered.imp fun hlt heq => ?_
  rw [heq] at hlt
  exact Nat.lt_irrefl _ hlt

theorem empty (h : cache.entries = []) : cache.Ranked past := by
  refine ⟨?_, ?_, ?_⟩
  · simp [size, h]
  · simp [h]
  · simp [h]

-- Taking entries away without touching one keeps the order.
theorem keep (h : cache.Ranked past) (hkept : kept.Sublist cache.entries)
    (huntouched : ∀ entry ∈ kept, effect.touches entry.key = false) :
    (cache.withEntries kept).Ranked (past ++ [effect]) := by
  have hlast (entry : CacheEntry α) (hentry : entry ∈ kept) :
      lastTouch (past ++ [effect]) entry.key = lastTouch past entry.key :=
    lastTouch_append_other (huntouched entry hentry)
  refine ⟨Nat.le_trans hkept.length_le h.size_le, fun entry hentry => ?_, ?_⟩
  · rw [hlast entry hentry]
    exact h.touched entry (hkept.mem hentry)
  · refine (h.ordered.sublist hkept).imp_of_mem fun {a b} ha hb hlt => ?_
    rw [hlast a ha, hlast b hb]
    exact hlt

-- The entry that a step touches becomes the last one.
theorem touch (h : cache.Ranked past) (hkept : kept.Sublist cache.entries)
    (hkeys : ∀ other ∈ kept, other.key ≠ entry.key)
    (htouches : ∀ key, effect.touches key = (entry.key == key))
    (hroom : kept.length < cache.capacity) :
    (cache.withEntries (kept ++ [entry])).Ranked (past ++ [effect]) := by
  have huntouched : ∀ other ∈ kept, effect.touches other.key = false := by
    intro other hother
    rw [htouches]
    simpa using (hkeys other hother).symm
  have hold := h.keep hkept huntouched
  have hlast : lastTouch (past ++ [effect]) entry.key = past.length + 1 :=
    lastTouch_append_touched (by rw [htouches, beq_self_eq_true])
  refine ⟨?_, ?_, ?_⟩
  · rw [size, entries_withEntries, List.length_append, List.length_singleton]
    exact hroom
  · intro other hother
    rcases List.mem_append.mp hother with hother | hother
    · exact hold.touched other hother
    · rw [List.mem_singleton.mp hother, hlast]
      omega
  · refine List.pairwise_append.mpr ⟨hold.ordered, List.pairwise_singleton _ _, ?_⟩
    intro other hother last hmem
    have hle := lastTouch_le past other.key
    rw [List.mem_singleton.mp hmem, hlast, lastTouch_append_other (huntouched other hother)]
    omega

theorem put (h : cache.Ranked past) (now : Float) (key : Str) (content : α) :
    (cache.put now key content).2.1.Ranked (past ++ [.stored key content now]) := by
  have hothers : (cache.others key).Sublist cache.entries := List.filter_sublist
  have hkeys : ∀ other ∈ cache.others key, other.key ≠ key :=
    fun other hother => (mem_others.mp hother).2
  have hsize := h.size_le
  unfold size at hsize
  by_cases hhas : cache.has key = true
  · rw [put_of_has hhas]
    have hlt := length_others_lt hhas
    exact h.touch hothers hkeys (fun _ => rfl) (by omega)
  · rw [Bool.not_eq_true] at hhas
    by_cases hroom : cache.size < cache.capacity
    · rw [put_of_room hhas hroom]
      have hle := hothers.length_le
      unfold size at hroom
      exact h.touch hothers hkeys (fun _ => rfl) (by omega)
    · have hfull : cache.size = cache.capacity := Nat.le_antisymm h.size_le (by omega)
      obtain ⟨oldest, kept, hentries, heq⟩ := put_of_full now content hhas hfull
      rw [heq]
      have hkept : kept.Sublist cache.entries := hentries ▸ List.sublist_cons_self oldest kept
      have hlength : kept.length < cache.entries.length := by simp [hentries]
      refine h.touch hkept (fun other hother => ?_) (fun _ => rfl) (by omega)
      exact has_eq_false.mp hhas other (hkept.mem hother)

theorem get_some (h : cache.Ranked past)
    (hget : cache.get now key = (some entry, after, events)) :
    after.Ranked (past ++ [.read key]) := by
  obtain ⟨old, hfind, -, rfl, rfl⟩ := eq_of_get_some hget
  obtain ⟨-, rfl⟩ := mem_of_find? hfind
  have hhas : cache.has old.key = true := by rw [has, hfind, Option.isSome_some]
  have hlt := length_others_lt hhas
  have hsize := h.size_le
  unfold size at hsize
  exact h.touch List.filter_sublist (fun other hother => (mem_others.mp hother).2) (fun _ => rfl)
    (by omega)

theorem get_none (h : cache.Ranked past) (hget : cache.get now key = (none, after, events)) :
    after.Ranked (past ++ [.nothing]) := by
  rcases eq_of_get_none hget with rfl | ⟨expired, -, -, rfl⟩
  · exact h.keep (.refl _) fun _ _ => rfl
  · exact h.keep List.filter_sublist fun _ _ => rfl

end Ranked

end Cache

namespace CacheSession

variable {session : CacheSession α}

theorem ranked_next (h : session.cache.Ranked session.past) (step : CacheStep α) :
    (session.next step).cache.Ranked (session.next step).past :=
  next_cases (fun effect after => after.Ranked (session.past ++ [effect])) session step
    (h.put session.now) h.get_some h.get_none (h.keep (List.nil_sublist _) nofun)
    (h.keep (.refl _) fun _ _ => rfl)

-- A cache that is a store of the most recently touched entries: no more than there may be, under
-- different keys, and in the order of their last touch. Only a new key that finds the cache full
-- takes an entry away, which is the one whose last touch is the oldest.
structure KeepsRecent (session : CacheSession α) : Prop where
  size_le : session.cache.size ≤ session.cache.capacity
  distinct : session.cache.Distinct
  touched : ∀ entry ∈ session.cache.entries, 0 < lastTouch session.past entry.key
  ordered : session.cache.entries.Pairwise fun a b =>
    lastTouch session.past a.key < lastTouch session.past b.key
  put_full : ∀ key content, session.cache.has key = false →
    session.cache.size = session.cache.capacity →
      ∃ oldest kept, session.cache.entries = oldest :: kept ∧
        (∀ other ∈ kept, lastTouch session.past oldest.key < lastTouch session.past other.key) ∧
          (session.cache.put session.now key content).2.1.entries =
            kept ++ [⟨key, content, session.now, 0⟩]
  put_other : ∀ key content,
    session.cache.has key = true ∨ session.cache.size < session.cache.capacity →
      (session.cache.put session.now key content).2.1.entries =
        session.cache.others key ++ [⟨key, content, session.now, 0⟩]

theorem keepsRecent_of_ranked (h : session.cache.Ranked session.past) : session.KeepsRecent where
  size_le := h.size_le
  distinct := h.distinct
  touched := h.touched
  ordered := h.ordered
  put_full key content hnew hfull := by
    obtain ⟨oldest, kept, hentries, heq⟩ := Cache.put_of_full session.now content hnew hfull
    refine ⟨oldest, kept, hentries, ?_, by rw [heq]; rfl⟩
    have hordered := h.ordered
    rw [hentries] at hordered
    exact (List.pairwise_cons.mp hordered).1
  put_other key content hroom := by
    by_cases hhas : session.cache.has key = true
    · rw [Cache.put_of_has hhas]
      rfl
    · rw [Cache.put_of_room (by simpa using hhas) (hroom.resolve_left hhas)]
      rfl

-- Whatever is done with a cache that starts empty, it keeps what was touched most recently.
theorem keepsRecent_run {capacity : Int} (h : 1 ≤ capacity) (lifetime : Number) (now : Float)
    (steps : List (CacheStep α)) : ∃ cache : Cache α, Cache.create capacity lifetime = .ok cache ∧
      (((start cache now).run steps).cache.capacity : Int) = capacity ∧
        ((start cache now).run steps).KeepsRecent := by
  have hpos : 0 < capacity.toNat := by omega
  let cache : Cache α := ⟨capacity.toNat, lifetime, [], hpos⟩
  have hcapacity : (cache.capacity : Int) = capacity := by
    simp only [cache]
    omega
  obtain ⟨entries, hrun⟩ := exists_entries_run (start cache now) steps
  refine ⟨cache, Cache.create_eq_ok.mpr ⟨rfl, rfl, hcapacity⟩, ?_, ?_⟩
  · rw [hrun]
    exact hcapacity
  · apply keepsRecent_of_ranked
    exact run_induction (fun later => later.cache.Ranked later.past) (Cache.Ranked.empty rfl)
      (fun _ step hlater => ranked_next hlater step) steps

-- With room for two, the key that was read in between outlives the other.
def crowdedSteps : List (CacheStep Nat) :=
  [.put "a" 1, .put "b" 2, .get "a", .has "b", .clock 30.0, .put "c" 3]

theorem keepsRecent_crowded : (1 : Int) ≤ 2 ∧
    ∃ cache : Cache Nat, Cache.create 2 (.int 60) = .ok cache ∧
      ((start cache 0.0).run crowdedSteps).KeepsRecent ∧
        ((start cache 0.0).run crowdedSteps).cache.entries.map CacheEntry.key =
          (["a", "c"] : List Str) := by
  refine ⟨by decide, ?_⟩
  obtain ⟨cache, hcreate, -, hkeeps⟩ :=
    keepsRecent_run (by decide : (1 : Int) ≤ 2) (.int 60) 0.0 crowdedSteps
  refine ⟨cache, hcreate, hkeeps, ?_⟩
  cases hcreate
  decide +kernel

end CacheSession

end FrameNotation
