import FrameNotation.Cache
import Mathlib.Data.List.Nodup
import Mathlib.Tactic.SplitIfs

namespace FrameNotation.Cache

variable {α : Type} {cache after : Cache α} {now : Float} {key : Str} {content : α}
variable {entry : CacheEntry α} {events : List CacheEvent} {keeps : Str → α → Prop}

@[simp] theorem entries_withEntries (cache : Cache α) (entries : List (CacheEntry α)) :
    (cache.withEntries entries).entries = entries := rfl

@[simp] theorem lifetime_withEntries (cache : Cache α) (entries : List (CacheEntry α)) :
    (cache.withEntries entries).lifetime = cache.lifetime := rfl

-- A cache can be created for any number of entries but none, and it has none at first.
theorem create_eq_ok {capacity : Int} {lifetime : Number} : create capacity lifetime = .ok cache ↔
    cache.entries = [] ∧ cache.lifetime = lifetime ∧ (cache.capacity : Int) = capacity := by
  unfold create
  constructor
  · intro h
    split at h
    · cases h
      exact ⟨rfl, rfl, by simp only; omega⟩
    · cases h
  · rcases cache with ⟨room, known, entries, hroom⟩
    rintro ⟨rfl, rfl, rfl⟩
    have hpos : 0 < (room : Int).toNat := by simpa using hroom
    exact dif_pos hpos

theorem mem_of_find? (h : cache.find? key = some entry) : entry ∈ cache.entries ∧ entry.key = key :=
  ⟨List.mem_of_find?_eq_some h, by simpa using List.find?_some h⟩

theorem mem_others : entry ∈ cache.others key ↔ entry ∈ cache.entries ∧ entry.key ≠ key := by
  simp [others]

theorem has_eq_false : cache.has key = false ↔ ∀ entry ∈ cache.entries, entry.key ≠ key := by
  simp [has, find?]

-- Without a key that no entry has, all entries are left.
theorem others_eq_entries (h : cache.has key = false) : cache.others key = cache.entries :=
  List.filter_eq_self.mpr fun entry hentry => by simpa using has_eq_false.mp h entry hentry

-- A reading that finds nothing leaves the cache as it is, or takes an expired entry out of it.
theorem eq_of_get_none (h : cache.get now key = (none, after, events)) :
    after = cache ∨ ∃ entry, cache.find? key = some entry ∧ cache.isExpired now entry = true ∧
      after = cache.withEntries (cache.others key) := by
  unfold get at h
  split at h
  · cases h
    exact .inl rfl
  · rename_i old hfind
    split at h
    · rename_i hexpired
      cases h
      exact .inr ⟨old, hfind, hexpired, rfl⟩
    · cases h

-- Either way, what is left is what other keys have.
theorem entries_of_get_none (h : cache.get now key = (none, after, events)) :
    after.entries = cache.others key := by
  unfold get at h
  split at h
  · rename_i hfind
    cases h
    exact (others_eq_entries (by rw [has, hfind, Option.isSome_none])).symm
  · split at h
    · cases h
      rfl
    · cases h

-- A reading that finds an entry counts itself, and makes the entry the last one.
theorem eq_of_get_some (h : cache.get now key = (some entry, after, events)) :
    ∃ old, cache.find? key = some old ∧ cache.isExpired now old = false ∧
      entry = { old with hits := old.hits + 1 } ∧
        after = cache.withEntries (cache.others key ++ [entry]) := by
  unfold get at h
  split at h
  · cases h
  · rename_i old hfind
    split at h
    · cases h
    · rename_i hlive
      cases h
      exact ⟨old, hfind, Bool.eq_false_iff.mpr hlive, rfl, rfl⟩

-- Storing keeps some of the entries of other keys, in their order, and puts the new one behind.
theorem exists_kept (cache : Cache α) (now : Float) (key : Str) (content : α) :
    ∃ kept, kept.Sublist cache.entries ∧ (∀ entry ∈ kept, entry.key ≠ key) ∧
      (cache.put now key content).2.1 = cache.withEntries (kept ++ [⟨key, content, now, 0⟩]) := by
  have habsent (h : ¬cache.has key = true) : ∀ entry ∈ cache.entries, entry.key ≠ key :=
    has_eq_false.mp (by simpa using h)
  unfold put
  split_ifs with hhas hroom
  · exact ⟨cache.others key, List.filter_sublist, fun entry hentry => (mem_others.mp hentry).2, rfl⟩
  · exact ⟨cache.entries, .refl _, habsent hhas, rfl⟩
  · exact ⟨cache.entries.tail, List.tail_sublist _,
      fun entry hentry => habsent hhas entry (List.mem_of_mem_tail hentry), rfl⟩

theorem lifetime_get {found : Option (CacheEntry α)}
    (h : cache.get now key = (found, after, events)) : after.lifetime = cache.lifetime := by
  cases found with
  | none =>
      rcases eq_of_get_none h with rfl | ⟨entry, -, -, rfl⟩
      · rfl
      · rfl
  | some entry =>
      obtain ⟨old, -, -, -, rfl⟩ := eq_of_get_some h
      rfl

theorem lifetime_put (cache : Cache α) (now : Float) (key : Str) (content : α) :
    (cache.put now key content).2.1.lifetime = cache.lifetime := by
  obtain ⟨kept, -, -, heq⟩ := exists_kept cache now key content
  rw [heq, lifetime_withEntries]

-- Every entry keeps to a relation between its key and its content.
def Keeps (cache : Cache α) (keeps : Str → α → Prop) : Prop :=
  ∀ entry ∈ cache.entries, keeps entry.key entry.content

theorem keeps_others (h : cache.Keeps keeps) : ∀ entry ∈ cache.others key,
    keeps entry.key entry.content :=
  fun entry hentry => h entry (mem_others.mp hentry).1

-- Reading takes nothing but entries away, and what is read was in the cache under the key.
theorem keeps_get {found : Option (CacheEntry α)} (h : cache.Keeps keeps)
    (hget : cache.get now key = (found, after, events)) :
    after.Keeps keeps ∧ ∀ entry,
      found = some entry → entry.key = key ∧ keeps key entry.content := by
  cases found with
  | none =>
      refine ⟨?_, nofun⟩
      rcases eq_of_get_none hget with rfl | ⟨entry, -, -, rfl⟩
      · exact h
      · exact keeps_others h
  | some entry =>
      obtain ⟨old, hfind, -, rfl, rfl⟩ := eq_of_get_some hget
      obtain ⟨hold, rfl⟩ := mem_of_find? hfind
      refine ⟨fun other hother => ?_, fun other hother => ?_⟩
      · rcases List.mem_append.mp hother with hother | hother
        · exact keeps_others h other hother
        · cases List.mem_singleton.mp hother
          exact h old hold
      · cases hother
        exact ⟨rfl, h old hold⟩

theorem keeps_put (h : cache.Keeps keeps) (hcontent : keeps key content) :
    (cache.put now key content).2.1.Keeps keeps := by
  obtain ⟨kept, hkept, -, heq⟩ := exists_kept cache now key content
  rw [heq]
  intro entry hentry
  rcases List.mem_append.mp hentry with hentry | hentry
  · exact h entry (hkept.mem hentry)
  · cases List.mem_singleton.mp hentry
    exact hcontent

theorem get_empty (now : Float) (key : Str) (h : cache.entries = []) :
    cache.get now key = (none, cache, []) := by
  have hfind : cache.find? key = none := by
    rw [find?, h]
    rfl
  rw [get, hfind]

theorem put_empty (now : Float) (key : Str) (content : α) (h : cache.entries = []) :
    (cache.put now key content).2.1 = cache.withEntries [⟨key, content, now, 0⟩] := by
  have hcapacity : 0 < cache.capacity := cache.capacity_pos
  simp [put, has, find?, size, h, hcapacity]

theorem find?_singleton (cache : Cache α) (entry : CacheEntry α) :
    (cache.withEntries [entry]).find? entry.key = some entry := by
  simp [find?]

-- What an empty cache stores can be read at once, if the lifetime has not passed by then.
theorem get_put (key : Str) (content : α) (h : cache.entries = [])
    (hlifetime : cache.lifetime.less (.float (now - now)) = false) :
    ∃ entry, ((cache.put now key content).2.1.get now key).1 = some entry ∧
      entry.content = content := by
  refine ⟨⟨key, content, now, 1⟩, ?_, rfl⟩
  rw [put_empty now key content h, get, find?_singleton cache ⟨key, content, now, 0⟩]
  simp only [isExpired, lifetime_withEntries, hlifetime]
  rfl

-- What has just been stored is no older than a lifetime that is not negative.
theorem not_less_of_standing {lifetime : Number} {age : Float} {halvings : Nat}
    (h : lifetime.atMost (.int 0) = false)
    (hage : (Number.float age).standing = .point 0 halvings) :
    lifetime.less (.float age) = false := by
  have hint : (Number.int 0).standing = .point 0 0 := rfl
  rw [Number.atMost, Standing.atMost, hint, Bool.or_eq_false_iff] at h
  rw [Number.less, hage]
  cases hstanding : lifetime.standing with
  | nowhere => rfl
  | bottom =>
      rw [hstanding] at h
      exact absurd h.1 (by decide)
  | point numerator halvings =>
      rw [hstanding] at h
      simp only [Standing.less, decide_eq_false_iff_not, Int.zero_mul, Int.not_lt] at h ⊢
      have hone : (twoPow 0 : Int) = 1 := rfl
      have hnumerator := h.1
      rw [hone, Int.mul_one] at hnumerator
      exact Int.mul_nonneg hnumerator (Int.natCast_nonneg _)
  | top => rfl

theorem not_less_of_not_atMost {lifetime : Number} (h : lifetime.atMost (.int 0) = false) :
    lifetime.less (.float (0.0 - 0.0)) = false := by
  have hzero : (Number.float (0.0 - 0.0)).standing = .point 0 1074 := by decide
  exact not_less_of_standing h hzero

-- No two entries have one key.
def Distinct (cache : Cache α) : Prop := (cache.entries.map CacheEntry.key).Nodup

theorem Distinct.keep {kept : List (CacheEntry α)} (h : cache.Distinct)
    (hkept : kept.Sublist cache.entries) : (cache.withEntries kept).Distinct :=
  List.Nodup.sublist (hkept.map CacheEntry.key) h

theorem Distinct.append {kept : List (CacheEntry α)} (h : cache.Distinct)
    (hkept : kept.Sublist cache.entries) (hkey : ∀ other ∈ kept, other.key ≠ entry.key) :
    (cache.withEntries (kept ++ [entry])).Distinct := by
  unfold Distinct
  rw [entries_withEntries, List.map_append, List.nodup_append]
  refine ⟨h.keep hkept, by simp, ?_⟩
  rintro _ hother _ hentry
  obtain ⟨other, hmem, rfl⟩ := List.mem_map.mp hother
  cases List.mem_singleton.mp hentry
  exact hkey other hmem

theorem Distinct.get {found : Option (CacheEntry α)} (h : cache.Distinct)
    (hget : cache.get now key = (found, after, events)) : after.Distinct := by
  cases found with
  | none =>
      rcases eq_of_get_none hget with rfl | ⟨entry, -, -, rfl⟩
      · exact h
      · exact h.keep List.filter_sublist
  | some entry =>
      obtain ⟨old, hfind, -, rfl, rfl⟩ := eq_of_get_some hget
      refine h.append List.filter_sublist fun other hother => ?_
      rw [(mem_of_find? hfind).2]
      exact (mem_others.mp hother).2

theorem Distinct.put (h : cache.Distinct) : (cache.put now key content).2.1.Distinct := by
  obtain ⟨kept, hkept, hkey, heq⟩ := exists_kept cache now key content
  rw [heq]
  exact h.append hkept hkey

end FrameNotation.Cache
