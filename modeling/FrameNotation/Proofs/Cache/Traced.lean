import FrameNotation.Proofs.Cache

namespace FrameNotation

variable {α : Type}

-- What a step means for the entries of a cache.
inductive Effect (α : Type)
  | stored (key : Str) (content : α) (stamp : Float)
  | read (key : Str)
  | cleared
  | nothing

namespace Effect

def isRead (key : Str) : Effect α → Bool
  | .read other => other == key
  | _ => false

-- After such a step, nothing of what was stored under the key before is left.
def ends (key : Str) : Effect α → Bool
  | .stored other _ _ => other == key
  | .cleared => true
  | _ => false

end Effect

variable {cache after : Cache α} {now : Float} {key : Str} {content : α}
variable {entry : CacheEntry α} {events : List CacheEvent} {past : List (Effect α)}

-- An entry is what was last stored under its key and is still there, with the readings since.
def CacheEntry.TracedIn (past : List (Effect α)) (entry : CacheEntry α) : Prop :=
  ∃ before since, past = before ++ .stored entry.key entry.content entry.stamp :: since ∧
    (∀ effect ∈ since, effect.ends entry.key = false) ∧
      entry.hits = since.countP (·.isRead entry.key)

namespace CacheEntry.TracedIn

theorem stored (past : List (Effect α)) (key : Str) (content : α) (stamp : Float) :
    (⟨key, content, stamp, 0⟩ : CacheEntry α).TracedIn (past ++ [.stored key content stamp]) :=
  ⟨past, [], rfl, nofun, rfl⟩

-- A step that ends nothing under the key of an entry adds its readings to the hits.
theorem append (h : entry.TracedIn past) {effect : Effect α} (hends : effect.ends entry.key = false)
    (hits : Nat) (hhits : hits = entry.hits + [effect].countP (·.isRead entry.key)) :
    { entry with hits := hits }.TracedIn (past ++ [effect]) := by
  obtain ⟨before, since, rfl, hsince, hcount⟩ := h
  refine ⟨before, since ++ [effect], by simp, fun other hother => ?_, ?_⟩
  · rcases List.mem_append.mp hother with hother | hother
    · exact hsince other hother
    · cases List.mem_singleton.mp hother
      exact hends
  · rw [List.countP_append, ← hcount, hhits]

theorem append_other (h : entry.TracedIn past) {effect : Effect α}
    (hends : effect.ends entry.key = false) (hread : effect.isRead entry.key = false) :
    entry.TracedIn (past ++ [effect]) :=
  h.append hends entry.hits (by simp [hread])

end CacheEntry.TracedIn

-- Every entry of the cache comes from the past.
def Cache.Follows (cache : Cache α) (past : List (Effect α)) : Prop :=
  ∀ entry ∈ cache.entries, entry.TracedIn past

namespace Cache.Follows

theorem nothing (h : cache.Follows past) : cache.Follows (past ++ [.nothing]) :=
  fun entry hentry => (h entry hentry).append_other rfl rfl

theorem clear : cache.clear.Follows past := nofun

-- A reading that finds nothing puts nothing in.
theorem get_none (h : cache.Follows past) (hget : cache.get now key = (none, after, events)) :
    after.Follows past := by
  rcases eq_of_get_none hget with rfl | ⟨entry, -, -, rfl⟩
  · exact h
  · exact fun other hother => h other (mem_others.mp hother).1

theorem get_some (h : cache.Follows past) (hget : cache.get now key = (some entry, after, events)) :
    after.Follows (past ++ [.read key]) := by
  obtain ⟨old, hfind, -, rfl, rfl⟩ := eq_of_get_some hget
  obtain ⟨hold, rfl⟩ := mem_of_find? hfind
  intro other hother
  rcases List.mem_append.mp hother with hother | hother
  · obtain ⟨hmem, hkey⟩ := mem_others.mp hother
    exact (h other hmem).append_other rfl (by simpa [Effect.isRead] using hkey.symm)
  · cases List.mem_singleton.mp hother
    exact (h old hold).append rfl _ (by simp [Effect.isRead])

theorem put (h : cache.Follows past) :
    (cache.put now key content).2.1.Follows (past ++ [.stored key content now]) := by
  obtain ⟨kept, hkept, hkey, heq⟩ := exists_kept cache now key content
  rw [heq]
  intro other hother
  rcases List.mem_append.mp hother with hother | hother
  · have hends : (Effect.stored key content now).ends other.key = false := by
      simpa [Effect.ends] using (hkey other hother).symm
    exact (h other (hkept.mem hother)).append_other hends rfl
  · cases List.mem_singleton.mp hother
    exact .stored past key content now

end Cache.Follows

end FrameNotation
