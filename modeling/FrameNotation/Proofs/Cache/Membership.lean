import FrameNotation.Proofs.Cache.Session

namespace FrameNotation

variable {α : Type}

-- Of the steps that end something under a key, there is one last.
theorem Effect.eq_of_last {before since earlier later : List (Effect α)} {effect other : Effect α}
    {key : Str} (heffect : effect.ends key = true) (hother : other.ends key = true)
    (hsince : ∀ step ∈ since, step.ends key = false)
    (hlater : ∀ step ∈ later, step.ends key = false)
    (h : before ++ effect :: since = earlier ++ other :: later) : effect = other := by
  have hlast (front : List (Effect α)) {last : Effect α} {behind : List (Effect α)}
      (hends : last.ends key = true) (hbehind : ∀ step ∈ behind, step.ends key = false) :
      (front ++ last :: behind).reverse.find? (·.ends key) = some last := by
    have hnone : behind.reverse.find? (·.ends key) = none := by
      simpa [List.find?_eq_none] using hbehind
    simp [List.find?_append, hnone, hends]
  have heq := hlast before heffect hsince
  rw [h, hlast earlier hother hlater] at heq
  exact (Option.some.inj heq).symm

namespace Cache

variable {cache : Cache α} {now : Float} {key : Str}

theorem has_iff_find? : cache.has key = true ↔ ∃ entry, cache.find? key = some entry :=
  Option.isSome_iff_exists

-- Reading finds what is in the cache and not too old.
theorem isSome_get_iff : (cache.get now key).1.isSome = true ↔
    ∃ entry, cache.find? key = some entry ∧ cache.isExpired now entry = false := by
  unfold get
  cases cache.find? key with
  | none => simp
  | some entry => cases hexpired : cache.isExpired now entry <;> simp [hexpired]

theorem find?_others_append (cache : Cache α) (entry : CacheEntry α) :
    (cache.withEntries (cache.others entry.key ++ [entry])).find? entry.key = some entry := by
  have hnone : (cache.others entry.key).find? (fun other => other.key == entry.key) = none := by
    simp [List.find?_eq_none, mem_others]
  simp [find?, List.find?_append, hnone]

end Cache

namespace CacheSession

variable {session : CacheSession α} {key : Str}

-- A key is in the cache exactly if reading it now would find an entry.
def HasWhatItReads (session : CacheSession α) (key : Str) : Prop :=
  session.cache.has key = (session.cache.get session.now key).1.isSome

instance : Decidable (session.HasWhatItReads key) := inferInstanceAs (Decidable (_ = _))

-- What was stored last under a key, with nothing since that ends it, is not too old.
def LatestIsLive (session : CacheSession α) (key : Str) : Prop :=
  ∀ before content stamp since, session.past = before ++ .stored key content stamp :: since →
    (∀ effect ∈ since, effect.ends key = false) →
      session.cache.lifetime.less (.float (session.now - stamp)) = false

-- The entry under a key is of the age of what was stored last under it.
theorem isExpired_eq_false_iff (h : session.cache.Follows session.past) {entry : CacheEntry α}
    (hfind : session.cache.find? key = some entry) :
    session.cache.isExpired session.now entry = false ↔ session.LatestIsLive key := by
  obtain ⟨hentry, rfl⟩ := Cache.mem_of_find? hfind
  obtain ⟨before, since, hpast, hsince, -⟩ := h entry hentry
  constructor
  · intro hlive earlier content stamp later hlast hlater
    have hsame := Effect.eq_of_last (by simp [Effect.ends]) (by simp [Effect.ends]) hsince hlater
      (hpast.symm.trans hlast)
    cases hsame
    exact hlive
  · intro hlatest
    exact hlatest before entry.content entry.stamp since hpast hsince

theorem hasWhatItReads_iff (h : session.cache.Follows session.past) (key : Str) :
    session.HasWhatItReads key ↔
      (session.cache.has key = true → session.LatestIsLive key) := by
  rw [HasWhatItReads, Bool.eq_iff_iff, Cache.isSome_get_iff, Cache.has_iff_find?]
  constructor
  · rintro hreads ⟨entry, hfind⟩
    obtain ⟨found, hfound, hlive⟩ := hreads.mp ⟨entry, hfind⟩
    exact (isExpired_eq_false_iff h hfound).mp hlive
  · intro hlatest
    constructor
    · rintro ⟨entry, hfind⟩
      exact ⟨entry, hfind, (isExpired_eq_false_iff h hfind).mpr (hlatest ⟨entry, hfind⟩)⟩
    · rintro ⟨entry, hfind, -⟩
      exact ⟨entry, hfind⟩

-- Once a key is read, it is in the cache exactly if it was found.
theorem hasWhatItReads_next_get (session : CacheSession α) (key : Str) :
    (session.next (.get key)).HasWhatItReads key := by
  rw [HasWhatItReads, Bool.eq_iff_iff, Cache.isSome_get_iff, Cache.has_iff_find?]
  simp only [next, cacheAfter, nowAfter]
  rcases hget : session.cache.get session.now key with ⟨_ | entry, after, events⟩
  · have hnone : ∀ entry, after.find? key ≠ some entry := by
      intro entry hfind
      obtain ⟨hentry, hkey⟩ := Cache.mem_of_find? hfind
      rw [Cache.entries_of_get_none hget] at hentry
      exact (Cache.mem_others.mp hentry).2 hkey
    refine iff_of_false ?_ ?_
    · rintro ⟨entry, hfind⟩
      exact hnone entry hfind
    · rintro ⟨entry, hfind, -⟩
      exact hnone entry hfind
  · obtain ⟨old, hold, hlive, rfl, rfl⟩ := Cache.eq_of_get_some hget
    obtain ⟨-, rfl⟩ := Cache.mem_of_find? hold
    have hfind := Cache.find?_others_append session.cache { old with hits := old.hits + 1 }
    exact iff_of_true ⟨_, hfind⟩ ⟨_, hfind, hlive⟩

-- A cache that starts empty has a key that cannot be read exactly while it keeps an entry that has
-- become too old, and reading the key ends this.
theorem hasWhatItReads_run_iff {capacity : Int} {lifetime : Number} {cache : Cache α}
    (hcreate : Cache.create capacity lifetime = .ok cache) (now : Float)
    (steps : List (CacheStep α)) (key : Str) :
    (((start cache now).run steps).HasWhatItReads key ↔
      (((start cache now).run steps).cache.has key = true →
        ((start cache now).run steps).LatestIsLive key)) ∧
      (((start cache now).run steps).next (.get key)).HasWhatItReads key := by
  have hstart : cache.Follows [] := by
    intro entry hentry
    rw [(Cache.create_eq_ok.mp hcreate).1] at hentry
    cases hentry
  exact ⟨hasWhatItReads_iff (follows_run hstart steps) key, hasWhatItReads_next_get _ key⟩

-- Of two keys, one is stored anew before its lifetime has passed.
def renewingSteps : List (CacheStep Nat) :=
  [.put "a" 1, .put "b" 2, .clock 30.0, .put "a" 3, .clock 61.0]

theorem hasWhatItReads_renewing : ∃ cache : Cache Nat, Cache.create 2 (.int 60) = .ok cache ∧
    ((start cache 0.0).run renewingSteps).LatestIsLive "a" ∧
      ((start cache 0.0).run renewingSteps).cache.has "b" = true ∧
        ¬((start cache 0.0).run renewingSteps).LatestIsLive "b" ∧
          (((start cache 0.0).run renewingSteps).next (.get "b")).HasWhatItReads "b" := by
  have hcreate : Cache.create 2 (.int 60) =
      .ok (⟨2, .int 60, [], by decide⟩ : Cache Nat) := rfl
  have hrun := hasWhatItReads_run_iff hcreate 0.0 renewingSteps
  refine ⟨_, hcreate, (hrun "a").1.mp (by decide +kernel) (by decide +kernel), by decide +kernel,
    fun hlive => ?_, (hrun "b").2⟩
  exact absurd ((hrun "b").1.mpr fun _ => hlive) (by decide +kernel)

-- A minute and a second after it was stored, a key is in the cache but cannot be read.
theorem not_hasWhatItReads_lapsed : ∃ cache : Cache Nat, Cache.create 2 (.int 60) = .ok cache ∧
    ¬((start cache 0.0).run [.put "a" 1, .clock 61.0]).HasWhatItReads "a" := by
  have hcreate : Cache.create 2 (.int 60) =
      .ok (⟨2, .int 60, [], by decide⟩ : Cache Nat) := rfl
  exact ⟨_, hcreate, by decide +kernel⟩

end CacheSession

end FrameNotation
