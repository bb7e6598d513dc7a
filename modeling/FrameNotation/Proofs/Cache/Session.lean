import FrameNotation.Proofs.Cache.Traced

namespace FrameNotation

variable {α : Type}

-- One thing that is done with a cache. The clock may come to show any time.
inductive CacheStep (α : Type)
  | put (key : Str) (content : α)
  | get (key : Str)
  | has (key : Str)
  | clear
  | clock (now : Float)

-- A cache that is used by a clock, with what its steps so far meant for its entries.
structure CacheSession (α : Type) where
  cache : Cache α
  now : Float
  past : List (Effect α)

namespace CacheSession

variable {session : CacheSession α}

def start (cache : Cache α) (now : Float) : CacheSession α := ⟨cache, now, []⟩

-- A reading that finds nothing means nothing, even if it takes an expired entry away.
def effect (session : CacheSession α) : CacheStep α → Effect α
  | .put key content => .stored key content session.now
  | .get key => if (session.cache.get session.now key).1.isSome then .read key else .nothing
  | .clear => .cleared
  | .has _ | .clock _ => .nothing

def cacheAfter (session : CacheSession α) : CacheStep α → Cache α
  | .put key content => (session.cache.put session.now key content).2.1
  | .get key => (session.cache.get session.now key).2.1
  | .clear => session.cache.clear
  | .has _ | .clock _ => session.cache

def nowAfter (session : CacheSession α) : CacheStep α → Float
  | .clock now => now
  | _ => session.now

def next (session : CacheSession α) (step : CacheStep α) : CacheSession α :=
  ⟨session.cacheAfter step, session.nowAfter step, session.past ++ [session.effect step]⟩

def run (session : CacheSession α) (steps : List (CacheStep α)) : CacheSession α :=
  steps.foldl next session

-- What every step keeps, any steps keep.
theorem run_induction (holds : CacheSession α → Prop) (hstart : holds session)
    (hnext : ∀ session step, holds session → holds (session.next step))
    (steps : List (CacheStep α)) : holds (session.run steps) :=
  List.foldlRecOn steps next hstart fun session hsession step _ => hnext session step hsession

-- All that a step can do. A reading that finds an entry counts as one, and another does not.
theorem next_cases (holds : Effect α → Cache α → Prop) (session : CacheSession α)
    (step : CacheStep α)
    (hput : ∀ key content, holds (.stored key content session.now)
      (session.cache.put session.now key content).2.1)
    (hfound : ∀ {key entry after events},
      session.cache.get session.now key = (some entry, after, events) → holds (.read key) after)
    (hmissed : ∀ {key after events},
      session.cache.get session.now key = (none, after, events) → holds .nothing after)
    (hclear : holds .cleared session.cache.clear) (hnothing : holds .nothing session.cache) :
    holds (session.effect step) (session.cacheAfter step) := by
  cases step with
  | put key content => exact hput key content
  | get key =>
      rcases hget : session.cache.get session.now key with ⟨_ | entry, after, events⟩
      · simp only [effect, cacheAfter, hget, Option.isSome_none, Bool.false_eq_true, if_false]
        exact hmissed hget
      · simp only [effect, cacheAfter, hget, Option.isSome_some, if_true]
        exact hfound hget
  | has key => exact hnothing
  | clear => exact hclear
  | clock now => exact hnothing

-- A step changes nothing but the entries.
theorem exists_entries_next (session : CacheSession α) (step : CacheStep α) :
    ∃ entries, (session.next step).cache = session.cache.withEntries entries := by
  apply next_cases (fun _ after => ∃ entries, after = session.cache.withEntries entries)
  · intro key content
    obtain ⟨kept, -, -, heq⟩ := Cache.exists_kept session.cache session.now key content
    exact ⟨_, heq⟩
  · intro key entry after events hget
    obtain ⟨old, -, -, -, heq⟩ := Cache.eq_of_get_some hget
    exact ⟨_, heq⟩
  · intro key after events hget
    rcases Cache.eq_of_get_none hget with rfl | ⟨entry, -, -, heq⟩
    · exact ⟨session.cache.entries, rfl⟩
    · exact ⟨_, heq⟩
  · exact ⟨[], rfl⟩
  · exact ⟨session.cache.entries, rfl⟩

theorem exists_entries_run (session : CacheSession α) (steps : List (CacheStep α)) :
    ∃ entries, (session.run steps).cache = session.cache.withEntries entries := by
  apply run_induction (fun later => ∃ entries, later.cache = session.cache.withEntries entries)
  · exact ⟨session.cache.entries, rfl⟩
  · rintro later step ⟨entries, hlater⟩
    obtain ⟨others, hnext⟩ := exists_entries_next later step
    exact ⟨others, by rw [hnext, hlater]; rfl⟩

-- Whatever a step does, the cache follows it.
theorem follows_next (h : session.cache.Follows session.past) (step : CacheStep α) :
    (session.next step).cache.Follows (session.next step).past :=
  next_cases (fun effect after => after.Follows (session.past ++ [effect])) session step
    (fun _ _ => h.put) h.get_some (fun hget => (h.get_none hget).nothing) Cache.Follows.clear
    h.nothing

theorem follows_run (h : session.cache.Follows session.past) (steps : List (CacheStep α)) :
    (session.run steps).cache.Follows (session.run steps).past :=
  run_induction (fun later => later.cache.Follows later.past) h
    (fun _ step hlater => follows_next hlater step) steps

-- What reading a key gives: the latest that was stored under it, with the readings since, this one
-- included. What is not there any more is not there afterwards, and all else stays as it is.
structure ReadsLatest (session : CacheSession α) (key : Str) : Prop where
  found : ∀ entry after events,
    session.cache.get session.now key = (some entry, after, events) →
      ∃ before since, session.past = before ++ .stored key entry.content entry.stamp :: since ∧
        (∀ effect ∈ since, effect.ends key = false) ∧
          entry.hits = since.countP (·.isRead key) + 1 ∧
            session.cache.lifetime.less (.float (session.now - entry.stamp)) = false
  missed : ∀ after events, session.cache.get session.now key = (none, after, events) →
    after.has key = false ∧ after.entries = session.cache.others key

theorem readsLatest_of_follows (h : session.cache.Follows session.past) (key : Str) :
    session.ReadsLatest key := by
  refine ⟨fun entry after events hget => ?_, fun after events hget => ?_⟩
  · obtain ⟨old, hfind, hlive, rfl, -⟩ := Cache.eq_of_get_some hget
    obtain ⟨hold, rfl⟩ := Cache.mem_of_find? hfind
    obtain ⟨before, since, hpast, hsince, hhits⟩ := h old hold
    exact ⟨before, since, hpast, hsince, congrArg (· + 1) hhits, hlive⟩
  · have hentries := Cache.entries_of_get_none hget
    refine ⟨Cache.has_eq_false.mpr fun entry hentry => ?_, hentries⟩
    rw [hentries] at hentry
    exact (Cache.mem_others.mp hentry).2

-- A cache that starts empty gives the latest that was stored, and nothing that is too old.
theorem readsLatest_run {capacity : Int} {lifetime : Number} {cache : Cache α}
    (hcreate : Cache.create capacity lifetime = .ok cache) (now : Float)
    (steps : List (CacheStep α)) (key : Str) :
    ((start cache now).run steps).cache.lifetime = lifetime ∧
      ((start cache now).run steps).ReadsLatest key := by
  obtain ⟨hentries, rfl, -⟩ := Cache.create_eq_ok.mp hcreate
  have hstart : cache.Follows [] := by
    intro entry hentry
    rw [hentries] at hentry
    cases hentry
  obtain ⟨entries, hrun⟩ := exists_entries_run (start cache now) steps
  exact ⟨by rw [hrun]; rfl, readsLatest_of_follows (follows_run hstart steps) key⟩

-- The second reading of what was stored last, at the very end of its lifetime.
def rereadingSteps : List (CacheStep Nat) :=
  [.put "a" 1, .get "a", .put "b" 2, .put "a" 3, .get "a", .clock 60.0]

theorem readsLatest_rereading : ∃ cache : Cache Nat, Cache.create 2 (.int 60) = .ok cache ∧
    ((start cache 0.0).run rereadingSteps).ReadsLatest "a" ∧
      (((start cache 0.0).run rereadingSteps).cache.get 60.0 "a").1.map
        (fun entry => (entry.content, entry.hits)) = some (3, 2) := by
  have hcreate : Cache.create 2 (.int 60) =
      .ok (⟨2, .int 60, [], by decide⟩ : Cache Nat) := rfl
  exact ⟨_, hcreate, (readsLatest_run hcreate 0.0 rereadingSteps "a").2, by decide +kernel⟩

end CacheSession

end FrameNotation
