import FrameNotation.Proofs.Cache.Membership
import FrameNotation.Proofs.Cache.Recency
import FrameNotation.Proofs.Settings

namespace FrameNotation

variable {α : Type}

theorem Cache.exists_create {capacity : Int} (h : 1 ≤ capacity) (lifetime : Number) :
    ∃ cache : Cache α, create capacity lifetime = .ok cache :=
  ⟨_, dif_pos (by omega)⟩

theorem Cache.find?_of_mem {cache : Cache α} {entry : CacheEntry α} (h : cache.Distinct)
    (hentry : entry ∈ cache.entries) : cache.find? entry.key = some entry := by
  have hhas : cache.has entry.key = true := by
    by_contra hnone
    exact has_eq_false.mp (Bool.eq_false_iff.mpr hnone) entry hentry rfl
  obtain ⟨found, hfound⟩ := Option.isSome_iff_exists.mp hhas
  obtain ⟨hmem, hkey⟩ := mem_of_find? hfound
  rw [hfound, List.inj_on_of_nodup_map h hmem hentry hkey]

namespace CacheSession

variable {session : CacheSession α} {lifetime : Number}

-- Once its key is read, an entry that is older than the lifetime is gone.
def ForgetsAfter (session : CacheSession α) (lifetime : Number) : Prop :=
  ∀ entry ∈ session.cache.entries, lifetime.less (.float (session.now - entry.stamp)) = true →
    (session.cache.get session.now entry.key).1 = none ∧
      (session.cache.get session.now entry.key).2.1.has entry.key = false

-- Every entry can be read, whatever its age.
def KeepsAll (session : CacheSession α) : Prop :=
  ∀ entry ∈ session.cache.entries, (session.cache.get session.now entry.key).1.isSome = true

theorem forgetsAfter_of_distinct (h : session.cache.Distinct) :
    session.ForgetsAfter session.cache.lifetime := by
  intro entry hentry hold
  have hget : session.cache.get session.now entry.key =
      (none, session.cache.withEntries (session.cache.others entry.key), [.expired entry.key]) := by
    rw [Cache.get, Cache.find?_of_mem h hentry]
    exact if_pos hold
  rw [hget]
  exact ⟨rfl, Cache.has_eq_false.mpr fun other hother => (Cache.mem_others.mp hother).2⟩

-- Nothing is older than a lifetime that is no number.
theorem keepsAll_of_nowhere (h : session.cache.Distinct)
    (hnowhere : session.cache.lifetime.standing = .nowhere) : session.KeepsAll := by
  intro entry hentry
  have hlive : session.cache.isExpired session.now entry = false := by
    rw [Cache.isExpired, Number.less, hnowhere]
    rfl
  exact Cache.isSome_get_iff.mpr ⟨entry, Cache.find?_of_mem h hentry, hlive⟩

theorem distinct_run {cache : Cache α} (h : cache.entries = []) (now : Float)
    (steps : List (CacheStep α)) : ((start cache now).run steps).cache.Distinct :=
  (run_induction (fun later => later.cache.Ranked later.past) (Cache.Ranked.empty h)
    (fun _ step hlater => ranked_next hlater step) steps).distinct

theorem lifetime_run {cache : Cache α} (now : Float) (steps : List (CacheStep α)) :
    ((start cache now).run steps).cache.lifetime = cache.lifetime := by
  obtain ⟨entries, hrun⟩ := exists_entries_run (start cache now) steps
  rw [hrun]
  rfl

end CacheSession

open CacheSession

-- Environment variables are refused, or they give settings within their bounds, except for a
-- lifetime the text of which spells no number. In a cache with these settings every entry is gone
-- after its lifetime, but where that is no number, no entry ever is.
theorem Settings.ofEnvironment_bounded (α : Type) (env : Entries Str) :
    (∃ fault, ofEnvironment env = .error (.fault fault) ∧ fault.code = .configurationError) ∨
      ∃ settings, ofEnvironment env = .ok settings ∧ 1 ≤ settings.maxEntries ∧
        ((Number.int 0).atMost settings.minIntegrity = true ∧
          settings.minIntegrity.atMost (.int 1) = true) ∧
        ((Number.int 0).less settings.lifetime = true ↔
          ¬Lenient.SpellsNaN (lifetimeText env).toList) ∧
        ∃ cache : Cache α, Cache.create settings.maxEntries settings.lifetime = .ok cache ∧
          ∀ now steps, ((start cache now).run steps).ForgetsAfter settings.lifetime ∧
            (Lenient.SpellsNaN (lifetimeText env).toList →
              ((start cache now).run steps).KeepsAll) := by
  rcases ofEnvironment_cases env with
    ⟨fault, hfault⟩ | ⟨settings, seconds, hsettings, hpasses, hlifetime, hseconds⟩
  case inl => exact .inl ⟨_, hfault, rfl⟩
  have hnowhere : settings.lifetime.standing = .nowhere ↔
      Lenient.SpellsNaN (lifetimeText env).toList := by
    rw [hlifetime]
    exact Lenient.float?_eq_nan_iff hseconds
  have hpositive : (Number.int 0).less settings.lifetime = true ↔
      ¬Lenient.SpellsNaN (lifetimeText env).toList := by
    rw [Number.zero_less_iff, ← hnowhere]
    exact and_iff_right hpasses.lifetime
  obtain ⟨cache, hcreate⟩ : ∃ cache : Cache α,
      Cache.create settings.maxEntries settings.lifetime = .ok cache :=
    Cache.exists_create hpasses.capacity settings.lifetime
  obtain ⟨hempty, hcache, -⟩ := Cache.create_eq_ok.mp hcreate
  refine .inr ⟨settings, hsettings, hpasses.capacity, ⟨hpasses.atLeastZero, hpasses.atMostOne⟩,
    hpositive, cache, hcreate, fun now steps => ?_⟩
  have hdistinct := distinct_run hempty now steps
  have hrun := (lifetime_run now steps).trans hcache
  refine ⟨?_, fun hspells => ?_⟩
  · rw [← hrun]
    exact forgetsAfter_of_distinct hdistinct
  · exact keepsAll_of_nowhere hdistinct (hrun ▸ hnowhere.mpr hspells)

def undefinedLifetime : Entries Str := [("CORTEX_CACHE_TTL_SECONDS", "nan")]

theorem ofEnvironment_undefinedLifetime : Settings.ofEnvironment undefinedLifetime =
    .ok ⟨Settings.defaultModel, true, 500, .float (0.0 / 0.0), .float 0.0, false⟩ := by
  have hentries : Settings.readOr Lenient.int? undefinedLifetime "CORTEX_CACHE_MAX_ENTRIES" "500" =
      .ok 500 := Settings.readOr_of_some (by decide +kernel)
  have hseconds : Settings.readOr Lenient.float? undefinedLifetime "CORTEX_CACHE_TTL_SECONDS"
      "1800" = .ok (0.0 / 0.0) := Settings.readOr_of_some (by decide +kernel)
  have hleast : Settings.readOr Lenient.float? undefinedLifetime "CORTEX_MIN_SEMANTIC_INTEGRITY"
      "0.0" = .ok 0.0 := Settings.readOr_of_some (by decide +kernel)
  have hon : Settings.isOn ((undefinedLifetime.get? "CORTEX_CACHE_ENABLED").getD "true") =
      true := by decide +kernel
  have hdebug : Settings.isOn ((undefinedLifetime.get? "CORTEX_DEBUG").getD "0") = false := by
    decide +kernel
  have hmodel : (undefinedLifetime.get? "CORTEX_CORE_MODEL").getD Settings.defaultModel =
      Settings.defaultModel := by decide +kernel
  unfold Settings.ofEnvironment
  rw [hentries, hseconds, hleast, hon, hdebug, hmodel]
  simp only [ok_bind]
  refine Settings.check_eq_ok.mpr ⟨⟨?_, ?_, ?_, ?_⟩, rfl⟩
  · decide
  · decide +kernel
  · decide +kernel
  · decide +kernel

-- A lifetime that is no number is not refused, and what is stored can be read for ever.
theorem Settings.not_ofEnvironment_bounded : ∃ settings,
    ofEnvironment undefinedLifetime = .ok settings ∧
      (Number.int 0).less settings.lifetime = false ∧
        ∃ cache : Cache Nat, Cache.create settings.maxEntries settings.lifetime = .ok cache ∧
          ((start cache 0.0).run [.put "a" 1, .clock 1e300]).KeepsAll ∧
            ((start cache 0.0).run [.put "a" 1, .clock 1e300]).cache.has "a" = true := by
  have hnowhere : (Number.float (0.0 / 0.0)).standing = .nowhere := by decide +kernel
  refine ⟨_, ofEnvironment_undefinedLifetime, by decide +kernel, _, rfl, ?_, by decide +kernel⟩
  exact keepsAll_of_nowhere (distinct_run rfl _ _) hnowhere

end FrameNotation
