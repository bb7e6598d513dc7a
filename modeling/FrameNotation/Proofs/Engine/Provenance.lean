import FrameNotation.Proofs.Cache.Traced
import FrameNotation.Proofs.Engine.Answering

namespace FrameNotation

-- What an exchange means for the cache. One that fails changes nothing that counts.
def Exchange.effect (exchange : Exchange) : Effect Outcome :=
  match exchange.request.key, exchange.run.answer with
  | .ok key, .ok result =>
    if result.isFromCache then .read key else .stored key result.outcome exchange.run.now
  | _, _ => .nothing

def Incident.effect : Incident → Effect Outcome
  | .processed exchange => exchange.effect
  | .cleared => .cleared
  | .waited => .nothing

-- The exchange that an answer from the cache under a key repeats: the latest that was carried out
-- under the key, and the cache has not been cleared since.
structure Exchange.IsSource (source : Exchange) (key : Str) (past since : List Incident)
    (fresh : Result) : Prop where
  past_eq : ∃ before, past = before ++ .processed source :: since
  key_eq : source.request.key = .ok key
  fresh_eq : source.fresh? = some fresh
  uncleared : .cleared ∉ since
  latest : ∀ later ∈ exchanges since, later.request.key = .ok key → later.fresh? = none

variable {session : Session} {model? : Option Model} {request : Request} {result : Result}
variable {exchange : Exchange} {key : Str} {past since : List Incident}

namespace Exchange

theorem effect_failed {fault : Fault} (h : exchange.run.answer = .error fault) :
    exchange.effect = .nothing := by
  unfold effect
  rw [h]
  cases exchange.request.key <;> rfl

theorem effect_reused (hkey : exchange.request.key = .ok key)
    (h : exchange.run.answer = .ok result) (hcache : result.isFromCache = true) :
    exchange.effect = .read key := by
  simp only [effect, hkey, h, hcache, if_true]

theorem effect_executed (hkey : exchange.request.key = .ok key)
    (h : exchange.run.answer = .ok result) (hcache : result.isFromCache = false) :
    exchange.effect = .stored key result.outcome exchange.run.now := by
  simp only [effect, hkey, h, hcache, Bool.false_eq_true, if_false]

theorem isRead_effect (exchange : Exchange) (key : Str) :
    exchange.effect.isRead key = (exchange.hasKey key && exchange.isFromCache) := by
  unfold effect hasKey isFromCache
  cases exchange.request.key with
  | error cause => rfl
  | ok other =>
      cases exchange.run.answer with
      | error fault => exact (Bool.and_false _).symm
      | ok result => cases hcache : result.isFromCache <;> simp [Effect.isRead, hcache]

theorem exists_fresh_of_effect {content : Outcome} {stamp : Float}
    (h : exchange.effect = .stored key content stamp) : exchange.request.key = .ok key ∧
      ∃ fresh, exchange.fresh? = some fresh ∧ fresh.outcome = content ∧
        exchange.run.now = stamp := by
  cases hkey : exchange.request.key with
  | error cause => simp [effect, hkey] at h
  | ok other =>
      cases hanswer : exchange.run.answer with
      | error fault => simp [effect_failed hanswer] at h
      | ok result =>
          cases hcache : result.isFromCache with
          | true => simp [effect_reused hkey hanswer hcache] at h
          | false =>
              rw [effect_executed hkey hanswer hcache] at h
              cases h
              exact ⟨rfl, result, by simp [fresh?, hanswer, hcache], rfl, rfl⟩

theorem fresh?_eq_none (hkey : exchange.request.key = .ok key)
    (h : exchange.effect.ends key = false) : exchange.fresh? = none := by
  unfold fresh?
  cases hanswer : exchange.run.answer with
  | error fault => rfl
  | ok result =>
      cases hcache : result.isFromCache with
      | true => simp [hcache]
      | false => simp [effect_executed hkey hanswer hcache, Effect.ends] at h

end Exchange

theorem Incident.eq_of_effect {content : Outcome} {stamp : Float} {incident : Incident}
    (h : incident.effect = .stored key content stamp) :
    ∃ exchange, incident = .processed exchange ∧ exchange.effect = .stored key content stamp := by
  cases incident with
  | processed exchange => exact ⟨exchange, rfl, h⟩
  | cleared => cases h
  | waited => cases h

theorem countP_effects (since : List Incident) (key : Str) :
    (since.map Incident.effect).countP (·.isRead key) =
      (exchanges since).countP fun later => later.hasKey key && later.isFromCache := by
  rw [exchanges, List.countP_map, List.countP_filterMap]
  refine List.countP_congr fun incident _ => ?_
  cases incident with
  | processed exchange => simp [Incident.effect, Incident.exchange?, Exchange.isRead_effect]
  | cleared => rfl
  | waited => rfl

-- An entry that comes from the past was stored by an exchange, and its hits are the answers that
-- were made from it.
theorem exists_source {entry : CacheEntry Outcome} (h : entry.TracedIn (past.map Incident.effect)) :
    ∃ (source : Exchange) (since : List Incident) (fresh : Result),
      source.IsSource entry.key past since fresh ∧
        fresh.outcome = entry.content ∧ source.run.now = entry.stamp ∧
          entry.hits = (exchanges since).countP fun later =>
            later.hasKey entry.key && later.isFromCache := by
  obtain ⟨before, later, hsplit, hlater, hhits⟩ := h
  obtain ⟨first, rest, rfl, -, hrest⟩ := List.map_eq_append_iff.mp hsplit
  obtain ⟨incident, since, rfl, hincident, rfl⟩ := List.map_eq_cons_iff.mp hrest
  obtain ⟨source, rfl, hsource⟩ := Incident.eq_of_effect hincident
  obtain ⟨hkey, fresh, hfresh, hcontent, hstamp⟩ := Exchange.exists_fresh_of_effect hsource
  refine ⟨source, since, fresh, ⟨⟨first, rfl⟩, hkey, hfresh, fun hcleared => ?_, ?_⟩, hcontent,
    hstamp, hhits.trans (countP_effects since entry.key)⟩
  · cases hlater .cleared (List.mem_map_of_mem hcleared)
  · intro exchange hexchange hkey
    obtain ⟨incident, hmem, hincident⟩ := List.mem_filterMap.mp hexchange
    cases incident with
    | processed other =>
        cases hincident
        exact Exchange.fresh?_eq_none hkey (hlater _ (List.mem_map_of_mem hmem))
    | cleared => cases hincident
    | waited => cases hincident

namespace Session

-- Whatever a step does, the cache follows it.
theorem follows_next {past : List (Effect Outcome)}
    (henabled : session.engine.settings.cacheEnabled = true)
    (h : session.engine.cache.Follows past) (step : Step) :
    (session.next step).engine.cache.Follows (past ++ [(session.incident step).effect]) := by
  have hmiss {now : Float} {key : Str} {missed : Engine}
      (hmissed : session.engine.Missed now key missed) : missed.cache.Follows past := by
    cases hmissed with
    | unasked => exact h
    | absent _ hget => exact h.get_none hget
  cases step with
  | clear => exact Cache.Follows.clear
  | wait => exact h.nothing
  | process model? request =>
      rw [incident, Incident.effect, engine_next]
      cases session.exchange_ending model? request with
      | refused _ hanswer hengine =>
          rw [Exchange.effect_failed hanswer, hengine]
          exact h.nothing
      | reused hplan _ hget hanswer hengine =>
          rw [Exchange.effect_reused (plan_eq_ok hplan).2.2 hanswer rfl, hengine]
          exact h.get_some hget
      | failed _ hmissed hanswer hengine =>
          have hkept := (hmiss hmissed).nothing
          rw [Exchange.effect_failed hanswer, hengine]
          exact hkept
      | executed hplan hmissed hanswer hengine =>
          have hkept := hmiss hmissed
          have hstores := (congrArg Settings.cacheEnabled hmissed.settings_eq).trans henabled
          rw [Exchange.effect_executed (plan_eq_ok hplan).2.2 hanswer rfl, hengine, Engine.store,
            if_pos hstores]
          exact hkept.put

theorem follows_history (henabled : session.engine.settings.cacheEnabled = true)
    (hempty : session.engine.cache.entries = []) (steps : List Step) :
    (session.run steps).engine.cache.Follows ((session.history steps).map Incident.effect) := by
  have hstart : session.engine.cache.Follows [] := by
    intro entry hentry
    rw [hempty] at hentry
    cases hentry
  refine (run_induction (fun past later => later.engine.settings.cacheEnabled = true ∧
    later.engine.cache.Follows (past.map Incident.effect)) ⟨henabled, hstart⟩ ?_ steps).2
  intro past later step ⟨henabled, hfollows⟩
  rw [List.map_append, settings_next]
  exact ⟨henabled, follows_next henabled hfollows step⟩

-- An answer from the cache reads a live entry, and counts itself among its hits.
theorem exists_entry (hanswer : (session.exchange model? request).run.answer = .ok result)
    (hcache : result.isFromCache = true) :
    ∃ entry ∈ session.engine.cache.entries, request.key = .ok entry.key ∧
      session.engine.cache.isExpired session.now entry = false ∧
        result.outcome = entry.content ∧ result.origin = .cache (entry.hits + 1) := by
  cases session.exchange_ending model? request with
  | refused _ herror => cases herror.symm.trans hanswer
  | reused hplan _ hget hreused =>
      obtain ⟨old, hfind, hlive, rfl, -⟩ := Cache.eq_of_get_some hget
      obtain ⟨hmem, hkey⟩ := Cache.mem_of_find? hfind
      cases hreused.symm.trans hanswer
      have hplanned := (plan_eq_ok hplan).2.2
      exact ⟨old, hmem, hplanned.trans (congrArg Except.ok hkey.symm), hlive, rfl, rfl⟩
  | failed _ _ herror => cases herror.symm.trans hanswer
  | executed _ _ hfresh =>
      cases hfresh.symm.trans hanswer
      cases hcache

-- Whatever has been done before, an answer from the cache repeats the latest exchange that was
-- carried out under its key: with all of its outcome, with no clearing and no more than a lifetime
-- between them, and with the number of answers that have been made from it by now.
theorem provenance (henabled : session.engine.settings.cacheEnabled = true)
    (hempty : session.engine.cache.entries = []) (steps : List Step)
    (hanswer : ((session.run steps).exchange model? request).run.answer = .ok result)
    (hcache : result.isFromCache = true) :
    ∃ (key : Str) (source : Exchange) (since : List Incident) (fresh : Result),
      request.key = .ok key ∧ source.IsSource key (session.history steps) since fresh ∧
      result.outcome = fresh.outcome ∧
      session.engine.cache.lifetime.less (.float ((session.run steps).now - source.run.now)) =
        false ∧
      result.origin = .cache ((exchanges since).countP
        (fun later => later.hasKey key && later.isFromCache) + 1) := by
  obtain ⟨entry, hentry, hkey, hlive, houtcome, horigin⟩ := exists_entry hanswer hcache
  obtain ⟨source, since, fresh, hsource, hcontent, hstamp, hhits⟩ :=
    exists_source (follows_history henabled hempty steps entry hentry)
  rw [Cache.isExpired, lifetime_run, ← hstamp] at hlive
  exact ⟨entry.key, source, since, fresh, hkey, hsource, houtcome.trans hcontent.symm, hlive,
    hhits ▸ horigin⟩

-- A request that is made twice repeats itself.
theorem provenance_asking : ∃ engine result, Engine.create askingSettings = .ok engine ∧
      let session : Session := ⟨engine, 0.0⟩
      let steps := [Step.process (some (saying "")) (asking none)]
      ((session.run steps).exchange none (asking none)).run.answer = .ok result ∧
        result.isFromCache = true ∧
          ∃ (key : Str) (source : Exchange) (since : List Incident) (fresh : Result),
            (asking none).key = .ok key ∧ source.IsSource key (session.history steps) since fresh ∧
            result.outcome = fresh.outcome ∧
            engine.cache.lifetime.less (.float ((session.run steps).now - source.run.now)) =
              false ∧
            result.origin = .cache ((exchanges since).countP
              (fun later => later.hasKey key && later.isFromCache) + 1) := by
  obtain ⟨engine, hengine, henabled, hempty, hlifetime⟩ := exists_create_askingSettings
  obtain ⟨result, hanswer, hcache⟩ := exists_repeat_saying henabled hempty
    (hlifetime ▸ not_atMost_lifetime) rfl (alike_asking none none) none ""
  exact ⟨engine, result, hengine, hanswer, hcache,
    provenance henabled hempty [.process (some (saying "")) (asking none)] hanswer hcache⟩

end Session

end FrameNotation
