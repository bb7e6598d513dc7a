import FrameNotation.Proofs.Engine.Ending

namespace FrameNotation

-- One thing that is done with an engine. The model may behave anew for each request.
inductive Step
  | process (model? : Option Model) (request : Request)
  | clear
  | wait (seconds : Number)

def Step.isProcess : Step → Bool
  | .process _ _ => true
  | .clear | .wait _ => false

-- A request, when it was made, and the run that it led to.
structure Exchange where
  request : Request
  start : Float
  run : Run

inductive Incident
  | processed (exchange : Exchange)
  | cleared
  | waited

namespace Exchange

def isFromCache (exchange : Exchange) : Bool :=
  match exchange.run.answer with
  | .ok result => result.isFromCache
  | .error _ => false

-- The result of a request that was carried out.
def fresh? (exchange : Exchange) : Option Result :=
  match exchange.run.answer with
  | .ok result => if result.isFromCache then none else some result
  | .error _ => none

def isFailure (exchange : Exchange) : Bool :=
  match exchange.run.answer with
  | .ok _ => false
  | .error _ => true

def hasKey (exchange : Exchange) (key : Str) : Bool :=
  match exchange.request.key with
  | .ok other => other == key
  | .error _ => false

end Exchange

def Incident.exchange? : Incident → Option Exchange
  | .processed exchange => some exchange
  | .cleared | .waited => none

def exchanges (history : List Incident) : List Exchange := history.filterMap Incident.exchange?

-- An engine that is used by a clock.
structure Session where
  engine : Engine
  now : Float

namespace Session

def exchange (session : Session) (model? : Option Model) (request : Request) : Exchange :=
  ⟨request, session.now, session.engine.process model? session.now request⟩

def incident (session : Session) : Step → Incident
  | .process model? request => .processed (session.exchange model? request)
  | .clear => .cleared
  | .wait _ => .waited

def next (session : Session) : Step → Session
  | .process model? request =>
    let run := (session.exchange model? request).run
    ⟨run.engine, run.now⟩
  | .clear => ⟨session.engine.clearCache.1, session.now⟩
  | .wait seconds => ⟨session.engine, session.now + seconds.toFloat⟩

def run (session : Session) : List Step → Session
  | [] => session
  | step :: rest => (session.next step).run rest

-- All that happens during some steps, the first thing first.
def history (session : Session) : List Step → List Incident
  | [] => []
  | step :: rest => session.incident step :: (session.next step).history rest

variable {session : Session}

-- What holds at the start, and what every step keeps, holds after any steps of what has happened
-- and of what has become of the session.
theorem run_induction (holds : List Incident → Session → Prop) (hstart : holds [] session)
    (hnext : ∀ past session step, holds past session →
      holds (past ++ [session.incident step]) (session.next step)) (steps : List Step) :
    holds (session.history steps) (session.run steps) := by
  have hrun (past : List Incident) (hpast : holds past session) :
      holds (past ++ session.history steps) (session.run steps) := by
    clear hstart
    induction steps generalizing session past with
    | nil =>
        rw [history, List.append_nil]
        exact hpast
    | cons step rest ih =>
        rw [history, run, List.append_cons]
        exact ih _ (hnext past session step hpast)
  exact hrun [] hstart

-- Every request is in the history, and nothing else is an exchange.
theorem length_exchanges (session : Session) (steps : List Step) :
    (exchanges (session.history steps)).length = steps.countP (·.isProcess) := by
  induction steps generalizing session with
  | nil => rfl
  | cons step rest ih =>
      rw [List.countP_cons, ← ih (session.next step), history, exchanges]
      cases step with
      | process => rfl
      | clear => rfl
      | wait => rfl

theorem exchange_ending (session : Session) (model? : Option Model) (request : Request) :
    session.engine.Ending session.now request (session.exchange model? request).run :=
  session.engine.process_ending model? session.now request

theorem engine_next (session : Session) (model? : Option Model) (request : Request) :
    (session.next (.process model? request)).engine =
      (session.exchange model? request).run.engine := rfl

theorem settings_next (session : Session) (step : Step) :
    (session.next step).engine.settings = session.engine.settings := by
  cases step with
  | clear => rfl
  | wait => rfl
  | process model? request =>
      rw [engine_next]
      cases session.exchange_ending model? request with
      | refused _ _ hengine => rw [hengine]
      | reused _ _ _ _ hengine => rw [hengine]
      | failed _ hmissed _ hengine => rw [hengine, hmissed.settings_eq]
      | executed _ hmissed _ hengine => rw [hengine, hmissed.settings_eq]

-- What reading, storing and clearing keep, every step keeps.
theorem cache_next (holds : Cache Outcome → Prop)
    (hget : ∀ {cache : Cache Outcome} {now key found after events}, holds cache →
      cache.get now key = (found, after, events) → holds after)
    (hput : ∀ {cache : Cache Outcome} {now key outcome}, holds cache →
      holds (cache.put now key outcome).2.1)
    (hclear : ∀ {cache : Cache Outcome}, holds cache → holds cache.clear) (step : Step)
    (h : holds session.engine.cache) : holds (session.next step).engine.cache := by
  have hmiss {now : Float} {key : Str} {missed : Engine}
      (hmissed : session.engine.Missed now key missed) : holds missed.cache := by
    cases hmissed with
    | unasked => exact h
    | absent _ hfound => exact hget h hfound
  cases step with
  | clear => exact hclear h
  | wait => exact h
  | process model? request =>
      rw [engine_next]
      cases session.exchange_ending model? request with
      | refused _ _ hengine =>
          rw [hengine]
          exact h
      | reused _ _ hfound _ hengine =>
          rw [hengine]
          exact hget h hfound
      | failed _ hmissed _ hengine =>
          have hkept := hmiss hmissed
          rw [hengine]
          exact hkept
      | executed _ hmissed _ hengine =>
          have hkept := hmiss hmissed
          rw [hengine, Engine.store]
          split_ifs
          · exact hput hkept
          · exact hkept

theorem lifetime_run (session : Session) (steps : List Step) :
    (session.run steps).engine.cache.lifetime = session.engine.cache.lifetime :=
  run_induction (fun _ later => later.engine.cache.lifetime = session.engine.cache.lifetime) rfl
    (fun _ _ step h => cache_next (fun cache => cache.lifetime = _)
      (fun h hget => (Cache.lifetime_get hget).trans h)
      (fun h => (Cache.lifetime_put _ _ _ _).trans h) id step h) steps

theorem distinct_run (h : session.engine.cache.Distinct) (steps : List Step) :
    (session.run steps).engine.cache.Distinct :=
  run_induction (fun _ later => later.engine.cache.Distinct) h
    (fun _ _ step h => cache_next Cache.Distinct Cache.Distinct.get Cache.Distinct.put
      (fun _ => .nil) step h) steps

-- What the cache gives is the answer.
theorem exists_fromCache {model? : Option Model} {request : Request} {found : Plan}
    {entry : CacheEntry Outcome} (hplan : plan request = .ok found)
    (henabled : session.engine.settings.cacheEnabled = true)
    (hentry : (session.engine.cache.get session.now found.key).1 = some entry) :
    ∃ result, (session.exchange model? request).run.answer = .ok result ∧
      result.isFromCache = true := by
  have hmissed {other : Plan} {missed : Engine} (hother : plan request = .ok other) :
      ¬session.engine.Missed session.now other.key missed := by
    cases hplan.symm.trans hother
    rintro (hdisabled | ⟨-, hget⟩)
    · exact absurd (henabled.symm.trans hdisabled) (by decide)
    · rw [hget] at hentry
      cases hentry
  cases session.exchange_ending model? request with
  | refused hrefused => cases hplan.symm.trans hrefused
  | reused _ _ _ hanswer => exact ⟨_, hanswer, rfl⟩
  | failed hother hmiss => exact absurd hmiss (hmissed hother)
  | executed hother hmiss => exact absurd hmiss (hmissed hother)

end Session

end FrameNotation
