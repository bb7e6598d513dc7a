import FrameNotation.Proofs.Engine.History
import Mathlib.Algebra.Ring.Nat

namespace FrameNotation

-- How much shorter a result became, in percent.
def Result.reduction (result : Result) : Float :=
  (result.outcome.saving.map Saving.percentage).getD 0.0

def Result.tokensSaved (result : Result) : Nat :=
  (result.outcome.saving.map Saving.tokens).getD 0

-- Whether the operation is known, and there is a key, which only a frame has.
def Request.isPlanned (request : Request) : Bool :=
  knownOperations.contains request.operation && request.key.isOk

-- Whether a request comes to the cache, if there is one.
def Exchange.asksCache (exchange : Exchange) (enabled : Bool) : Bool :=
  enabled && exchange.request.isPlanned

-- The results of the requests that were carried out.
def freshResults (exchanges : List Exchange) : List Result := exchanges.filterMap Exchange.fresh?

theorem isSome_modeOf? (operation : Str) :
    (modeOf? operation).isSome = knownOperations.contains operation := by
  have hknown : knownOperations.contains operation =
      (compressOperations.contains operation || decide (operation = answerOperation)) := by
    have hperm : knownOperations.Perm (answerOperation :: compressOperations) := by decide
    rw [hperm.contains_eq, List.contains_cons, Bool.or_comm]
    rfl
  rw [hknown, modeOf?]
  cases compressOperations.contains operation with
  | true => rfl
  | false => by_cases hanswer : operation = answerOperation <;> simp [hanswer]

theorem isOk_plan (request : Request) : (plan request).isOk = request.isPlanned := by
  rw [Request.isPlanned, ← isSome_modeOf?, plan]
  cases hinput : request.input with
  | frame node =>
      cases modeOf? request.operation with
      | none => rfl
      | some mode => cases request.key <;> rfl
  | _ =>
      rw [Request.key, hinput]
      exact (Bool.and_false _).symm

namespace Stats

-- The mean of values that come in one after the other, the first of them as the first.
def runningMean (values : List Float) : Float :=
  (values.zipIdx 1).foldl (fun mean (value, count) => meanWith mean value count) 0.0

theorem runningMean_append (values : List Float) (value : Float) :
    runningMean (values ++ [value]) = meanWith (runningMean values) value (values.length + 1) := by
  rw [runningMean, List.zipIdx_append, List.foldl_append, Nat.add_comm]
  rfl

-- What the counts of an engine say of the requests that it has processed.
structure Accounts (stats : Stats) (enabled : Bool) (exchanges : List Exchange) : Prop where
  total_eq : stats.total = exchanges.length
  ended_eq : stats.total = stats.successful + stats.failed
  failed_eq : stats.failed = exchanges.countP (·.isFailure)
  hits_eq : stats.hits = exchanges.countP (·.isFromCache)
  asked_eq : stats.hits + stats.misses = exchanges.countP (·.asksCache enabled)
  successful_eq : stats.successful = stats.hits + (freshResults exchanges).length
  fresh_le : enabled = true → (freshResults exchanges).length ≤ stats.misses
  tokensSaved_eq : stats.tokensSaved = ((freshResults exchanges).map Result.tokensSaved).sum
  averageReduction_eq :
    stats.averageReduction = runningMean ((freshResults exchanges).map Result.reduction)

namespace Accounts

variable {stats : Stats} {enabled asked : Bool} {past : List Exchange} {exchange : Exchange}
variable {result : Result} {fault : Fault}

theorem empty (enabled : Bool) : Stats.empty.Accounts enabled [] :=
  ⟨rfl, rfl, rfl, rfl, rfl, rfl, fun _ => Nat.le_refl 0, rfl, rfl⟩

-- The number that the next result is averaged under is the number of results before it.
theorem executed_eq (h : stats.Accounts enabled past) :
    stats.executed = (freshResults past).length := by
  rw [executed, h.successful_eq, Nat.add_sub_cancel_left]

-- A request that was not carried out leaves no result.
theorem freshResults_append (h : exchange.fresh? = none) :
    freshResults (past ++ [exchange]) = freshResults past := by
  simp [freshResults, h]

theorem recordMiss_if (stats : Stats) (asked : Bool) :
    (if asked then stats.recordMiss else stats) =
      { stats with misses := stats.misses + if asked then 1 else 0 } := by
  cases asked <;> rfl

-- A failure is counted as one, with the miss before it, if there was one.
theorem failed (h : stats.Accounts enabled past) (elapsed : Float)
    (hanswer : exchange.run.answer = .error fault) (hasked : exchange.asksCache enabled = asked) :
    ((if asked then stats.recordMiss else stats).recordFailure elapsed).Accounts enabled
      (past ++ [exchange]) := by
  have hfailure : exchange.isFailure = true := by simp [Exchange.isFailure, hanswer]
  have hhit : exchange.isFromCache = false := by simp [Exchange.isFromCache, hanswer]
  have hfresh : exchange.fresh? = none := by simp [Exchange.fresh?, hanswer]
  obtain ⟨htotal, hended, hfailed, hhits, hlookups, hsuccessful, hle, htokens, hmean⟩ := h
  rw [recordMiss_if]
  constructor
  case fresh_le =>
    intro henabled
    rw [freshResults_append hfresh]
    exact Nat.le_add_right_of_le (hle henabled)
  case tokensSaved_eq =>
    rw [freshResults_append hfresh]
    exact htokens
  case averageReduction_eq =>
    rw [freshResults_append hfresh]
    exact hmean
  all_goals
    simp only [recordFailure, recordTime, freshResults_append hfresh, List.countP_append,
      List.countP_singleton, hfailure, hhit, hasked, List.length_append, List.length_singleton,
      if_true, Bool.false_eq_true, if_false]
    omega

-- A hit is counted as one success.
theorem reused (h : stats.Accounts enabled past) (elapsed : Float)
    (hanswer : exchange.run.answer = .ok result) (hcache : result.isFromCache = true)
    (hasked : exchange.asksCache enabled = true) :
    (stats.recordHit elapsed).Accounts enabled (past ++ [exchange]) := by
  have hfailure : exchange.isFailure = false := by simp [Exchange.isFailure, hanswer]
  have hhit : exchange.isFromCache = true := by simp [Exchange.isFromCache, hanswer, hcache]
  have hfresh : exchange.fresh? = none := by simp [Exchange.fresh?, hanswer, hcache]
  obtain ⟨htotal, hended, hfailed, hhits, hlookups, hsuccessful, hle, htokens, hmean⟩ := h
  constructor
  case fresh_le =>
    rw [freshResults_append hfresh]
    exact hle
  case tokensSaved_eq =>
    rw [freshResults_append hfresh]
    exact htokens
  case averageReduction_eq =>
    rw [freshResults_append hfresh]
    exact hmean
  all_goals
    simp only [recordHit, recordTime, freshResults_append hfresh, List.countP_append,
      List.countP_singleton, hfailure, hhit, hasked, List.length_append, List.length_singleton,
      if_true, Bool.false_eq_true, if_false]
    omega

-- A result is counted as one success, after the miss that it follows if there is a cache, and is
-- averaged under its own number.
theorem executed (h : stats.Accounts enabled past) (elapsed : Float)
    (hanswer : exchange.run.answer = .ok result) (hcache : result.isFromCache = false)
    (hasked : exchange.asksCache enabled = enabled) :
    ((if enabled then stats.recordMiss else stats).recordSuccess elapsed
      result.outcome.saving).Accounts enabled (past ++ [exchange]) := by
  have hfailure : exchange.isFailure = false := by simp [Exchange.isFailure, hanswer]
  have hhit : exchange.isFromCache = false := by simp [Exchange.isFromCache, hanswer, hcache]
  have hfresh : freshResults (past ++ [exchange]) = freshResults past ++ [result] := by
    simp [freshResults, Exchange.fresh?, hanswer, hcache]
  have hnumber := h.executed_eq
  obtain ⟨htotal, hended, hfailed, hhits, hlookups, hsuccessful, hle, htokens, hmean⟩ := h
  rw [recordMiss_if]
  constructor
  case fresh_le =>
    rintro rfl
    rw [hfresh, List.length_append]
    exact Nat.add_le_add_right (hle rfl) 1
  case tokensSaved_eq =>
    rw [hfresh, List.map_append, List.sum_append, ← htokens]
    rfl
  case averageReduction_eq =>
    rw [hfresh, List.map_append, List.map_singleton, runningMean_append, List.length_map, ← hmean,
      ← hnumber]
    rfl
  all_goals
    simp only [recordSuccess, recordTime, hfresh, List.countP_append, List.countP_singleton,
      hfailure, hhit, hasked, List.length_append, List.length_singleton, Bool.false_eq_true,
      if_false]
    omega

end Accounts

end Stats

namespace Session

variable {session : Session}

-- However a request ends, the accounts are kept.
theorem accounts_process {past : List Exchange}
    (h : session.engine.stats.Accounts session.engine.settings.cacheEnabled past)
    (model? : Option Model) (request : Request) :
    (session.exchange model? request).run.engine.stats.Accounts
      session.engine.settings.cacheEnabled (past ++ [session.exchange model? request]) := by
  have hasked {found : Plan} (hplan : plan request = .ok found) (enabled : Bool) :
      (session.exchange model? request).asksCache enabled = enabled := by
    rw [Exchange.asksCache, exchange, ← isOk_plan, hplan]
    exact Bool.and_true enabled
  have hunasked {cause : Failure} (hplan : plan request = .error cause) (enabled : Bool) :
      (session.exchange model? request).asksCache enabled = false := by
    rw [Exchange.asksCache, exchange, ← isOk_plan, hplan]
    exact Bool.and_false enabled
  cases session.exchange_ending model? request with
  | @refused _ elapsed hplan hanswer hengine =>
      have hkept := h.failed elapsed hanswer (hunasked hplan _)
      rw [hengine]
      exact hkept
  | @reused _ _ _ _ elapsed hplan henabled _ hanswer hengine =>
      have hkept := h.reused elapsed hanswer rfl ((hasked hplan _).trans henabled)
      rw [hengine]
      exact hkept
  | @failed _ _ _ elapsed hplan hmissed hanswer hengine =>
      have hkept := h.failed elapsed hanswer (hasked hplan _)
      rw [hengine, hmissed.stats_eq]
      exact hkept
  | @executed _ _ _ elapsed _ _ hplan hmissed hanswer hengine =>
      have hkept := h.executed elapsed hanswer rfl (hasked hplan _)
      rw [hengine, hmissed.stats_eq]
      exact hkept

theorem accounts_run (h : session.engine.stats = .empty) (steps : List Step) :
    (session.run steps).engine.stats.Accounts session.engine.settings.cacheEnabled
      (exchanges (session.history steps)) := by
  refine (run_induction (fun past later =>
    later.engine.settings = session.engine.settings ∧
      later.engine.stats.Accounts session.engine.settings.cacheEnabled (exchanges past))
    ⟨rfl, h ▸ .empty _⟩ ?_ steps).2
  intro past later step ⟨hsettings, haccounts⟩
  refine ⟨(settings_next later step).trans hsettings, ?_⟩
  rw [exchanges, List.filterMap_append]
  cases step with
  | process model? request =>
      rw [← hsettings] at haccounts ⊢
      exact accounts_process haccounts model? request
  | clear => exact (List.append_nil _).symm ▸ haccounts
  | wait => exact (List.append_nil _).symm ▸ haccounts

-- An engine that has processed nothing yet, with any cache.
def unused (settings : Settings) (cache : Cache Outcome) (now : Float) : Session :=
  ⟨⟨settings, cache, .empty⟩, now⟩

-- The counts account for every request that an engine has processed, whatever else was done with
-- it. So the next result is averaged under its own number.
theorem stats_unused (settings : Settings) (cache : Cache Outcome) (now : Float)
    (steps : List Step) :
    let session := unused settings cache now
    let made := exchanges (session.history steps)
    let fresh := freshResults made
    let stats := (session.run steps).engine.stats
    stats.total = steps.countP (·.isProcess) ∧ stats.total = stats.successful + stats.failed ∧
      stats.failed = made.countP (·.isFailure) ∧ stats.hits = made.countP (·.isFromCache) ∧
      stats.hits + stats.misses = made.countP (·.asksCache settings.cacheEnabled) ∧
      stats.hits + stats.misses ≤ stats.total ∧
      stats.successful = stats.hits + fresh.length ∧
      (settings.cacheEnabled = true → fresh.length ≤ stats.misses) ∧
      (settings.cacheEnabled = false → stats.hits = 0 ∧ stats.misses = 0) ∧
      stats.tokensSaved = (fresh.map Result.tokensSaved).sum ∧
      stats.executed + 1 = fresh.length + 1 ∧
      stats.averageReduction = Stats.runningMean (fresh.map Result.reduction) := by
  intro session made fresh stats
  have h : stats.Accounts settings.cacheEnabled made := accounts_run rfl steps
  have hle : stats.hits + stats.misses ≤ stats.total := by
    rw [h.asked_eq, h.total_eq]
    exact List.countP_le_length
  have hdisabled (hoff : settings.cacheEnabled = false) : stats.hits = 0 ∧ stats.misses = 0 := by
    have hnone : made.countP (·.asksCache settings.cacheEnabled) = 0 := by
      rw [List.countP_eq_zero]
      intro exchange _
      simp [Exchange.asksCache, hoff]
    have hasked := h.asked_eq
    omega
  have htotal := h.total_eq.trans (length_exchanges session steps)
  exact ⟨htotal, h.ended_eq, h.failed_eq, h.hits_eq, h.asked_eq, hle, h.successful_eq,
    h.fresh_le, hdisabled, h.tokensSaved_eq, congrArg (· + 1) h.executed_eq,
    h.averageReduction_eq⟩

end Session

end FrameNotation
