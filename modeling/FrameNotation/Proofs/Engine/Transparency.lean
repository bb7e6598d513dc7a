import FrameNotation.Proofs.Engine.Compressing
import FrameNotation.Proofs.Engine.Separation
import FrameNotation.Proofs.Json

namespace FrameNotation

-- One call of an engine.
structure Call where
  now : Float
  request : Request

-- Two engines take the same calls, and wherever the first succeeds, the second does as well, with
-- the same output.
def Engine.Agree (model? : Option Model) : Engine → Engine → List Call → Prop
  | _, _, [] => True
  | engine, other, call :: rest =>
    let run := engine.process model? call.now call.request
    let otherRun := other.process model? call.now call.request
    (∀ result, run.answer = .ok result → ∃ otherResult, otherRun.answer = .ok otherResult ∧
      result.outcome.output.same otherResult.outcome.output = true) ∧
    Engine.Agree model? run.engine otherRun.engine rest

-- What is stored under a key came of a request of the pool with this key.
def Settings.Stems (settings : Settings) (pool : Request → Prop) (key : Str)
    (outcome : Outcome) : Prop :=
  ∃ request frame, pool request ∧ request.input = .frame frame ∧ request.key = .ok key ∧
    outcome.output = settings.compressed frame

variable {settings : Settings} {pool : Request → Prop} {engine plain : Engine}
variable {model? : Option Model} {now : Float} {request other : Request} {key : Str}

theorem alike_of_key (hpool : IsPool pool) (hrequest : pool request) (hother : pool other)
    (hkey : request.key = .ok key) (hother_key : other.key = .ok key) :
    ∃ text options, request.Alike other text options :=
  Request.exists_alike (Request.colon_notMem (hpool.operation request hrequest))
    (Request.colon_notMem (hpool.operation other hother))
    (fun text otherText => hpool.hash request other text otherText hrequest hother) hkey hother_key

-- A plan for a request of the pool is one for a compression.
theorem plan_of_pool {found : Plan} (hpool : IsPool pool) (hrequest : pool request)
    (hplan : plan request = .ok found) :
    request.input = .frame found.frame ∧ request.key = .ok found.key ∧ found.mode = .compress ∧
      ∃ text, found.frame.write = .ok text := by
  obtain ⟨hinput, hmode, hkey⟩ := plan_eq_ok hplan
  rw [modeOf?_of_mem (hpool.operation request hrequest)] at hmode
  exact ⟨hinput, hkey, (Option.some.inj hmode).symm, exists_write_of_key hinput hkey⟩

-- Whatever request an outcome stems from, it has the key of the request that is answered.
theorem same_of_stems {outcome : Outcome} {frame : Frame} (hpool : IsPool pool)
    (hseparates : settings.Separates pool) (hrequest : pool request)
    (hinput : request.input = .frame frame) (hkey : request.key = .ok key)
    (h : settings.Stems pool key outcome) :
    outcome.output.same (settings.compressed frame) = true := by
  obtain ⟨source, other, hsource, hother, hsourceKey, houtput⟩ := h
  obtain ⟨text, options, halike⟩ := alike_of_key hpool hsource hrequest hsourceKey hkey
  rw [houtput]
  exact hseparates source request other frame text options hsource hrequest hother hinput halike

-- Hit or miss, the answer to a planned request stems from the pool, and so does all that is stored
-- afterwards.
theorem Engine.process_stems {found : Plan} (hsettings : engine.settings = settings)
    (hkeeps : engine.cache.Keeps (settings.Stems pool)) (model? : Option Model) (now : Float)
    (hpool : IsPool pool) (henabled : settings.cacheEnabled = true) (hrequest : pool request)
    (hplan : plan request = .ok found) :
    ∃ result cache, (engine.process model? now request).Ends settings result cache ∧
      cache.Keeps (settings.Stems pool) ∧ settings.Stems pool found.key result.outcome := by
  subst hsettings
  obtain ⟨hinput, hkey, hmode, text, hwrite⟩ := plan_of_pool hpool hrequest hplan
  obtain ⟨⟨stored?, after, reported⟩, hget⟩ : ∃ read, engine.cache.get now found.key = read :=
    ⟨_, rfl⟩
  obtain ⟨hafter, hentry⟩ := Cache.keeps_get hkeeps hget
  cases stored? with
  | none =>
      obtain ⟨result, hends, houtput⟩ :=
        Engine.process_miss engine model? now hplan hmode hwrite henabled hget
      have hstems : engine.settings.Stems pool found.key result.outcome :=
        ⟨request, found.frame, hrequest, hinput, hkey, houtput⟩
      exact ⟨result, _, hends, Cache.keeps_put hafter hstems, hstems⟩
  | some entry =>
      obtain ⟨result, hends, houtcome⟩ := Engine.process_hit engine model? now hplan henabled hget
      have hstems : engine.settings.Stems pool found.key result.outcome := by
        rw [houtcome]
        exact (hentry entry rfl).2
      exact ⟨result, after, hends, hafter, hstems⟩

-- What is known of the two engines between two calls.
structure Abreast (settings : Settings) (pool : Request → Prop) (cached plain : Engine) : Prop where
  settings_eq : cached.settings = settings
  plain_settings_eq : plain.settings = { settings with cacheEnabled := false }
  keeps : cached.cache.Keeps (settings.Stems pool)

-- One call keeps the engines abreast, and if it succeeds with the cache, it does without, with the
-- same output.
theorem Abreast.process (h : Abreast settings pool engine plain) (model? : Option Model)
    (now : Float) (hpool : IsPool pool) (henabled : settings.cacheEnabled = true)
    (hseparates : settings.Separates pool) (hrequest : pool request) :
    Abreast settings pool (engine.process model? now request).engine
        (plain.process model? now request).engine ∧
      ∀ result, (engine.process model? now request).answer = .ok result →
        ∃ fresh, (plain.process model? now request).answer = .ok fresh ∧
          result.outcome.output.same fresh.outcome.output = true := by
  have hsettings := h.settings_eq
  have hplain := h.plain_settings_eq
  cases hplan : plan request with
  | error cause =>
      obtain ⟨hanswer, hsame, hcache⟩ := Engine.process_error engine model? now hplan
      obtain ⟨-, hplainSame, -⟩ := Engine.process_error plain model? now hplan
      constructor
      · refine ⟨hsame.trans hsettings, hplainSame.trans hplain, ?_⟩
        rw [hcache]
        exact h.keeps
      · intro result hresult
        rw [hanswer] at hresult
        cases hresult
  | ok found =>
      obtain ⟨hinput, hkey, hmode, text, hwrite⟩ := plan_of_pool hpool hrequest hplan
      obtain ⟨fresh, hfresh, houtput⟩ :=
        Engine.process_uncached plain model? now hplan hmode hwrite (by rw [hplain])
      have hcompressed : fresh.outcome.output = settings.compressed found.frame := by
        rw [houtput, hplain]
        rfl
      obtain ⟨result, cache, hends, hkeeps, hstems⟩ :=
        Engine.process_stems hsettings h.keeps model? now hpool henabled hrequest hplan
      constructor
      · refine ⟨hends.settings_eq, hfresh.settings_eq.trans hplain, ?_⟩
        rw [hends.cache_eq]
        exact hkeeps
      · intro other hother
        cases hends.answer_eq.symm.trans hother
        refine ⟨fresh, hfresh.answer_eq, ?_⟩
        rw [hcompressed]
        exact same_of_stems hpool hseparates hrequest hinput hkey hstems

theorem Abreast.agree (h : Abreast settings pool engine plain) (hpool : IsPool pool)
    (henabled : settings.cacheEnabled = true) (hseparates : settings.Separates pool)
    {calls : List Call} (hcalls : ∀ call ∈ calls, pool call.request) :
    Engine.Agree model? engine plain calls := by
  induction calls generalizing engine plain with
  | nil => trivial
  | cons call rest ih =>
      obtain ⟨hnext, hanswer⟩ :=
        h.process model? call.now hpool henabled hseparates (hcalls call (by simp))
      exact ⟨hanswer, ih hnext fun other hother => hcalls other (by simp [hother])⟩

-- Of two requests with one key the second is answered with the output of the first.
theorem same_of_agree (hpool : IsPool pool) (henabled : engine.settings.cacheEnabled = true)
    (hempty : engine.cache.entries = [])
    (hlifetime : engine.cache.lifetime.atMost (.int 0) = false)
    (hplain : plain.settings = { engine.settings with cacheEnabled := false }) {f g : Frame}
    (hrequest : pool request) (hother : pool other) (hinput : request.input = .frame f)
    (hotherInput : other.input = .frame g) (hkey : request.key = .ok key)
    (hotherKey : other.key = .ok key)
    (hagree : Engine.Agree model? engine plain [⟨0.0, request⟩, ⟨0.0, other⟩]) :
    (engine.settings.compressed f).same (engine.settings.compressed g) = true := by
  obtain ⟨text, hwrite⟩ := exists_write_of_key hinput hkey
  obtain ⟨otherText, hotherWrite⟩ := exists_write_of_key hotherInput hotherKey
  have hplan := plan_eq hinput hkey (hpool.operation request hrequest)
  have hotherPlan := plan_eq hotherInput hotherKey (hpool.operation other hother)
  have hmiss := Cache.get_empty 0.0 key hempty
  obtain ⟨first, hfirst, houtput⟩ :=
    Engine.process_miss engine model? 0.0 hplan rfl hwrite henabled hmiss
  obtain ⟨plainFirst, hplainFirst, -⟩ :=
    Engine.process_uncached plain model? 0.0 hplan rfl hwrite (by rw [hplain])
  obtain ⟨entry, hentry, hcontent⟩ :=
    Cache.get_put key first.outcome hempty (Cache.not_less_of_not_atMost hlifetime)
  obtain ⟨⟨found, after, reported⟩, hget⟩ :
      ∃ read, (engine.process model? 0.0 request).engine.cache.get 0.0 key = read := ⟨_, rfl⟩
  rw [← hfirst.cache_eq, hget] at hentry
  cases hentry
  obtain ⟨second, hsecond, houtcome⟩ := Engine.process_hit _ model? 0.0 hotherPlan
    (by rw [hfirst.settings_eq, henabled]) hget
  obtain ⟨plainSecond, hplainSecond, hplainOutput⟩ :=
    Engine.process_uncached _ model? 0.0 hotherPlan rfl hotherWrite
      (by rw [hplainFirst.settings_eq, hplain])
  obtain ⟨-, hanswer, -⟩ := hagree
  obtain ⟨fresh, hfresh, hsame⟩ := hanswer second hsecond.answer_eq
  cases hplainSecond.answer_eq.symm.trans hfresh
  rw [houtcome, hcontent, houtput, hplainOutput, hplainFirst.settings_eq, hplain] at hsame
  exact hsame

-- The cache is transparent for a pool of requests exactly if frames that are written alike, and are
-- requested alike, become the same. Then every run of an engine with a cache of its own gives, call
-- by call, what an engine with the same settings and no cache gives.
theorem Engine.agree_iff (hpool : IsPool pool) (henabled : engine.settings.cacheEnabled = true)
    (hempty : engine.cache.entries = [])
    (hlifetime : engine.cache.lifetime.atMost (.int 0) = false)
    (hplain : plain.settings = { engine.settings with cacheEnabled := false }) :
    (∀ calls : List Call, (∀ call ∈ calls, pool call.request) →
      Engine.Agree model? engine plain calls) ↔ engine.settings.Separates pool := by
  constructor
  · intro hagree a b f g text options ha hb hf hg halike
    obtain ⟨key, hkey, hotherKey⟩ := key_of_alike halike
    refine same_of_agree hpool henabled hempty hlifetime hplain ha hb hf hg hkey hotherKey
      (hagree _ fun call hcall => ?_)
    simp only [List.mem_cons, List.not_mem_nil, or_false] at hcall
    rcases hcall with rfl | rfl
    · exact ha
    · exact hb
  · intro hseparates calls hcalls
    have habreast : Abreast engine.settings pool engine plain := by
      refine ⟨rfl, hplain, fun entry hentry => ?_⟩
      rw [hempty] at hentry
      cases hentry
    exact habreast.agree hpool henabled hseparates hcalls

-- Two frames, with a null target and without one, that are both written (event object:a).
def withNullTarget : Frame := ⟨.text "event", [("object", .text "a"), ("target", .null)]⟩

def withoutTarget : Frame := ⟨.text "event", [("object", .text "a")]⟩

def compression (frame : Frame) : Request := ⟨.frame frame, "compress", .null, none⟩

def alikeRequests : List Request := [compression withNullTarget, compression withoutTarget]

def settingsFor (minIntegrity : Int) : Settings :=
  ⟨"local", true, 500, .int 1800, .int minIntegrity, false⟩

section Example

theorem jsonChars_withNullTarget : withNullTarget.jsonChars =
    .ok ("\x7b\"frameType\":\"event\",\"object\":\"a\",\"target\":null\x7d" : Str).toList := by
  rw [Node.jsonChars, Node.toRecord, Json.canonicalChars_record (by decide)]
  rfl

theorem jsonChars_withoutTarget : withoutTarget.jsonChars =
    .ok ("\x7b\"frameType\":\"event\",\"object\":\"a\"\x7d" : Str).toList := by
  rw [Node.jsonChars, Node.toRecord, Json.canonicalChars_record (by decide)]
  rfl

-- The least integrity 1 is not reached without the null target, the least integrity 0 is.
theorem accepts_withNullTarget : (settingsFor 0).accepts withNullTarget = true ∧
    (settingsFor 1).accepts withNullTarget = false := by
  have hcompress : withNullTarget.compress = withoutTarget := rfl
  rw [Settings.accepts, Settings.accepts, hcompress, integrity, measureIntegrity, Node.entities,
    Node.entities, Node.concepts, Node.concepts, jsonChars_withNullTarget, jsonChars_withoutTarget]
  decide +kernel

theorem accepts_withoutTarget : (settingsFor 0).accepts withoutTarget = true := by
  have hcompress : withoutTarget.compress = withoutTarget := rfl
  rw [Settings.accepts, hcompress, integrity, measureIntegrity, Node.entities, Node.concepts,
    jsonChars_withoutTarget]
  decide +kernel

theorem written_alike {request : Request} (h : request ∈ alikeRequests) :
    request.operation = "compress" ∧ request.KeyParts "(event object:a)" "default" := by
  rw [alikeRequests, List.mem_pair] at h
  rcases h with rfl | rfl
  · exact ⟨rfl, rfl, ⟨_, rfl⟩, rfl⟩
  · exact ⟨rfl, rfl, ⟨_, rfl⟩, rfl⟩

theorem isPool_alikeRequests : IsPool (· ∈ alikeRequests) := by
  refine ⟨fun request hrequest => ?_, fun a b text other ha hb htext hother _ _ _ => ?_⟩
  · rw [(written_alike hrequest).1]
    decide
  · cases htext.symm.trans (written_alike ha).2.written
    cases hother.symm.trans (written_alike hb).2.written
    rfl

theorem tells_alikeRequests : (settingsFor 0).Tells (· ∈ alikeRequests) := by
  have hframes (request : Request) (frame : Frame) (h : request ∈ alikeRequests)
      (hinput : request.input = .frame frame) : frame = withNullTarget ∨ frame = withoutTarget := by
    rw [alikeRequests, List.mem_pair] at h
    rcases h with rfl | rfl <;> cases hinput <;> simp
  have hrole : Writer.IsPlainRole "object" := by decide
  have hstable : Writer.IsStable ("a" : Str).toList := by decide
  have htext : (Value.text "a").Within .told := .text "a" hstable
  refine ⟨fun request frame h hinput => ?_, fun request frame h hinput => ?_,
    .inl fun request frame h hinput => ?_⟩
  · rcases hframes request frame h hinput with rfl | rfl
    · refine .frame .event _ (by decide) (by decide) (fun _ _ _ => trivial) ?_ ?_
      · intro entry hentry hne
        rcases List.mem_pair.mp hentry with rfl | rfl
        · exact hrole
        · exact absurd rfl hne
      · intro entry hentry hne
        rcases List.mem_pair.mp hentry with rfl | rfl
        · exact htext
        · exact absurd rfl hne
    · refine .frame .event _ (by decide) (by decide) (fun _ _ _ => trivial) ?_ ?_
      · intro entry hentry _
        cases List.mem_singleton.mp hentry
        exact hrole
      · intro entry hentry _
        cases List.mem_singleton.mp hentry
        exact htext
  · rcases hframes request frame h hinput with rfl | rfl <;> decide
  · rcases hframes request frame h hinput with rfl | rfl
    · exact accepts_withNullTarget.1
    · exact accepts_withoutTarget

end Example

-- With the least integrity 0 both frames are compressed, to one frame.
theorem Engine.agree_alikeRequests : ∃ engine plain,
    Engine.create (settingsFor 0) = .ok engine ∧
      Engine.create { settingsFor 0 with cacheEnabled := false } = .ok plain ∧
        ∀ calls : List Call, (∀ call ∈ calls, call.request ∈ alikeRequests) →
          Engine.Agree none engine plain calls := by
  refine ⟨_, _, rfl, rfl, ?_⟩
  exact (Engine.agree_iff isPool_alikeRequests rfl rfl (by decide) rfl).mpr
    (Settings.separates_of_tells tells_alikeRequests)

-- With the least integrity 1 the frame with the null target is returned as it is, and so, from the
-- cache, it is for the frame without a target.
theorem Engine.not_agree_alikeRequests : ∃ engine plain,
    Engine.create (settingsFor 1) = .ok engine ∧
      Engine.create { settingsFor 1 with cacheEnabled := false } = .ok plain ∧
        IsPool (· ∈ alikeRequests) ∧
          ¬Engine.Agree none engine plain (alikeRequests.map (Call.mk 0.0)) := by
  refine ⟨_, _, rfl, rfl, isPool_alikeRequests, fun hagree => ?_⟩
  have hfirst : compression withNullTarget ∈ alikeRequests := by simp [alikeRequests]
  have hsecond : compression withoutTarget ∈ alikeRequests := by simp [alikeRequests]
  have halike : (compression withNullTarget).Alike (compression withoutTarget) "(event object:a)"
      "default" := ⟨rfl, (written_alike hfirst).2, (written_alike hsecond).2⟩
  obtain ⟨key, hkey, hother⟩ := key_of_alike halike
  have hsame := same_of_agree isPool_alikeRequests rfl rfl (by decide) rfl hfirst hsecond rfl rfl
    hkey hother hagree
  have hrejected : (settingsFor 1).compressed withNullTarget = withNullTarget := by
    rw [Settings.compressed, accepts_withNullTarget.2]
    rfl
  have hcompress : withoutTarget.compress = withoutTarget := rfl
  have hcompressed : (settingsFor 1).compressed withoutTarget = withoutTarget := by
    rw [Settings.compressed, hcompress, ite_self]
  rw [hrejected, hcompressed] at hsame
  exact absurd hsame (by decide)

end FrameNotation
