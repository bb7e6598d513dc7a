import FrameNotation.Proofs.Validation

namespace FrameNotation

variable {frame inner node : Frame} {step : Descent} {places : List (Descent × Frame)}
variable {references : List Str}

namespace Node

-- A reference of the frame's own that stands for nothing in it.
def Dangles (frame : Frame) (reference : Str) : Prop :=
  frame.Cites reference ∧ resolve reference (.frame frame) = .ok none

-- What is wrong with a frame itself: what its type asks of its roles, and each reference of its own
-- that stands for nothing in it, once.
def HasProblems (frame : Frame) (problems : List Problem) : Prop :=
  ∃ (roles : List Problem) (dangling : List Str), typeProblems frame = .ok roles ∧
    dangling.Nodup ∧ (∀ reference, reference ∈ dangling ↔ frame.Dangles reference) ∧
    problems = roles ++ dangling.flatMap fun reference => [.unresolved reference, .risky reference]

theorem exists_dangling {problems : List Problem}
    (h : referenceProblems frame references = .ok problems) :
    ∃ dangling : List Str, dangling.Sublist references ∧
      (∀ reference, reference ∈ dangling ↔
        reference ∈ references ∧ resolve reference (.frame frame) = .ok none) ∧
      problems = dangling.flatMap fun reference => [.unresolved reference, .risky reference] := by
  induction references generalizing problems with
  | nil =>
      cases h
      exact ⟨[], .slnil, by simp, rfl⟩
  | cons reference rest ih =>
      obtain ⟨value, hvalue, h⟩ := bind_eq_ok.mp h
      obtain ⟨others, hothers, h⟩ := bind_eq_ok.mp h
      obtain ⟨dangling, hsublist, hdangling, rfl⟩ := ih hothers
      cases value with
      | none =>
          cases h
          refine ⟨reference :: dangling, hsublist.cons_cons _, fun other => ?_, rfl⟩
          rw [List.mem_cons, List.mem_cons, hdangling, or_and_right]
          refine or_congr_left ⟨?_, And.left⟩
          rintro rfl
          exact ⟨rfl, hvalue⟩
      | some value =>
          cases h
          refine ⟨dangling, hsublist.cons _, fun other => ?_, rfl⟩
          rw [hdangling, List.mem_cons, or_and_right]
          refine (or_iff_right ?_).symm
          rintro ⟨rfl, hnone⟩
          cases hvalue.symm.trans hnone

end Node

-- Where a place in a frame is for one from which steps lead there.
def pathTo (steps : List Descent) (place : Str) : Str :=
  steps.foldr (fun step path => step.written ++ "." ++ path) place

theorem path_eq_pathTo {steps : List Descent} {problem : Problem} :
    Issue.path ⟨steps.map Descent.written, problem⟩ = pathTo steps problem.place := by
  unfold Issue.path
  induction steps with
  | nil => exact Str.intercalate_singleton
  | cons step rest ih =>
      rw [List.map_cons, List.cons_append, Str.intercalate_cons_of_ne_nil (by simp), ih]
      rfl

-- A frame that validation looks at, with the steps to it and what is wrong with it.
structure Finding where
  steps : List Descent
  frame : Frame
  problems : List Problem

namespace Finding

def under (step : Descent) (finding : Finding) : Finding :=
  ⟨step :: finding.steps, finding.frame, finding.problems⟩

def issues (finding : Finding) : List Issue :=
  finding.problems.map (⟨finding.steps.map Descent.written, ·⟩)

-- Code and path of each problem of one severity.
def told (severity : Severity) (finding : Finding) : List (Str × Str) :=
  (finding.problems.filter fun problem => problem.severity = severity).map fun problem =>
    (problem.code, pathTo finding.steps problem.place)

end Finding

-- Issues are those of the frames that are reached in some way, each of them looked at once.
structure Accounts (reached : List Descent → Frame → Prop) (issues : List Issue)
    (findings : List Finding) : Prop where
  distinct : (findings.map Finding.steps).Nodup
  complete : ∀ steps inner, reached steps inner ↔
    ∃ finding ∈ findings, finding.steps = steps ∧ finding.frame = inner
  own : ∀ finding ∈ findings, finding.frame.HasProblems finding.problems
  issues : issues.Perm (findings.flatMap Finding.issues)

namespace Accounts

variable {reached reached' : List Descent → Frame → Prop} {issues issues' : List Issue}
variable {findings findings' : List Finding}

theorem none : Accounts (fun _ _ => False) [] [] :=
  ⟨List.nodup_nil, by simp, by simp, .nil⟩

theorem one {problems : List Problem} (h : frame.HasProblems problems) :
    Accounts (fun steps inner => steps = [] ∧ inner = frame) (FrameNotation.own problems)
      [⟨[], frame, problems⟩] where
  distinct := List.nodup_singleton _
  complete steps inner := by simp [eq_comm]
  own := by simpa using h
  issues := by
    rw [List.flatMap_singleton]
    exact .refl _

theorem append (h : Accounts reached issues findings) (h' : Accounts reached' issues' findings')
    (hdisjoint : ∀ steps inner other, reached steps inner → ¬reached' steps other) :
    Accounts (fun steps inner => reached steps inner ∨ reached' steps inner) (issues ++ issues')
      (findings ++ findings') where
  distinct := by
    rw [List.map_append, List.nodup_append]
    refine ⟨h.distinct, h'.distinct, fun steps hsteps steps' hsteps' hsame => ?_⟩
    obtain ⟨finding, hfinding, rfl⟩ := List.mem_map.mp hsteps
    obtain ⟨finding', hfinding', rfl⟩ := List.mem_map.mp hsteps'
    exact hdisjoint _ _ finding'.frame ((h.complete _ _).mpr ⟨finding, hfinding, rfl, rfl⟩)
      ((h'.complete _ _).mpr ⟨finding', hfinding', hsame.symm, rfl⟩)
  complete steps inner := by
    simp only [h.complete, h'.complete, List.mem_append, or_and_right, exists_or]
  own := List.forall_mem_append.mpr ⟨h.own, h'.own⟩
  issues := by
    rw [List.flatMap_append]
    exact h.issues.append h'.issues

theorem under (step : Descent) (h : Accounts reached issues findings) :
    Accounts (fun steps inner => ∃ below, steps = step :: below ∧ reached below inner)
      (issues.map (·.under step.written)) (findings.map (Finding.under step)) where
  distinct := by
    have hsteps : (findings.map (Finding.under step)).map Finding.steps =
        (findings.map Finding.steps).map (step :: ·) := by
      simp [Finding.under]
    rw [hsteps]
    exact h.distinct.map (List.cons_injective)
  complete steps inner := by
    simp only [h.complete, List.mem_map]
    constructor
    · rintro ⟨_, rfl, finding, hfinding, rfl, rfl⟩
      exact ⟨_, ⟨finding, hfinding, rfl⟩, rfl, rfl⟩
    · rintro ⟨_, ⟨finding, hfinding, rfl⟩, rfl, rfl⟩
      exact ⟨_, rfl, finding, hfinding, rfl, rfl⟩
  own := by
    rw [List.forall_mem_map]
    exact h.own
  issues := by
    have hflat : (findings.map (Finding.under step)).flatMap Finding.issues =
        (findings.flatMap Finding.issues).map (·.under step.written) := by
      rw [List.flatMap_map, List.map_flatMap]
      exact List.flatMap_congr fun finding _ => by simp [Finding.issues, Finding.under, Issue.under]
    rw [hflat]
    exact h.issues.map _

theorem congr (h : Accounts reached issues findings)
    (hreached : ∀ steps inner, reached' steps inner ↔ reached steps inner)
    (hissues : issues'.Perm issues) : Accounts reached' issues' findings :=
  ⟨h.distinct, fun steps inner => (hreached steps inner).trans (h.complete steps inner), h.own,
    hissues.trans h.issues⟩

-- The frames under several places are told apart by the first step.
theorem exists_of_gathered (hplaces : (places.map Prod.fst).Nodup)
    (hinner : ∀ place ∈ places, ∀ issues, place.2.issues = .ok issues →
      ∃ findings, Accounts place.2.Leads issues findings)
    (h : gathered places = .ok issues) :
    ∃ findings, Accounts (fun steps inner => ∃ place ∈ places, ∃ below,
      steps = place.1 :: below ∧ place.2.Leads below inner) issues findings := by
  induction places generalizing issues with
  | nil =>
      cases h
      exact ⟨[], none.congr (by simp) .nil⟩
  | cons place rest ih =>
      rw [List.map_cons, List.nodup_cons] at hplaces
      rw [List.forall_mem_cons] at hinner
      obtain ⟨found, hfound, h⟩ := bind_eq_ok.mp h
      obtain ⟨others, hothers, h⟩ := bind_eq_ok.mp h
      cases h
      obtain ⟨first, hfirst⟩ := hinner.1 found hfound
      obtain ⟨later, hlater⟩ := ih hplaces.2 hinner.2 hothers
      have happart : ∀ steps inner other, (∃ below, steps = place.1 :: below ∧
          place.2.Leads below inner) → ¬∃ place' ∈ rest, ∃ below,
            steps = place'.1 :: below ∧ place'.2.Leads below other := by
        rintro _ inner other ⟨below, rfl, -⟩ ⟨place', hplace', below', hsame, -⟩
        have hstep : place.1 = place'.1 := (List.cons.inj hsame).1
        exact hplaces.1 (hstep ▸ List.mem_map_of_mem hplace')
      refine ⟨_, ((hfirst.under place.1).append hlater happart).congr ?_ (.refl _)⟩
      simp only [List.exists_mem_cons_iff, implies_true]

end Accounts

theorem Enters.unrepeated {entry : Str × Value} (h : Enters entry step node)
    (hentry : entry.2.Unrepeated) : (Value.frame node).Unrepeated := by
  cases h with
  | role => exact hentry
  | item name hitem =>
      cases hentry with
      | array _ hitems => exact hitems _ (List.mem_of_getElem? hitem)

namespace Node

theorem leads_iff {steps : List Descent} : frame.Leads steps inner ↔ (steps = [] ∧ inner = frame) ∨
    ∃ place ∈ children frame.attributes, ∃ below,
      steps = place.1 :: below ∧ place.2.Leads below inner := by
  constructor
  · intro h
    cases h with
    | here => exact .inl ⟨rfl, rfl⟩
    | into hentry henters h =>
        exact .inr ⟨(_, _), mem_children.mpr ⟨_, hentry, henters⟩, _, rfl, h⟩
  · rintro (⟨rfl, rfl⟩ | ⟨⟨step, node⟩, hplace, below, rfl, h⟩)
    · exact .here inner
    · obtain ⟨entry, hentry, henters⟩ := mem_children.mp hplace
      exact .into hentry henters h

theorem hasProblems_append {roles problems : List Problem} (hroles : typeProblems frame = .ok roles)
    (hproblems : referenceProblems frame frame.ownReferences = .ok problems) :
    frame.HasProblems (roles ++ problems) := by
  obtain ⟨dangling, hsublist, hdangling, rfl⟩ := exists_dangling hproblems
  refine ⟨roles, dangling, hroles, hsublist.nodup (nodup_eraseDups _), fun reference => ?_, rfl⟩
  rw [hdangling, mem_ownReferences_iff, Dangles]

-- The search collects the problems of each frame to which steps lead.
theorem exists_accounts {issues : List Issue} (hframe : (Value.frame frame).Unrepeated)
    (h : frame.issues = .ok issues) : ∃ findings, Accounts frame.Leads issues findings := by
  induction frame using Node.induction generalizing issues with
  | step frame ih =>
      obtain ⟨type, attributes⟩ := frame
      rw [Node.issues] at h
      obtain ⟨roles, hroles, h⟩ := bind_eq_ok.mp h
      obtain ⟨nested, hnested, h⟩ := bind_eq_ok.mp h
      obtain ⟨references, hreferences, h⟩ := bind_eq_ok.mp h
      cases h
      rw [issuesOfEntries_eq] at hnested
      cases hframe with
      | frame _ _ hnames _ _ hattributes =>
          have hinner : ∀ place ∈ children attributes, ∀ issues, place.2.issues = .ok issues →
              ∃ findings, Accounts place.2.Leads issues findings := by
            rintro ⟨step, node⟩ hplace issues hissues
            obtain ⟨entry, hentry, henters⟩ := mem_children.mp hplace
            exact ih _ hplace (henters.unrepeated (hattributes entry hentry)) hissues
          obtain ⟨findings, hfindings⟩ :=
            Accounts.exists_of_gathered (nodup_children hnames) hinner hnested
          have hown := Accounts.one (hasProblems_append hroles hreferences)
          refine ⟨_, (hown.append hfindings ?_).congr (fun _ _ => leads_iff) ?_⟩
          · rintro _ _ _ ⟨rfl, -⟩ ⟨_, _, _, hsteps, -⟩
            cases hsteps
          · rw [own, own, own, List.map_append, List.append_assoc, List.append_assoc]
            exact List.perm_append_comm.append_left _

end Node

-- What a report tells of a frame: the problems of each frame to which steps lead, and of no other,
-- at the places to which the steps lead.
structure Report.Locates (frame : Frame) (findings : List Finding) (report : Report) : Prop where
  distinct : (findings.map Finding.steps).Nodup
  complete : ∀ steps inner, frame.Leads steps inner ↔
    ∃ finding ∈ findings, finding.steps = steps ∧ finding.frame = inner
  own : ∀ finding ∈ findings, finding.frame.HasProblems finding.problems
  errors : (report.errors.map fun issue => (issue.problem.code, issue.path)).Perm
    (findings.flatMap (Finding.told .error))
  warnings : (report.warnings.map fun issue => (issue.problem.code, issue.path)).Perm
    (findings.flatMap (Finding.told .warning))
  valid : report.isValid = true ↔
    ∀ finding ∈ findings, ∀ problem ∈ finding.problems, problem.severity ≠ .error

namespace Finding

variable {findings : List Finding} {issues : List Issue}

theorem told_eq (severity : Severity) (finding : Finding) :
    (finding.issues.filter fun issue => issue.problem.severity = severity).map
      (fun issue => (issue.problem.code, issue.path)) = finding.told severity := by
  rw [issues, List.filter_map, List.map_map, told]
  exact List.map_congr_left fun problem _ => Prod.ext rfl path_eq_pathTo

theorem perm_told (severity : Severity) (h : issues.Perm (findings.flatMap Finding.issues)) :
    ((issues.filter fun issue => issue.problem.severity = severity).map
      fun issue => (issue.problem.code, issue.path)).Perm (findings.flatMap (told severity)) := by
  have htold : ((findings.flatMap Finding.issues).filter fun issue =>
      issue.problem.severity = severity).map (fun issue => (issue.problem.code, issue.path)) =
        findings.flatMap (told severity) := by
    rw [List.filter_flatMap, List.map_flatMap]
    exact List.flatMap_congr fun finding _ => told_eq severity finding
  exact htold ▸ (h.filter _).map _

end Finding

-- Where validation comes to its end, its report is complete and tells each problem once, with the
-- way to the frame that has it.
theorem Node.exists_locates {report : Report} (hframe : (Value.frame frame).Unrepeated)
    (h : frame.validate = .ok report) : ∃ findings, report.Locates frame findings := by
  obtain ⟨issues, hissues, h⟩ := bind_eq_ok.mp h
  cases h
  obtain ⟨findings, haccounts⟩ := exists_accounts hframe hissues
  have hwarning : (fun issue : Issue => !issue.isError) =
      fun issue => decide (issue.problem.severity = .warning) := by
    funext issue
    cases hseverity : issue.problem.severity <;> simp [Issue.isError, hseverity]
  refine ⟨findings, haccounts.distinct, haccounts.complete, haccounts.own,
    Finding.perm_told .error haccounts.issues, ?_, ?_⟩
  · simp only [hwarning]
    exact Finding.perm_told .warning haccounts.issues
  · rw [Report.isValid, List.isEmpty_iff, List.filter_eq_nil_iff]
    simp only [haccounts.issues.mem_iff, List.mem_flatMap, Finding.issues, List.mem_map]
    constructor
    · intro h finding hfinding problem hproblem herror
      exact h _ ⟨finding, hfinding, problem, hproblem, rfl⟩ (decide_eq_true herror)
    · rintro h _ ⟨finding, hfinding, problem, hproblem, rfl⟩ herror
      exact h finding hfinding problem hproblem (of_decide_eq_true herror)

-- An order with a question about a price among what is ordered, and with a state of nothing.
def pricedOrder : Frame :=
  ⟨.text "event", [("action", .text "order"),
    ("object", .array [.text "tea", .frame ⟨.text "query", [("target", .text "$price.tea")]⟩]),
    ("time", .frame ⟨.text "state", []⟩), ("agent", .text "$guest")]⟩

def orderReport : Report where
  type := .text "event"
  errors := [⟨["object[1]"], .unresolved "$price.tea"⟩, ⟨["time"], .noEntity⟩,
    ⟨[], .unresolved "$guest"⟩]
  warnings := [⟨["object[1]"], .risky "$price.tea"⟩, ⟨[], .risky "$guest"⟩]
  complexity := pricedOrder.complexity

theorem Node.exists_locates_pricedOrder : (Value.frame pricedOrder).Unrepeated ∧
    pricedOrder.validate = .ok orderReport ∧
      ∃ findings, orderReport.Locates pricedOrder findings := by
  have hunrepeated : (Value.frame pricedOrder).Unrepeated := by
    refine .frame _ _ (by decide) (by decide) (.text _) ?_
    simp only [List.forall_mem_cons]
    refine ⟨.text _, .array _ ?_, .frame _ _ (by decide) (by decide) (.text _) (by simp), .text _,
      by simp⟩
    simp only [List.forall_mem_cons]
    refine ⟨.text _, .frame _ _ (by decide) (by decide) (.text _) ?_, by simp⟩
    simp only [List.forall_mem_cons]
    exact ⟨.text _, by simp⟩
  have hissues : pricedOrder.issues = .ok [⟨["object[1]"], .unresolved "$price.tea"⟩,
      ⟨["object[1]"], .risky "$price.tea"⟩, ⟨["time"], .noEntity⟩, ⟨[], .unresolved "$guest"⟩,
      ⟨[], .risky "$guest"⟩] := by
    decide +kernel
  have hvalidate : pricedOrder.validate = .ok orderReport := by
    rw [validate, hissues]
    rfl
  exact ⟨hunrepeated, hvalidate, exists_locates hunrepeated hvalidate⟩

end FrameNotation
