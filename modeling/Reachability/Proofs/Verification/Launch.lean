import Mathlib
import Reachability.Proofs.Analysis.Links
import Reachability.Proofs.Exploration.Run
import Reachability.Proofs.FlowGraph.WellFormed
import Reachability.Verification.Verify

/-!
# Verified configurations

A configuration that passes its checks composes analyses that follow locations
and watch for calls to the target.  `Launch` collects what is known about an
exploration that has been set up for a program with such a configuration: the
bound on iterations is any, and so is what has been recorded before.
-/

namespace Reachability

theorem Arg.Coherent.exists_edge {analysis : Analysis (List ComponentState)} {graph : FlowGraph}
    {function : String} {Proper : List ComponentState → Prop} {root : Nat}
    {arg : Arg (List ComponentState)}
    (coherent : arg.Coherent analysis graph Proper (Linked analysis graph function) root)
    {parent child : Nat} (live : parent ∈ arg.live) (link : child ∈ arg.children parent) :
    arg.isTarget analysis parent = false ∧ ∃ edge ∈ graph.edges,
      (arg.location analysis parent).map Node.id = some edge.source ∧
      (arg.location analysis child).map Node.id = some edge.target ∧
      arg.isTarget analysis child = edge.action.calls function := by
  have childLive := (coherent.childLinked parent live child link).1
  obtain ⟨state, parentState⟩ := exists_state live
  obtain ⟨next, childState⟩ := exists_state childLive
  obtain ⟨plain, edge, member, source, target, calls⟩ :=
    coherent.related parent live child link state next parentState childState
  refine ⟨?_, edge, member, ?_, ?_, ?_⟩
  · rw [isTarget_eq, parentState]
    exact plain
  · rw [location_eq, parentState]
    exact source
  · rw [location_eq, childState]
    exact target
  · rw [isTarget_eq, childState]
    exact calls

section Configuration

variable {spec : AnalysisSpec} {graph : FlowGraph}

theorem exists_component {name : String} {analysis : Analysis ComponentState}
    (made : spec.component graph name = .ok analysis) :
    ∃ component : Component, component.name = name ∧
      analysis = component.analysis graph spec.targetFunction ∧
      ∀ policy, component = .value policy → MergePolicy.ofName spec.valueMerge = .ok policy := by
  unfold AnalysisSpec.component at made
  split at made
  · rename_i named
    cases made
    exact ⟨.location, named.symm, rfl, fun _ impossible => by cases impossible⟩
  · split at made
    · rename_i named
      split at made
      · rename_i policy found
        cases made
        refine ⟨.value policy, named.symm, rfl, ?_⟩
        rintro _ ⟨⟩
        exact found
      · cases made
    · split at made
      · rename_i named
        cases made
        exact ⟨.calls, named.symm, rfl, fun _ impossible => by cases impossible⟩
      · cases made

theorem exists_components {names : List String} {analyses : List (Analysis ComponentState)}
    (made : names.mapM (spec.component graph) = .ok analyses) :
    ∃ components : List Component, components.map Component.name = names ∧
      analyses = components.map (Component.analysis graph spec.targetFunction) ∧
      ∀ policy, .value policy ∈ components →
        MergePolicy.ofName spec.valueMerge = .ok policy := by
  induction names generalizing analyses with
  | nil =>
    cases made
    exact ⟨[], rfl, rfl, by simp⟩
  | cons name names induction =>
    rw [List.mapM_cons] at made
    cases first : spec.component graph name with
    | error error => simp [first, bind, Except.bind] at made
    | ok analysis =>
      cases rest : names.mapM (spec.component graph) with
      | error error => simp [first, rest, bind, Except.bind] at made
      | ok others =>
        simp only [first, rest, bind, Except.bind, pure, Except.pure] at made
        cases made
        obtain ⟨component, named, rfl, policy⟩ := exists_component first
        obtain ⟨components, namedAll, rfl, policies⟩ := induction rest
        refine ⟨component :: components, by simp [named, namedAll], rfl, ?_⟩
        intro other member
        rcases List.mem_cons.mp member with isFirst | later
        · exact policy other isFirst.symm
        · exact policies other later

theorem compose_ok {analysis : Analysis (List ComponentState)}
    (composed : spec.compose graph = .ok analysis) :
    ∃ components : List Component, components.map Component.name = spec.components ∧
      analysis = Component.joint graph spec.targetFunction components ∧
      ∀ policy, .value policy ∈ components →
        MergePolicy.ofName spec.valueMerge = .ok policy := by
  unfold AnalysisSpec.compose at composed
  cases made : spec.components.mapM (spec.component graph) with
  | error error => simp [made, bind, Except.bind] at composed
  | ok analyses =>
    obtain ⟨components, named, rfl, policies⟩ := exists_components made
    simp only [made, bind, Except.bind] at composed
    split at composed
    · cases composed
    · cases composed
      exact ⟨components, named, rfl, policies⟩

/-- What is known about a configuration that passes its checks. -/
structure Config.Usable (config : Config) : Prop where
  located : "location" ∈ config.analysis.components
  watched : "unreach-call" ∈ config.analysis.components
  known : ∀ name ∈ config.analysis.components, name ∈ knownComponents
  distinct : config.analysis.components.Nodup
  waitlist : config.analysis.waitlist ∈ ["dfs", "bfs"]
  valueMerge : config.analysis.valueMerge ∈ ["join", "sep"]

theorem componentError?_eq_none {seen names : List String}
    (faultless : AnalysisSpec.componentError? seen names = none) :
    (∀ name ∈ names, name ∈ knownComponents ∧ name ∉ seen) ∧ names.Nodup := by
  induction names generalizing seen with
  | nil => exact ⟨by simp, List.nodup_nil⟩
  | cons name names induction =>
    unfold AnalysisSpec.componentError? at faultless
    split at faultless
    · cases faultless
    · rename_i isKnown
      split at faultless
      · cases faultless
      · rename_i isNew
        simp only [Bool.not_eq_true', Bool.not_eq_false, List.contains_iff_mem] at isKnown
        rw [List.contains_iff_mem] at isNew
        obtain ⟨later, distinct⟩ := induction faultless
        constructor
        · rw [List.forall_mem_cons]
          refine ⟨⟨isKnown, isNew⟩, ?_⟩
          intro other member
          have absent := (later other member).2
          rw [List.mem_cons, not_or] at absent
          exact ⟨(later other member).1, absent.2⟩
        · rw [List.nodup_cons]
          refine ⟨?_, distinct⟩
          intro member
          exact (later name member).2 List.mem_cons_self

theorem validate_eq_ok {config : Config} :
    config.validate = .ok () ↔ config.analysis.error? = none := by
  unfold Config.validate
  cases config.analysis.error? <;> simp

theorem usable_of_validate {config : Config} (valid : config.validate = .ok ()) :
    config.Usable := by
  have faultless := validate_eq_ok.mp valid
  unfold AnalysisSpec.error? at faultless
  split at faultless
  · cases faultless
  · simp only [Option.or_eq_none_iff, Option.map_eq_none_iff, List.find?_eq_none,
      AnalysisSpec.requirements, List.forall_mem_cons] at faultless
    obtain ⟨named, location, property, _, _, _, waitlist, valueMerge, _⟩ := faultless
    obtain ⟨known, distinct⟩ := componentError?_eq_none named
    simp only [isPropertyComponent, Bool.not_eq_true', Bool.not_eq_false, List.any_eq_true,
      beq_iff_eq] at property
    obtain ⟨name, member, rfl⟩ := property
    constructor
    · simpa using location
    · exact member
    · exact fun name member => (known name member).1
    · exact distinct
    · simpa only [Bool.not_eq_true', Bool.not_eq_false, List.contains_iff_mem] using waitlist
    · simpa only [Bool.not_eq_true', Bool.not_eq_false, List.contains_iff_mem] using valueMerge

theorem Config.Usable.exists_policy {config : Config} (usable : config.Usable) :
    ∃ policy, MergePolicy.ofName config.analysis.valueMerge = .ok policy := by
  have listed := usable.valueMerge
  simp only [List.mem_cons, List.not_mem_nil, or_false] at listed
  rcases listed with isJoin | isSeparate
  · rw [isJoin]
    exact ⟨_, rfl⟩
  · rw [isSeparate]
    exact ⟨_, rfl⟩

end Configuration

/-- An exploration that has been set up for a program. -/
structure Launch (config : Config) (name : String) (program : Stmt)
    (setting : Setting (List ComponentState)) (prior : Arg (List ComponentState))
    (start : Search (List ComponentState)) : Prop where
  valid : config.validate = .ok ()
  built : (FlowGraph.build name program).1 = .ok setting.graph
  composed : config.analysis.compose setting.graph = .ok setting.analysis
  started : ∃ order, WaitOrder.ofName config.analysis.waitlist = .ok order ∧
    (Search.start setting order prior).1 = .ok start

/-- The components of a composed analysis are those that the configuration names. -/
structure Composition (config : Config) (setting : Setting (List ComponentState))
    (components : List Component) : Prop where
  composed : setting.analysis =
    Component.joint setting.graph config.analysis.targetFunction components
  named : components.map Component.name = config.analysis.components
  policies : ∀ policy, .value policy ∈ components →
    MergePolicy.ofName config.analysis.valueMerge = .ok policy
  located : .location ∈ components
  watched : .calls ∈ components

/-- The composed analyses, among which are those of locations and of calls. -/
theorem composition_of_compose {config : Config} {setting : Setting (List ComponentState)}
    (usable : config.Usable)
    (composed : config.analysis.compose setting.graph = .ok setting.analysis) :
    ∃ components, Composition config setting components := by
  obtain ⟨components, named, composed, policies⟩ := compose_ok composed
  refine ⟨components, composed, named, policies, ?_, ?_⟩
  · have location := usable.located
    rw [← named] at location
    obtain ⟨component, member, isLocation⟩ := List.mem_map.mp location
    cases component with
    | location => exact member
    | value policy | calls => exact absurd isLocation (by simp [Component.name])
  · have property := usable.watched
    rw [← named] at property
    obtain ⟨component, member, isProperty⟩ := List.mem_map.mp property
    cases component with
    | location | value policy => exact absurd isProperty (by simp [Component.name])
    | calls => exact member

theorem Composition.linkLaws {config : Config} {setting : Setting (List ComponentState)}
    {components : List Component} (composition : Composition config setting components)
    (simple : setting.graph.Simple) :
    setting.analysis.LinkLaws setting.graph (List.Forall₂ ComponentState.Belongs components)
      (Linked setting.analysis setting.graph config.analysis.targetFunction) := by
  rw [composition.composed]
  exact composite_linkLaws _ simple composition.located composition.watched

namespace Launch

variable {config : Config} {name : String} {program : Stmt}
  {setting : Setting (List ComponentState)} {prior : Arg (List ComponentState)}
  {start : Search (List ComponentState)}

section

variable (launch : Launch config name program setting prior start)

include launch

theorem simple : setting.graph.Simple :=
  FlowGraph.build_simple launch.built

theorem exists_composition :
    ∃ components, Composition config setting components :=
  composition_of_compose (usable_of_validate launch.valid) launch.composed

theorem exists_laws :
    ∃ components : List Component,
      setting.analysis = Component.joint setting.graph config.analysis.targetFunction components ∧
      .location ∈ components ∧ .calls ∈ components ∧
      setting.analysis.LinkLaws setting.graph (List.Forall₂ ComponentState.Belongs components)
        (Linked setting.analysis setting.graph config.analysis.targetFunction) := by
  obtain ⟨components, composition⟩ := launch.exists_composition
  exact ⟨components, composition.composed, composition.located, composition.watched,
    composition.linkLaws launch.simple⟩

/-- The exploration is tracked throughout, and the links of its graph run along edges of the
control-flow graph. -/
theorem exists_tracked {search : Search (List ComponentState)}
    (occurs : start.Occurs setting search) :
    ∃ Proper, setting.analysis.LinkLaws setting.graph Proper
        (Linked setting.analysis setting.graph config.analysis.targetFunction) ∧
      Search.Tracked setting Proper
        (Linked setting.analysis setting.graph config.analysis.targetFunction)
        prior.states.size search [] := by
  obtain ⟨components, _, _, _, laws⟩ := launch.exists_laws
  obtain ⟨order, _, started⟩ := launch.started
  exact ⟨_, laws, occurs.tracked laws started⟩

end

end Launch

section Verify

variable {config : Config} {traced : Bool} {name : String} {program : Stmt}

theorem launch_of_prepare (valid : config.validate = .ok ()) {preparation : Preparation}
    (prepared : (Verification.prepare config.analysis traced name program).1 = .ok preparation) :
    Launch config name program preparation.setting {} preparation.search := by
  unfold Verification.prepare at prepared
  split at prepared
  · cases prepared
  · rename_i graph messages built
    unfold Verification.begin at prepared
    dsimp only at prepared
    split at prepared
    · cases prepared
    · rename_i analysis composed
      dsimp only at prepared
      split at prepared
      · cases prepared
      · rename_i order ordered
        split at prepared
        · cases prepared
        · rename_i start started
          cases prepared
          exact ⟨valid, by rw [built], composed, order, ordered, started⟩

theorem compose_of_usable (usable : config.Usable) (graph : FlowGraph) :
    ∃ analysis, config.analysis.compose graph = .ok analysis := by
  have made : ∀ names : List String, (∀ name ∈ names, name ∈ knownComponents) →
      ∃ analyses, names.mapM (config.analysis.component graph) = .ok analyses ∧
        analyses.length = names.length := by
    intro names known
    induction names with
    | nil => exact ⟨[], rfl, rfl⟩
    | cons name names induction =>
      rw [List.forall_mem_cons] at known
      obtain ⟨analyses, rest, length⟩ := induction known.2
      have first : ∃ analysis, config.analysis.component graph name = .ok analysis := by
        have isKnown := known.1
        simp only [knownComponents, List.mem_cons, List.not_mem_nil, or_false] at isKnown
        rcases isKnown with rfl | rfl | rfl
        · exact ⟨_, rfl⟩
        · obtain ⟨policy, found⟩ := usable.exists_policy
          refine ⟨.values policy, ?_⟩
          simp [AnalysisSpec.component, found]
        · exact ⟨_, rfl⟩
      obtain ⟨analysis, first⟩ := first
      refine ⟨analysis :: analyses, ?_, congrArg Nat.succ length⟩
      rw [List.mapM_cons, first, rest]
      rfl
  obtain ⟨analyses, all, length⟩ := made _ usable.known
  refine ⟨.composite analyses, ?_⟩
  have nonempty : analyses.isEmpty = false := by
    rw [List.isEmpty_eq_false_iff_exists_mem]
    have positive := List.length_pos_of_mem usable.located
    rw [← length] at positive
    exact List.exists_mem_of_length_pos positive
  simp [AnalysisSpec.compose, all, nonempty, bind, Except.bind, pure, Except.pure]

/-- A program with a control-flow graph can be explored with every configuration that passes its
checks. -/
theorem exists_preparation {graph : FlowGraph} (valid : config.validate = .ok ())
    (built : (FlowGraph.build name program).1 = .ok graph) (traced : Bool) :
    ∃ preparation,
      (Verification.prepare config.analysis traced name program).1 = .ok preparation ∧
      preparation.setting.graph = graph ∧
      preparation.setting.maxIterations = config.analysis.maxIterations := by
  have usable := usable_of_validate valid
  obtain ⟨analysis, composed⟩ := compose_of_usable usable graph
  obtain ⟨order, ordered⟩ : ∃ order, WaitOrder.ofName config.analysis.waitlist = .ok order := by
    have listed := usable.waitlist
    simp only [List.mem_cons, List.not_mem_nil, or_false] at listed
    rcases listed with isDepth | isBreadth
    · rw [isDepth]
      exact ⟨_, rfl⟩
    · rw [isBreadth]
      exact ⟨_, rfl⟩
  let setting : Setting (List ComponentState) :=
    { graph, analysis, maxIterations := config.analysis.maxIterations, traced }
  have starts : setting.analysis.place
      (setting.analysis.initial (setting.graph.node setting.graph.entry)) =
        some setting.graph.entry := by
    have exists_components : ∃ components, Composition config setting components :=
      composition_of_compose usable composed
    obtain ⟨components, composition⟩ := exists_components
    rw [composition.composed, composite_initial]
    exact place_state composition.located _ _
  obtain ⟨search, started⟩ := Search.exists_start order {} starts
  refine ⟨{ name, setting, search }, ?_, rfl, rfl⟩
  unfold Verification.prepare
  split
  · rename_i failed
    rw [failed] at built
    cases built
  · rename_i found
    rw [found] at built
    cases built
    simp only [Verification.begin, composed, ordered]
    rw [started]

theorem confirm_safe {target : String} {report after : Report} {state : Nat} {path : List Nat}
    {witness : List Edge} {messages : List LogMessage}
    (confirmed : Verification.confirm target report state path witness = .ok (after, messages)) :
    after.safe = true → report.safe = true := by
  simp only [Verification.confirm, bind, Except.bind, pure, Except.pure] at confirmed
  split at confirmed
  · cases confirmed
  · split at confirmed
    · cases confirmed
    · split at confirmed
      · cases confirmed
        intro safe
        cases safe
      · cases confirmed
        exact fun safe => safe

/-- The report on an exploration that has ended, apart from the confirmation of a target. -/
def Preparation.report (preparation : Preparation) (final : Search (List ComponentState))
    (verdict : Verdict) : Report :=
  { name := preparation.name, setting := preparation.setting, search := final, verdict }

/-- A report is final, or the target that has been found is confirmed. -/
theorem conclude_ok {target : String} {preparation : Preparation}
    {final : Search (List ComponentState)} {verdict : Verdict} {report : Report}
    (concluded : (Verification.conclude target preparation (.finished final verdict)).1 =
      .ok report) :
    report = preparation.report final verdict ∧ report.confirmed = false ∨
      ∃ state path witness messages, verdict = .targetFound state path witness ∧
        Verification.confirm target (preparation.report final verdict) state path witness =
          .ok (report, messages) := by
  unfold Verification.conclude at concluded
  dsimp only at concluded
  split at concluded
  · rename_i state path witness
    split at concluded
    · cases concluded
    · rename_i messages confirmed
      cases concluded
      exact .inr ⟨state, path, witness, messages, rfl, confirmed⟩
  · cases concluded
    exact .inl ⟨rfl, rfl⟩

theorem launch_of_verify {interruption : Option Interruption} {fuel : Nat} {report : Report}
    (verified : (verify config traced interruption fuel name program).1 = .ok report) :
    ∃ preparation final verdict,
      Launch config name program preparation.setting {} preparation.search ∧
      preparation.search.Ends preparation.setting (.finished final verdict) ∧
      (Verification.conclude config.analysis.targetFunction preparation
        (.finished final verdict)).1 = .ok report := by
  unfold verify at verified
  split at verified
  · cases verified
  · rename_i valid
    unfold Verification.run at verified
    split at verified
    · cases verified
    · rename_i preparation messages prepared
      have launch := launch_of_prepare valid (congrArg Prod.fst prepared)
      dsimp only at verified
      cases explored : preparation.search.explore preparation.setting interruption fuel with
      | continued search | failed search error =>
        rw [explored] at verified
        cases verified
      | finished final verdict =>
        rw [explored] at verified
        exact ⟨preparation, final, verdict, launch, Search.ends_of_explore explored (by simp),
          verified⟩

theorem launch_of_safe {interruption : Option Interruption} {fuel : Nat} {report : Report}
    (verified : (verify config traced interruption fuel name program).1 = .ok report)
    (safe : report.safe = true) :
    ∃ start, Launch config name program report.setting {} start ∧
      start.Ends report.setting (.finished report.search .exhausted) := by
  obtain ⟨preparation, final, verdict, launch, ends, concluded⟩ := launch_of_verify verified
  rcases conclude_ok concluded with ⟨rfl, _⟩ | ⟨state, path, witness, messages, rfl, confirmed⟩
  · have exhausted : verdict = .exhausted := by
      cases verdict with
      | exhausted => rfl
      | targetFound => cases safe
      | inconclusive => cases safe
    subst exhausted
    exact ⟨preparation.search, launch, ends⟩
  · cases confirm_safe confirmed safe

end Verify

def Progress.verdict? {σ : Type u} : Progress σ → Option Verdict
  | .finished _ verdict => some verdict
  | _ => none

theorem Verdict.status_eq_exhausted {verdict : Verdict} :
    verdict.status = "exhausted" ↔ verdict = .exhausted := by
  cases verdict <;> simp [Verdict.status]

theorem Verdict.status_eq_targetFound {verdict : Verdict} :
    verdict.status = "target found" ↔
      ∃ key path witness, verdict = .targetFound key path witness := by
  cases verdict <;> simp [Verdict.status]

/-- The setting, the search and the verdict of an exploration that ends within a number of
iterations. -/
def endWithin (fuel : Nat) (config : Config) (name : String) (program : Stmt) :
    Option (Setting (List ComponentState) × Search (List ComponentState) × Verdict) :=
  (Verification.prepare config.analysis false name program).1.toOption.bind fun preparation =>
    let progress := preparation.search.explore preparation.setting none fuel
    progress.verdict?.map fun verdict => (preparation.setting, progress.search, verdict)

/-- An exploration that has been computed to its end. -/
theorem launch_of_end {config : Config} {name : String} {program : Stmt} {fuel : Nat}
    {setting : Setting (List ComponentState)} {final : Search (List ComponentState)}
    {verdict : Verdict} (valid : config.validate = .ok ())
    (ended : endWithin fuel config name program = some (setting, final, verdict)) :
    ∃ start, Launch config name program setting {} start ∧
      start.Ends setting (.finished final verdict) := by
  unfold endWithin at ended
  cases prepared : (Verification.prepare config.analysis false name program).1 with
  | error error =>
    rw [prepared] at ended
    cases ended
  | ok preparation =>
    rw [prepared] at ended
    have launch := launch_of_prepare valid prepared
    cases explored : preparation.search.explore preparation.setting none fuel with
    | continued search | failed search error =>
      simp only [Except.toOption, Option.bind_some, explored] at ended
      cases ended
    | finished search other =>
      simp only [Except.toOption, Option.bind_some, explored] at ended
      cases ended
      exact ⟨_, launch, Search.ends_of_explore explored (by simp)⟩

/-- The status of an exploration that ends within a number of iterations. -/
def statusWithin (fuel : Nat) (config : Config) (name : String) (program : Stmt) : Option String :=
  (Verification.prepare config.analysis false name program).1.toOption.bind fun preparation =>
    (preparation.search.explore preparation.setting none fuel).verdict?.map Verdict.status

theorem launch_of_status (config : Config) (name : String) (program : Stmt) (fuel : Nat)
    (status : String) (valid : config.validate = .ok ())
    (explored : statusWithin fuel config name program = some status) :
    ∃ setting start final verdict, Launch config name program setting {} start ∧
      start.Ends setting (.finished final verdict) ∧ verdict.status = status := by
  have ended : (endWithin fuel config name program).map (fun ended => ended.2.2.status) =
      some status := by
    rw [← explored]
    simp only [endWithin, statusWithin, Option.map_bind, Function.comp_def, Option.map_map]
  obtain ⟨⟨setting, final, verdict⟩, ends, isStatus⟩ := Option.map_eq_some_iff.mp ended
  obtain ⟨start, launch, ends⟩ := launch_of_end valid ends
  exact ⟨setting, start, final, verdict, launch, ends, isStatus⟩

/-- A loop that counts up to three, and a call to the target that cannot happen after it. -/
def countsUp : Stmt :=
  .block {} [
    .loop {} (.binary 0 (.compare .lt) (.var 0 "x") (.literal 0 3))
      (.assign {} "x" (.binary 0 (.arith .add) (.var 0 "x") (.literal 0 1))),
    .branch {} (.binary 0 (.compare .lt) (.var 0 "x") (.literal 0 0))
      (.call {} "" "reach_error" []) .missing]

theorem exists_launch_countsUp : ∃ setting start final,
    Launch {} "countsUp" countsUp setting {} start ∧
      start.Ends setting (.finished final .exhausted) := by
  obtain ⟨setting, start, final, verdict, launch, ends, status⟩ :=
    launch_of_status {} "countsUp" countsUp 20 "exhausted" rfl (by cbv)
  cases Verdict.status_eq_exhausted.mp status
  exact ⟨setting, start, final, launch, ends⟩

end Reachability
