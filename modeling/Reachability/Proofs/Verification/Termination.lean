import Mathlib
import Reachability.Proofs.Analysis.Slots
import Reachability.Proofs.Verification.Witness

/-!
# Termination of explorations that join values

Intervals can grow for a long time, but a join keeps only those that agree.  If
values are joined or not followed at all, an exploration holds one state for each
node with and without a call to the target, and replaces it once for each variable
of the program at most.  So it ends, and the number of its iterations is bounded
by the size of the program.
-/

namespace Reachability

/-- States are never kept apart for their bounds. -/
def AnalysisSpec.Joins (spec : AnalysisSpec) : Prop :=
  spec.valueMerge = "join" ∨ "value" ∉ spec.components

theorem Composition.policy_eq_join {config : Config} {setting : Setting (List ComponentState)}
    {components : List Component} (composition : Composition config setting components)
    (joins : config.analysis.Joins) {policy : MergePolicy}
    (member : .value policy ∈ components) : policy = .join := by
  rcases joins with isJoin | absent
  · have named := composition.policies policy member
    rw [isJoin] at named
    exact (Except.ok.inj named).symm
  · exact absurd (composition.named ▸ List.mem_map_of_mem member) absent

/-- The most iterations that an exploration of a program may need if values are joined. -/
def iterationLimit (graph : FlowGraph) (program : Stmt) : Nat :=
  2 * graph.nodes.length * (program.vars.length + 1)

theorem exists_graph_of_limit {name : String} {program : Stmt} {limit : Nat}
    (computed : (FlowGraph.build name program).1.toOption.map
      (fun graph => iterationLimit graph program) = some limit) :
    ∃ graph, (FlowGraph.build name program).1 = .ok graph ∧
      iterationLimit graph program = limit := by
  cases built : (FlowGraph.build name program).1 with
  | error error =>
    rw [built] at computed
    cases computed
  | ok graph =>
    rw [built] at computed
    exact ⟨graph, rfl, Option.some.inj computed⟩

namespace Launch

variable {config : Config} {name : String} {program : Stmt}
  {setting : Setting (List ComponentState)} {prior : Arg (List ComponentState)}
  {start search : Search (List ComponentState)}

section

variable (launch : Launch config name program setting prior start) (joins : config.analysis.Joins)

include launch joins

theorem exists_slotLaws :
    ∃ components, Composition config setting components ∧
      setting.analysis.LinkLaws setting.graph
        (Conforms setting.graph program.vars config.analysis.targetFunction components)
        (Linked setting.analysis setting.graph config.analysis.targetFunction) ∧
      setting.analysis.SlotLaws
        (Conforms setting.graph program.vars config.analysis.targetFunction components)
        (fun tuple => (setting.analysis.place tuple, setting.analysis.isTarget tuple))
        (tupleSlots setting.graph) (fun tuple => (tuple.map ComponentState.size).sum)
        program.vars.length := by
  obtain ⟨components, composition⟩ := launch.exists_composition
  have distinct := (usable_of_validate launch.valid).distinct
  rw [← composition.named] at distinct
  have linkLaws := conforms_linkLaws config.analysis.targetFunction launch.simple
    (FlowGraph.build_within launch.built) composition.located composition.watched
  have slotLaws := conforms_slotLaws setting.graph program.vars config.analysis.targetFunction
    composition.located distinct fun policy member => composition.policy_eq_join joins member
  rw [← composition.composed] at linkLaws slotLaws
  exact ⟨components, composition, linkLaws, slotLaws⟩

theorem eq_of_slot (occurs : start.Occurs setting search) {first second : ReachedState Nat}
    (firstMember : first ∈ search.reached.states) (secondMember : second ∈ search.reached.states)
    (location : first.location = second.location)
    (isTarget : search.arg.isTarget setting.analysis first.key = search.arg.isTarget
      setting.analysis second.key) : first = second := by
  obtain ⟨_, _, linkLaws, slotLaws⟩ := launch.exists_slotLaws joins
  obtain ⟨order, _, started⟩ := launch.started
  have tracked := occurs.tracked linkLaws started
  obtain ⟨state, found⟩ := Arg.exists_state (tracked.state_live firstMember)
  obtain ⟨other, otherFound⟩ := Arg.exists_state (tracked.state_live secondMember)
  rw [tracked.listed first firstMember, tracked.listed second secondMember, Search.entry_location,
    Search.entry_location, found, otherFound, Option.bind_some, Option.bind_some] at location
  rw [Arg.isTarget_eq, Arg.isTarget_eq, found, otherFound] at isTarget
  exact (occurs.paced linkLaws slotLaws started).separated first firstMember second secondMember
    state other found otherFound (Prod.ext location isTarget)

theorem iterations_le (occurs : start.Occurs setting search) :
    search.stats.iterations ≤ iterationLimit setting.graph program := by
  obtain ⟨_, _, linkLaws, slotLaws⟩ := launch.exists_slotLaws joins
  obtain ⟨order, _, started⟩ := launch.started
  have bounded := occurs.iterations_le linkLaws slotLaws started
  rw [length_tupleSlots, Nat.mul_comm setting.graph.nodes.length] at bounded
  exact bounded

theorem exists_verdict (unbounded : setting.maxIterations ≤ 0) {fuel : Nat}
    (enough : iterationLimit setting.graph program < fuel) :
    ∃ final verdict, start.explore setting none fuel = .finished final verdict ∧
      start.Ends setting (.finished final verdict) ∧
      (verdict.status = "exhausted" ∨ verdict.status = "target found") := by
  obtain ⟨_, _, linkLaws, slotLaws⟩ := launch.exists_slotLaws joins
  obtain ⟨order, _, started⟩ := launch.started
  have within : (tupleSlots setting.graph).length * (program.vars.length + 1) <
      start.stats.iterations + fuel := by
    rw [length_tupleSlots, Nat.mul_comm setting.graph.nodes.length,
      Search.iterations_start started, Nat.zero_add]
    exact enough
  obtain ⟨final, verdict, explored, conclusive⟩ :=
    Search.exists_verdict linkLaws slotLaws started unbounded
      (fun heads => launch.step_ne_failed heads none) .refl within
  refine ⟨final, verdict, explored, Search.ends_of_explore explored (by simp), ?_⟩
  cases verdict with
  | exhausted => exact .inl rfl
  | targetFound => exact .inr rfl
  | inconclusive reason => exact absurd rfl (conclusive reason)

end

end Launch

/-- An exploration that joins values can always be set up, and without a bound and without
interruptions it ends with a verdict after a bounded number of iterations.  Its reached set never
holds two states with the same location and the same answer to whether the target has been
called. -/
theorem joining_exploration_ends (config : Config) (traced : Bool) {name : String} {program : Stmt}
    {graph : FlowGraph} (valid : config.validate = .ok ())
    (built : (FlowGraph.build name program).1 = .ok graph) (joins : config.analysis.Joins)
    (unbounded : config.analysis.maxIterations ≤ 0) :
    ∃ preparation,
      (Verification.prepare config.analysis traced name program).1 = .ok preparation ∧
      preparation.setting.graph = graph ∧
      (∀ fuel, iterationLimit graph program < fuel → ∃ final verdict,
        preparation.search.explore preparation.setting none fuel = .finished final verdict ∧
        (verdict.status = "exhausted" ∨ verdict.status = "target found") ∧
        final.stats.iterations ≤ iterationLimit graph program) ∧
      ∀ search, preparation.search.Occurs preparation.setting search →
        ∀ first ∈ search.reached.states, ∀ second ∈ search.reached.states,
          first.location = second.location →
          search.arg.isTarget preparation.setting.analysis first.key =
            search.arg.isTarget preparation.setting.analysis second.key → first = second := by
  obtain ⟨preparation, prepared, rfl, sameBound⟩ := exists_preparation valid built traced
  have launch := launch_of_prepare valid prepared
  refine ⟨preparation, prepared, rfl, ?_, ?_⟩
  · intro fuel enough
    obtain ⟨final, verdict, explored, ends, status⟩ :=
      launch.exists_verdict joins (sameBound ▸ unbounded) enough
    exact ⟨final, verdict, explored, status, launch.iterations_le joins (.ended ends)⟩
  · intro search occurs first firstMember second secondMember
    exact launch.eq_of_slot joins occurs firstMember secondMember

/-- A loop that counts up to a million, and a call to the target that cannot happen after it. -/
def countsFar : Stmt :=
  .block {} [
    .assign {} "x" (.literal 0 0),
    .loop {} (.binary 0 (.compare .lt) (.var 0 "x") (.literal 0 1000000))
      (.assign {} "x" (.binary 0 (.arith .add) (.var 0 "x") (.literal 0 1))),
    .branch {} (.binary 0 (.compare .lt) (.var 0 "x") (.literal 0 0))
      (.call {} "" "reach_error" []) .missing]

theorem joining_exploration_ends_countsFar : ∃ graph preparation final verdict,
    (FlowGraph.build "countsFar" countsFar).1 = .ok graph ∧ iterationLimit graph countsFar = 36 ∧
    (Verification.prepare {} false "countsFar" countsFar).1 = .ok preparation ∧
    preparation.search.explore preparation.setting none 37 = .finished final verdict ∧
    (verdict.status = "exhausted" ∨ verdict.status = "target found") ∧
    final.stats.iterations ≤ 36 := by
  have limit : (FlowGraph.build "countsFar" countsFar).1.toOption.map
      (fun graph => iterationLimit graph countsFar) = some 36 := by cbv
  obtain ⟨graph, built, isLimit⟩ := exists_graph_of_limit limit
  obtain ⟨preparation, prepared, _, ends, _⟩ :=
    joining_exploration_ends {} false rfl built (.inl rfl) (Int.le_refl 0)
  obtain ⟨final, verdict, explored, status, few⟩ := ends 37 (by omega)
  rw [isLimit] at few
  exact ⟨graph, preparation, final, verdict, built, isLimit, prepared, explored, status, few⟩

end Reachability
