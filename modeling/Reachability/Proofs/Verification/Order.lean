import Mathlib
import Reachability.Proofs.Analysis.Exactness
import Reachability.Proofs.Verification.Paths
import Reachability.Proofs.Verification.Termination

/-!
# Verdicts and the order of exploration

The verdict of an exploration that joins values may depend on its order.  A state
that arrives after one that covers it is dropped, but one that arrives before it is
joined with it, and the join gives up what they do not agree on.  Verdicts are the
same where this cannot matter: if some feasible path calls the target, every order
finds it, and if one order is exhausted with single values only, all of them are.
-/

namespace Reachability

open ComponentState

def Config.ordered (config : Config) (order : String) : Config :=
  { config with analysis := { config.analysis with waitlist := order } }

def Search.isExact (search : Search (List ComponentState)) : Bool :=
  search.reached.states.all fun state =>
    ((search.arg.wrapped? state.key).map fun tuple => tuple.all ComponentState.isExact).getD true

theorem Search.all_isExact {search : Search (List ComponentState)} (exact : search.isExact = true)
    {state : ReachedState Nat} (member : state ∈ search.reached.states)
    {tuple : List ComponentState} (found : search.arg.wrapped? state.key = some tuple) :
    tuple.all ComponentState.isExact = true := by
  have here := List.all_eq_true.mp exact state member
  rw [found] at here
  exact here

section Configuration

variable {config : Config}

theorem validate_ordered (valid : config.validate = .ok ()) {order : String}
    (known : order ∈ ["dfs", "bfs"]) : (config.ordered order).validate = .ok () := by
  rw [validate_eq_ok] at valid ⊢
  unfold AnalysisSpec.error? at valid ⊢
  split at valid
  · cases valid
  · rename_i nonempty
    refine (if_neg nonempty).trans ?_
    simp only [Option.or_eq_none_iff, Option.map_eq_none_iff, List.find?_eq_none,
      AnalysisSpec.requirements, List.forall_mem_cons] at valid ⊢
    obtain ⟨named, location, property, target, nondet, assumed, _, rest⟩ := valid
    refine ⟨named, location, property, target, nondet, assumed, ?_, rest⟩
    rw [Bool.not_eq_true', Bool.not_eq_false, List.contains_iff_mem]
    exact known

end Configuration

namespace Launch

variable {config : Config} {name first second : String} {program : Stmt}
  {setting setting' : Setting (List ComponentState)} {prior prior' : Arg (List ComponentState)}
  {start start' final final' : Search (List ComponentState)}

theorem ordered_setting (launch : Launch (config.ordered first) name program setting prior start)
    (launch' : Launch (config.ordered second) name program setting' prior' start') :
    setting'.graph = setting.graph ∧ setting'.analysis = setting.analysis := by
  have graphs : setting'.graph = setting.graph :=
    Except.ok.inj (launch'.built.symm.trans launch.built)
  refine ⟨graphs, ?_⟩
  have composed := launch'.composed
  rw [graphs] at composed
  exact Except.ok.inj (composed.symm.trans launch.composed)

/-- If an exploration is exhausted and exact, whatever lies inside its reached states stays inside
them under transfer and under merging. -/
theorem exists_reaching_laws (launch : Launch config name program setting prior start)
    (joins : config.analysis.Joins) (ends : start.Ends setting (.finished final .exhausted))
    (exact : final.isExact = true) :
    ∃ components : List Component,
      setting.analysis = Component.joint setting.graph config.analysis.targetFunction components ∧
      (∀ tuple, List.Forall₂ Belongs components tuple →
        final.Reaches (List.Forall₂ Inside) tuple → setting.analysis.isTarget tuple = false) ∧
      setting.analysis.LinkLaws setting.graph
        (fun tuple => List.Forall₂ Belongs components tuple ∧
          final.Reaches (List.Forall₂ Inside) tuple)
        (Linked setting.analysis setting.graph config.analysis.targetFunction) := by
  obtain ⟨components, composed, located, watched, laws⟩ := launch.exists_laws
  obtain ⟨order, _, started⟩ := launch.started
  have occurs : start.Occurs setting final := .ended ends
  have tracked := occurs.tracked laws started
  have simulates := composite_simulates_successors setting.graph
    config.analysis.targetFunction located
  rw [← composed] at simulates
  have saturated := Search.saturated_of_exhausted laws simulates started ends
  have views : ∀ {state tuple value}, state ∈ final.reached.states →
      final.arg.wrapped? state.key = some value → List.Forall₂ Inside tuple value →
      state.location = (tuple.findSome? node?).map Node.id ∧
        final.arg.isTarget setting.analysis state.key = tuple.any isCalled := by
    intro state tuple value member found inside
    have belongs := tracked.proper (tracked.state_live member) found
    constructor
    · rw [tracked.listed state member, Search.entry_location, found, Option.bind_some, composed,
        composite_place belongs, node_of_inside inside]
    · rw [Arg.isTarget_eq, found, Option.map_some, Option.getD_some, composed,
        composite_isTarget belongs, called_of_inside inside]
  refine ⟨components, composed, ?_, ?_⟩
  · rintro tuple belongs ⟨state, member, value, found, inside⟩
    have plain := saturated.plain state member value found
    have valueBelongs := tracked.proper (tracked.state_live member) found
    rw [composed, composite_isTarget valueBelongs, called_of_inside inside] at plain
    rw [composed, composite_isTarget belongs, plain]
  · apply laws.and
    · exact saturated.starts rfl
    · intro tuple edge next _ reaches member computed
      exact saturated.steps reaches ⟨edge, member, computed⟩
    · rintro new reached merged newBelongs reachedBelongs
        ⟨state, member, value, found, inside⟩
        ⟨other, otherMember, otherValue, otherFound, otherInside⟩ merges
      rw [composed] at merges
      have mergesAll := mergesAll_of_merge newBelongs reachedBelongs merges
      have here := views member found inside
      have there := views otherMember otherFound otherInside
      have same : state = other := by
        apply launch.eq_of_slot joins occurs member otherMember
        · rw [here.1, there.1, mergesAll.node.2]
        · rw [here.2, there.2, mergesAll.called.2]
      subst same
      rw [found, Option.some.injEq] at otherFound
      subst otherFound
      exact ⟨state, member, value, found,
        mergesAll.inside_of_isExact inside otherInside (Search.all_isExact exact member found)⟩

theorem not_targetFound_of_isExact
    (launch : Launch (config.ordered first) name program setting prior start)
    (launch' : Launch (config.ordered second) name program setting' prior' start')
    (joins : config.analysis.Joins) (ends : start.Ends setting (.finished final .exhausted))
    (exact : final.isExact = true) {key : Nat} {path : List Nat} {witness : List Edge} :
    ¬start'.Ends setting' (.finished final' (.targetFound key path witness)) := by
  intro ends'
  obtain ⟨components, _, plain, laws⟩ := launch.exists_reaching_laws joins ends exact
  obtain ⟨sameGraph, sameAnalysis⟩ := launch.ordered_setting launch'
  rw [← sameGraph, ← sameAnalysis] at laws
  rw [← sameAnalysis] at plain
  obtain ⟨head, state, heads, _, popped, rfl, isTarget, _⟩ := launch'.exists_visit ends'
  obtain ⟨order, _, started⟩ := launch'.started
  have tracked := Search.head_tracked laws started heads
  have live := tracked.state_live popped.member
  obtain ⟨tuple, found⟩ := Arg.exists_state live
  obtain ⟨belongs, reaches⟩ := tracked.proper live found
  rw [Arg.isTarget_eq, found, Option.map_some, Option.getD_some, plain tuple belongs reaches]
    at isTarget
  cases isTarget

theorem targetFound_of_feasible (launch : Launch config name program setting prior start)
    {verdict : Verdict} (ends : start.Ends setting (.finished final verdict))
    (status : verdict.status = "exhausted" ∨ verdict.status = "target found") {path : List Edge}
    (feasible : setting.analysis.Feasible setting.graph path) {edge : Edge} (member : edge ∈ path)
    (calls : edge.action.calls config.analysis.targetFunction = true) :
    verdict.status = "target found" := by
  apply status.resolve_left
  intro exhausted
  rw [Verdict.status_eq_exhausted] at exhausted
  subst exhausted
  rw [launch.not_calls_of_exhausted ends feasible edge member] at calls
  cases calls

theorem exhausted_of_isExact
    (launch : Launch (config.ordered first) name program setting prior start)
    (launch' : Launch (config.ordered second) name program setting' prior' start')
    (joins : config.analysis.Joins) {verdict verdict' : Verdict}
    (ends : start.Ends setting (.finished final verdict))
    (ends' : start'.Ends setting' (.finished final' verdict'))
    (exhausted : verdict.status = "exhausted") (exact : final.isExact = true)
    (status : verdict'.status = "exhausted" ∨ verdict'.status = "target found") :
    verdict'.status = "exhausted" := by
  apply status.resolve_right
  intro found
  obtain ⟨key, path, witness, rfl⟩ := Verdict.status_eq_targetFound.mp found
  rw [Verdict.status_eq_exhausted] at exhausted
  subst exhausted
  exact launch.not_targetFound_of_isExact launch' joins ends exact ends'

end Launch

/-- One branch sets a variable, the other one narrows it to an interval around that value.  The
target would be called for much larger values only. -/
def setsOrNarrows : Stmt :=
  .block {} [
    .branch {} (.nondet 0 "")
      (.assign {} "x" (.literal 0 5))
      (.assume {} (.binary 0 .and
        (.binary 0 (.compare .le) (.literal 0 0) (.var 0 "x"))
        (.binary 0 (.compare .le) (.var 0 "x") (.literal 0 10)))),
    .branch {} (.binary 0 (.compare .lt) (.literal 0 20) (.var 0 "x"))
      (.call {} "" "reach_error" []) .missing]

/-- Verdicts depend on the order.  Depth first, the interval arrives before the value and covers it;
breadth first, the value arrives before the interval, and their join gives up both. -/
theorem orders_disagree_setsOrNarrows :
    statusWithin 40 (({} : Config).ordered "dfs") "setsOrNarrows" setsOrNarrows = some "exhausted" ∧
      statusWithin 40 (({} : Config).ordered "bfs") "setsOrNarrows" setsOrNarrows =
        some "target found" := by
  constructor
  · cbv
  · cbv

/-- Without a bound and without interruptions, the explorations of a program depth first and breadth
first both come to a verdict.  If some feasible path calls the target, both find it.  If one of them
is exhausted and its reached states store single values only, both are exhausted. -/
theorem orders_agree (config : Config) (traced : Bool) {name : String} {program : Stmt}
    {graph : FlowGraph} (valid : config.validate = .ok ())
    (built : (FlowGraph.build name program).1 = .ok graph) (joins : config.analysis.Joins)
    (unbounded : config.analysis.maxIterations ≤ 0) :
    ∃ depth breadth,
      (Verification.prepare (config.ordered "dfs").analysis traced name program).1 = .ok depth ∧
      (Verification.prepare (config.ordered "bfs").analysis traced name program).1 = .ok breadth ∧
      ∀ fuel, iterationLimit graph program < fuel → ∃ final verdict final' verdict',
        depth.search.explore depth.setting none fuel = .finished final verdict ∧
        breadth.search.explore breadth.setting none fuel = .finished final' verdict' ∧
        (verdict.status = "exhausted" ∨ verdict.status = "target found") ∧
        (verdict'.status = "exhausted" ∨ verdict'.status = "target found") ∧
        ((∃ path, depth.setting.analysis.Feasible graph path ∧
            ∃ edge ∈ path, edge.action.calls config.analysis.targetFunction = true) →
          verdict.status = "target found" ∧ verdict'.status = "target found") ∧
        (verdict.status = "exhausted" ∧ final.isExact = true ∨
            verdict'.status = "exhausted" ∧ final'.isExact = true →
          verdict.status = "exhausted" ∧ verdict'.status = "exhausted") := by
  have depthValid := validate_ordered valid (show "dfs" ∈ ["dfs", "bfs"] by decide)
  have breadthValid := validate_ordered valid (show "bfs" ∈ ["dfs", "bfs"] by decide)
  obtain ⟨depth, prepared, rfl, sameBound⟩ := exists_preparation depthValid built traced
  obtain ⟨breadth, prepared', _, sameBound'⟩ := exists_preparation breadthValid built traced
  have launch := launch_of_prepare depthValid prepared
  have launch' := launch_of_prepare breadthValid prepared'
  obtain ⟨sameGraph, sameAnalysis⟩ := launch.ordered_setting launch'
  refine ⟨depth, breadth, prepared, prepared', ?_⟩
  intro fuel enough
  obtain ⟨final, verdict, explored, ends, status⟩ :=
    launch.exists_verdict joins (sameBound ▸ unbounded) enough
  obtain ⟨final', verdict', explored', ends', status'⟩ :=
    launch'.exists_verdict joins (sameBound' ▸ unbounded) (sameGraph ▸ enough)
  refine ⟨final, verdict, final', verdict', explored, explored', status, status', ?_, ?_⟩
  · rintro ⟨path, feasible, edge, member, calls⟩
    refine ⟨launch.targetFound_of_feasible ends status feasible member calls, ?_⟩
    rw [← sameGraph, ← sameAnalysis] at feasible
    exact launch'.targetFound_of_feasible ends' status' feasible member calls
  · rintro (⟨exhausted, exact⟩ | ⟨exhausted, exact⟩)
    · exact ⟨exhausted,
        launch.exhausted_of_isExact launch' joins ends ends' exhausted exact status'⟩
    · exact ⟨launch'.exhausted_of_isExact launch joins ends' ends exhausted exact status, exhausted⟩

/-- Both branches set a variable to the same value, for which the target is not called. -/
def setsTwice : Stmt :=
  .block {} [
    .branch {} (.nondet 0 "") (.assign {} "x" (.literal 0 5)) (.assign {} "x" (.literal 0 5)),
    .branch {} (.binary 0 (.compare .lt) (.literal 0 20) (.var 0 "x"))
      (.call {} "" "reach_error" []) .missing]

/-- Depth first the exploration is computed to be exhausted and exact, so breadth first it is
exhausted, too.  The loop that counts up to the target has a feasible path to it, so both orders
find it. -/
theorem orders_agree_setsTwice_countsThrough :
    (∃ depth breadth final verdict final' verdict',
      (Verification.prepare (({} : Config).ordered "dfs").analysis false "setsTwice" setsTwice).1 =
        .ok depth ∧
      (Verification.prepare (({} : Config).ordered "bfs").analysis false "setsTwice" setsTwice).1 =
        .ok breadth ∧
      depth.search.explore depth.setting none 40 = .finished final verdict ∧
      breadth.search.explore breadth.setting none 40 = .finished final' verdict' ∧
      final.isExact = true ∧ verdict.status = "exhausted" ∧ verdict'.status = "exhausted") ∧
    ∃ depth breadth final verdict final' verdict' path,
      (Verification.prepare (({} : Config).ordered "dfs").analysis false "countsThrough"
        Launch.countsThrough).1 = .ok depth ∧
      (Verification.prepare (({} : Config).ordered "bfs").analysis false "countsThrough"
        Launch.countsThrough).1 = .ok breadth ∧
      depth.search.explore depth.setting none 40 = .finished final verdict ∧
      breadth.search.explore breadth.setting none 40 = .finished final' verdict' ∧
      depth.setting.analysis.Feasible depth.setting.graph path ∧
      (∃ edge ∈ path, edge.action.calls "reach_error" = true) ∧
      verdict.status = "target found" ∧ verdict'.status = "target found" := by
  constructor
  · have limit : (FlowGraph.build "setsTwice" setsTwice).1.toOption.map
        (fun graph => iterationLimit graph setsTwice) = some 36 := by cbv
    have computed : (Verification.prepare (({} : Config).ordered "dfs").analysis false "setsTwice"
        setsTwice).1.toOption.map (fun depth =>
          ((depth.search.explore depth.setting none 40).verdict?.map Verdict.status,
            (depth.search.explore depth.setting none 40).search.isExact)) =
        some (some "exhausted", true) := by cbv
    obtain ⟨graph, built, isLimit⟩ := exists_graph_of_limit limit
    obtain ⟨depth, breadth, prepared, prepared', runs⟩ :=
      orders_agree {} false rfl built (.inl rfl) (Int.le_refl 0)
    obtain ⟨final, verdict, final', verdict', explored, explored', _, _, _, agree⟩ :=
      runs 40 (by omega)
    rw [prepared, Except.toOption, Option.map_some, explored] at computed
    obtain ⟨status, exact⟩ := Prod.mk.inj (Option.some.inj computed)
    have exhausted : verdict.status = "exhausted" := Option.some.inj status
    exact ⟨depth, breadth, final, verdict, final', verdict', prepared, prepared', explored,
      explored', exact, agree (.inl ⟨exhausted, exact⟩)⟩
  · have limit : (FlowGraph.build "countsThrough" Launch.countsThrough).1.toOption.map
        (fun graph => iterationLimit graph Launch.countsThrough) = some 36 := by cbv
    obtain ⟨graph, built, isLimit⟩ := exists_graph_of_limit limit
    obtain ⟨depth, breadth, prepared, prepared', runs⟩ :=
      orders_agree {} false rfl built (.inl rfl) (Int.le_refl 0)
    obtain ⟨final, verdict, final', verdict', explored, explored', _, _, agree, _⟩ :=
      runs 40 (by omega)
    have valid : (({} : Config).ordered "dfs").validate = .ok () := rfl
    have launch := launch_of_prepare valid prepared
    have sameGraph : depth.setting.graph = graph :=
      Except.ok.inj (launch.built.symm.trans built)
    obtain ⟨_, _, _, _, apart, ends, status⟩ :=
      launch_of_status (Launch.keepsApart "dfs") "countsThrough" Launch.countsThrough 30
        "target found" (by cbv) Launch.statusWithin_keepsApart
    obtain ⟨key, keys, path, rfl⟩ := Verdict.status_eq_targetFound.mp status
    obtain ⟨feasible, calls⟩ := apart.feasible_of_targetFound rfl ends
    have followed := launch.feasible_of_named apart rfl rfl feasible
    exact ⟨depth, breadth, final, verdict, final', verdict', path, prepared, prepared', explored,
      explored', followed, calls, agree ⟨path, sameGraph ▸ followed, calls⟩⟩

end Reachability
