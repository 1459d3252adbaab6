import Mathlib
import Reachability.Proofs.Analysis.Simulation
import Reachability.Proofs.Verification.Launch

/-!
# Soundness of safety proofs

If the exploration of a program ends because nothing waits, no execution of the
program calls the target function, whatever its inputs are.  More precisely,
the reached states cover every point where an execution can be.
-/

namespace Reachability

/-- A reached state lies where an execution has stopped, and its bounds, if it has any, contain the
values of all variables there. -/
def Search.CoversOutcome (setting : Setting (List ComponentState))
    (search : Search (List ComponentState)) (outcome : Outcome) : Prop :=
  ∃ state ∈ search.reached.states, state.location = some (outcome.node setting.graph) ∧
    ∃ tuple, search.arg.wrapped? state.key = some tuple ∧
      ∀ bounds, .bounds bounds ∈ tuple → ∀ name, outcome.env.value name ∈ bounds.get name

namespace Launch

variable {config : Config} {name : String} {program : Stmt}
  {setting : Setting (List ComponentState)} {prior : Arg (List ComponentState)}
  {start final : Search (List ComponentState)}

/-- Executions stop only at points that are covered, and so never at a call to the target. -/
theorem covers_of_stops (launch : Launch config name program setting prior start)
    (ends : start.Ends setting (.finished final .exhausted)) {inputs : Inputs} {outcome : Outcome}
    {point : Point}
    (run : Relation.ReflTransGen
      (Point.Steps setting.graph config.analysis.targetFunction inputs)
      { node := setting.graph.entry, env := inputs.initial } point)
    (stops : outcome.StopsAt setting.graph point) :
    outcome.ending ≠ .reached ∧ final.CoversOutcome setting outcome := by
  obtain ⟨components, composed, located, watched, laws⟩ := launch.exists_laws
  obtain ⟨order, _, started⟩ := launch.started
  have simulates := composite_simulates setting.graph located config.analysis.targetFunction inputs
  rw [← composed] at simulates
  obtain ⟨state, member, tuple, isEntry, found, belongs, plain, describes⟩ :=
    Search.exists_reached_of_exhausted laws simulates started ends rfl run
  constructor
  · intro reached
    have called := stops.reached reached
    obtain ⟨watch, watchMember, watchBelongs⟩ := exists_belongs belongs watched
    cases watchBelongs with
    | call callee =>
      have noted : callee.isSome = true := describes _ watchMember called
      rw [composed, composite_isTarget belongs, List.any_eq_false] at plain
      exact plain _ watchMember noted
  · refine ⟨state, member, ?_, tuple, found, ?_⟩
    · obtain ⟨node, nodeFound⟩ := exists_node belongs located
      obtain ⟨first, firstMember, isNode⟩ := List.exists_of_findSome?_eq_some nodeFound
      have here : node.id = point.node := by
        cases first with
        | location other =>
          cases isNode
          exact describes _ firstMember
        | bounds known | call callee => cases isNode
      rw [isEntry, Search.entry_location, found, Option.bind_some, composed,
        composite_place belongs, nodeFound, ← stops.node, ← here]
      rfl
    · intro bounds boundsMember
      rw [← stops.env]
      exact describes _ boundsMember

/-- When the exploration of a program has been exhausted, no execution reaches the target, whether
it runs with a limit, for a number of steps, or along given edges from the entry.  A reached state
covers the point where it stops; as the number of steps is any, this is every point that it
passes. -/
theorem executions_covered_of_exhausted (launch : Launch config name program setting prior start)
    (ends : start.Ends setting (.finished final .exhausted)) (inputs : Inputs) :
    let graph := setting.graph
    let target := config.analysis.targetFunction
    (∀ limit, (graph.run target inputs limit).ending ≠ .reached ∧
        final.CoversOutcome setting (graph.run target inputs limit)) ∧
      (∀ steps, (graph.runFor target inputs steps).ending ≠ .reached ∧
        final.CoversOutcome setting (graph.runFor target inputs steps)) ∧
      ∀ edges, (∀ edge ∈ edges, edge ∈ graph.edges) →
        (∀ edge, edges.head? = some edge → edge.source = graph.entry) →
        (graph.replay edges target inputs).ending ≠ .reached ∧
          final.CoversOutcome setting (graph.replay edges target inputs) := by
  intro graph target
  refine ⟨?_, ?_, ?_⟩
  · intro limit
    obtain ⟨point, run, stops⟩ := run_stops graph target inputs limit
    exact launch.covers_of_stops ends run stops
  · intro steps
    obtain ⟨point, run, stops⟩ := runFor_stops graph target inputs steps
    exact launch.covers_of_stops ends run stops
  · intro edges members starts
    obtain ⟨point, run, stops⟩ := replay_stops graph target inputs members starts
    exact launch.covers_of_stops ends run stops

/-- The loop never reaches the target, although the bounds of its variable are lost at its head. -/
theorem executions_covered_countsUp : ∃ setting start final,
    Launch {} "countsUp" countsUp setting {} start ∧
      start.Ends setting (.finished final .exhausted) ∧
      (setting.graph.run "reach_error" { nondet := [7] } 5).ending ≠ .reached ∧
      final.CoversOutcome setting (setting.graph.run "reach_error" { nondet := [7] } 5) := by
  obtain ⟨setting, start, final, launch, ends⟩ := exists_launch_countsUp
  exact ⟨setting, start, final, launch, ends,
    (executions_covered_of_exhausted launch ends { nondet := [7] }).1 5⟩

end Launch

end Reachability
