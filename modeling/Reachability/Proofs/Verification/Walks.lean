import Mathlib
import Reachability.Proofs.Arg.Walks
import Reachability.Proofs.Verification.Witness

/-!
# Walks to reached states

Explorations start only at the entry, so one of the composed analyses follows
locations, and whatever the others do, links run along edges of the control-flow
graph.  No edge leads to the entry, hence no link leads back to the root, and the
walks to every state are enumerated.
-/

namespace Reachability

section Walks

variable {components : List Component} {function : String}
  {setting : Setting (List ComponentState)} {order : WaitOrder} {prior : Arg (List ComponentState)}
  {start search : Search (List ComponentState)}

/-- Without an analysis of locations no exploration starts. -/
theorem located_of_start
    (composed : setting.analysis = Component.joint setting.graph function components)
    (started : (Search.start setting order prior).1 = .ok start) : .location ∈ components := by
  obtain ⟨atEntry, _⟩ := Search.start_ok started
  have belongs : List.Forall₂ ComponentState.Belongs components
      (setting.analysis.initial (setting.graph.node setting.graph.entry)) := by
    rw [composed]
    exact belongs_composite_initial _
  rw [Analysis.place, composed, composite_location (composed ▸ belongs)] at atEntry
  obtain ⟨node, found, _⟩ := Option.map_eq_some_iff.mp atEntry
  exact located_of_node (composed ▸ belongs) found

/-- Whatever analyses are composed, and wherever an exploration has got to, the walks to every state
that has not been removed are enumerated. -/
theorem walks_enumerated {name : String} {program : Stmt}
    (built : (FlowGraph.build name program).1 = .ok setting.graph)
    (composed : setting.analysis =
      .composite (components.map (Component.analysis setting.graph function)))
    (started : (Search.start setting order prior).1 = .ok start)
    (occurs : start.Occurs setting search) {target limit : Nat} (live : target ∈ search.arg.live)
    (positive : 1 ≤ limit) :
    ∃ root walks, search.arg.root = some root ∧
      search.arg.witnessWalks target limit = .ok walks ∧
      search.arg.Enumerates root target limit walks := by
  have laws := composite_alongLaws function (FlowGraph.build_simple built)
    (located_of_start composed started)
  rw [Component.joint, ← composed] at laws
  have coherent := (occurs.tracked laws started).coherent
  obtain ⟨walks, listed, enumerates⟩ :=
    coherent.witnessWalks_enumerates (coherent.root_parents laws) live positive
  exact ⟨_, walks, coherent.rooted, listed, enumerates⟩

/-- The walks to the call after the loop unroll the loop again and again, while there is only one
walk to the state before the loop. -/
theorem walks_enumerated_countsThrough : ∃ setting start final,
    Launch {} "countsThrough" Launch.countsThrough setting {} start ∧
      start.Occurs setting final ∧
      final.arg.Enumerates 0 11 3 [[0, 1, 6, 9, 10, 11], [0, 1, 6, 8, 4, 6, 9, 10, 11],
        [0, 1, 6, 8, 4, 6, 8, 4, 6, 9, 10, 11]] ∧
      final.arg.Enumerates 0 1 3 [[0, 1]] ∧ final.arg.walkExpansions 1 3 = 2 := by
  have evaluated : ((endWithin 20 {} "countsThrough" Launch.countsThrough).map fun ended =>
      let arg := ended.2.1.arg
      (arg.root, arg.live, arg.witnessWalks 11 3, arg.witnessWalks 1 3, arg.walkExpansions 1 3)) =
      some (some 0, [0, 1, 4, 6, 8, 9, 10, 11],
        .ok [[0, 1, 6, 9, 10, 11], [0, 1, 6, 8, 4, 6, 9, 10, 11],
          [0, 1, 6, 8, 4, 6, 8, 4, 6, 9, 10, 11]], .ok [[0, 1]], 2) := by cbv
  obtain ⟨⟨setting, final, verdict⟩, ended, values⟩ := Option.map_eq_some_iff.mp evaluated
  simp only [Prod.mk.injEq] at values
  obtain ⟨rooted, live, unrolled, single, expansions⟩ := values
  obtain ⟨start, launch, ends⟩ := launch_of_end rfl ended
  have occurs : start.Occurs setting final := .ended ends
  obtain ⟨components, composition⟩ := launch.exists_composition
  obtain ⟨order, _, started⟩ := launch.started
  have enumerated : ∀ target ∈ final.arg.live, ∀ walks,
      final.arg.witnessWalks target 3 = .ok walks → final.arg.Enumerates 0 target 3 walks := by
    intro target member walks listed
    have positive : 1 ≤ 3 := by decide
    obtain ⟨root, _, isRoot, listedToo, enumerates⟩ :=
      walks_enumerated launch.built composition.composed started occurs member positive
    cases rooted.symm.trans isRoot
    cases listed.symm.trans listedToo
    exact enumerates
  refine ⟨setting, start, final, launch, occurs, ?_, ?_, expansions⟩
  · exact enumerated 11 (by simp [live]) _ unrolled
  · exact enumerated 1 (by simp [live]) _ single

end Walks

end Reachability
