import Mathlib
import Reachability.Proofs.Arg.Walks
import Reachability.Proofs.Execution.Draws
import Reachability.Proofs.Verification.Soundness
import Reachability.Proofs.Verification.Witness

/-!
# Confirmed targets

A target is confirmed by replaying walks through the abstract reachability graph
until one of them calls the target function.  That walk then is the witness, and
it is executed not only when the edges are given: there are inputs with which
the program itself takes them.  A program with a confirmed target can therefore
never be found safe.
-/

namespace Reachability

namespace Verification

variable {target : String} {setting : Setting (List ComponentState)}
  {arg : Arg (List ComponentState)} {report after : Report}

theorem firstReached_some {index first : Nat} {walks : List (List Nat)} {tried : Attempt}
    (found : firstReached target setting arg first walks = .ok (some (index, tried))) :
    tried.reached = true ∧ ∃ path ∈ walks, ∃ edges,
      arg.pathEdges setting.analysis setting.graph path = .ok edges ∧
      tried = attempt target setting arg path edges := by
  induction walks generalizing first with
  | nil => cases found
  | cons path walks induction =>
    unfold firstReached at found
    cases edgesFound : arg.pathEdges setting.analysis setting.graph path with
    | error error => simp [edgesFound, bind, Except.bind] at found
    | ok edges =>
      simp only [edgesFound, bind, Except.bind, pure, Except.pure] at found
      split at found
      · rename_i reached
        cases found
        exact ⟨reached, path, List.mem_cons_self, edges, edgesFound, rfl⟩
      · obtain ⟨reached, other, member, rest⟩ := induction found
        exact ⟨reached, other, List.mem_cons_of_mem _ member, rest⟩

/-- A report is confirmed by a walk whose replay has reached the target; it becomes the witness. -/
theorem confirm_confirmed {state : Nat} {path : List Nat} {witness : List Edge}
    {messages : List LogMessage} (unconfirmed : report.confirmed = false)
    (confirms : confirm target report state path witness = .ok (after, messages))
    (confirmed : after.confirmed = true) :
    ∃ walks, report.search.arg.witnessWalks state maxReplayedWitnesses = .ok walks ∧
      ∃ walk ∈ walks, ∃ edges,
        report.search.arg.pathEdges report.setting.analysis report.setting.graph walk =
          .ok edges ∧
        (attempt target report.setting report.search.arg walk edges).reached = true ∧
        after = { report with
          verdict := .targetFound state walk edges
          inputs := (attempt target report.setting report.search.arg walk edges).inputs
          replay := some (attempt target report.setting report.search.arg walk edges).outcome
          confirmed := true } := by
  simp only [confirm, bind, Except.bind, pure, Except.pure] at confirms
  split at confirms
  · cases confirms
  · rename_i walks walksFound
    split at confirms
    · cases confirms
    · rename_i result found
      split at confirms
      · rename_i index tried
        cases confirms
        obtain ⟨reached, walk, member, edges, edgesFound, rfl⟩ := firstReached_some found
        exact ⟨walks, walksFound, walk, member, edges, edgesFound, reached, rfl⟩
      · cases confirms
        rw [unconfirmed] at confirmed
        cases confirmed

theorem Attempt.ending_eq_reached {tried : Attempt} (reached : tried.reached = true) :
    tried.outcome.ending = .reached := by
  unfold Attempt.reached at reached
  split at reached
  · assumption
  · cases reached

end Verification

variable {config : Config} {traced : Bool} {interruption : Option Interruption} {fuel : Nat}
  {name : String} {program : Stmt} {report : Report}

/-- The walks that are replayed to confirm a target can be listed, and all of them lead to it. -/
theorem Launch.exists_walks {setting : Setting (List ComponentState)}
    {prior : Arg (List ComponentState)} {start final : Search (List ComponentState)} {key : Nat}
    {path : List Nat} {witness : List Edge}
    (launch : Launch config name program setting prior start)
    (ends : start.Ends setting (.finished final (.targetFound key path witness))) :
    ∃ walks, final.arg.witnessWalks key maxReplayedWitnesses = .ok walks ∧
      ∀ walk ∈ walks, ∃ edges, final.arg.pathEdges setting.analysis setting.graph walk = .ok edges ∧
        final.arg.IsWalk setting config.analysis.targetFunction key walk edges := by
  obtain ⟨head, state, heads, _, popped, rfl, isTarget, _⟩ := launch.exists_visit ends
  obtain ⟨Proper, laws, tracked⟩ := launch.exists_tracked (.head heads)
  have live := tracked.state_live popped.member
  obtain ⟨walks, listed, enumerates⟩ := tracked.coherent.witnessWalks_enumerates
    (tracked.coherent.root_parents laws) live (by decide : 1 ≤ maxReplayedWitnesses)
  rw [popped.arg]
  refine ⟨walks, listed, fun walk member => ?_⟩
  exact launch.exists_walk heads live isTarget (enumerates.leads walk member)

/-- A confirmed report contains the walk that has been replayed and the inputs for it. -/
theorem walk_of_confirmed
    (verified : (verify config traced interruption fuel name program).1 = .ok report)
    (confirmed : report.confirmed = true) :
    (FlowGraph.build name program).1 = .ok report.setting.graph ∧
      ∃ state path witness, report.verdict = .targetFound state path witness ∧
        report.search.arg.IsWalk report.setting config.analysis.targetFunction state path witness ∧
        report.replay = some (report.setting.graph.replay witness config.analysis.targetFunction
          report.inputs) ∧
        (report.setting.graph.replay witness config.analysis.targetFunction
          report.inputs).ending = .reached := by
  obtain ⟨preparation, final, verdict, launch, ends, concluded⟩ := launch_of_verify verified
  rcases conclude_ok concluded with ⟨_, unconfirmed⟩ | ⟨key, _, _, _, rfl, confirms⟩
  · rw [unconfirmed] at confirmed
    cases confirmed
  · obtain ⟨walks, walksFound, path, member, edges, edgesFound, reached, rfl⟩ :=
      Verification.confirm_confirmed rfl confirms confirmed
    obtain ⟨_, listed, traced⟩ := launch.exists_walks ends
    simp only [Preparation.report] at walksFound edgesFound reached ⊢
    cases walksFound.symm.trans listed
    obtain ⟨walk, walkFound, isWalk⟩ := traced path member
    rw [walkFound, Except.ok.injEq] at edgesFound
    subst edgesFound
    exact ⟨launch.built, key, path, walk, rfl, isWalk, rfl,
      Verification.Attempt.ending_eq_reached reached⟩

/-- A confirmed target has a witness that leads from the entry to a call of the target function
along a path of states.  The replay with the inputs of the report goes along the whole witness, and
there are inputs with which the program itself does, whatever limit it is run with.  No other
configuration finds the program safe. -/
theorem confirmed_executes
    (verified : (verify config traced interruption fuel name program).1 = .ok report)
    (confirmed : report.confirmed = true) :
    let graph := report.setting.graph
    let function := config.analysis.targetFunction
    (FlowGraph.build name program).1 = .ok graph ∧
      (∃ state path witness, report.verdict = .targetFound state path witness ∧
        report.search.arg.IsWalk report.setting function state path witness ∧
        report.replay = some (graph.replay witness function report.inputs) ∧
        (graph.replay witness function report.inputs).ending = .reached ∧
        (graph.replay witness function report.inputs).trace = witness ∧
        ∃ inputs, ∀ limit, witness.length ≤ limit →
          (graph.run function inputs limit).ending = .reached ∧
          (graph.run function inputs limit).trace = witness) ∧
      ∀ config' traced' interruption' fuel' report',
        config'.analysis.targetFunction = function →
        (verify config' traced' interruption' fuel' name program).1 = .ok report' →
        report'.safe = false := by
  intro graph function
  obtain ⟨built, state, path, witness, isFound, isWalk, replayed, reached⟩ :=
    walk_of_confirmed verified confirmed
  obtain ⟨first, isFirst, atEntry⟩ := isWalk.starts
  have starts : ∀ edge, witness.head? = some edge → edge.source = graph.entry := by
    intro edge isEdge
    rw [isFirst, Option.some.injEq] at isEdge
    rw [← isEdge]
    exact atEntry
  have trace := FlowGraph.follow_trace reached isWalk.once
  obtain ⟨inputs, _, runs⟩ := FlowGraph.exists_inputs_of_replay
    (FlowGraph.build_branching built) isWalk.edges starts reached
  refine ⟨built, ⟨state, path, witness, isFound, isWalk, replayed, reached, trace, inputs, ?_⟩, ?_⟩
  · intro limit enough
    rw [runs limit enough]
    exact ⟨reached, trace⟩
  · intro config' traced' interruption' fuel' report' sameTarget verified'
    rw [Bool.eq_false_iff]
    intro safe
    obtain ⟨start, launch, ends⟩ := launch_of_safe verified' safe
    have sameGraph : graph = report'.setting.graph :=
      Except.ok.inj (built.symm.trans launch.built)
    obtain ⟨point, run, stops⟩ := run_stops report'.setting.graph
      config'.analysis.targetFunction inputs witness.length
    apply (launch.covers_of_stops ends run stops).1
    rw [← sameGraph, sameTarget, runs _ (Nat.le_refl _)]
    exact reached

/-- A call to the target that depends on an input and on a nondeterministic condition that does not
hold. -/
def refuses : Stmt :=
  .block {} [
    .assign {} "x" (.nondet 0 ""),
    .branch {} (.nondet 0 "") (.skip {})
      (.branch {} (.binary 0 (.compare .lt) (.var 0 "x") (.literal 0 0))
        (.call {} "" "reach_error" []) .missing)]

theorem confirmed_executes_refuses : ∃ report,
    (verify {} false none 30 "refuses" refuses).1 = .ok report ∧
      report.confirmed = true ∧ ∃ witness inputs,
        (report.setting.graph.run "reach_error" inputs witness.length).trace = witness ∧
        ∀ report', (verify { analysis := { valueMerge := "sep" } } false none 30 "refuses"
          refuses).1 = .ok report' → report'.safe = false := by
  have evaluated : ((verify {} false none 30 "refuses" refuses).1.map
      Report.confirmed).toOption = some true := by cbv
  cases verified : (verify {} false none 30 "refuses" refuses).1 with
  | error error =>
    rw [verified] at evaluated
    cases evaluated
  | ok report =>
    rw [verified] at evaluated
    have confirmed : report.confirmed = true := Option.some.inj evaluated
    obtain ⟨_, ⟨_, _, witness, _, _, _, _, _, inputs, runs⟩, never⟩ :=
      confirmed_executes verified confirmed
    exact ⟨report, rfl, confirmed, witness, inputs, (runs _ (Nat.le_refl _)).2,
      fun report' => never _ _ _ _ report' rfl⟩

end Reachability
