import Mathlib
import Reachability.Proofs.Arg.Ancestry
import Reachability.Proofs.Verification.Launch

/-!
# Witnesses of targets

An exploration that takes a target from the waitlist ends with a witness.  The
two ends of a link between states lie at the ends of an edge, which is the only
edge between its nodes, so the edges along a path of states are found again
from the locations alone.  Only the last state of such a path can be a target,
since targets have no children; and the root is none.
-/

namespace Reachability

/-- The edge between two nodes is the only one. -/
theorem FlowGraph.Simple.edgeBetween?_eq {graph : FlowGraph} (simple : graph.Simple) {edge : Edge}
    (member : edge ∈ graph.edges) : graph.edgeBetween? edge.source edge.target = some edge := by
  unfold edgeBetween?
  cases found : (graph.outgoing edge.source).find? fun other => other.target == edge.target with
  | none =>
    rw [List.find?_eq_none] at found
    exact absurd (beq_self_eq_true _) (found edge (mem_outgoing.mpr ⟨member, rfl⟩))
  | some other =>
    obtain ⟨otherMember, source⟩ := mem_outgoing.mp (List.mem_of_find?_eq_some found)
    have target := List.find?_some found
    rw [simple.unique other otherMember edge member source (beq_iff_eq.mp target)]

namespace Arg

/-- The edges along a path of states: each leads from the location of a state to that of the next
one, which is a target exactly if the edge calls the target function. -/
inductive Traces {σ : Type u} (analysis : Analysis σ) (graph : FlowGraph) (function : String)
    (arg : Arg σ) : List Nat → List Edge → Prop where
  | last (key : Nat) : Traces analysis graph function arg [key] []
  | step {key next : Nat} {edge : Edge} {path : List Nat} {edges : List Edge} :
      edge ∈ graph.edges →
      (arg.location analysis key).map Node.id = some edge.source →
      (arg.location analysis next).map Node.id = some edge.target →
      arg.isTarget analysis key = false →
      arg.isTarget analysis next = edge.action.calls function →
      Traces analysis graph function arg (next :: path) edges →
      Traces analysis graph function arg (key :: next :: path) (edge :: edges)

namespace Traces

variable {σ : Type u} {analysis : Analysis σ} {graph : FlowGraph} {function : String} {arg : Arg σ}
  {path : List Nat} {edges : List Edge}

section

variable (traces : arg.Traces analysis graph function path edges)

include traces

theorem edgesFrom (simple : graph.Simple) (index : Nat) :
    graph.edgesFrom index (path.map (arg.location analysis)) = .ok edges := by
  induction traces generalizing index with
  | last key => rfl
  | step member source target _ _ _ induction =>
    obtain ⟨here, located, isSource⟩ := Option.map_eq_some_iff.mp source
    obtain ⟨there, nextLocated, isTarget⟩ := Option.map_eq_some_iff.mp target
    have rest := induction (index + 1)
    rw [List.map_cons, nextLocated] at rest
    rw [List.map_cons, List.map_cons, located, nextLocated]
    unfold FlowGraph.edgesFrom
    rw [Option.bind_some, isSource, isTarget, simple.edgeBetween?_eq member]
    dsimp only
    rw [rest]
    rfl

theorem pathEdges (simple : graph.Simple) :
    arg.pathEdges analysis graph path = .ok edges := by
  unfold Arg.pathEdges FlowGraph.edgesAlong
  rw [traces.edgesFrom simple]

theorem mem_edges :
    ∀ edge ∈ edges, edge ∈ graph.edges := by
  induction traces with
  | last key => simp
  | step member _ _ _ _ _ induction => exact List.forall_mem_cons.mpr ⟨member, induction⟩

theorem places (start : Nat)
    (starts : ∀ key, path.head? = some key → (arg.location analysis key).map Node.id = some start) :
    path.map (fun key => (arg.location analysis key).map Node.id) =
      (start :: edges.map Edge.target).map some := by
  induction traces generalizing start with
  | last key =>
    have first := starts key rfl
    simp [first]
  | step _ _ target _ _ _ induction =>
    have first := starts _ rfl
    have rest := induction _ fun key isNext => by
      cases isNext
      exact target
    rw [List.map_cons, rest, first]
    rfl

theorem source {key : Nat} {edge : Edge} (first : path.head? = some key)
    (firstEdge : edges.head? = some edge) :
    (arg.location analysis key).map Node.id = some edge.source := by
  cases traces with
  | last => cases firstEdge
  | step _ source _ _ _ _ =>
    cases first
    cases firstEdge
    exact source

theorem connected :
    edges.IsChain fun edge next => edge.target = next.source := by
  induction traces with
  | last key => exact .nil
  | step _ _ target _ _ rest induction =>
    rw [List.isChain_cons]
    refine ⟨?_, induction⟩
    intro next isNext
    have source := rest.source rfl isNext
    rw [target, Option.some.injEq] at source
    exact source

/-- Only the last edge can call the target function, because no other edge leads to a target. -/
theorem not_calls_early :
    ∀ edge ∈ edges.dropLast, edge.action.calls function = false := by
  induction traces with
  | last key => simp
  | step _ _ _ _ calls rest induction =>
    cases rest with
    | last => simp
    | step _ _ _ plain _ _ =>
      rw [List.dropLast_cons_cons]
      exact List.forall_mem_cons.mpr ⟨calls.symm.trans plain, induction⟩

theorem getLast_calls {target : Nat} {edge : Edge} (ends : path.getLast? = some target)
    (lastEdge : edges.getLast? = some edge) :
    edge.action.calls function = arg.isTarget analysis target := by
  induction traces with
  | last key => cases lastEdge
  | step _ _ _ _ calls rest induction =>
    rw [List.getLast?_cons_cons] at ends
    cases rest with
    | last =>
      cases ends
      cases lastEdge
      exact calls.symm
    | step =>
      rw [List.getLast?_cons_cons] at lastEdge
      exact induction ends lastEdge

end

end Traces

section Links

variable {analysis : Analysis (List ComponentState)} {graph : FlowGraph} {function : String}
  {Proper : List ComponentState → Prop} {root : Nat} {arg : Arg (List ComponentState)}

/-- A path of links has edges all along. -/
theorem Coherent.exists_traces
    (coherent : arg.Coherent analysis graph Proper (Linked analysis graph function) root)
    {key : Nat} {path : List Nat}
    (chain : (key :: path).IsChain fun parent child => parent ∈ arg.live ∧ arg.Child parent child) :
    ∃ edges, arg.Traces analysis graph function (key :: path) edges := by
  induction path generalizing key with
  | nil => exact ⟨[], .last key⟩
  | cons next path induction =>
    rw [List.isChain_cons_cons] at chain
    obtain ⟨⟨live, link⟩, chain⟩ := chain
    obtain ⟨edges, traces⟩ := induction chain
    obtain ⟨plain, edge, member, source, target, calls⟩ := coherent.exists_edge live link
    exact ⟨edge :: edges, .step member source target plain calls traces⟩

end Links

/-- A path of states from the root of the graph, which lies at the entry, to a target, and the edges
along it, the last of which is the only one to call the target function. -/
structure IsWalk {σ : Type u} (setting : Setting σ) (function : String) (arg : Arg σ)
    (target : Nat) (path : List Nat) (walk : List Edge) : Prop where
  rooted : ∃ root, arg.root = some root ∧
    (arg.location setting.analysis root).map Node.id = some setting.graph.entry ∧
    arg.PathTo root target path
  edges : ∀ edge ∈ walk, edge ∈ setting.graph.edges
  connected : walk.IsChain fun edge next => edge.target = next.source
  along : path.map (fun key => (arg.location setting.analysis key).map Node.id) =
    (setting.graph.entry :: walk.map Edge.target).map some
  starts : ∃ first, walk.head? = some first ∧ first.source = setting.graph.entry
  calls : ∃ last, walk.getLast? = some last ∧ last.action.calls function = true
  once : ∀ edge ∈ walk.dropLast, edge.action.calls function = false

/-- A witness for a target: a shortest path of states from the root of the graph, which lies at the
entry, and the edges along it, the last of which is the only one to call the target function. -/
structure IsWitness {σ : Type u} (setting : Setting σ) (function : String) (arg : Arg σ)
    (target : Nat) (path : List Nat) (witness : List Edge) : Prop where
  rooted : ∃ root, arg.root = some root ∧
    (arg.location setting.analysis root).map Node.id = some setting.graph.entry ∧
    arg.PathTo root target path ∧
    ∀ other, arg.PathTo root target other → path.length ≤ other.length
  length : path.length = witness.length + 1
  edges : ∀ edge ∈ witness, edge ∈ setting.graph.edges
  connected : witness.IsChain fun edge next => edge.target = next.source
  along : path.map (fun key => (arg.location setting.analysis key).map Node.id) =
    (setting.graph.entry :: witness.map Edge.target).map some
  starts : ∃ first, witness.head? = some first ∧ first.source = setting.graph.entry
  calls : ∃ last, witness.getLast? = some last ∧ last.action.calls function = true
  once : ∀ edge ∈ witness.dropLast, edge.action.calls function = false

end Arg

namespace Launch

variable {config : Config} {name : String} {program : Stmt}
  {setting : Setting (List ComponentState)} {prior : Arg (List ComponentState)}
  {start head : Search (List ComponentState)}

section

variable (launch : Launch config name program setting prior start)
  (heads : Relation.ReflTransGen (Search.Continues setting) start head)

include launch heads

theorem root_plain :
    head.arg.isTarget setting.analysis prior.states.size = false := by
  obtain ⟨components, composed, _, _, laws⟩ := launch.exists_laws
  obtain ⟨order, _, started⟩ := launch.started
  rw [Arg.isTarget_eq, Search.head_wrapped_root laws started heads, composed]
  exact (congrArg _ (composite_initial _)).trans (isTarget_state _ _)

/-- The edges along a path of links to a target, which the graph yields. -/
theorem exists_walk {target : Nat} (live : target ∈ head.arg.live)
    (isTarget : head.arg.isTarget setting.analysis target = true) {path : List Nat}
    (pathTo : head.arg.PathTo prior.states.size target path) :
    ∃ walk, head.arg.pathEdges setting.analysis setting.graph path = .ok walk ∧
      head.arg.IsWalk setting config.analysis.targetFunction target path walk := by
  obtain ⟨Proper, laws, tracked⟩ := launch.exists_tracked (.head heads)
  have coherent := tracked.coherent
  obtain ⟨rest, rfl⟩ := List.head?_eq_some_iff.mp pathTo.starts
  obtain ⟨_, chain⟩ := coherent.isChain_children live pathTo.ends pathTo.links
  obtain ⟨walk, traces⟩ := coherent.exists_traces chain
  have atEntry := coherent.location_root
  have nonempty : walk ≠ [] := by
    rintro rfl
    cases traces
    have same : prior.states.size = target := Option.some.inj pathTo.ends
    rw [← same, launch.root_plain heads] at isTarget
    cases isTarget
  refine ⟨walk, traces.pathEdges launch.simple, ?_⟩
  constructor
  · exact ⟨_, coherent.rooted, atEntry, pathTo⟩
  · exact traces.mem_edges
  · exact traces.connected
  · apply traces.places
    rintro key ⟨⟩
    exact atEntry
  · have first := List.head?_eq_some_head nonempty
    have source := traces.source rfl first
    rw [atEntry, Option.some.injEq] at source
    exact ⟨_, first, source.symm⟩
  · have last := List.getLast?_eq_some_getLast nonempty
    exact ⟨_, last, (traces.getLast_calls pathTo.ends last).trans isTarget⟩
  · exact traces.not_calls_early

/-- A target that has not been removed has a witness, which the graph yields. -/
theorem exists_witness {target : Nat} (live : target ∈ head.arg.live)
    (isTarget : head.arg.isTarget setting.analysis target = true) :
    ∃ path witness, head.arg.witnessPath target = .ok path ∧
      head.arg.pathEdges setting.analysis setting.graph path = .ok witness ∧
      head.arg.IsWitness setting config.analysis.targetFunction target path witness := by
  obtain ⟨Proper, laws, tracked⟩ := launch.exists_tracked (.head heads)
  obtain ⟨path, found, pathTo, shortest⟩ := tracked.coherent.witnessPath_ok live
  obtain ⟨witness, edgesFound, walk⟩ := launch.exists_walk heads live isTarget pathTo
  refine ⟨path, witness, found, edgesFound, ?_⟩
  constructor
  · exact ⟨_, tracked.coherent.rooted, tracked.coherent.location_root, pathTo, shortest⟩
  · simpa using congrArg List.length walk.along
  · exact walk.edges
  · exact walk.connected
  · exact walk.along
  · exact walk.starts
  · exact walk.calls
  · exact walk.once

theorem visit_witnessed {state : ReachedState Nat} {popped : Search (List ComponentState)}
    (pops : head.Popped state popped)
    (isTarget : head.arg.isTarget setting.analysis state.key = true) :
    ∃ path witness,
      popped.visit setting state.key = .finished popped (.targetFound state.key path witness) ∧
      head.arg.IsWitness setting config.analysis.targetFunction state.key path witness := by
  obtain ⟨Proper, laws, tracked⟩ := launch.exists_tracked (.head heads)
  have live := tracked.state_live pops.member
  obtain ⟨path, witness, pathFound, edgesFound, isWitness⟩ :=
    launch.exists_witness heads live isTarget
  refine ⟨path, witness, ?_, isWitness⟩
  rw [← pops.arg] at isTarget pathFound edgesFound
  apply Search.visit_eq_targetFound isTarget pathFound edgesFound

theorem step_ne_failed (interruption : Option Interruption) (final : Search (List ComponentState))
    (error : WitnessError) : head.step setting interruption ≠ .failed final error := by
  obtain ⟨Proper, laws, tracked⟩ := launch.exists_tracked (.head heads)
  rcases Search.step_cases tracked.valid interruption with ⟨ended, _⟩ | ⟨reason, ended⟩ |
    ⟨state, popped, _, pops, visited⟩
  · rw [ended]
    nofun
  · rw [ended]
    nofun
  · rw [visited]
    cases isTarget : head.arg.isTarget setting.analysis state.key with
    | true =>
      obtain ⟨path, witness, found, _⟩ := launch.visit_witnessed heads pops isTarget
      simp [found]
    | false =>
      rw [← pops.arg] at isTarget
      simp [Search.visit_eq_continued isTarget]

end

/-- Iterations never fail, and an iteration that takes a target from the waitlist ends the
exploration with a witness. -/
theorem targets_witnessed (launch : Launch config name program setting prior start)
    (heads : Relation.ReflTransGen (Search.Continues setting) start head) :
    (∀ interruption final error, head.step setting interruption ≠ .failed final error) ∧
      ∀ state, head.Pops setting state →
        head.arg.isTarget setting.analysis state.key = true →
        ∃ final path witness,
          head.step setting none = .finished final (.targetFound state.key path witness) ∧
          final.arg = head.arg ∧
          head.arg.IsWitness setting config.analysis.targetFunction state.key path witness := by
  obtain ⟨Proper, laws, tracked⟩ := launch.exists_tracked (.head heads)
  refine ⟨launch.step_ne_failed heads, ?_⟩
  intro state pops isTarget
  obtain ⟨popped, taken, visited⟩ := pops.step tracked.valid
  obtain ⟨path, witness, found, isWitness⟩ := launch.visit_witnessed heads taken isTarget
  exact ⟨popped, path, witness, visited.trans found, taken.arg, isWitness⟩

/-- An exploration finds a target by taking it from the waitlist; the path is the one that the graph
yields. -/
theorem exists_visit (launch : Launch config name program setting prior start)
    {final : Search (List ComponentState)} {key : Nat} {path : List Nat} {witness : List Edge}
    (ends : start.Ends setting (.finished final (.targetFound key path witness))) :
    ∃ head state, Relation.ReflTransGen (Search.Continues setting) start head ∧
      head.Pops setting state ∧ head.Popped state final ∧ state.key = key ∧
      head.arg.isTarget setting.analysis key = true ∧
      head.arg.pathEdges setting.analysis setting.graph path = .ok witness ∧
      head.arg.IsWitness setting config.analysis.targetFunction key path witness := by
  obtain ⟨head, interruption, heads, found, _⟩ := ends
  obtain ⟨Proper, laws, tracked⟩ := launch.exists_tracked (.head heads)
  rcases Search.step_cases tracked.valid interruption with ⟨ended, _⟩ | ⟨reason, ended⟩ |
    ⟨state, popped, pops, taken, visited⟩
  · rw [ended] at found
    cases found
  · rw [ended] at found
    cases found
  · rw [visited] at found
    obtain ⟨rfl, isTarget⟩ := Search.visit_targetFound found
    rw [taken.arg] at isTarget
    obtain ⟨_, _, pathFound, edgesFound, isWitness⟩ :=
      launch.exists_witness heads (tracked.state_live taken.member) isTarget
    rw [← taken.arg] at pathFound edgesFound
    rw [Search.visit_eq_targetFound (taken.arg ▸ isTarget) pathFound edgesFound] at found
    cases found
    rw [taken.arg] at edgesFound
    exact ⟨head, state, heads, pops, taken, rfl, isTarget, edgesFound, isWitness⟩

/-- A loop that counts up to three, and a call to the target after it. -/
def countsThrough : Stmt :=
  .block {} [
    .assign {} "x" (.literal 0 0),
    .loop {} (.binary 0 (.compare .lt) (.var 0 "x") (.literal 0 3))
      (.assign {} "x" (.binary 0 (.arith .add) (.var 0 "x") (.literal 0 1))),
    .branch {} (.binary 0 (.compare .lt) (.literal 0 2) (.var 0 "x"))
      (.call {} "" "reach_error" []) .missing]

theorem exists_launch_countsThrough : ∃ setting start final key path witness,
    Launch {} "countsThrough" countsThrough setting {} start ∧
      start.Ends setting (.finished final (.targetFound key path witness)) := by
  obtain ⟨setting, start, final, verdict, launch, ends, status⟩ :=
    launch_of_status {} "countsThrough" countsThrough 20 "target found" rfl (by cbv)
  obtain ⟨key, path, witness, rfl⟩ := Verdict.status_eq_targetFound.mp status
  exact ⟨setting, start, final, key, path, witness, launch, ends⟩

/-- The loop is explored with merges at its head, which the path to the target goes through. -/
theorem targets_witnessed_countsThrough : ∃ setting start head state final path witness,
    Launch {} "countsThrough" countsThrough setting {} start ∧
      Relation.ReflTransGen (Search.Continues setting) start head ∧
      head.Pops setting state ∧ head.arg.isTarget setting.analysis state.key = true ∧
      head.step setting none = .finished final (.targetFound state.key path witness) ∧
      head.arg.IsWitness setting "reach_error" state.key path witness := by
  obtain ⟨setting, start, _, _, _, _, launch, ends⟩ := exists_launch_countsThrough
  obtain ⟨head, state, heads, pops, _, rfl, isTarget, _⟩ := launch.exists_visit ends
  obtain ⟨final, path, witness, step, _, isWitness⟩ :=
    (targets_witnessed launch heads).2 state pops isTarget
  exact ⟨setting, start, head, state, final, path, witness, launch, heads, pops, isTarget, step,
    isWitness⟩

end Launch

end Reachability
