import Mathlib
import Reachability.Proofs.Analysis.Links
import Reachability.Proofs.Bounds.Inclusion
import Reachability.Proofs.Execution.Supply
import Reachability.Proofs.Verification.Witness

/-!
# Replays with chosen inputs

Walks through the abstract reachability graph are replayed with values chosen
from the bounds at their states.  No interval there is empty, so the value
chosen for an edge is a member of the interval where its variable is written
next.  The replay stores it, unless an operand that has been skipped before has
left values over: then every later edge receives a value that was chosen for
another one.
-/

namespace Reachability

namespace ComponentState

def Nonempty (state : ComponentState) : Prop :=
  ∀ bounds, state.bounds? = some bounds → bounds.Nonempty

variable {graph : FlowGraph} {target : String} {edge : Edge}
  {state next new reached merged : ComponentState}

theorem Nonempty.steps (nonempty : state.Nonempty) (steps : Steps graph target edge state next) :
    next.Nonempty := by
  intro bounds isBounds
  cases steps with
  | bounds passes =>
    cases isBounds
    obtain ⟨wide, _, inside⟩ := (Bounds.Inside.refl (nonempty _ rfl)).after passes
    exact inside.nonempty
  | location | safe | called => cases isBounds

theorem Nonempty.merges (nonempty : reached.Nonempty) (merges : Merges new reached merged) :
    merged.Nonempty := by
  intro bounds isBounds
  cases merges with
  | bounds _ joined =>
    cases isBounds
    have kept := Bounds.Inside.refl (nonempty _ rfl)
    rcases joined with rfl | rfl
    · exact kept.nonempty
    · intro name
      exact Interval.nonempty_of_mem ((kept.join name).mem (kept name).lo_mem)
  | location | call => cases isBounds

end ComponentState

section Laws

open ComponentState

variable {graph : FlowGraph} {components : List Component} {tuple : List ComponentState}

theorem nonempty_linkLaws (target : String) (simple : graph.Simple)
    (located : .location ∈ components) (watched : .calls ∈ components) :
    let analysis := Component.joint graph target components
    analysis.LinkLaws graph
      (fun tuple => List.Forall₂ Belongs components tuple ∧ ∀ state ∈ tuple, state.Nonempty)
      (Linked analysis graph target) := by
  apply statewise_linkLaws target simple located watched
  · intro component bounds isBounds
    cases component with
    | value policy =>
      cases isBounds
      exact Bounds.nonempty_unknown
    | location | calls => cases isBounds
  · intro edge state next _
    exact Nonempty.steps
  · exact Nonempty.merges

theorem boundsOf_nonempty (nonempty : ∀ state ∈ tuple, state.Nonempty) :
    (Verification.boundsOf tuple).Nonempty := by
  unfold Verification.boundsOf
  cases found : tuple.findSome? ComponentState.bounds? with
  | none => exact Bounds.nonempty_unknown
  | some bounds =>
    obtain ⟨state, member, isBounds⟩ := List.exists_of_findSome?_eq_some found
    exact nonempty state member bounds isBounds

end Laws

/-- The edges between locations belong to the graph, and there is one for each step. -/
theorem FlowGraph.edgesFrom_ok {graph : FlowGraph} {index : Nat} {locations : List (Option Node)}
    {edges : List Edge} (found : graph.edgesFrom index locations = .ok edges) :
    (∀ edge ∈ edges, edge ∈ graph.edges) ∧ edges.length = locations.length - 1 := by
  fun_induction edgesFrom graph index locations generalizing edges with
  | case1 | case2 =>
    cases found
    simp
  | case3 | case4 => cases found
  | case5 index source target rest edge isEdge induction =>
    cases later : graph.edgesFrom (index + 1) (target :: rest) with
    | error gap =>
      rw [later] at found
      cases found
    | ok laterEdges =>
      rw [later] at found
      cases found
      obtain ⟨members, lengths⟩ := induction later
      obtain ⟨_, _, between⟩ := Option.bind_eq_some_iff.mp isEdge
      have leaving := FlowGraph.mem_outgoing.mp (List.mem_of_find?_eq_some between)
      constructor
      · exact List.forall_mem_cons.mpr ⟨leaving.1, members⟩
      · simp only [List.length_cons] at lengths ⊢
        omega

theorem Arg.pathEdges_ok {σ : Type u} {analysis : Analysis σ} {graph : FlowGraph} {arg : Arg σ}
    {path : List Nat} {edges : List Edge} (found : arg.pathEdges analysis graph path = .ok edges) :
    (∀ edge ∈ edges, edge ∈ graph.edges) ∧ edges.length = path.length - 1 := by
  cases along : graph.edgesAlong (path.map (arg.location analysis)) with
  | ok others =>
    simp only [pathEdges, along] at found
    cases found
    rw [← path.length_map (f := arg.location analysis)]
    exact FlowGraph.edgesFrom_ok along
  | error gap => cases gap <;> simp [pathEdges, along] at found

/-- The value that inputs for a path provide for a variable which receives one along an edge.  It is
the last of those written up to the edge, and a member closest to zero of the interval that the
variable has where it is written next, or else at the last state. -/
structure Inputs.Picks (arg : Arg (List ComponentState)) (path : List Nat) (edges : List Edge)
    (inputs : Inputs) (index : Nat) (var : String) (value : Int64) : Prop where
  provided : inputs.nondet[Edge.drawCount (edges.take (index + 1)) - 1]? = some value
  closest : ∃ next key tuple, Edge.NextWrite edges index var next ∧ path[next]? = some key ∧
    arg.wrapped? key = some tuple ∧ ((Verification.boundsOf tuple).get var).Closest value

/-- The values after an execution along some edges.  The variable that has received the last value
has the one drawn last, which is the last one written if nothing has been skipped. -/
structure Machine.Received (inputs : Inputs) (taken : List Edge) (var : String) (value : Int64)
    (after : Machine) : Prop where
  stored : after.env.value var = inputs.draw (after.drawn - 1)
  atMost : after.drawn ≤ Edge.drawCount taken
  whole : (∀ edge ∈ taken, edge.Eager) → after.drawn = Edge.drawCount taken
  agrees : after.drawn = Edge.drawCount taken → after.env.value var = value

theorem Machine.Follows.received {inputs : Inputs} {target var : String} {edges : List Edge}
    {index : Nat} {edge : Edge} {after : Machine} {value : Int64}
    (follows : Follows inputs target (.start inputs) (edges.take (index + 1)) after)
    (isEdge : edges[index]? = some edge) (receives : edge.action.receives? = some var)
    (provided : inputs.nondet[Edge.drawCount (edges.take (index + 1)) - 1]? = some value) :
    after.Received inputs (edges.take (index + 1)) var value := by
  have drawn := follows.drawn
  simp only [start] at drawn
  obtain ⟨earlier, isLast, lastDrawn⟩ := follows.receives isEdge receives
  have stored : after.env.value var = inputs.draw (after.drawn - 1) := by
    rw [lastDrawn, isLast, Nat.add_sub_cancel]
  constructor
  · exact stored
  · simpa using drawn.atMost
  · simpa using drawn.exactly
  · intro whole
    rw [stored, whole, Inputs.draw, List.getD_eq_getElem?_getD, provided, Option.getD_some]

/-- The values provided for an attempt, whether it calls the target function, its edges and the
value of a variable after them. -/
def Verification.Attempt.view (attempt : Attempt) (var : String) :
    List Int64 × Bool × List Edge × Int64 :=
  (attempt.inputs.nondet, attempt.reached, attempt.outcome.trace, attempt.outcome.env.value var)

namespace Launch

variable {config : Config} {name : String} {program : Stmt}
  {setting : Setting (List ComponentState)} {prior : Arg (List ComponentState)}
  {start search : Search (List ComponentState)}

theorem exists_nonempty (launch : Launch config name program setting prior start)
    (occurs : start.Occurs setting search) {key : Nat} (live : key ∈ search.arg.live) :
    ∃ tuple, search.arg.wrapped? key = some tuple ∧ (Verification.boundsOf tuple).Nonempty := by
  obtain ⟨components, composed, _, _, located, watched⟩ := launch.exists_composition
  obtain ⟨order, _, started⟩ := launch.started
  have laws := nonempty_linkLaws config.analysis.targetFunction launch.simple located watched
  rw [← composed] at laws
  have coherent := (occurs.tracked laws started).coherent
  obtain ⟨tuple, wraps⟩ := Arg.exists_state live
  have proper := coherent.proper key tuple (Arg.first_le live) wraps
  exact ⟨tuple, wraps, boundsOf_nonempty proper.2⟩

theorem exists_picked (launch : Launch config name program setting prior start)
    (occurs : start.Occurs setting search) {path : List Nat} {edges : List Edge}
    (live : ∀ key ∈ path, key ∈ search.arg.live)
    (found : search.arg.pathEdges setting.analysis setting.graph path = .ok edges) (target : String)
    {index : Nat} {edge : Edge} {var : String} (isEdge : edges[index]? = some edge)
    (receives : edge.action.receives? = some var) :
    ∃ value, (Verification.attempt target setting search.arg path edges).inputs.Picks
      search.arg path edges index var value := by
  obtain ⟨members, lengths⟩ := Arg.pathEdges_ok found
  obtain ⟨inside, _⟩ := List.getElem?_eq_some_iff.mp isEdge
  have named : var ≠ "" := FlowGraph.build_written launch.built
    (members edge (List.mem_of_getElem? isEdge)) (Action.written?_of_receives receives)
  have aligned : (path.map fun key => ((search.arg.wrapped? key).map
      Verification.boundsOf).getD .unknown).length = edges.length + 1 := by
    rw [List.length_map]
    omega
  obtain ⟨next, isNext, provided⟩ := Inputs.exists_supplied aligned isEdge receives named
  have bound : next < path.length := Nat.lt_of_le_of_lt isNext.bound (by omega)
  have isKey : path[next]? = some path[next] := List.getElem?_eq_getElem bound
  obtain ⟨tuple, wraps, nonempty⟩ :=
    launch.exists_nonempty occurs (live _ (List.mem_of_getElem? isKey))
  rw [List.getD_eq_getElem?_getD, List.getElem?_map, isKey, Option.map_some, Option.getD_some,
    wraps, Option.map_some, Option.getD_some] at provided
  exact ⟨_, provided, next, _, tuple, isNext, isKey, wraps,
    Interval.closest_closestToZero (nonempty var)⟩

theorem path_of_targetFound (launch : Launch config name program setting prior start)
    {final : Search (List ComponentState)} {key : Nat} {path : List Nat} {witness : List Edge}
    (ends : start.Ends setting (.finished final (.targetFound key path witness))) :
    (∀ key ∈ path, key ∈ final.arg.live) ∧
      final.arg.pathEdges setting.analysis setting.graph path = .ok witness := by
  obtain ⟨Proper, laws, tracked⟩ := launch.exists_tracked (.ended ends)
  obtain ⟨head, state, _, _, pops, rfl, _, edgesFound, isWitness⟩ := launch.exists_visit ends
  rw [← pops.arg] at edgesFound isWitness
  have live : state.key ∈ final.arg.live := tracked.state_live (pops.states ▸ pops.member)
  obtain ⟨root, _, _, pathTo, _⟩ := isWitness.rooted
  obtain ⟨rest, rfl⟩ := List.head?_eq_some_iff.mp pathTo.starts
  exact ⟨(tracked.coherent.isChain_children live pathTo.ends pathTo.links).1, edgesFound⟩

/-- A walk is replayed with a value picked for each edge that stores one as it is: a member closest
to zero of the interval that the variable has where it is written next.  If the replay executes the
edge, and evaluating its arguments does not fail, the variable gets the value drawn last.  This is
the picked value if no value written before has been skipped, and never a later one. -/
theorem replay_stores (launch : Launch config name program setting prior start)
    (occurs : start.Occurs setting search) {path : List Nat} {edges : List Edge}
    (live : ∀ key ∈ path, key ∈ search.arg.live)
    (found : search.arg.pathEdges setting.analysis setting.graph path = .ok edges) (target : String)
    {index : Nat} {edge : Edge} {var : String} (isEdge : edges[index]? = some edge)
    (receives : edge.action.receives? = some var) (silent : edge.action.calls target = false) :
    let tried := Verification.attempt target setting search.arg path edges
    let taken := edges.take (index + 1)
    ∃ value, tried.inputs.Picks search.arg path edges index var value ∧
      (index < tried.outcome.trace.length →
        (∃ error, tried.outcome.ending = .failed (.action edge error)) ∨
        ∃ after, Machine.Follows tried.inputs target (.start tried.inputs) taken after ∧
          (setting.graph.replay taken target tried.inputs).env = after.env ∧
          after.Received tried.inputs taken var value) := by
  intro tried taken
  obtain ⟨value, picks⟩ := launch.exists_picked occurs live found target isEdge receives
  refine ⟨value, picks, ?_⟩
  intro executed
  have inTrace : ([] : List Edge).length + index <
      (setting.graph.follow target tried.inputs none edges
        (.start tried.inputs) []).trace.length := by
    rw [List.length_nil, Nat.zero_add]
    exact executed
  rcases FlowGraph.follow_executed isEdge inTrace with failed | calls | ⟨after, follows, sameEnv⟩
  · exact .inl failed
  · rw [silent] at calls
    cases calls
  · exact .inr ⟨after, follows, sameEnv, follows.received isEdge receives picks.provided⟩

/-- A variable that receives two values, and a call that draws for its argument before its
result. -/
def drawsInTurn : Stmt :=
  .block {} [
    .assign {} "x" (.nondet 0 ""),
    .call {} "y" "read" [.binary 0 (.arith .add) (.nondet 0 "") (.var 0 "x")],
    .branch {} (.binary 0 (.compare .eq) (.var 0 "x") (.literal 0 3))
      (.block {} [
        .assign {} "x" (.nondet 0 ""),
        .branch {} (.binary 0 .and (.binary 0 (.compare .eq) (.var 0 "x") (.literal 0 7))
            (.binary 0 (.compare .eq) (.var 0 "y") (.literal 0 5)))
          (.call {} "" "reach_error" []) .missing]) .missing]

def inTurn : List Edge := [
  { id := 0, source := 0, target := 1, action := .assign "x" (.nondet 0 "") },
  { id := 1, source := 1, target := 2,
    action := .call "y" "read" [.binary 0 (.arith .add) (.nondet 0 "") (.var 0 "x")] },
  { id := 2, source := 2, target := 3,
    action := .assume (.binary 0 (.compare .eq) (.var 0 "x") (.literal 0 3)) true },
  { id := 4, source := 3, target := 5, action := .assign "x" (.nondet 0 "") },
  { id := 5, source := 5, target := 6,
    action := .assume (.binary 0 .and (.binary 0 (.compare .eq) (.var 0 "x") (.literal 0 7))
      (.binary 0 (.compare .eq) (.var 0 "y") (.literal 0 5))) true },
  { id := 7, source := 6, target := 8, action := .call "" "reach_error" [] }]

theorem replay_stores_drawsInTurn : ∃ setting start search path edge,
    Launch {} "draws" drawsInTurn setting {} start ∧ start.Occurs setting search ∧
      (∀ key ∈ path, key ∈ search.arg.live) ∧
      search.arg.pathEdges setting.analysis setting.graph path = .ok inTurn ∧
      inTurn[1]? = some edge ∧ edge.action.receives? = some "y" ∧
      edge.action.calls "reach_error" = false ∧
      (Verification.attempt "reach_error" setting search.arg path inTurn).inputs.Picks
        search.arg path inTurn 1 "y" 5 ∧
      (setting.graph.replay (inTurn.take 2) "reach_error"
        (Verification.attempt "reach_error" setting search.arg path
          inTurn).inputs).env.value "y" = 5 := by
  have evaluated : ((endWithin 60 {} "draws" drawsInTurn).map fun ended =>
      (ended.2.2, (Verification.attempt "reach_error" ended.1 ended.2.1.arg [0, 1, 2, 3, 5, 6, 9]
        inTurn).view "y")) =
      some (.targetFound 9 [0, 1, 2, 3, 5, 6, 9] inTurn, [3, 0, 5, 7], true, inTurn, 5) := by cbv
  obtain ⟨⟨setting, final, verdict⟩, ended, values⟩ := Option.map_eq_some_iff.mp evaluated
  simp only [Verification.Attempt.view, Prod.mk.injEq] at values
  obtain ⟨rfl, nondet, reached, trace, _⟩ := values
  obtain ⟨start, launch, ends⟩ := launch_of_end rfl ended
  have occurs : start.Occurs setting final := .ended ends
  obtain ⟨live, edgesFound⟩ := launch.path_of_targetFound ends
  have isEdge : inTurn[1]? = some inTurn[1] := rfl
  obtain ⟨value, picks, stores⟩ :=
    replay_stores launch occurs live edgesFound "reach_error" isEdge rfl rfl
  have provided := picks.provided
  rw [nondet] at provided
  have isFive : 5 = value := Option.some.inj provided
  subst isFive
  refine ⟨setting, start, final, _, _, launch, occurs, live, edgesFound, isEdge, rfl, rfl, picks,
    ?_⟩
  rcases stores (by rw [trace]; decide) with ⟨error, failed⟩ | ⟨after, _, sameEnv, received⟩
  · simp [Verification.Attempt.reached, failed] at reached
  · rw [sameEnv]
    exact received.agrees (received.whole (by decide))

end Launch

/-- A value behind a logical operator that skips it, before a variable receives one. -/
def skipsDraw : Stmt :=
  .block {} [
    .assign {} "x" (.binary 0 .and (.literal 0 0) (.nondet 0 "")),
    .assign {} "y" (.nondet 0 ""),
    .branch {} (.binary 0 (.compare .eq) (.var 0 "y") (.literal 0 5))
      (.call {} "" "reach_error" []) .missing]

def skipping : List Edge := [
  { id := 0, source := 0, target := 1,
    action := .assign "x" (.binary 0 .and (.literal 0 0) (.nondet 0 "")) },
  { id := 1, source := 1, target := 2, action := .assign "y" (.nondet 0 "") },
  { id := 2, source := 2, target := 3,
    action := .assume (.binary 0 (.compare .eq) (.var 0 "y") (.literal 0 5)) true },
  { id := 4, source := 3, target := 5, action := .call "" "reach_error" [] }]

/-- The variable is not written again, and five is all that it can be at the last state; but the
replay gives it the zero that was meant for the value skipped before. -/
theorem skipsDraw_misplaced : ∃ setting start final path tuple,
    Launch {} "skips" skipsDraw setting {} start ∧
      start.Ends setting (.finished final (.targetFound 5 path skipping)) ∧
      path.getLast? = some 5 ∧ final.arg.wrapped? 5 = some tuple ∧
      (Verification.boundsOf tuple).get "y" = .const 5 ∧
      (Verification.attempt "reach_error" setting final.arg path skipping).inputs.nondet = [0, 5] ∧
      (Verification.attempt "reach_error" setting final.arg path skipping).outcome.trace =
        skipping.take 2 ∧
      (Verification.attempt "reach_error" setting final.arg path skipping).outcome.env.value "y" =
        0 := by
  have evaluated : ((endWithin 60 {} "skips" skipsDraw).map fun ended =>
      (ended.2.2, (ended.2.1.arg.wrapped? 5).map fun tuple => (Verification.boundsOf tuple).get "y",
        (Verification.attempt "reach_error" ended.1 ended.2.1.arg [0, 1, 2, 3, 5] skipping).view
          "y")) =
      some (.targetFound 5 [0, 1, 2, 3, 5] skipping, some (.const 5), [0, 5], false,
        skipping.take 2, 0) := by cbv
  obtain ⟨⟨setting, final, verdict⟩, ended, values⟩ := Option.map_eq_some_iff.mp evaluated
  simp only [Verification.Attempt.view, Prod.mk.injEq] at values
  obtain ⟨rfl, interval, nondet, _, trace, stored⟩ := values
  obtain ⟨tuple, wraps, isFive⟩ := Option.map_eq_some_iff.mp interval
  obtain ⟨start, launch, ends⟩ := launch_of_end rfl ended
  exact ⟨setting, start, final, _, tuple, launch, ends, rfl, wraps, isFive, nondet, trace, stored⟩

end Reachability
