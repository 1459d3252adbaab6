import Mathlib
import Reachability.Execution.Run

/-!
# Concrete executions step by step

Whether an execution chooses its edges or is told them, every edge it takes is
enabled and performed.  Both kinds of executions are therefore sequences of the
same steps, and stop at a point that can be reached by them.
-/

namespace Reachability

namespace Machine

variable {inputs : Inputs} {machine ready : Machine} {edge : Edge}

theorem enabled_env {taken : Bool} (enables : machine.enabled inputs edge = .ok (taken, ready)) :
    ready.env = machine.env := by
  unfold enabled at enables
  split at enables
  · rename_i cond truth _
    cases value : cond.eval inputs.draw machine.env machine.drawn with
    | error error => simp [value, bind, Except.bind] at enables
    | ok result =>
      simp only [value, bind, Except.bind, pure, Except.pure] at enables
      cases enables
      rfl
  · cases enables
    rfl

/-- A choice leaves the variables alone; the chosen edge is enabled after the draws of those before
it. -/
theorem choose_ok {edges : List Edge} {chosen : Option Edge}
    (chooses : machine.choose inputs edges = .ok (chosen, ready)) :
    ready.env = machine.env ∧ ∀ edge, chosen = some edge → edge ∈ edges ∧
      ∃ drawn, ({ env := machine.env, drawn } : Machine).enabled inputs edge =
        .ok (true, ready) := by
  induction edges generalizing machine with
  | nil =>
    cases chooses
    exact ⟨rfl, by simp⟩
  | cons first rest induction =>
    unfold choose at chooses
    cases enables : machine.enabled inputs first with
    | error error => simp [enables, bind, Except.bind] at chooses
    | ok result =>
      obtain ⟨taken, after⟩ := result
      have sameEnv := enabled_env enables
      simp only [enables, bind, Except.bind] at chooses
      split at chooses
      · rename_i takes
        cases chooses
        subst takes
        refine ⟨sameEnv, ?_⟩
        rintro edge ⟨⟩
        exact ⟨List.mem_cons_self, machine.drawn, enables⟩
      · obtain ⟨env, later⟩ := induction chooses
        refine ⟨env.trans sameEnv, ?_⟩
        intro edge isChosen
        obtain ⟨member, drawn, enabled⟩ := later edge isChosen
        rw [sameEnv] at enabled
        exact ⟨List.mem_cons_of_mem _ member, drawn, enabled⟩

end Machine

/-- A point of an execution: where control is, the values of the variables, and whether the target
has been called. -/
structure Point where
  node : Nat
  env : Env
  called : Bool := false

/-- One edge is taken.  How many values have been drawn before is left open. -/
inductive Point.Steps (graph : FlowGraph) (target : String) (inputs : Inputs) :
    Point → Point → Prop where
  | take {env : Env} {drawn : Nat} {edge : Edge} {ready after : Machine}
      (member : edge ∈ graph.edges)
      (enabled : ({ env, drawn } : Machine).enabled inputs edge = .ok (true, ready))
      (performed : ready.perform inputs target edge.action = .ok after) :
      Steps graph target inputs { node := edge.source, env }
        { node := edge.target, env := after.env, called := edge.action.calls target }

/-- The node where an execution has stopped.  An action that fails leaves control where it was. -/
def Outcome.node (graph : FlowGraph) (outcome : Outcome) : Nat :=
  match outcome.ending with
  | .failed (.action edge _) => edge.source
  | _ => (outcome.trace.getLast?.map Edge.target).getD graph.entry

/-- A point where an execution may have stopped with some outcome. -/
structure Outcome.StopsAt (graph : FlowGraph) (outcome : Outcome) (point : Point) : Prop where
  node : point.node = outcome.node graph
  env : point.env = outcome.env
  reached : outcome.ending = .reached → point.called = true

def FlowGraph.after (graph : FlowGraph) (trace : List Edge) : Nat :=
  (trace.head?.map Edge.target).getD graph.entry

section Stops

variable {graph : FlowGraph} {target : String} {inputs : Inputs} {machine : Machine}
  {trace : List Edge} {env : Env}

theorem node_finish {ending : Ending} (kept : ∀ edge error, ending ≠ .failed (.action edge error)) :
    (machine.finish trace ending).node graph = graph.after trace := by
  unfold Outcome.node Machine.finish FlowGraph.after
  dsimp only
  rw [List.getLast?_reverse]
  split
  · exact absurd rfl (kept _ _)
  · rfl

theorem stopsAt_finish {ending : Ending} (same : env = machine.env)
    (kept : ∀ edge error, ending ≠ .failed (.action edge error)) (going : ending ≠ .reached) :
    (machine.finish trace ending).StopsAt graph { node := graph.after trace, env } :=
  ⟨(node_finish kept).symm, same, fun reached => absurd reached going⟩

theorem walk_exit {node : Nat} (isExit : graph.outgoing node = []) (steps : Nat) :
    graph.walk target inputs steps node machine trace = machine.finish trace .terminated := by
  unfold FlowGraph.walk
  rw [isExit]

theorem walk_zero {node : Nat} (leaves : graph.outgoing node ≠ []) :
    graph.walk target inputs 0 node machine trace = machine.finish trace .stopped := by
  unfold FlowGraph.walk
  split
  · exact absurd (by assumption) leaves
  · rfl

theorem walk_succ {node : Nat} (leaves : graph.outgoing node ≠ []) (steps : Nat) :
    graph.walk target inputs (steps + 1) node machine trace =
      match machine.choose inputs (graph.outgoing node) with
      | .error error => machine.finish trace (.failed (.condition error))
      | .ok (none, machine) => machine.finish trace .blocked
      | .ok (some edge, machine) =>
        match machine.perform inputs target edge.action with
        | .error error => machine.finish (edge :: trace) (.failed (.action edge error))
        | .ok machine =>
          if edge.action.calls target then machine.finish (edge :: trace) .reached
          else graph.walk target inputs steps edge.target machine (edge :: trace) := by
  conv => lhs; unfold FlowGraph.walk
  split
  · exact absurd (by assumption) leaves
  · rfl

theorem walk_stops (steps : Nat) (machine : Machine) (trace : List Edge) :
    ∃ point, Relation.ReflTransGen (Point.Steps graph target inputs)
        { node := graph.after trace, env := machine.env } point ∧
      (graph.walk target inputs steps (graph.after trace) machine trace).StopsAt graph point := by
  induction steps generalizing machine trace with
  | zero =>
    refine ⟨_, .refl, ?_⟩
    by_cases isExit : graph.outgoing (graph.after trace) = []
    · rw [walk_exit isExit]
      exact stopsAt_finish rfl (by simp) (by simp)
    · rw [walk_zero isExit]
      exact stopsAt_finish rfl (by simp) (by simp)
  | succ steps induction =>
    by_cases isExit : graph.outgoing (graph.after trace) = []
    · rw [walk_exit isExit]
      exact ⟨_, .refl, stopsAt_finish rfl (by simp) (by simp)⟩
    · rw [walk_succ isExit]
      split
      · exact ⟨_, .refl, stopsAt_finish rfl (by simp) (by simp)⟩
      · rename_i ready chooses
        exact ⟨_, .refl, stopsAt_finish (Machine.choose_ok chooses).1.symm (by simp) (by simp)⟩
      · rename_i edge ready chooses
        obtain ⟨sameEnv, chosen⟩ := Machine.choose_ok chooses
        obtain ⟨leaving, drawn, enabled⟩ := chosen edge rfl
        obtain ⟨member, source⟩ := FlowGraph.mem_outgoing.mp leaving
        split
        · exact ⟨_, .refl, source.symm, sameEnv.symm, by simp [Machine.finish]⟩
        · rename_i after performed
          have step := Point.Steps.take member enabled performed
          rw [source] at step
          split
          · rename_i calls
            refine ⟨_, .single step, ?_, rfl, fun _ => calls⟩
            rw [node_finish (by simp)]
            rfl
          · rename_i silent
            rw [Bool.not_eq_true] at silent
            rw [silent] at step
            obtain ⟨point, run, stops⟩ := induction after (edge :: trace)
            exact ⟨point, .head step run, stops⟩

theorem follow_stops (edges : List Edge) (machine : Machine) (trace : List Edge)
    (members : ∀ edge ∈ edges, edge ∈ graph.edges)
    (starts : trace = [] → ∀ edge, edges.head? = some edge → edge.source = graph.entry) :
    ∃ point, Relation.ReflTransGen (Point.Steps graph target inputs)
        { node := graph.after trace, env := machine.env } point ∧
      (graph.follow target inputs trace.head? edges machine trace).StopsAt graph point := by
  induction edges generalizing machine trace with
  | nil =>
    refine ⟨_, .refl, ?_⟩
    unfold FlowGraph.follow
    split
    · refine stopsAt_finish rfl ?_ ?_
      · split <;> simp
      · split <;> simp
    · exact stopsAt_finish rfl (by simp) (by simp)
  | cons edge rest induction =>
    unfold FlowGraph.follow
    split
    · exact ⟨_, .refl, stopsAt_finish rfl (by simp) (by simp)⟩
    · rename_i connected
      have source : edge.source = graph.after trace := by
        cases trace with
        | nil => exact starts rfl edge rfl
        | cons last earlier =>
          simp only [List.head?_cons, Option.filter_eq_none_iff, Option.some.injEq,
            forall_eq', bne_iff_ne, ne_eq, not_not] at connected
          exact connected.symm
      split
      · exact ⟨_, .refl, stopsAt_finish rfl (by simp) (by simp)⟩
      · rename_i ready enables
        exact ⟨_, .refl, stopsAt_finish (Machine.enabled_env enables).symm (by simp) (by simp)⟩
      · rename_i ready enables
        split
        · exact ⟨_, .refl, source.symm, (Machine.enabled_env enables).symm,
            by simp [Machine.finish]⟩
        · rename_i after performed
          have step := Point.Steps.take (members edge List.mem_cons_self) enables performed
          rw [source] at step
          split
          · rename_i calls
            refine ⟨_, .single step, ?_, rfl, fun _ => calls⟩
            rw [node_finish (by simp)]
            rfl
          · rename_i silent
            rw [Bool.not_eq_true] at silent
            rw [silent] at step
            obtain ⟨point, run, stops⟩ := induction after (edge :: trace)
              (fun other member => members other (List.mem_cons_of_mem _ member)) (by simp)
            exact ⟨point, .head step run, stops⟩

/-- Exceeding a limit is noted where the execution has stopped. -/
theorem Outcome.StopsAt.atLimit {outcome : Outcome} {point : Point}
    (stops : outcome.StopsAt graph point) (stopped : outcome.ending = .stopped) (limit : Nat) :
    ({ outcome with ending := .failed (.stepLimit limit graph.name) } : Outcome).StopsAt graph
      point := by
  refine ⟨stops.node.trans ?_, stops.env, by simp⟩
  simp only [Outcome.node, stopped]

theorem runFor_stops (graph : FlowGraph) (target : String) (inputs : Inputs) (steps : Nat) :
    ∃ point, Relation.ReflTransGen (Point.Steps graph target inputs)
        { node := graph.entry, env := inputs.initial } point ∧
      (graph.runFor target inputs steps).StopsAt graph point :=
  walk_stops steps (.start inputs) []

theorem run_stops (graph : FlowGraph) (target : String) (inputs : Inputs) (limit : Nat) :
    ∃ point, Relation.ReflTransGen (Point.Steps graph target inputs)
        { node := graph.entry, env := inputs.initial } point ∧
      (graph.run target inputs limit).StopsAt graph point := by
  obtain ⟨point, run, stops⟩ := runFor_stops graph target inputs limit
  refine ⟨point, run, ?_⟩
  unfold FlowGraph.run
  dsimp only
  split
  · rename_i stopped
    exact stops.atLimit stopped limit
  · exact stops

theorem replay_stops (graph : FlowGraph) (target : String) (inputs : Inputs) {edges : List Edge}
    (members : ∀ edge ∈ edges, edge ∈ graph.edges)
    (starts : ∀ edge, edges.head? = some edge → edge.source = graph.entry) :
    ∃ point, Relation.ReflTransGen (Point.Steps graph target inputs)
        { node := graph.entry, env := inputs.initial } point ∧
      (graph.replay edges target inputs).StopsAt graph point :=
  follow_stops edges (.start inputs) [] members fun _ => starts

end Stops

end Reachability
