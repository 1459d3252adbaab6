import Mathlib
import Reachability.Proofs.Execution.Direct
import Reachability.Proofs.Execution.Draws

/-!
# Executions and their replays

An execution that chooses its edges and one that is told them go through the
same states.  Where two edges leave a node, choosing evaluates the condition
once for each edge that it looks at, so the two kinds of executions draw the
same values only if such conditions draw none.
-/

namespace Reachability

namespace FlowGraph

/-- No edge that is taken where a condition fails draws a value for it. -/
def Quiet (graph : FlowGraph) : Prop :=
  ∀ edge ∈ graph.edges, ∀ cond, edge.action = .assume cond false → cond.draws = false

theorem build_quiet {name : String} {program : Stmt} {graph : FlowGraph}
    (built : (build name program).1 = .ok graph) (steady : program.Steady) : graph.Quiet := by
  intro edge member cond assumes
  rcases build_stems built edge member with ⟨description, isBlank⟩ | ⟨stmt, inside, isAction⟩
  · rw [assumes] at isBlank
    cases isBlank
  · rw [assumes] at isAction
    have isCondition : stmt.condition? = some cond := by
      cases stmt with
      | branch span other yes no | loop span other body =>
        simp only [Stmt.actions, List.mem_cons, List.not_mem_nil, or_false, Action.assume.injEq,
          Bool.false_eq_true, and_false, and_true, false_or] at isAction
        rw [isAction]
        rfl
      | _ => simp [Stmt.actions] at isAction
    exact steady stmt inside cond isCondition

end FlowGraph

namespace Machine

variable {inputs : Inputs} {machine ready : Machine} {edge first second : Edge} {cond : Expr}

theorem choose_singleton :
    machine.choose inputs [edge] = .ok (some edge, ready) ↔
      machine.enabled inputs edge = .ok (true, ready) := by
  constructor
  · intro chooses
    cases enables : machine.enabled inputs edge with
    | error error =>
      simp only [choose, enables, bind, Except.bind] at chooses
      cases chooses
    | ok result =>
      obtain ⟨taken, after⟩ := result
      cases taken with
      | false =>
        rw [choose_cons_false enables] at chooses
        cases chooses
      | true =>
        rw [choose_cons_true enables] at chooses
        cases chooses
        rfl
  · intro enables
    exact choose_cons_true enables []

theorem ready_eq_of_quiet {truth taken : Bool} (quiet : cond.draws = false)
    (assumes : edge.action = .assume cond truth)
    (enables : machine.enabled inputs edge = .ok (taken, ready)) : ready = machine := by
  obtain ⟨value, drawn, evaluated, _, rfl⟩ := enabled_assume assumes enables
  rw [Expr.drawn_eq_of_eval quiet evaluated]

theorem enabled_opposite (holds : first.action = .assume cond true)
    (fails : second.action = .assume cond false)
    (enables : machine.enabled inputs second = .ok (true, ready)) :
    machine.enabled inputs first = .ok (false, ready) := by
  obtain ⟨value, drawn, evaluated, isZero, same⟩ := enabled_assume fails enables
  rw [enabled_assume_of holds evaluated, same]
  cases nonzero : value != 0 with
  | false => rfl
  | true =>
    rw [nonzero] at isZero
    cases isZero

theorem choose_eq_some_iff {edges : List Edge} (branching : Edge.Branching edges)
    (quiet : ∀ edge ∈ edges, ∀ cond, edge.action = .assume cond false → cond.draws = false) :
    machine.choose inputs edges = .ok (some edge, ready) ↔
      edge ∈ edges ∧ machine.enabled inputs edge = .ok (true, ready) := by
  cases branching with
  | none => simp [choose]
  | single only =>
    rw [List.mem_singleton]
    constructor
    · intro chooses
      have same : edge = only := List.mem_singleton.mp ((choose_ok chooses).2 edge rfl).1
      subst same
      exact ⟨rfl, choose_singleton.mp chooses⟩
    · rintro ⟨rfl, enables⟩
      exact choose_singleton.mpr enables
  | @fork first second cond holds fails =>
    have drawsNone : cond.draws = false := quiet second (by simp) cond fails
    constructor
    · intro chooses
      cases enables : machine.enabled inputs first with
      | error error =>
        simp only [choose, enables, bind, Except.bind] at chooses
        cases chooses
      | ok result =>
        obtain ⟨taken, after⟩ := result
        have same : after = machine := ready_eq_of_quiet drawsNone holds enables
        subst same
        cases taken with
        | true =>
          rw [choose_cons_true enables] at chooses
          cases chooses
          exact ⟨List.mem_cons_self, enables⟩
        | false =>
          rw [choose_cons_false enables] at chooses
          have same : edge = second :=
            List.mem_singleton.mp ((choose_ok chooses).2 edge rfl).1
          subst same
          exact ⟨by simp, choose_singleton.mp chooses⟩
    · rintro ⟨member, enables⟩
      rcases List.mem_cons.mp member with rfl | member
      · exact choose_cons_true enables _
      · rw [List.mem_singleton] at member
        subst member
        have same : ready = machine := ready_eq_of_quiet drawsNone fails enables
        subst same
        rw [choose_cons_false (enabled_opposite holds fails enables)]
        exact choose_singleton.mpr enables

end Machine

/-- How a replay ends that goes along an execution: an assumption that stops the execution lies
behind the replayed edges. -/
def Ending.replayed : Ending → Ending
  | .blocked => .stopped
  | ending => ending

/-- The execution has ended without an error. -/
def Outcome.Succeeds (outcome : Outcome) : Prop := ∀ fault, outcome.ending ≠ .failed fault

/-- Two executions have gone along the same edges with the same values, and agree on whether the
target has been called and whether the end of the program has been reached. -/
structure Outcome.Agrees (first second : Outcome) : Prop where
  env : first.env = second.env
  trace : first.trace = second.trace
  reached : first.ending = .reached ↔ second.ending = .reached
  terminated : first.ending = .terminated ↔ second.ending = .terminated

theorem Outcome.agrees_replayed (outcome : Outcome) :
    Outcome.Agrees { outcome with ending := outcome.ending.replayed } outcome := by
  refine ⟨rfl, rfl, ?_, ?_⟩
  · cases outcome.ending <;> simp [Ending.replayed]
  · cases outcome.ending <;> simp [Ending.replayed]

theorem Outcome.Succeeds.replayed {outcome : Outcome} (succeeds : outcome.Succeeds) :
    Outcome.Succeeds { outcome with ending := outcome.ending.replayed } := by
  intro fault failed
  unfold Succeeds at succeeds
  cases ending : outcome.ending <;> simp_all [Ending.replayed]

namespace FlowGraph

variable {graph : FlowGraph} {target : String} {inputs : Inputs} {node : Nat} {machine : Machine}
  {before : Option Edge} {trace : List Edge}

theorem choose_outgoing (branching : ∀ node, Edge.Branching (graph.outgoing node))
    (quiet : graph.Quiet) {edge : Edge} {ready : Machine} :
    machine.choose inputs (graph.outgoing node) = .ok (some edge, ready) ↔
      (edge ∈ graph.edges ∧ edge.source = node) ∧
        machine.enabled inputs edge = .ok (true, ready) := by
  rw [Machine.choose_eq_some_iff (branching node), mem_outgoing]
  intro other member
  exact quiet other (mem_outgoing.mp member).1

section Follow

variable {before : Option Edge} {machine ready done : Machine} {edge : Edge}
  {rest trace : List Edge}

theorem follow_cons (connected : ∀ last, before = some last → last.target = edge.source)
    (enables : machine.enabled inputs edge = .ok (true, ready))
    (performed : ready.perform inputs target edge.action = .ok done) :
    graph.follow target inputs before (edge :: rest) machine trace =
      if edge.action.calls target then done.finish (edge :: trace) .reached
      else graph.follow target inputs (some edge) rest done (edge :: trace) := by
  have fits : (before.filter fun last => last.target != edge.source) = none := by
    rw [Option.filter_eq_none_iff]
    intro last isLast
    rw [connected last isLast, bne_self_eq_false]
    exact Bool.false_ne_true
  rw [follow, fits]
  dsimp only
  rw [enables]
  dsimp only
  rw [performed]

theorem follow_nil {last : Edge} :
    graph.follow target inputs (some last) [] machine trace =
      machine.finish trace
        (if (graph.outgoing last.target).isEmpty then .terminated else .stopped) := by
  rw [follow]

end Follow

/-- An execution that has gone along `trace` before is repeated by replaying the edges it takes from
then on.  A replay of nothing has no end to look at, so at least one edge must have been taken. -/
def RepeatedFrom (graph : FlowGraph) (target : String) (inputs : Inputs) (before : Option Edge)
    (machine : Machine) (trace : List Edge) (outcome : Outcome) : Prop :=
  ∃ taken, outcome.trace = trace.reverse ++ taken ∧
    (taken ≠ [] ∨ before ≠ none →
      graph.follow target inputs before taken machine trace =
        { outcome with ending := outcome.ending.replayed })

theorem repeatedFrom_finish {final : Machine} {ending : Ending}
    (connected : ∀ last, before = some last → last.target = node)
    (sameEnv : final.env = machine.env)
    (isEnd : ending.replayed =
      if (graph.outgoing node).isEmpty then Ending.terminated else Ending.stopped) :
    graph.RepeatedFrom target inputs before machine trace (final.finish trace ending) := by
  refine ⟨[], (List.append_nil _).symm, ?_⟩
  intro started
  cases before with
  | none => simp at started
  | some last =>
    rw [follow_nil, connected last rfl, ← isEnd]
    simp only [Machine.finish, sameEnv]

theorem repeatedFrom_walk (branching : ∀ node, Edge.Branching (graph.outgoing node))
    (quiet : graph.Quiet) {steps : Nat}
    (connected : ∀ last, before = some last → last.target = node)
    (succeeds : (graph.walk target inputs steps node machine trace).Succeeds) :
    graph.RepeatedFrom target inputs before machine trace
      (graph.walk target inputs steps node machine trace) := by
  induction steps generalizing node machine trace before with
  | zero =>
    by_cases isExit : graph.outgoing node = []
    · rw [walk_exit isExit]
      exact repeatedFrom_finish connected rfl (by simp [isExit, Ending.replayed])
    · rw [walk_zero isExit]
      exact repeatedFrom_finish connected rfl (by simp [isExit, Ending.replayed])
  | succ steps induction =>
    by_cases isExit : graph.outgoing node = []
    · rw [walk_exit isExit]
      exact repeatedFrom_finish connected rfl (by simp [isExit, Ending.replayed])
    · cases chooses : machine.choose inputs (graph.outgoing node) with
      | error error =>
        rw [walk_succ isExit, chooses] at succeeds
        exact absurd rfl (succeeds _)
      | ok choice =>
        obtain ⟨chosen, ready⟩ := choice
        cases chosen with
        | none =>
          rw [walk_succ isExit, chooses]
          apply repeatedFrom_finish connected (Machine.choose_ok chooses).1
          simp [isExit, Ending.replayed]
        | some edge =>
          obtain ⟨⟨_, source⟩, enables⟩ := (choose_outgoing branching quiet).mp chooses
          subst source
          cases performed : ready.perform inputs target edge.action with
          | error error =>
            rw [walk_succ isExit, chooses] at succeeds
            dsimp only at succeeds
            rw [performed] at succeeds
            exact absurd rfl (succeeds _)
          | ok done =>
            rw [walk_step chooses performed] at succeeds ⊢
            by_cases calls : edge.action.calls target = true
            · rw [if_pos calls]
              refine ⟨[edge], by simp [Machine.finish], ?_⟩
              intro _
              rw [follow_cons connected enables performed, if_pos calls]
              rfl
            · rw [if_neg calls] at succeeds ⊢
              have continues : ∀ last, some edge = some last →
                  last.target = edge.target := by simp
              obtain ⟨taken, isTrace, replays⟩ := induction continues succeeds
              refine ⟨edge :: taken, ?_, ?_⟩
              · rw [isTrace, List.reverse_cons, List.append_assoc]
                rfl
              · intro _
                rw [follow_cons connected enables performed, if_neg calls]
                exact replays (.inr (by simp))

/-- An execution that may choose its edges takes those along which a replay has reached the
target. -/
theorem walk_of_follow (branching : ∀ node, Edge.Branching (graph.outgoing node))
    (quiet : graph.Quiet) {edges : List Edge} (members : ∀ edge ∈ edges, edge ∈ graph.edges)
    (starts : ∀ edge, edges.head? = some edge → edge.source = node)
    (reached : (graph.follow target inputs before edges machine trace).ending = .reached)
    {steps : Nat} (enough : edges.length ≤ steps) :
    graph.walk target inputs steps node machine trace =
      graph.follow target inputs before edges machine trace := by
  induction edges generalizing node machine trace before steps with
  | nil => exact absurd reached follow_nil_ne_reached
  | cons edge edges induction =>
    obtain ⟨_, ready, done, enables, performed, result⟩ := follow_reached reached
    rw [List.forall_mem_cons] at members
    have chooses : machine.choose inputs (graph.outgoing node) = .ok (some edge, ready) :=
      (choose_outgoing branching quiet).mpr ⟨⟨members.1, starts edge rfl⟩, enables⟩
    obtain ⟨steps, rfl⟩ := Nat.exists_eq_add_of_le' (Nat.le_trans (Nat.le_add_left 1 _) enough)
    rw [result] at reached ⊢
    rw [walk_step chooses performed]
    by_cases calls : edge.action.calls target = true
    · rw [if_pos calls, if_pos calls]
    · rw [if_neg calls] at reached ⊢
      rw [if_neg calls]
      apply induction members.2 _ reached
      · rw [List.length_cons] at enough
        omega
      · intro next isNext
        obtain ⟨later, rfl⟩ := List.head?_eq_some_iff.mp isNext
        exact ((follow_reached reached).1 edge rfl).symm

theorem run_eq_runFor {limit : Nat} (succeeds : (graph.run target inputs limit).Succeeds) :
    graph.run target inputs limit = graph.runFor target inputs limit := by
  unfold run at succeeds ⊢
  dsimp only at succeeds ⊢
  split at succeeds
  · exact absurd rfl (succeeds _)
  · rfl

/-- Executing a program and replaying the edges it has taken agree.  If a replay from the entry
reaches the target, then so does the program itself, with the same outcome, whatever number of steps
it may take from the number of the given edges on. -/
theorem run_replay_agree {name : String} {program : Stmt}
    (built : (build name program).1 = .ok graph)
    (steady : program.Steady) (target : String) (inputs : Inputs) :
    (∀ limit, (graph.run target inputs limit).Succeeds →
      (graph.run target inputs limit).trace ≠ [] →
      (graph.replay (graph.run target inputs limit).trace target inputs).Succeeds ∧
        (graph.replay (graph.run target inputs limit).trace target inputs).Agrees
          (graph.run target inputs limit)) ∧
    ∀ edges : List Edge, (∀ edge ∈ edges, edge ∈ graph.edges) →
      (∀ edge, edges.head? = some edge → edge.source = graph.entry) →
      (graph.replay edges target inputs).ending = .reached →
      ∀ limit, edges.length ≤ limit →
        graph.run target inputs limit = graph.replay edges target inputs := by
  have branching := build_branching built
  have quiet := build_quiet built steady
  constructor
  · intro limit succeeds moved
    have same := run_eq_runFor succeeds
    rw [same] at succeeds moved ⊢
    have starts : ∀ last : Edge, none = some last → last.target = graph.entry := by simp
    obtain ⟨taken, isTrace, replays⟩ := repeatedFrom_walk branching quiet starts succeeds
    rw [List.reverse_nil, List.nil_append] at isTrace
    have replayed := replays (.inl (isTrace ▸ moved))
    rw [← isTrace] at replayed
    unfold replay
    rw [runFor] at succeeds ⊢
    rw [replayed]
    exact ⟨succeeds.replayed, Outcome.agrees_replayed _⟩
  · intro edges members starts reached limit enough
    have same : graph.runFor target inputs limit = graph.replay edges target inputs :=
      walk_of_follow branching quiet members starts reached enough
    unfold run
    dsimp only
    rw [same, reached]

/-- Values are drawn until one of them is small.  Before the next one is drawn, another one must not
be zero. -/
def drawsUntilSmall : Stmt :=
  .block {} [
    .assign {} "x" (.nondet 0 ""),
    .loop {} (.binary 0 (.compare .lt) (.literal 0 9) (.var 0 "x"))
      (.block {} [.assume {} (.nondet 0 ""), .assign {} "x" (.nondet 0 "")]),
    .call {} "" "reach_error" []]

theorem run_replay_agree_drawsUntilSmall : ∃ graph : FlowGraph,
    (build "draws" drawsUntilSmall).1 = .ok graph ∧ drawsUntilSmall.Steady ∧
      (graph.run "reach_error" { nondet := [30, 1, 4] } 20).ending = .reached ∧
      (graph.replay (graph.run "reach_error" { nondet := [30, 1, 4] } 20).trace "reach_error"
        { nondet := [30, 1, 4] }).Agrees
        (graph.run "reach_error" { nondet := [30, 1, 4] } 20) ∧
      graph.run "reach_error" { nondet := [30, 1, 4] } 8 =
        graph.replay ([0, 1, 2, 4, 5, 6, 3, 7].filterMap fun id => graph.edges[id]?) "reach_error"
          { nondet := [30, 1, 4] } := by
  have built : (build "draws" drawsUntilSmall).1 = .ok (lowered "draws" drawsUntilSmall) :=
    build_ok_iff.mpr ⟨by cbv, rfl, by cbv⟩
  have steady : drawsUntilSmall.Steady := by
    unfold Stmt.Steady
    decide
  have reached : ((lowered "draws" drawsUntilSmall).run "reach_error" { nondet := [30, 1, 4] }
      20).ending = .reached := by cbv
  obtain ⟨forwards, backwards⟩ :=
    run_replay_agree built steady "reach_error" { nondet := [30, 1, 4] }
  refine ⟨_, built, steady, reached, (forwards 20 ?_ ?_).2, backwards _ ?_ ?_ ?_ 8 ?_⟩
  · intro fault
    rw [reached]
    simp
  · have length : ((lowered "draws" drawsUntilSmall).run "reach_error" { nondet := [30, 1, 4] }
        20).trace.length = 8 := by cbv
    apply List.ne_nil_of_length_pos
    rw [length]
    exact Nat.zero_lt_succ 7
  · intro edge member
    obtain ⟨id, _, found⟩ := List.mem_filterMap.mp member
    exact List.mem_of_getElem? found
  · have first : ([0, 1, 2, 4, 5, 6, 3, 7].filterMap fun id =>
        (lowered "draws" drawsUntilSmall).edges[id]?).head?.map Edge.source = some 0 := by cbv
    intro edge isFirst
    rw [isFirst] at first
    exact Option.some.inj first
  · cbv
  · exact List.length_filterMap_le _ _

end FlowGraph

end Reachability
