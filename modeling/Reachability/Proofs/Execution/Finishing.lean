import Mathlib
import Reachability.Proofs.Execution.Direct
import Reachability.Proofs.Execution.Steps

/-!
# Executions that finish

Where control is in a graph and the values of the variables determine what
happens next: the execution moves along one edge or it halts.  An execution
finishes if it halts after some moves, which is so exactly if it needs no more
than some number of steps.
-/

namespace Reachability

/-- How a whole execution has ended, unless it needed more steps than it had. -/
def Ending.finish? : Ending → Option Finish
  | .terminated => some .terminated
  | .reached => some .reached
  | .blocked => some .blocked
  | .failed (.condition error) => some (.failed error)
  | .failed (.action _ error) => some (.failed error)
  | .failed _ => none
  | .stopped => none

/-- What an execution does next. -/
inductive Reaction where
  | moves (node : Nat) (machine : Machine)
  | halts (finish : Finish) (env : Env)

namespace FlowGraph

def react (graph : FlowGraph) (target : String) (inputs : Inputs) (node : Nat)
    (machine : Machine) : Reaction :=
  if graph.outgoing node = [] then .halts .terminated machine.env
  else
    match machine.choose inputs (graph.outgoing node) with
    | .error error => .halts (.failed error) machine.env
    | .ok (none, ready) => .halts .blocked ready.env
    | .ok (some edge, ready) =>
      match ready.perform inputs target edge.action with
      | .error error => .halts (.failed error) ready.env
      | .ok after =>
        if edge.action.calls target then .halts .reached after.env
        else .moves edge.target after

/-- An execution that halts after at most `steps` moves. -/
inductive FinishesIn (graph : FlowGraph) (target : String) (inputs : Inputs) (finish : Finish)
    (env : Env) : Nat → Nat → Machine → Prop where
  | halt {steps node : Nat} {machine : Machine} :
      graph.react target inputs node machine = .halts finish env →
      FinishesIn graph target inputs finish env steps node machine
  | move {steps node next : Nat} {machine after : Machine} :
      graph.react target inputs node machine = .moves next after →
      FinishesIn graph target inputs finish env steps next after →
      FinishesIn graph target inputs finish env (steps + 1) node machine

/-- One move of an execution. -/
def Advances (graph : FlowGraph) (target : String) (inputs : Inputs)
    (before after : Nat × Machine) : Prop :=
  graph.react target inputs before.1 before.2 = .moves after.1 after.2

/-- An execution gets from one place to another by moves. -/
def Reaches (graph : FlowGraph) (target : String) (inputs : Inputs) :
    Nat × Machine → Nat × Machine → Prop :=
  Relation.ReflTransGen (graph.Advances target inputs)

section Finishing

variable {graph : FlowGraph} {target : String} {inputs : Inputs} {finish : Finish} {env : Env}
  {steps node next : Nat} {machine after : Machine}

theorem react_exit (isExit : graph.outgoing node = []) :
    graph.react target inputs node machine = .halts .terminated machine.env := by
  unfold react
  rw [if_pos isExit]

theorem FinishesIn.of_advances
    (finishes : graph.FinishesIn target inputs finish env steps node machine)
    (advances : graph.Advances target inputs (node, machine) (next, after)) :
    ∃ fewer, fewer < steps ∧ graph.FinishesIn target inputs finish env fewer next after := by
  cases finishes with
  | halt halts =>
    rw [Advances, halts] at advances
    cases advances
  | move moves rest =>
    rw [Advances, moves] at advances
    cases advances
    exact ⟨_, Nat.lt_succ_self _, rest⟩

theorem FinishesIn.of_reaches {place : Nat × Machine}
    (finishes : graph.FinishesIn target inputs finish env steps node machine)
    (reaches : graph.Reaches target inputs (node, machine) place) :
    ∃ fewer, fewer ≤ steps ∧ graph.FinishesIn target inputs finish env fewer place.1 place.2 := by
  induction reaches with
  | refl => exact ⟨steps, Nat.le_refl _, finishes⟩
  | tail _ advances induction =>
    obtain ⟨fewer, le, rest⟩ := induction
    obtain ⟨least, lt, last⟩ := rest.of_advances advances
    exact ⟨least, Nat.le_trans (Nat.le_of_lt lt) le, last⟩

theorem exists_finishesIn_of_reaches {start place : Nat × Machine}
    (reaches : graph.Reaches target inputs start place)
    (halts : graph.react target inputs place.1 place.2 = .halts finish env) :
    ∃ steps, graph.FinishesIn target inputs finish env steps start.1 start.2 := by
  induction reaches using Relation.ReflTransGen.head_induction_on with
  | refl => exact ⟨0, .halt halts⟩
  | head advances _ induction =>
    obtain ⟨steps, finishes⟩ := induction
    exact ⟨steps + 1, .move advances finishes⟩

theorem FinishesIn.unique {otherSteps : Nat} {otherFinish : Finish} {otherEnv : Env}
    (first : graph.FinishesIn target inputs finish env steps node machine)
    (second : graph.FinishesIn target inputs otherFinish otherEnv otherSteps node machine) :
    finish = otherFinish ∧ env = otherEnv := by
  induction first generalizing otherSteps with
  | halt halts =>
    cases second with
    | halt otherHalts =>
      rw [halts] at otherHalts
      cases otherHalts
      exact ⟨rfl, rfl⟩
    | move moves _ =>
      rw [halts] at moves
      cases moves
  | move moves _ induction =>
    obtain ⟨_, _, rest⟩ := second.of_advances moves
    exact induction rest

end Finishing

section Walk

variable {graph : FlowGraph} {target : String} {inputs : Inputs} {finish : Finish} {env : Env}
  {steps node : Nat} {machine : Machine} {trace : List Edge}

theorem walk_react (graph : FlowGraph) (target : String) (inputs : Inputs) (steps node : Nat)
    (machine : Machine) (trace : List Edge) :
    match graph.react target inputs node machine with
    | .halts finish env =>
      (graph.walk target inputs (steps + 1) node machine trace).ending.finish? = some finish ∧
        (graph.walk target inputs (steps + 1) node machine trace).env = env
    | .moves next after => ∃ edge,
        graph.walk target inputs (steps + 1) node machine trace =
          graph.walk target inputs steps next after (edge :: trace) := by
  unfold react
  by_cases isExit : graph.outgoing node = []
  · rw [if_pos isExit, walk_exit isExit]
    exact ⟨rfl, rfl⟩
  · rw [if_neg isExit, walk_succ isExit]
    cases machine.choose inputs (graph.outgoing node) with
    | error error => exact ⟨rfl, rfl⟩
    | ok choice =>
      obtain ⟨chosen, ready⟩ := choice
      cases chosen with
      | none => exact ⟨rfl, rfl⟩
      | some edge =>
        dsimp only
        cases ready.perform inputs target edge.action with
        | error error => exact ⟨rfl, rfl⟩
        | ok after =>
          dsimp only
          by_cases calls : edge.action.calls target = true
          · rw [if_pos calls, if_pos calls]
            exact ⟨rfl, rfl⟩
          · rw [if_neg calls, if_neg calls]
            exact ⟨edge, rfl⟩

theorem FinishesIn.walk (finishes : graph.FinishesIn target inputs finish env steps node machine)
    (trace : List Edge) :
    (graph.walk target inputs (steps + 1) node machine trace).ending.finish? = some finish ∧
      (graph.walk target inputs (steps + 1) node machine trace).env = env := by
  induction finishes generalizing trace with
  | @halt steps node machine halts =>
    have step := graph.walk_react target inputs steps node machine trace
    rw [halts] at step
    exact step
  | @move steps node next machine after moves _ induction =>
    have step := graph.walk_react target inputs (steps + 1) node machine trace
    rw [moves] at step
    obtain ⟨edge, same⟩ := step
    rw [same]
    exact induction (edge :: trace)

theorem finishesIn_of_walk
    (ends : (graph.walk target inputs steps node machine trace).ending.finish? = some finish)
    (final : (graph.walk target inputs steps node machine trace).env = env) :
    graph.FinishesIn target inputs finish env steps node machine := by
  induction steps generalizing node machine trace with
  | zero =>
    by_cases isExit : graph.outgoing node = []
    · rw [walk_exit isExit] at ends final
      cases ends
      cases final
      exact .halt (react_exit isExit)
    · rw [walk_zero isExit] at ends
      cases ends
  | succ steps induction =>
    have step := graph.walk_react target inputs steps node machine trace
    cases reaction : graph.react target inputs node machine with
    | halts otherFinish otherEnv =>
      rw [reaction] at step
      rw [step.1] at ends
      rw [step.2] at final
      cases ends
      cases final
      exact .halt reaction
    | moves next after =>
      rw [reaction] at step
      obtain ⟨edge, same⟩ := step
      rw [same] at ends final
      exact .move reaction (induction ends final)

theorem run_finish (graph : FlowGraph) (target : String) (inputs : Inputs) (limit : Nat) :
    (graph.run target inputs limit).ending.finish? =
        (graph.runFor target inputs limit).ending.finish? ∧
      (graph.run target inputs limit).env = (graph.runFor target inputs limit).env := by
  unfold run
  dsimp only
  split
  · rename_i stopped
    rw [stopped]
    exact ⟨rfl, rfl⟩
  · exact ⟨rfl, rfl⟩

theorem exists_run_iff :
    (∃ limit, (graph.run target inputs limit).ending.finish? = some finish ∧
        (graph.run target inputs limit).env = env) ↔
      ∃ steps, graph.FinishesIn target inputs finish env steps graph.entry (.start inputs) := by
  constructor
  · rintro ⟨limit, ends, final⟩
    obtain ⟨sameFinish, sameEnv⟩ := graph.run_finish target inputs limit
    rw [sameFinish] at ends
    rw [sameEnv] at final
    exact ⟨limit, finishesIn_of_walk ends final⟩
  · rintro ⟨steps, finishes⟩
    obtain ⟨sameFinish, sameEnv⟩ := graph.run_finish target inputs (steps + 1)
    refine ⟨steps + 1, ?_⟩
    rw [sameFinish, sameEnv]
    exact finishes.walk []

end Walk

end FlowGraph

end Reachability
