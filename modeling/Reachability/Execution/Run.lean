import Reachability.Execution.Eval
import Reachability.FlowGraph.Basic

/-!
# Concrete executions

A control-flow graph is executed from its entry, or along a given sequence of
edges.
-/

namespace Reachability

/-- The values of variables that are read before they are assigned, and the values drawn, which are
zero once the list is used up. -/
structure Inputs where
  initial : Env := ∅
  nondet : List Int64 := []
deriving DecidableEq

def Inputs.draw (inputs : Inputs) (index : Nat) : Int64 := inputs.nondet.getD index 0

structure Machine where
  env : Env
  drawn : Nat := 0
deriving DecidableEq

inductive Fault where
  | condition (error : EvalError)
  | action (edge : Edge) (error : EvalError)
  | stepLimit (limit : Nat) (graph : String)
  | infeasible (edge : Edge) (step : Nat) (env : Env)
  | disconnected (edge before : Edge)

inductive Ending where
  | terminated
  | reached
  | blocked
  | failed (fault : Fault)
  | stopped

structure Outcome where
  env : Env
  trace : List Edge
  ending : Ending

def Env.text (env : Env) : String :=
  "map[" ++ " ".intercalate (env.entries.map fun (name, value) =>
    name ++ ":" ++ toString value.toInt) ++ "]"

def Fault.message : Fault → String
  | condition error => error.message
  | action edge error => "at " ++ edge.text ++ ": " ++ error.message
  | stepLimit limit graph =>
    "step limit reached: " ++ toString limit ++ " steps in " ++ graph
  | infeasible edge step env =>
    "infeasible edge: " ++ edge.text ++ " at step " ++ toString step ++ " (" ++ env.text ++ ")"
  | disconnected edge before =>
    "edges do not form a path: " ++ edge.text ++ " does not follow " ++ before.text

namespace Machine

def start (inputs : Inputs) : Machine := { env := inputs.initial }

def enabled (inputs : Inputs) (machine : Machine) (edge : Edge) :
    Except EvalError (Bool × Machine) :=
  match edge.action with
  | .assume cond truth => do
      let (value, drawn) ← cond.eval inputs.draw machine.env machine.drawn
      return ((value != 0) == truth, { machine with drawn })
  | _ => .ok (true, machine)

def evalArgs (inputs : Inputs) (machine : Machine) : List Expr → Except EvalError Machine
  | [] => .ok machine
  | arg :: rest => do
      let (_, drawn) ← arg.eval inputs.draw machine.env machine.drawn
      evalArgs inputs { machine with drawn } rest

/-- A call to another function than the target draws its result, if the result is used. -/
def perform (inputs : Inputs) (target : String) (machine : Machine) (action : Action) :
    Except EvalError Machine :=
  match action with
  | .assign var value => do
      let (value, drawn) ← value.eval inputs.draw machine.env machine.drawn
      return { env := machine.env.insert var value, drawn }
  | .call result callee args => do
      let machine ← evalArgs inputs machine args
      if callee = target ∨ result = "" then return machine
      else
        return { env := machine.env.insert result (inputs.draw machine.drawn)
                 drawn := machine.drawn + 1 }
  | .blank _ | .assume _ _ => .ok machine

def choose (inputs : Inputs) (machine : Machine) :
    List Edge → Except EvalError (Option Edge × Machine)
  | [] => .ok (none, machine)
  | edge :: rest => do
      let (taken, machine) ← machine.enabled inputs edge
      if taken then return (some edge, machine) else choose inputs machine rest

def finish (machine : Machine) (trace : List Edge) (ending : Ending) : Outcome :=
  { env := machine.env, trace := trace.reverse, ending }

end Machine

namespace FlowGraph

/-- Execute up to `steps` edges from a node.  At a branch, the first edge whose condition holds is
taken. -/
def walk (graph : FlowGraph) (target : String) (inputs : Inputs) :
    Nat → Nat → Machine → List Edge → Outcome
  | steps, node, machine, trace =>
    match graph.outgoing node with
    | [] => machine.finish trace .terminated
    | edges =>
      match steps with
      | 0 => machine.finish trace .stopped
      | steps + 1 =>
        match machine.choose inputs edges with
        | .error error => machine.finish trace (.failed (.condition error))
        | .ok (none, machine) => machine.finish trace .blocked
        | .ok (some edge, machine) =>
          match machine.perform inputs target edge.action with
          | .error error => machine.finish (edge :: trace) (.failed (.action edge error))
          | .ok machine =>
            if edge.action.calls target then machine.finish (edge :: trace) .reached
            else walk graph target inputs steps edge.target machine (edge :: trace)

def runFor (graph : FlowGraph) (target : String) (inputs : Inputs) (steps : Nat) : Outcome :=
  graph.walk target inputs steps graph.entry (.start inputs) []

def run (graph : FlowGraph) (target : String) (inputs : Inputs) (limit : Nat) : Outcome :=
  let outcome := graph.runFor target inputs limit
  match outcome.ending with
  | .stopped => { outcome with ending := .failed (.stepLimit limit graph.name) }
  | _ => outcome

/-- Execute a sequence of edges, of which `before` is the one executed last. -/
def follow (graph : FlowGraph) (target : String) (inputs : Inputs) (before : Option Edge) :
    List Edge → Machine → List Edge → Outcome
  | [], machine, trace =>
    match before with
    | some last =>
      machine.finish trace
        (if (graph.outgoing last.target).isEmpty then .terminated else .stopped)
    | none => machine.finish trace .stopped
  | edge :: rest, machine, trace =>
    match before.filter fun last => last.target != edge.source with
    | some last => machine.finish trace (.failed (.disconnected edge last))
    | none =>
      match machine.enabled inputs edge with
      | .error error => machine.finish trace (.failed (.condition error))
      | .ok (false, machine) =>
        machine.finish trace (.failed (.infeasible edge trace.length machine.env))
      | .ok (true, machine) =>
        match machine.perform inputs target edge.action with
        | .error error => machine.finish (edge :: trace) (.failed (.action edge error))
        | .ok machine =>
          if edge.action.calls target then machine.finish (edge :: trace) .reached
          else follow graph target inputs (some edge) rest machine (edge :: trace)

def replay (graph : FlowGraph) (edges : List Edge) (target : String) (inputs : Inputs) : Outcome :=
  graph.follow target inputs none edges (.start inputs) []

end FlowGraph

end Reachability
