import Reachability.Execution.Inputs
import Reachability.Exploration.Explore
import Reachability.FlowGraph.Build
import Reachability.Verification.Composition

/-!
# Verification

The analysis is prepared, the states are explored, and a target that was found is
confirmed by a concrete execution.
-/

namespace Reachability

inductive VerifyError where
  | config (error : ConfigError)
  | build (name : String) (error : BuildError)
  | composition (error : CompositionError)
  | order (name : String) (error : UnknownOrder)
  | untracked (name : String) (error : Search.Untracked)
  | witness (message : Option String)
  | unfinished
deriving Repr

/-- The message of an error; there is none if a part of the program has no text. -/
def VerifyError.message? : VerifyError → Option String
  | config error => some error.message
  | build name error =>
    error.message?.map fun text => "could not build CFA of " ++ name ++ ": " ++ text
  | composition error => some error.message
  | order name error => some ("analysis of " ++ name ++ " failed: " ++ error.message)
  | untracked name error => some ("analysis of " ++ name ++ " failed: " ++ error.message)
  | witness message => message
  | unfinished => some "the exploration has not ended"

abbrev Logged (α : Type u) := Except VerifyError α × List LogMessage

structure Preparation where
  name : String
  setting : Setting (List ComponentState)
  search : Search (List ComponentState)

/-- The outcome for one program.  `inputs` are chosen from the abstract states along the witness and
`replay` is the execution along it. -/
structure Report where
  name : String
  setting : Setting (List ComponentState)
  search : Search (List ComponentState)
  verdict : Verdict
  inputs : Inputs := {}
  replay : Option Outcome := none
  /-- Whether the execution calls the target function. -/
  confirmed : Bool := false

/-- Whether the target function has been proven not to be called. -/
def Report.safe (report : Report) : Bool :=
  match report.verdict with
  | .exhausted => true
  | _ => false

def maxReplayedWitnesses : Nat := 64

namespace Verification

def graphMessage (name target : String) (graph : FlowGraph) : LogMessage :=
  .ofText .debug ("CFA of " ++ name ++ ": " ++ toString graph.nodes.length ++ " nodes, " ++
    toString graph.edges.length ++ " edges, " ++
    toString graph.loopHeads.length ++ " loop heads, " ++
    toString (graph.callsTo target).length ++ " calls to " ++ target)

def begin (spec : AnalysisSpec) (traced : Bool) (name : String) (graph : FlowGraph) :
    Logged Preparation :=
  match spec.compose graph with
  | .error error => (.error (.composition error), [])
  | .ok analysis =>
    let setting : Setting (List ComponentState) :=
      { graph, analysis, maxIterations := spec.maxIterations, traced }
    let started : Except VerifyError Preparation :=
      match WaitOrder.ofName spec.waitlist with
      | .error error => .error (.order name error)
      | .ok order =>
        match (Search.start setting order {}).1 with
        | .error error => .error (.untracked name error)
        | .ok search => .ok { name, setting, search }
    (started, [.ofText .info ("Verifying " ++ name ++ " ...")])

def prepare (spec : AnalysisSpec) (traced : Bool) (name : String) (program : Stmt) :
    Logged Preparation :=
  match FlowGraph.build name program with
  | (.error error, messages) => (.error (.build name error), messages)
  | (.ok graph, messages) =>
    let (prepared, more) := begin spec traced name graph
    (prepared, messages ++ [graphMessage name spec.targetFunction graph] ++ more)

def boundsOf (tuple : List ComponentState) : Bounds :=
  (tuple.findSome? ComponentState.bounds?).getD .unknown

structure Attempt where
  path : List Nat
  edges : List Edge
  inputs : Inputs
  outcome : Outcome

def Attempt.reached (attempt : Attempt) : Bool :=
  match attempt.outcome.ending with
  | .reached => true
  | _ => false

def attempt (target : String) (setting : Setting (List ComponentState))
    (arg : Arg (List ComponentState)) (path : List Nat) (edges : List Edge) : Attempt :=
  let bounds := path.map fun key =>
    (((arg.get? key).map ArgState.wrapped).map boundsOf).getD .unknown
  let inputs := Inputs.ofPath bounds edges
  { path, edges, inputs, outcome := setting.graph.replay edges target inputs }

/-- Execute walks until one calls the target function, which is returned with the number of walks
before it. -/
def firstReached (target : String) (setting : Setting (List ComponentState))
    (arg : Arg (List ComponentState)) (index : Nat) :
    List (List Nat) → Except WitnessError (Option (Nat × Attempt))
  | [] => .ok none
  | path :: rest => do
      let edges ← arg.pathEdges setting.analysis setting.graph path
      let attempt := attempt target setting arg path edges
      if attempt.reached then return some (index, attempt)
      else firstReached target setting arg (index + 1) rest

def failureText (outcome : Outcome) : String :=
  match outcome.ending with
  | .failed fault => fault.message
  | _ => "<nil>"

/-- Confirm a target by executing walks that lead to it, the shortest one first.  A walk that calls
the target function becomes the witness. -/
def confirm (target : String) (report : Report) (state : Nat) (path : List Nat)
    (witness : List Edge) : Except WitnessError (Report × List LogMessage) := do
  let arg := report.search.arg
  let walks ← arg.witnessWalks state maxReplayedWitnesses
  let first := attempt target report.setting arg path witness
  match ← firstReached target report.setting arg 0 walks with
  | some (index, attempt) =>
    let report := { report with
      verdict := .targetFound state attempt.path attempt.edges
      inputs := attempt.inputs
      replay := some attempt.outcome
      confirmed := true }
    return (report,
      if index = 0 then []
      else [.ofText .debug (report.name ++ ": witness confirmed after unrolling, " ++
        toString attempt.edges.length ++ " edges")])
  | none =>
    return ({ report with inputs := first.inputs, replay := some first.outcome },
      [.ofText .warn (report.name ++ ": the witness could not be replayed concretely (" ++
        failureText first.outcome ++ "); it may be spurious")])

def outcomeMessage (report : Report) : LogMessage :=
  { level := .info
    parts := [
      .text (report.name ++ ": " ++ report.verdict.status ++ " (" ++
        toString report.search.stats.iterations ++ " iterations, " ++
        toString report.search.reached.size ++ " reached states, "),
      .elapsed,
      .text ")"] }

def conclude (target : String) (preparation : Preparation)
    (progress : Progress (List ComponentState)) : Logged Report :=
  match progress with
  | .continued search => (.error .unfinished, search.log.reverse)
  | .failed search error =>
    (.error (.witness (search.arg.witnessMessage? preparation.setting.analysis error)),
      search.log.reverse)
  | .finished search verdict =>
    let report : Report :=
      { name := preparation.name, setting := preparation.setting, search, verdict }
    let messages := search.log.reverse ++ [search.summary preparation.setting verdict]
    match verdict with
    | .targetFound state path witness =>
      match confirm target report state path witness with
      | .error error =>
        (.error (.witness (search.arg.witnessMessage? preparation.setting.analysis error)),
          messages)
      | .ok (report, more) => (.ok report, messages ++ more ++ [outcomeMessage report])
    | _ => (.ok report, messages ++ [outcomeMessage report])

/-- The specification has been validated.  The exploration takes `fuel` iterations at most. -/
def run (spec : AnalysisSpec) (traced : Bool) (interruption : Option Interruption) (fuel : Nat)
    (name : String) (program : Stmt) : Logged Report :=
  match prepare spec traced name program with
  | (.error error, messages) => (.error error, messages)
  | (.ok preparation, messages) =>
    let progress := preparation.search.explore preparation.setting interruption fuel
    let (report, more) := conclude spec.targetFunction preparation progress
    (report, messages ++ more)

end Verification

def verify (config : Config) (traced : Bool) (interruption : Option Interruption) (fuel : Nat)
    (name : String) (program : Stmt) : Logged Report :=
  match config.validate with
  | .error error => (.error (.config error), [])
  | .ok () => Verification.run config.analysis traced interruption fuel name program

end Reachability
