import Reachability.Exploration.Explore
import Reachability.Session.State
import Reachability.Verification.Composition

/-!
# Sessions

A session collects analyses and the states they have computed, on which
operators can be tried one by one.  They are known by their numbers.
-/

namespace Reachability

/-- The analyses of a session.  Composites and graphs of states refer to earlier analyses. -/
inductive SessionAnalysis where
  | location
  | value (policy : MergePolicy)
  | unreach (target : String)
  | custom (analysis : CustomAnalysis)
  | composite (components : List Nat)
  | arg (composite : Nat) (states : Arg SessionState)

/-- A state that can be shown: one of an analysis, or one of the graph of states of an analysis. -/
inductive Shown where
  | plain (state : SessionState)
  | inArg (owner key : Nat)

def Shown.same : Shown → Shown → Bool
  | plain first, plain second => first.origin == second.origin
  | inArg owner key, inArg otherOwner otherKey => owner == otherOwner && key == otherKey
  | _, _ => false

def Shown.kind : Shown → String
  | plain state => state.kind
  | inArg .. => "*cpa.ARGState"

inductive SessionError where
  /-- There is no such analysis, state, node or edge, or it is of the wrong kind. -/
  | wrongReference
  | unknownPolicy (error : UnknownPolicy)
  | unknownOrder (error : UnknownOrder)
  | noComponents
  | unexpectedState (analysis kind : String)
  | foreignTuple
  | notTuple (kind : String)
  | foreignArgState
  | notArgState (kind : String)
  | untracked (error : Search.Untracked)
  | witness (message : Option String)
  | unfinished
deriving Repr

def SessionError.message? : SessionError → Option String
  | wrongReference | unfinished => none
  | unknownPolicy error => some error.message
  | unknownOrder error => some error.message
  | noComponents => some "cpa: composite without component"
  | unexpectedState analysis kind => some (analysis ++ ": unexpected state " ++ kind)
  | foreignTuple => some "cpa: composite state used with a different composite CPA"
  | notTuple kind => some ("cpa: composite operator applied to " ++ kind)
  | foreignArgState => some "cpa: ARG state used with a different ARG CPA"
  | notArgState kind => some ("cpa: ARG operator applied to " ++ kind)
  | untracked error => some error.message
  | witness message => message

/-- The analyses and states known so far, and the number of steps taken. -/
structure Session where
  graph : FlowGraph
  analyses : List SessionAnalysis := []
  shown : List Shown := []
  reached : Option (Reached (Nat × Nat)) := none
  steps : Nat := 0

/-- Steps of a session.  A step that fails keeps what it has changed before. -/
abbrev SessionM := ExceptT SessionError (StateM Session)

namespace Session

/-- The analysis with a number, which creates states with origin `fresh`. -/
def analysisOf (session : Session) : Nat → Nat → Origin → Analysis SessionState
  | 0, _, fresh => .ofTuples (.composite []) 0 fresh
  | depth + 1, number, fresh =>
    match session.analyses[number]? with
    | some .location =>
      .withOrigins (.locations session.graph) fresh fresh fun _ _ _ => false
    | some (.value policy) =>
      .withOrigins (.values policy) fresh fresh fun edge state next =>
        edge.action.written?.isNone && state == next
    | some (.unreach target) =>
      .withOrigins (.targetCalls target) fresh [0, number] fun _ state next => state == next
    | some (.custom analysis) => .ofCustom analysis fresh
    | some (.composite components) =>
      .ofTuples (.composite (components.mapIdx fun slot component =>
        session.analysisOf depth component (fresh ++ [slot]))) number
        (fresh ++ [components.length])
    | some (.arg composite _) => session.analysisOf depth composite fresh
    | none => .ofTuples (.composite []) 0 fresh

def need (value : Option α) : SessionM α :=
  match value with
  | some value => pure value
  | none => throw .wrongReference

def kindOf (number : Nat) : SessionM SessionAnalysis := do need (← get).analyses[number]?

def analysis (number : Nat) : SessionM (Analysis SessionState) := do
  let session ← get
  return session.analysisOf session.analyses.length number [1, session.steps]

def argOf (number : Nat) : SessionM (Arg SessionState) := do
  match ← kindOf number with
  | .arg _ states => return states
  | _ => throw .wrongReference

def setArg (number : Nat) (states : Arg SessionState) : SessionM Unit := do
  match ← kindOf number with
  | .arg composite _ => modify fun session =>
    { session with analyses := session.analyses.set number (.arg composite states) }
  | _ => throw .wrongReference

def node (id : Nat) : SessionM Node := do need (← get).graph.nodes[id]?

def edge (id : Nat) : SessionM Edge := do need (← get).graph.edges[id]?

def state (number : Nat) : SessionM Shown := do need (← get).shown[number]?

def argState (number : Nat) : SessionM (Nat × Nat) := do
  match ← state number with
  | .inArg owner key => return (owner, key)
  | .plain _ => throw .wrongReference

def numberOf (shown : Shown) : SessionM Nat := do
  let session ← get
  match session.shown.findIdx? shown.same with
  | some number => return number
  | none =>
    set { session with shown := session.shown ++ [shown] }
    return session.shown.length

def stateText : SessionState → String
  | .component _ state => state.text
  | .custom _ _ text => text
  | .tuple _ _ parts => "(" ++ ", ".intercalate (parts.map stateText) ++ ")"

def present (shown : Shown) : SessionM (Nat × String) := do
  let number ← numberOf shown
  match shown with
  | .plain state => return (number, stateText state)
  | .inArg owner key => return (number, (← argOf owner).text (← analysis owner) key)

def acceptComponent (name : String) (accepts : ComponentState → Bool) (shown : Shown) :
    SessionM SessionState :=
  match shown with
  | .plain (.component origin state) =>
    if accepts state then pure (.component origin state)
    else throw (.unexpectedState name shown.kind)
  | _ => throw (.unexpectedState name shown.kind)

def accept (number : Nat) (shown : Shown) : SessionM SessionState := do
  match ← kindOf number with
  | .location => acceptComponent "location" (fun state => state.node?.isSome) shown
  | .value _ => acceptComponent "value" (fun state => state.bounds?.isSome) shown
  | .unreach _ =>
    acceptComponent "unreachcall" (fun state => state.node?.isNone && state.bounds?.isNone) shown
  | .custom _ =>
    match shown with
    | .plain (.custom origin kind text) => return .custom origin kind text
    | _ => throw .wrongReference
  | .composite _ =>
    match shown with
    | .plain (.tuple origin owner parts) =>
      if owner = number then return .tuple origin owner parts else throw .foreignTuple
    | _ => throw (.notTuple shown.kind)
  | .arg .. => throw .wrongReference

def acceptArg (number : Nat) (shown : Shown) : SessionM Nat :=
  match shown with
  | .inArg owner key => if owner = number then pure key else throw .foreignArgState
  | .plain _ => throw (.notArgState shown.kind)

end Session

end Reachability
