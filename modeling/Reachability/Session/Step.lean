import Reachability.Arg.Drawing
import Reachability.Execution.Inputs
import Reachability.Session.Basic

/-!
# Steps of a session

A `Command` names an operator and its arguments, and its `Reply` holds what the
operator returns.
-/

namespace Reachability

inductive AnalysisForm where
  | location
  | value (policy : String)
  | unreach (target : String)
  | custom (analysis : CustomAnalysis)
  | composite (components : List Nat)
  | arg (composite : Nat)

inductive Command where
  | create (form : AnalysisForm)
  | initial (analysis node : Nat)
  | transfer (analysis state edge : Nat)
  | merge (analysis new reached : Nat)
  | stop (analysis state : Nat) (reached : List Nat)
  | isTarget (analysis state : Nat)
  | targetName (analysis : Nat)
  | call (state : Nat)
  | tuple (state : Nat)
  | arity (analysis : Nat)
  | discard (analysis state : Nat)
  | states (analysis : Nat)
  | info (state : Nat)
  | root (analysis : Nat)
  | byId (analysis : Nat) (id : Int)
  | drawing (analysis : Nat) (path : List Nat)
  | witness (state : Nat)
  | pathEdges (path : List Nat)
  | witnessPath (state : Nat)
  | witnessWalks (state limit : Nat)
  | inputs (path edges : List Nat)
  | explore (analysis : Nat) (order : String) (bound : Int) (traced : Bool)
  | newReached (order : String)
  | add (state : Nat)
  | replace (old state : Nat)
  | pop
  | statesAt (node : Nat)
  | member (state : Nat)
  | waitlist (order : String) (items : List (Option Nat))

structure ArgLine where
  text : String
  parents : List Nat
  children : List Nat

structure ArgInfo where
  id : Nat
  parents : List Nat
  children : List Nat
  removed : Bool
  location : Option String
  wrapped : String

inductive WaitReply where
  | pushed (size : Nat)
  | popped (id size : Nat)
  | empty

inductive Reply where
  | nothing
  | number (value : Nat)
  | numbers (values : List Nat)
  | numberLists (values : List (List Nat))
  | truth (value : Bool)
  | truths (values : List Bool)
  | text (text : String)
  | shown (state : Nat × String)
  | shownList (states : List (Nat × String))
  | call (callee : Option String)
  | tuple (parts : List (Nat × String)) (location : Option String)
  | argLines (lines : List ArgLine)
  | info (info : ArgInfo)
  | edges (edges : List Edge)
  | inputs (inputs : Inputs)
  | explored (setting : Setting SessionState) (search : Search SessionState) (verdict : Verdict)
  | reached (reached : Reached (Nat × Nat))
  | popped (id : Option Nat) (reached : Reached (Nat × Nat))
  | waits (replies : List WaitReply)

def Arg.lines (analysis : Analysis σ) (arg : Arg σ) : List ArgLine :=
  arg.live.map fun key =>
    ⟨arg.text analysis key, (arg.parents key).map arg.id, (arg.children key).map arg.id⟩

namespace Session

def create (form : AnalysisForm) : SessionM Reply := do
  let created : SessionAnalysis ← match form with
    | .location => pure .location
    | .value policy =>
      match MergePolicy.ofName policy with
      | .ok policy => pure (.value policy)
      | .error error => throw (.unknownPolicy error)
    | .unreach target => pure (.unreach target)
    | .custom analysis => pure (.custom analysis)
    | .composite components =>
      for component in components do
        let _ ← kindOf component
      if components.isEmpty then throw .noComponents
      pure (.composite components)
    | .arg composite =>
      match ← kindOf composite with
      | .composite _ => pure (.arg composite {})
      | _ => throw .wrongReference
  let session ← get
  set { session with analyses := session.analyses ++ [created] }
  return .number session.analyses.length

def hasArg (number : Nat) : SessionM Bool := do
  match ← kindOf number with
  | .arg .. => return true
  | _ => return false

def initial (number : Nat) (entry : Node) : SessionM Reply := do
  let analysis ← analysis number
  if ← hasArg number then
    let (key, states) := (← argOf number).initial analysis entry
    setArg number states
    return .shown (← present (.inArg number key))
  else return .shown (← present (.plain (analysis.initial entry)))

def transfer (number : Nat) (shown : Shown) (edge : Edge) : SessionM Reply := do
  let analysis ← analysis number
  if ← hasArg number then
    let key ← acceptArg number shown
    let (keys, states) := (← argOf number).transfer analysis key edge
    setArg number states
    return .shownList (← keys.mapM fun key => present (.inArg number key))
  else
    let state ← accept number shown
    return .shownList (← (analysis.transfer state edge).mapM fun next => present (.plain next))

/-- Merge two states.  Analyses that never merge do not look at them. -/
def merge (number : Nat) (new reached : Shown) : SessionM Reply := do
  let analysis ← analysis number
  match ← kindOf number with
  | .location | .unreach _ | .value .separate => return .shown (← present reached)
  | .value .join =>
    let reached ← accept number reached
    let new ← accept number new
    return .shown (← present (.plain (analysis.merged new reached)))
  | .arg .. =>
    let newKey ← acceptArg number new
    let reachedKey ← acceptArg number reached
    match (← argOf number).merge analysis newKey reachedKey with
    | (none, _) => return .shown (← present reached)
    | (some merged, states) =>
      setArg number states
      return .shown (← present (.inArg number merged))
  | _ =>
    let new ← accept number new
    let reached ← accept number reached
    return .shown (← present (.plain (analysis.merged new reached)))

def coveredBy (number : Nat) (shown : Shown) : List Shown → SessionM Bool
  | [] => return false
  | reached :: rest => do
      let analysis ← analysis number
      let covered ← match ← kindOf number with
        | .value _ =>
          let reached ← accept number reached
          let state ← accept number shown
          pure (analysis.covers state reached)
        | _ =>
          let state ← accept number shown
          let reached ← accept number reached
          pure (analysis.covers state reached)
      if covered then return true else coveredBy number shown rest

def stop (number : Nat) (shown : Shown) (reached : List Shown) : SessionM Bool := do
  match ← kindOf number with
  | .arg .. =>
    let key ← acceptArg number shown
    let keys ← reached.mapM (acceptArg number)
    return (← argOf number).stop (← analysis number) key keys
  | .composite _ =>
    let _ ← accept number shown
    coveredBy number shown reached
  | _ => coveredBy number shown reached

def isTarget (number : Nat) (shown : Shown) : SessionM Bool := do
  match ← kindOf number with
  | .location | .value _ => return false
  | .arg .. =>
    let key ← acceptArg number shown
    return (← argOf number).isTarget (← analysis number) key
  | _ =>
    let state ← accept number shown
    return (← analysis number).isTarget state

def argInfo (owner key : Nat) : SessionM ArgInfo := do
  let states ← argOf owner
  let analysis ← analysis owner
  let state ← need (states.get? key)
  return {
    id := state.id
    parents := state.parents.map states.id
    children := state.children.map states.id
    removed := state.removed
    location := (states.location analysis key).map Node.text
    wrapped := analysis.text state.wrapped }

def settleWitness (owner : Nat) (result : Except WitnessError α) : SessionM α := do
  match result with
  | .ok value => return value
  | .error error => throw (.witness ((← argOf owner).witnessMessage? (← analysis owner) error))

def pathOf (path : List Nat) : SessionM (Nat × List Nat) := do
  let positions ← path.mapM argState
  return ((positions.head?.map Prod.fst).getD 0, positions.map Prod.snd)

def inputs (path edges : List Nat) : SessionM Inputs := do
  let positions ← path.mapM argState
  let edges ← edges.mapM edge
  let bounds ← positions.mapM fun (owner, key) => do
    let state ← need ((← argOf owner).get? key)
    return (state.wrapped.parts.findSome? SessionState.bounds?).getD .unknown
  return .ofPath bounds edges

def shareReached (owner : Nat) (reached : Reached Nat) : Reached (Nat × Nat) :=
  let share (state : ReachedState Nat) : ReachedState (Nat × Nat) :=
    { key := (owner, state.key), id := state.id, location := state.location }
  { states := reached.states.map share
    byLocation := reached.byLocation.map fun (location, states) => (location, states.map share)
    members := reached.members
    waiting := reached.waiting
    waitlist := reached.waitlist.map share }

def orderOf (name : String) : SessionM WaitOrder :=
  match WaitOrder.ofName name with
  | .ok order => pure order
  | .error error => throw (.unknownOrder error)

/-- If the exploration is traced, the target it finds becomes known and its reached set takes the
place of the current one. -/
def explore (fuel number : Nat) (orderName : String) (bound : Int) (traced : Bool) :
    SessionM Reply := do
  let order ← orderOf orderName
  let setting : Setting SessionState :=
    { graph := (← get).graph, analysis := ← analysis number, maxIterations := bound, traced }
  let (started, states) := Search.start setting order (← argOf number)
  setArg number states
  match started with
  | .error error => throw (.untracked error)
  | .ok search =>
    match search.explore setting none fuel with
    | .continued _ => throw .unfinished
    | .failed search error =>
      setArg number search.arg
      settleWitness number (.error error)
    | .finished search verdict =>
      setArg number search.arg
      if traced then
        if let .targetFound target _ _ := verdict then
          let _ ← numberOf (.inArg number target)
        modify fun session => { session with reached := some (shareReached number search.reached) }
      return .explored setting search verdict

def currentReached : SessionM (Reached (Nat × Nat)) := do need (← get).reached

def setReached (reached : Reached (Nat × Nat)) : SessionM Reply := do
  modify fun session => { session with reached := some reached }
  return .reached reached

def reachedState (number : Nat) : SessionM (ReachedState (Nat × Nat)) := do
  let (owner, key) ← argState number
  let states ← argOf owner
  return {
    key := (owner, key)
    id := states.id key
    location := (states.location (← analysis owner) key).map Node.id }

def waits (waitlist : Waitlist Nat) : List (Option Nat) → SessionM (List WaitReply)
  | [] => return []
  | none :: items =>
    match waitlist.pop? with
    | none => return .empty :: (← waits waitlist items)
    | some (id, rest) => return .popped id rest.size :: (← waits rest items)
  | some number :: items => do
      let (owner, key) ← argState number
      let waitlist := waitlist.push ((← argOf owner).id key)
      return .pushed waitlist.size :: (← waits waitlist items)

def perform (fuel : Nat) : Command → SessionM Reply
  | .create form => create form
  | .initial number id => do initial number (← node id)
  | .transfer number id edgeId => do
      let shown ← state id
      transfer number shown (← edge edgeId)
  | .merge number new reached => do
      let new ← state new
      merge number new (← state reached)
  | .stop number id reached => do
      let shown ← state id
      return .truth (← stop number shown (← reached.mapM state))
  | .isTarget number id => do return .truth (← isTarget number (← state id))
  | .targetName number => do
      match ← kindOf number with
      | .unreach target => return .text target
      | _ => throw .wrongReference
  | .call id => do
      match ← state id with
      | .plain (.component _ (.call callee)) => return .call callee
      | _ => throw .wrongReference
  | .tuple id => do
      match ← state id with
      | .plain (.tuple origin owner parts) =>
        let shown ← parts.mapM fun part => present (.plain part)
        let location := (← analysis owner).location (.tuple origin owner parts)
        return .tuple shown (location.map Node.text)
      | _ => throw .wrongReference
  | .arity number => do
      match ← kindOf number with
      | .composite components => return .number components.length
      | _ => throw .wrongReference
  | .discard number id => do
      let states ← argOf number
      let key ← acceptArg number (← state id)
      setArg number (states.discard key)
      return .argLines ((← argOf number).lines (← analysis number))
  | .states number => do return .argLines ((← argOf number).lines (← analysis number))
  | .info id => do
      let (owner, key) ← argState id
      return .info (← argInfo owner key)
  | .root number => do
      match (← argOf number).root with
      | some key => return .shown (← present (.inArg number key))
      | none => return .nothing
  | .byId number id => do
      let states ← argOf number
      match if id < 0 then none else states.position? id.toNat with
      | some key => return .shown (← present (.inArg number key))
      | none => return .nothing
  | .drawing number path => do
      let (_, path) ← pathOf path
      return .text ((← argOf number).drawing (← analysis number) (← get).graph path).text
  | .witness id => do
      let (owner, key) ← argState id
      return .edges (← settleWitness owner
        ((← argOf owner).witness (← analysis owner) (← get).graph key))
  | .pathEdges [] => return .edges []
  | .pathEdges path => do
      let (owner, path) ← pathOf path
      return .edges (← settleWitness owner
        ((← argOf owner).pathEdges (← analysis owner) (← get).graph path))
  | .witnessPath id => do
      let (owner, key) ← argState id
      let states ← argOf owner
      return .numbers ((← settleWitness owner (states.witnessPath key)).map states.id)
  | .witnessWalks id limit => do
      let (owner, key) ← argState id
      let states ← argOf owner
      let walks ← settleWitness owner (states.witnessWalks key limit)
      return .numberLists (walks.map fun walk => walk.map states.id)
  | .inputs path edges => do return .inputs (← inputs path edges)
  | .explore number order bound traced => explore fuel number order bound traced
  | .newReached order => do setReached (.empty (← orderOf order))
  | .add id => do
      let state ← reachedState id
      setReached ((← currentReached).add state)
  | .replace old id => do
      let old ← reachedState old
      let state ← reachedState id
      setReached ((← currentReached).replace old state)
  | .pop => do
      let (popped, reached) := (← currentReached).pop
      let _ ← setReached reached
      return .popped (popped.map ReachedState.id) reached
  | .statesAt id => do
      let node ← node id
      return .numbers (((← currentReached).statesAt (some node.id)).map ReachedState.id)
  | .member id => do
      let state ← reachedState id
      let reached ← currentReached
      return .truths [reached.contains state, reached.isWaiting state, reached.hasWaiting]
  | .waitlist order items => do return .waits (← waits (.empty (← orderOf order)) items)

def step (fuel : Nat) (command : Command) (session : Session) :
    Except SessionError Reply × Session :=
  (perform fuel command).run.run { session with steps := session.steps + 1 }

end Session

end Reachability
