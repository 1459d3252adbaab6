import Reachability.Arg.Basic
import Reachability.Graph.ShortestPath

/-!
# Witnesses

Paths from the root to a state are found backwards along parent links.  Walks
that visit states repeatedly unroll the loops that merged states stand for.
-/

namespace Reachability

/-- Why a sequence of locations is no path: a location is unknown, or there is no edge from the one
at `index` to the next. -/
inductive PathGap where
  | unknownLocation
  | noEdge (index : Nat) (source : Node) (target : Option Node)
deriving DecidableEq, Repr

def FlowGraph.edgesFrom (graph : FlowGraph) (index : Nat) :
    List (Option Node) → Except PathGap (List Edge)
  | [] => .ok []
  | [_] => .ok []
  | none :: _ :: _ => .error .unknownLocation
  | some source :: target :: rest =>
    match target.bind fun target => graph.edgeBetween? source.id target.id with
    | none => .error (.noEdge index source target)
    | some edge => (edgesFrom graph (index + 1) (target :: rest)).map (edge :: ·)

def FlowGraph.edgesAlong (graph : FlowGraph) (locations : List (Option Node)) :
    Except PathGap (List Edge) :=
  graph.edgesFrom 0 locations

inductive WitnessError where
  | removed (target : Nat)
  | noChain (target root : Nat)
  | rootOutOfRange
  | unknownLocation
  | noEdge (target : Nat) (source : Node) (next : Option Node) (state : Nat)
deriving DecidableEq, Repr

namespace Arg

variable {σ : Type u}

/-- Links from states to their parents, by number, and the first state found for each number. -/
structure Ancestry where
  graph : Graph.Digraph := {}
  keys : List (Nat × Nat) := []

namespace Ancestry

def addState (ancestry : Ancestry) (id key : Nat) : Ancestry :=
  { graph := ancestry.graph.addNode id
    keys := if (ancestry.keys.lookup id).isSome then ancestry.keys
      else ancestry.keys ++ [(id, key)] }

end Ancestry

/-- Follow parent links breadth first from the states in `queue`.  Every state enters the queue at
most once, which bounds the number of steps. -/
def climb (arg : Arg σ) : Nat → List Nat → List Nat → Ancestry → Ancestry
  | 0, _, _, ancestry => ancestry
  | _, [], _, ancestry => ancestry
  | steps + 1, key :: queue, visited, ancestry =>
    let parents := arg.parents key
    let ancestry := parents.foldl (fun ancestry parent =>
      let ancestry := (ancestry.addState (arg.id key) key).addState (arg.id parent) parent
      { ancestry with graph := ancestry.graph.addEdge (arg.id key) (arg.id parent) }) ancestry
    let fresh := (parents.foldl addUnique []).filter fun parent => !visited.contains parent
    climb arg steps (queue ++ fresh) (visited ++ fresh) ancestry

def ancestry (arg : Arg σ) (target : Nat) : Ancestry :=
  arg.climb arg.states.size [target] [target] (({} : Ancestry).addState (arg.id target) target)

def witnessPath (arg : Arg σ) (target : Nat) : Except WitnessError (List Nat) :=
  if ((arg.get? target).map ArgState.removed).getD true then .error (.removed target)
  else
    let root := arg.root.getD 0
    let ancestry := arg.ancestry target
    match ancestry.graph.shortestPath (arg.id target) (arg.id root) with
    | .error _ => .error .rootOutOfRange
    | .ok none => .error (.noChain target root)
    | .ok (some ids) =>
      .ok (ids.reverse.filterMap fun id => ancestry.keys.lookup id)

def maxWalkExpansions : Nat := 10000

/-- Extend walks that end at the target backwards, breadth first: those of `front` and then those of
`back` from its end. -/
def extendWalks (arg : Arg σ) (root : Nat) (shortest : List Nat) (limit : Nat) :
    Nat → List (List Nat) → List (List Nat) → List (List Nat) → List (List Nat)
  | 0, _, _, found => found
  | budget + 1, front, back, found =>
    if limit ≤ found.length then found
    else
      match (if front.isEmpty then (back.reverse, []) else (front, back)) with
      | ([], _) => found
      | ([] :: front, back) => extendWalks arg root shortest limit budget front back found
      | ((state :: rest) :: front, back) =>
        let walk := state :: rest
        if state = root then
          extendWalks arg root shortest limit budget front back
            (if walk = shortest then found else walk :: found)
        else
          extendWalks arg root shortest limit budget front
            ((arg.parents state).foldl (fun back parent => (parent :: walk) :: back) back) found

/-- Up to `limit` walks from the root to a state by increasing length, starting with the shortest
path. -/
def witnessWalks (arg : Arg σ) (target limit : Nat) : Except WitnessError (List (List Nat)) := do
  let shortest ← arg.witnessPath target
  let walks := arg.extendWalks (arg.root.getD 0) shortest limit maxWalkExpansions [[target]] []
    [shortest]
  return walks.reverse

def pathEdges (analysis : Analysis σ) (graph : FlowGraph) (arg : Arg σ) (path : List Nat) :
    Except WitnessError (List Edge) :=
  match graph.edgesAlong (path.map (arg.location analysis)) with
  | .ok edges => .ok edges
  | .error .unknownLocation => .error .unknownLocation
  | .error (.noEdge index source next) =>
    .error (.noEdge (path.getLastD 0) source next (path.getD (index + 1) 0))

def witness (analysis : Analysis σ) (graph : FlowGraph) (arg : Arg σ) (target : Nat) :
    Except WitnessError (List Edge) := do
  let path ← arg.witnessPath target
  arg.pathEdges analysis graph path

/-- The message of an error about witnesses; there is none for numbers out of range and unknown
locations. -/
def witnessMessage? (analysis : Analysis σ) (arg : Arg σ) : WitnessError → Option String
  | .removed target =>
    some ("cannot extract witness for " ++ arg.text analysis target ++
      ": the state has been removed from the ARG")
  | .noChain target root =>
    some ("cannot extract witness for " ++ arg.text analysis target ++
      ": no parent chain reaches the root " ++ arg.text analysis root)
  | .noEdge target source next state =>
    some ("cannot extract witness for " ++ arg.text analysis target ++ ": no CFA edge from " ++
      source.text ++ " to " ++ (next.map Node.text).getD "<nil>" ++ " between " ++
      arg.text analysis state ++ " and its parent")
  | .rootOutOfRange | .unknownLocation => none

end Arg

end Reachability
