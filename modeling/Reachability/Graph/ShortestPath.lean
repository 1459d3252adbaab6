import Reachability.Graph.Digraph
import Reachability.Graph.Heap

/-!
# Shortest paths

A best-first search along edges of length one.  A node gets a label when it is
reached first, and a better one whenever a shorter way is found.
-/

namespace Reachability.Graph

/-- The distance of a node from the start and the node before it on a shortest path. -/
structure Label where
  distance : Nat
  parent : Option Nat
deriving Repr

/-- The labels given so far and the labelled nodes whose successors have not been visited. -/
structure Frontier where
  labels : Array (Option Label)
  heap : Heap

namespace Digraph

/-- Follow an edge from a node at a distance. -/
def relax (node distance : Nat) (frontier : Frontier) (next : Nat) : Frontier :=
  let labels := frontier.labels.setIfInBounds next (some ⟨distance + 1, some node⟩)
  match frontier.labels[next]? with
  | some none => { labels, heap := frontier.heap.insert (distance + 1) next }
  | some (some label) =>
    if distance + 1 < label.distance then
      { labels, heap := frontier.heap.update (distance + 1) next }
    else frontier
  | none => frontier

def settle (graph : Digraph) : Nat → Frontier → Frontier
  | 0, frontier => frontier
  | steps + 1, frontier =>
    match frontier.heap.extract? with
    | none => frontier
    | some ((distance, node), heap) =>
      settle graph steps
        ((graph.successors node).foldl (relax node distance) { frontier with heap })

/-- The labels of the nodes reachable from `start`.  Every node enters the heap at most once, which
bounds the number of visits. -/
def labelsFrom (graph : Digraph) (start : Nat) : Array (Option Label) :=
  let labels := (Array.replicate graph.order none).setIfInBounds start (some ⟨0, none⟩)
  (graph.settle graph.order { labels, heap := Heap.insert #[] 0 start }).labels

def followParents (labels : Array (Option Label)) : Nat → Nat → List Nat → List Nat
  | 0, _, rest => rest
  | steps + 1, node, rest =>
    match labels[node]? with
    | some (some { parent := some parent, .. }) => followParents labels steps parent (node :: rest)
    | _ => node :: rest

structure OutOfRange where
  node : Int
deriving Repr

/-- The target must lie below the order of the graph unless it is the start. -/
def shortestPath (graph : Digraph) (start target : Nat) : Except OutOfRange (Option (List Nat)) :=
  if !graph.hasNode start then .ok none
  else if start = target then .ok (some [start])
  else
    let labels := graph.labelsFrom start
    match labels[target]? with
    | none => .error ⟨target⟩
    | some none => .ok none
    | some (some _) => .ok (some (followParents labels graph.order target []))

/-- A search between numbers that may be negative, which no node has. -/
def pathBetween (graph : Digraph) (start target : Int) :
    Except OutOfRange (Option (List Nat)) :=
  match start.toNat?, target.toNat? with
  | some start, some target => graph.shortestPath start target
  | some start, none => if graph.hasNode start then .error ⟨target⟩ else .ok none
  | none, _ => .ok none

end Digraph

end Reachability.Graph
