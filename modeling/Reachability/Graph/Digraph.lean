import Reachability.Sequence

/-!
# Directed graphs on numbered nodes

A `Digraph` has natural numbers as nodes and at most one edge from one node to
another.  Successors are listed in increasing order.
-/

namespace Reachability.Graph

structure Digraph where
  nodes : List Nat := []
  edges : List (Nat × Nat) := []
deriving Repr, Inhabited

namespace Digraph

def empty : Digraph := {}

def hasNode (graph : Digraph) (node : Nat) : Bool := graph.nodes.contains node

def addNode (graph : Digraph) (node : Nat) : Digraph :=
  { graph with nodes := addUnique graph.nodes node }

def hasEdge (graph : Digraph) (source target : Nat) : Bool :=
  graph.edges.contains (source, target)

def addEdge (graph : Digraph) (source target : Nat) : Digraph :=
  let graph := (graph.addNode source).addNode target
  if graph.hasEdge source target then graph
  else { graph with edges := (source, target) :: graph.edges }

structure NegativeNode where
  id : Int
deriving Repr

def NegativeNode.message (_ : NegativeNode) : String := "graphutil: negative node id"

def insertNode (graph : Digraph) (id : Int) : Except NegativeNode Unit × Digraph :=
  match id.toNat? with
  | some node => (.ok (), graph.addNode node)
  | none => (.error ⟨id⟩, graph)

/-- The source is added even if the target is refused. -/
def insertEdge (graph : Digraph) (source target : Int) : Except NegativeNode Unit × Digraph :=
  match source.toNat?, target.toNat? with
  | some source, some target => (.ok (), graph.addEdge source target)
  | some source, none => (.error ⟨target⟩, graph.addNode source)
  | none, _ => (.error ⟨source⟩, graph)

def ofLists (nodes : List Nat) (edges : List (Nat × Nat)) : Digraph :=
  edges.foldl (fun graph edge => graph.addEdge edge.1 edge.2)
    (nodes.foldl addNode empty)

def order (graph : Digraph) : Nat := graph.nodes.foldl (fun order node => max order (node + 1)) 0

def sortedNodes (graph : Digraph) : List Nat := graph.nodes.mergeSort

def successors (graph : Digraph) (node : Nat) : List Nat :=
  (graph.edges.filterMap fun edge => if edge.1 = node then some edge.2 else none).mergeSort

def predecessors (graph : Digraph) (node : Nat) : List Nat :=
  (graph.edges.filterMap fun edge => if edge.2 = node then some edge.1 else none).mergeSort

def explore (graph : Digraph) : Nat → List Nat → List Nat → List Nat
  | 0, _, seen => seen
  | _, [], seen => seen
  | steps + 1, node :: frontier, seen =>
    if node ∈ seen then explore graph steps frontier seen
    else explore graph steps (frontier ++ graph.successors node) (node :: seen)

/-- The nodes reachable from `start`, itself included, in increasing order.  Every edge puts a node
on the frontier at most once, which bounds the number of steps. -/
def reachable (graph : Digraph) (start : Nat) : List Nat :=
  (graph.explore (graph.edges.length + 1) [start] []).mergeSort

end Digraph

end Reachability.Graph
