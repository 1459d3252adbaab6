import Reachability.Graph.Components
import Reachability.Graph.Digraph
import Reachability.Program.Stmt

/-!
# Control-flow graphs

The nodes of a `FlowGraph` are the control points of a program, and its edges
carry elementary actions.
-/

namespace Reachability

/-- `assume` carries the condition as it is written and the truth value it must have; `result` is
empty if the result of a call is dropped. -/
inductive Action where
  | blank (description : String)
  | assign (var : String) (value : Expr)
  | assume (cond : Expr) (truth : Bool)
  | call (result callee : String) (args : List Expr)
deriving DecidableEq, Repr, Inhabited

namespace Action

def kind : Action → String
  | blank _ => "blank"
  | assign .. => "assign"
  | assume .. => "assume"
  | call .. => "call"

def condition? : Action → Option Expr
  | assume cond truth => some (if truth then cond else cond.negation)
  | _ => none

def written? : Action → Option String
  | assign var _ => some var
  | call result _ _ => if result = "" then none else some result
  | _ => none

def calls (name : String) : Action → Bool
  | call _ callee _ => callee == name
  | _ => false

def text? : Action → Option String
  | blank description => some (if description = "" then "skip" else description)
  | assign var value => value.text?.map fun text => var ++ " = " ++ text
  | assume cond truth =>
    (if truth then cond else cond.negation).text?.map fun text => "[" ++ text ++ "]"
  | call result callee args => Stmt.callText? result callee args

end Action

structure Node where
  id : Nat
  label : String := ""
deriving DecidableEq, Repr, Inhabited

def Node.text (node : Node) : String :=
  "N" ++ toString node.id ++ (if node.label = "" then "" else " (" ++ node.label ++ ")")

structure Edge where
  id : Nat
  source : Nat
  target : Nat
  action : Action
  pos : Nat := 0
deriving DecidableEq, Repr, Inhabited

def Edge.text (edge : Edge) : String := noted "s" false edge.action.text? fun text => text

/-- A list of edges for each node; a list that is missing is empty. -/
abbrev EdgeLists := List (List Edge)

namespace EdgeLists

/-- Add an edge to the list of a node. -/
def record (edge : Edge) : Nat → EdgeLists → EdgeLists
  | 0, lists => (lists.headD [] ++ [edge]) :: lists.tail
  | node + 1, lists => lists.headD [] :: record edge node lists.tail

/-- Every node has the edges with this end there, in the order in which they have been added. -/
def Sorts (lists : EdgeLists) (side : Edge → Nat) (edges : List Edge) : Prop :=
  ∀ node, lists[node]?.getD [] = edges.filter fun edge => side edge == node

theorem getD_record (edge : Edge) (node : Nat) (lists : EdgeLists) (other : Nat) :
    (record edge node lists)[other]?.getD [] =
      lists[other]?.getD [] ++ if node = other then [edge] else [] := by
  induction node generalizing lists other with
  | zero => cases lists <;> cases other <;> simp [record]
  | succ node induction => cases lists <;> cases other <;> simp [record, induction]

variable {side : Edge → Nat} {edges : List Edge} {lists : EdgeLists}

theorem Sorts.record (sorts : lists.Sorts side edges) (edge : Edge) :
    (record edge (side edge) lists).Sorts side (edges ++ [edge]) := by
  intro node
  rw [getD_record, sorts, List.filter_append]
  simp [List.filter_cons]

theorem Sorts.addNode (sorts : lists.Sorts side edges) :
    (lists ++ [[]] : EdgeLists).Sorts side edges := by
  intro node
  rw [← sorts, List.getElem?_append]
  grind

theorem sorts_nil : Sorts [] Edge.source [] ∧ Sorts [] Edge.target [] := by
  simp [Sorts]

end EdgeLists

theorem Node.numbered_nil :
    ([] : List Node).map Node.id = List.range ([] : List Node).length := rfl

/-- Nodes and edges that are numbered in the order of their creation, with the edges that leave each
node and those that lead to it. -/
structure Network where
  nodes : List Node := []
  edges : List Edge := []
  leaving : EdgeLists := []
  entering : EdgeLists := []
  numbered : nodes.map Node.id = List.range nodes.length := by exact Node.numbered_nil
  sorted : leaving.Sorts Edge.source edges ∧ entering.Sorts Edge.target edges := by
    exact EdgeLists.sorts_nil
deriving DecidableEq, Repr

namespace Network

def addNode (network : Network) : Network where
  nodes := network.nodes ++ [{ id := network.nodes.length }]
  edges := network.edges
  leaving := network.leaving ++ [[]]
  entering := network.entering ++ [[]]
  numbered := by simp [network.numbered, List.range_succ]
  sorted := ⟨network.sorted.1.addNode, network.sorted.2.addNode⟩

def addEdge (network : Network) (source target : Nat) (action : Action) (pos : Nat) : Network :=
  let edge := { id := network.edges.length, source, target, action, pos }
  { network with
    edges := network.edges ++ [edge]
    leaving := .record edge source network.leaving
    entering := .record edge target network.entering
    sorted := ⟨network.sorted.1.record edge, network.sorted.2.record edge⟩ }

/-- Name a node that has no name. -/
def label (network : Network) (node : Nat) (label : String) : Network :=
  { network with
    nodes := network.nodes.modify node fun found =>
      if found.label = "" then { found with label } else found
    numbered := by
      rw [List.length_modify, ← network.numbered]
      apply List.ext_getElem
      · simp
      · grind }

end Network

/-- A control-flow graph.  Every run starts at the entry, and one that ends does so at the exit. -/
structure FlowGraph extends Network where
  name : String
  entry : Nat
  exit : Nat
deriving DecidableEq, Repr

instance : Inhabited FlowGraph := ⟨{ name := "", entry := 0, exit := 0 }⟩

namespace FlowGraph

def node (graph : FlowGraph) (id : Nat) : Node := graph.nodes.getD id { id }

theorem node_id (graph : FlowGraph) (id : Nat) : (graph.node id).id = id := by
  unfold node
  by_cases bound : id < graph.nodes.length
  · have numbered := congrArg (·[id]?) graph.numbered
    simpa [bound] using numbered
  · simp [bound]

/-- At a branch, the edge of the condition comes before the one of its negation. -/
def outgoing (graph : FlowGraph) (node : Nat) : List Edge := graph.leaving[node]?.getD []

def incoming (graph : FlowGraph) (node : Nat) : List Edge := graph.entering[node]?.getD []

theorem outgoing_eq (graph : FlowGraph) (node : Nat) :
    graph.outgoing node = graph.edges.filter fun edge => edge.source == node := graph.sorted.1 node

theorem incoming_eq (graph : FlowGraph) (node : Nat) :
    graph.incoming node = graph.edges.filter fun edge => edge.target == node := graph.sorted.2 node

theorem mem_outgoing {graph : FlowGraph} {node : Nat} {edge : Edge} :
    edge ∈ graph.outgoing node ↔ edge ∈ graph.edges ∧ edge.source = node := by
  rw [outgoing_eq, List.mem_filter, beq_iff_eq]

theorem mem_incoming {graph : FlowGraph} {node : Nat} {edge : Edge} :
    edge ∈ graph.incoming node ↔ edge ∈ graph.edges ∧ edge.target = node := by
  rw [incoming_eq, List.mem_filter, beq_iff_eq]

def edgeBetween? (graph : FlowGraph) (source target : Nat) : Option Edge :=
  (graph.outgoing source).find? fun edge => edge.target == target

def toDigraph (graph : FlowGraph) : Graph.Digraph :=
  .ofLists (graph.nodes.map Node.id) (graph.edges.map fun edge => (edge.source, edge.target))

def reachable (graph : FlowGraph) : List Nat := graph.toDigraph.reachable graph.entry

/-- The heads of the cycles among `nodes`: the first node of each component is one, and the rest of
the component is decomposed again.  `depth` bounds the nesting of loops. -/
def headsAmong (graph : FlowGraph) : Nat → List Nat → List Nat
  | 0, _ => []
  | depth + 1, nodes =>
    let successors (node : Nat) : List Nat :=
      ((graph.outgoing node).map Edge.target).filter nodes.contains
    (Graph.cyclicComponents nodes.length nodes successors).flatMap fun component =>
      match component with
      | [] => []
      | head :: rest => head :: headsAmong graph depth rest

/-- The nodes where loops are entered, in increasing order.  Nested loops have heads of their
own. -/
def loopHeads (graph : FlowGraph) : List Nat :=
  let heads := graph.headsAmong graph.nodes.length (graph.nodes.map Node.id)
  (graph.nodes.map Node.id).filter heads.contains

def exits (graph : FlowGraph) : List Nat :=
  (graph.nodes.map Node.id).filter fun node => (graph.outgoing node).isEmpty

def callsTo (graph : FlowGraph) (name : String) : List Edge :=
  graph.edges.filter fun edge => edge.action.calls name

def edgeLine (graph : FlowGraph) (edge : Edge) : String :=
  (graph.node edge.source).text ++ " -> " ++ (graph.node edge.target).text ++ ": " ++ edge.text

def text (graph : FlowGraph) : String :=
  "CFA " ++ graph.name ++ " (entry " ++ (graph.node graph.entry).text ++ ", exit " ++
    (graph.node graph.exit).text ++ ")\n" ++
    String.join (graph.edges.map fun edge => "  " ++ graph.edgeLine edge ++ "\n")

end FlowGraph

end Reachability
