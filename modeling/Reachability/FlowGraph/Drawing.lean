import Reachability.FlowGraph.Basic
import Reachability.Graph.Dot

/-!
# Drawings of control-flow graphs

The entry is a box, the heads of loops are double circles, and calls are blue.
-/

namespace Reachability.FlowGraph

def drawnNode (graph : FlowGraph) (heads : List Nat) (node : Node) : Graph.DrawnNode :=
  let shape : Graph.Attributes :=
    if node.id = graph.entry then [("shape", "box")]
    else if heads.contains node.id then [("shape", "doublecircle")]
    else []
  { id := node.id, attributes := ("label", node.text) :: shape }

def drawnEdge (edge : Edge) : Graph.DrawnEdge :=
  let color : Graph.Attributes := match edge.action with
    | .call .. => [("color", "blue")]
    | _ => []
  { source := edge.source, target := edge.target, attributes := ("label", edge.text) :: color }

def drawing (graph : FlowGraph) : Graph.Drawing :=
  { name := graph.name
    nodes := graph.nodes.map (graph.drawnNode graph.loopHeads)
    edges := graph.edges.map drawnEdge }

end Reachability.FlowGraph
