import Reachability.Arg.Basic
import Reachability.Graph.Dot

/-!
# Drawings of abstract reachability graphs

Target states are red, the root is a box, and the links along a given path are
bold.
-/

namespace Reachability.Arg

variable {σ : Type u}

def drawnState (analysis : Analysis σ) (arg : Arg σ) (key : Nat) : Graph.DrawnNode :=
  let color : Graph.Attributes := if arg.isTarget analysis key then [("color", "red")] else []
  let shape : Graph.Attributes := if arg.root = some key then [("shape", "box")] else []
  { id := arg.id key, attributes := ("label", arg.text analysis key) :: (color ++ shape) }

def drawnLink (analysis : Analysis σ) (graph : FlowGraph) (arg : Arg σ) (path : List Nat)
    (parent child : Nat) : Graph.DrawnEdge :=
  let edge := (arg.location analysis parent).bind fun source =>
    (arg.location analysis child).bind fun target => graph.edgeBetween? source.id target.id
  let label : Graph.Attributes := match edge with
    | some edge => [("label", edge.text)]
    | none => []
  let style : Graph.Attributes :=
    if (path.zip (path.drop 1)).contains (parent, child) then [("style", "bold")] else []
  { source := arg.id parent, target := arg.id child, attributes := label ++ style }

def drawing (analysis : Analysis σ) (graph : FlowGraph) (arg : Arg σ) (path : List Nat) :
    Graph.Drawing :=
  { name := "ARG"
    nodes := arg.live.map (arg.drawnState analysis)
    edges := arg.live.flatMap fun parent =>
      (arg.children parent).map (arg.drawnLink analysis graph path parent) }

end Reachability.Arg
