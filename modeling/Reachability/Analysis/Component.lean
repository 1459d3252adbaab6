import Reachability.Analysis.Basic
import Reachability.Bounds.Eval

/-!
# Component analyses

One analysis follows the control location, one bounds the values of variables,
and one watches for calls to a target function.
-/

namespace Reachability

inductive MergePolicy where
  | join | separate
deriving DecidableEq, Repr

inductive ComponentState where
  | location (node : Node)
  | bounds (bounds : Bounds)
  | call (callee : Option String)
deriving DecidableEq

namespace ComponentState

def text : ComponentState → String
  | location node => node.text
  | bounds known => known.text
  | call none => "safe"
  | call (some callee) => "called " ++ callee

def node? : ComponentState → Option Node
  | location node => some node
  | _ => none

def bounds? : ComponentState → Option Bounds
  | bounds known => some known
  | _ => none

end ComponentState

/-- The bounds after an action, if it can be executed.  The result of a call may be any value. -/
def Bounds.after (bounds : Bounds) : Action → Option Bounds
  | .assign var value => some (bounds.set var (bounds.eval value))
  | .assume cond truth => bounds.assume (if truth then cond else cond.negation)
  | .call result _ _ => some (if result = "" then bounds else bounds.set result .top)
  | .blank _ => some bounds

def Bounds.mergeInto (policy : MergePolicy) (new reached : Bounds) : Option Bounds :=
  match policy with
  | .separate => none
  | .join =>
    let joined := new.join reached
    if joined.equal reached then none else some joined

namespace Analysis

/-- The control location.  Here and below, states of another analysis have no successors, are never
merged and cover nothing. -/
def locations (graph : FlowGraph) : Analysis ComponentState where
  initial node := .location node
  transfer
    | .location node, edge =>
      if node.id = edge.source then [.location (graph.node edge.target)] else []
    | _, _ => []
  merge _ _ := none
  covers
    | .location node, .location reached => node.id == reached.id
    | _, _ => false
  isTarget _ := false
  location := ComponentState.node?
  text := ComponentState.text

def values (policy : MergePolicy) : Analysis ComponentState where
  initial _ := .bounds .unknown
  transfer
    | .bounds bounds, edge => ((bounds.after edge.action).map .bounds).toList
    | _, _ => []
  merge
    | .bounds new, .bounds reached => (new.mergeInto policy reached).map .bounds
    | _, _ => none
  covers
    | .bounds bounds, .bounds reached => reached.includes bounds
    | _, _ => false
  isTarget _ := false
  location := ComponentState.node?
  text := ComponentState.text

def targetCalls (target : String) : Analysis ComponentState where
  initial _ := .call none
  transfer
    | .call none, edge => [.call (if edge.action.calls target then some target else none)]
    | .call (some callee), _ => [.call (some callee)]
    | _, _ => []
  merge _ _ := none
  covers
    | .call call, .call reached => call == reached
    | _, _ => false
  isTarget
    | .call call => call.isSome
    | _ => false
  location := ComponentState.node?
  text := ComponentState.text

end Analysis

end Reachability
