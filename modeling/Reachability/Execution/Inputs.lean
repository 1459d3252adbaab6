import Reachability.Bounds.Basic
import Reachability.Execution.Run

/-!
# Inputs for a path

Concrete inputs that may drive an execution along a path are chosen from the
bounds at its states.
-/

namespace Reachability

namespace Inputs

/-- The bounds at the states from the next one on; the last state stays. -/
def advance (bounds : List Bounds) : List Bounds :=
  match bounds with
  | _ :: next :: rest => next :: rest
  | _ => bounds

/-- The value chosen for a variable from the bounds at the states along `edges`: the one closest to
zero among those possible just before the variable is written, or at the last state if it is not. -/
def choose (bounds : List Bounds) (edges : List Edge) (name : String) : Int64 :=
  let last := bounds.length - 1
  let state := match edges.findIdx? fun edge => edge.action.written?.getD "" = name with
    | some index => min index last
    | none => last
  ((bounds.getD state .unknown).get name).closestToZero

def readBefore (bounds : List Bounds) (edges : List Edge) (assigned : List String) (inputs : Inputs)
    (expr : Expr) : Inputs :=
  { inputs with
    initial := expr.vars.foldl (fun initial name =>
      if assigned.contains name || (initial.get? name).isSome then initial
      else initial.insert name (choose bounds edges name)) inputs.initial }

def drawZeros (inputs : Inputs) (expr : Expr) : Inputs :=
  { inputs with
    nondet := inputs.nondet ++ expr.parts.filterMap fun part =>
      match part with
      | .nondet .. => some (0 : Int64)
      | _ => none }

def drawFor (bounds : List Bounds) (edges : List Edge) (inputs : Inputs) (name : String) : Inputs :=
  { inputs with nondet := inputs.nondet ++ [choose bounds edges name] }

/-- Choose what an action reads and draws. -/
def forAction (bounds : List Bounds) (edge : Edge) (later : List Edge) (assigned : List String)
    (inputs : Inputs) : Inputs :=
  let read (inputs : Inputs) (expr : Expr) : Inputs :=
    inputs.readBefore bounds (edge :: later) assigned expr
  let draw (inputs : Inputs) (name : String) : Inputs := inputs.drawFor (advance bounds) later name
  match edge.action with
  | .assign var (.nondet _ _) => draw inputs var
  | .assign _ value => (read inputs value).drawZeros value
  | .assume cond _ => (read inputs cond).drawZeros cond
  | .call result _ args =>
    let inputs := args.foldl (fun inputs arg => (read inputs arg).drawZeros arg) inputs
    if result = "" then inputs else draw inputs result
  | .blank _ => inputs

/-- Choose inputs along a path; the variables in `assigned` have been written already. -/
def along (bounds : List Bounds) (assigned : List String) (inputs : Inputs) : List Edge → Inputs
  | [] => inputs
  | edge :: later =>
    let inputs := inputs.forAction bounds edge later assigned
    let assigned := match edge.action.written? with
      | some name => addUnique assigned name
      | none => assigned
    along (advance bounds) assigned inputs later

def ofPath (bounds : List Bounds) (edges : List Edge) : Inputs :=
  if bounds.isEmpty then {} else along bounds [] {} edges

end Inputs

end Reachability
