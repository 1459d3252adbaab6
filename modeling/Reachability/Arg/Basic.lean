import Reachability.Analysis.Basic
import Reachability.Sequence

/-!
# Abstract reachability graphs

The states of an exploration, linked to their parents and their children.  A
merged state takes over the links of the state it replaces.
-/

namespace Reachability

/-- A state of the graph.  Links are positions in the record of all states; a removed state stays in
the record without links. -/
structure ArgState (σ : Type u) where
  id : Nat
  wrapped : σ
  parents : List Nat := []
  children : List Nat := []
  removed : Bool := false
deriving Repr

/-- The record of all states.  The current graph starts at position `first`. -/
structure Arg (σ : Type u) where
  states : Array (ArgState σ) := #[]
  first : Nat := 0
  root : Option Nat := none
deriving Repr

namespace Arg

variable {σ : Type u}

def get? (arg : Arg σ) (key : Nat) : Option (ArgState σ) := arg.states[key]?

def parents (arg : Arg σ) (key : Nat) : List Nat := ((arg.get? key).map ArgState.parents).getD []

def children (arg : Arg σ) (key : Nat) : List Nat := ((arg.get? key).map ArgState.children).getD []

def id (arg : Arg σ) (key : Nat) : Nat := ((arg.get? key).map ArgState.id).getD 0

def live (arg : Arg σ) : List Nat :=
  (List.range arg.states.size).filter fun key =>
    arg.first ≤ key && ((arg.get? key).map fun state => !state.removed).getD false

def position? (arg : Arg σ) (id : Nat) : Option Nat :=
  if arg.first + id < arg.states.size then some (arg.first + id) else none

def create (arg : Arg σ) (wrapped : σ) : Nat × Arg σ :=
  let key := arg.states.size
  (key, { arg with states := arg.states.push { id := key - arg.first, wrapped } })

def modify (arg : Arg σ) (key : Nat) (change : ArgState σ → ArgState σ) : Arg σ :=
  { arg with states := arg.states.modify key change }

def link (arg : Arg σ) (parent child : Nat) : Arg σ :=
  (arg.modify parent fun state => { state with children := addUnique state.children child }).modify
    child fun state => { state with parents := addUnique state.parents parent }

/-- Remove a state from the graph: it loses its links. -/
def discard (arg : Arg σ) (key : Nat) : Arg σ :=
  let arg := (arg.parents key).foldl (fun arg parent =>
    arg.modify parent fun state => { state with children := removeAll state.children key }) arg
  let arg := (arg.children key).foldl (fun arg child =>
    arg.modify child fun state => { state with parents := removeAll state.parents key }) arg
  arg.modify key fun state => { state with parents := [], children := [], removed := true }

def initial (analysis : Analysis σ) (arg : Arg σ) (entry : Node) : Nat × Arg σ :=
  let (key, arg) := { arg with first := arg.states.size }.create (analysis.initial entry)
  (key, { arg with root := some key })

def transfer (analysis : Analysis σ) (arg : Arg σ) (key : Nat) (edge : Edge) : List Nat × Arg σ :=
  let successors := ((arg.get? key).map fun state => analysis.transfer state.wrapped edge).getD []
  let (keys, arg) := successors.foldl (fun (keys, arg) wrapped =>
    let (child, arg) := arg.create wrapped
    (child :: keys, arg.link key child)) (([] : List Nat), arg)
  (keys.reverse, arg)

/-- Merge a new state into a reached one, which is removed.  There is no merged state if the
analysis keeps them apart. -/
def merge (analysis : Analysis σ) (arg : Arg σ) (new reached : Nat) : Option Nat × Arg σ :=
  match arg.get? new, arg.get? reached with
  | some newState, some reachedState =>
    match analysis.merge newState.wrapped reachedState.wrapped with
    | none => (none, arg)
    | some wrapped =>
      let (merged, arg) := arg.create wrapped
      let arg := (arg.parents reached).foldl (fun arg parent => arg.link parent merged) arg
      let arg := (arg.parents new).foldl (fun arg parent => arg.link parent merged) arg
      let arg := (arg.children reached).foldl (fun arg child => arg.link merged child) arg
      let root := if arg.root = some reached then some merged else arg.root
      (some merged, { arg with root }.discard reached)
  | _, _ => (none, arg)

def stop (analysis : Analysis σ) (arg : Arg σ) (key : Nat) (reached : List Nat) : Bool :=
  match arg.get? key with
  | none => false
  | some state =>
    analysis.stop state.wrapped (reached.filterMap fun key => (arg.get? key).map ArgState.wrapped)

def isTarget (analysis : Analysis σ) (arg : Arg σ) (key : Nat) : Bool :=
  ((arg.get? key).map fun state => analysis.isTarget state.wrapped).getD false

def location (analysis : Analysis σ) (arg : Arg σ) (key : Nat) : Option Node :=
  (arg.get? key).bind fun state => analysis.location state.wrapped

def text (analysis : Analysis σ) (arg : Arg σ) (key : Nat) : String :=
  match arg.get? key with
  | none => ""
  | some state => "ARG#" ++ toString state.id ++ " " ++ analysis.text state.wrapped

end Arg

end Reachability
