import Reachability.Exploration.Waitlist
import Reachability.Sequence

/-!
# Reached sets

The states that an exploration has reached, and those that wait.  A state that
was replaced stays in the waitlist but is skipped when its turn comes.
-/

namespace Reachability

/-- A state as a reached set sees it: a key that identifies it, its number and its location. -/
structure ReachedState (κ : Type u) where
  key : κ
  id : Nat
  location : Option Nat
deriving DecidableEq, Repr

structure Reached (κ : Type u) where
  states : List (ReachedState κ) := []
  byLocation : List (Option Nat × List (ReachedState κ)) := []
  members : List Nat := []
  waiting : List Nat := []
  waitlist : Waitlist (ReachedState κ)

namespace Reached

variable {κ : Type u} [DecidableEq κ]

def empty (order : WaitOrder) : Reached κ := { waitlist := .empty order }

def contains (reached : Reached κ) (state : ReachedState κ) : Bool :=
  reached.members.contains state.id

def isWaiting (reached : Reached κ) (state : ReachedState κ) : Bool :=
  reached.waiting.contains state.id

def hasWaiting (reached : Reached κ) : Bool := !reached.waiting.isEmpty

def waitingCount (reached : Reached κ) : Nat := reached.waiting.length

def size (reached : Reached κ) : Nat := reached.states.length

def statesAt (reached : Reached κ) (location : Option Nat) : List (ReachedState κ) :=
  (reached.byLocation.lookup location).getD []

def changeAt (groups : List (Option Nat × List (ReachedState κ))) (location : Option Nat)
    (change : List (ReachedState κ) → List (ReachedState κ)) :
    List (Option Nat × List (ReachedState κ)) :=
  match groups with
  | [] => [(location, change [])]
  | (other, states) :: rest =>
    if other = location then (location, change states) :: rest
    else (other, states) :: changeAt rest location change

def replaceIn (states : List (ReachedState κ)) (old state : ReachedState κ) :
    List (ReachedState κ) :=
  match states with
  | [] => []
  | first :: rest =>
    if first.key = old.key then state :: rest else first :: replaceIn rest old state

def await (reached : Reached κ) (state : ReachedState κ) : Reached κ :=
  { reached with
    waiting := addUnique reached.waiting state.id
    waitlist := reached.waitlist.push state }

def add (reached : Reached κ) (state : ReachedState κ) : Reached κ :=
  if reached.contains state then reached
  else
    { reached with
      states := reached.states ++ [state]
      byLocation := changeAt reached.byLocation state.location (· ++ [state])
      members := addUnique reached.members state.id }.await state

def replace (reached : Reached κ) (old state : ReachedState κ) : Reached κ :=
  if reached.contains old then
    let byLocation :=
      if state.location = old.location then
        changeAt reached.byLocation old.location (replaceIn · old state)
      else
        changeAt
          (changeAt reached.byLocation old.location (·.filter fun other => other.key ≠ old.key))
          state.location (· ++ [state])
    { reached with
      states := replaceIn reached.states old state
      byLocation
      members := addUnique (removeAll reached.members old.id) state.id
      waiting := removeAll reached.waiting old.id }.await state
  else reached.add state

def nextWaiting (waiting : List Nat) (waitlist : Waitlist (ReachedState κ)) :
    Option (ReachedState κ) × Waitlist (ReachedState κ) :=
  match _ : waitlist.pop? with
  | none => (none, waitlist)
  | some (state, rest) =>
    if waiting.contains state.id then (some state, rest) else nextWaiting waiting rest
termination_by waitlist.size
decreasing_by exact Waitlist.size_lt_of_pop? (by assumption)

def pop (reached : Reached κ) : Option (ReachedState κ) × Reached κ :=
  let (state, waitlist) := nextWaiting reached.waiting reached.waitlist
  (state,
    { reached with
      waiting := match state with
        | some state => removeAll reached.waiting state.id
        | none => reached.waiting
      waitlist })

end Reached

end Reachability
