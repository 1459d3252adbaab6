/-!
# Mapping with a pool of workers

One sender puts the positions of a list into a channel, in order, and closes it.
Each worker repeatedly receives one, applies the function to the item there and
writes the result; it finishes once the channel is closed and empty.
-/

namespace Reachability

/-- What a worker is doing: waiting for a position, working on one, or nothing any more. -/
inductive Worker (β : Type u) where
  | idle
  | received (position : Nat)
  | computed (position : Nat) (result : β)
  | finished
deriving Repr, Inhabited

/-- The next position to send, the channel, the workers and the results written so far. -/
structure Pool (β : Type u) where
  next : Nat
  queue : List Nat
  closed : Bool
  workers : List (Worker β)
  results : List (Option β)

inductive PoolEvent where
  | send
  | close
  | receive (worker position : Nat)
  | apply (worker position : Nat)
  | write (worker position : Nat)
  | finish (worker : Nat)
deriving DecidableEq, Repr

namespace Pool

variable {α : Type u} {β : Type v}

/-- There is always at least one worker. -/
def size (workers : Int) : Nat := max workers.toNat 1

/-- A pool before the first event. -/
def start (workers : Int) (items : List α) : Pool β :=
  { next := 0
    queue := []
    closed := false
    workers := List.replicate (size workers) .idle
    results := List.replicate items.length none }

/-- The pool after an event, if the event can happen. -/
def step (f : α → β) (items : List α) (pool : Pool β) : PoolEvent → Option (Pool β)
  | .send =>
    if pool.next < items.length then
      some { pool with next := pool.next + 1, queue := pool.queue ++ [pool.next] }
    else none
  | .close =>
    if pool.next = items.length ∧ pool.closed = false then some { pool with closed := true }
      else none
  | .receive worker position =>
    match pool.workers[worker]?, pool.queue with
    | some .idle, first :: rest =>
      if first = position then
        some { pool with queue := rest, workers := pool.workers.set worker (.received position) }
      else none
    | _, _ => none
  | .apply worker position =>
    match pool.workers[worker]?, items[position]? with
    | some (.received held), some item =>
      if held = position then
        some { pool with workers := pool.workers.set worker (.computed position (f item)) }
      else none
    | _, _ => none
  | .write worker position =>
    match pool.workers[worker]? with
    | some (.computed held result) =>
      if held = position then
        some { pool with
          workers := pool.workers.set worker .idle
          results := pool.results.set position (some result) }
      else none
    | _ => none
  | .finish worker =>
    match pool.workers[worker]?, pool.queue with
    | some .idle, [] =>
      if pool.closed then some { pool with workers := pool.workers.set worker .finished } else none
    | _, _ => none

def run (f : α → β) (items : List α) (pool : Pool β) (events : List PoolEvent) : Option (Pool β) :=
  events.foldlM (step f items) pool

/-- The workers take turns, and finish when all the results have been written. -/
def turns (workers : Int) (length : Nat) : List PoolEvent :=
  (List.range length).flatMap (fun position =>
    let worker := position % size workers
    [.send, .receive worker position, .apply worker position, .write worker position]) ++
      .close :: (List.range (size workers)).map .finish

end Pool

def parallelMap {α : Type u} {β : Type v} (workers : Int) (f : α → β) (items : List α) : List β :=
  match (Pool.start workers items).run f items (Pool.turns workers items.length) with
  | some pool => pool.results.filterMap id
  | none => []

end Reachability
