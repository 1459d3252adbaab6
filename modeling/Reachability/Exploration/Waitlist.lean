import Reachability.Text.Quoted

/-!
# Waitlists

The states that remain to be explored, as a stack or as a queue.
-/

namespace Reachability

/-- The order of exploration: the latest state first, or the oldest one first. -/
inductive WaitOrder where
  | depthFirst | breadthFirst
deriving DecidableEq, Repr

structure UnknownOrder where
  name : String
deriving DecidableEq, Repr

def UnknownOrder.message (error : UnknownOrder) : String :=
  "unknown waitlist order " ++ Text.quote error.name

def WaitOrder.ofName (name : String) : Except UnknownOrder WaitOrder :=
  if name = "dfs" ∨ name = "" then .ok .depthFirst
  else if name = "bfs" then .ok .breadthFirst
  else .error ⟨name⟩

/-- Items in the order in which they were pushed; those in front of `head` have been taken. -/
structure Queue (α : Type u) where
  stored : List α := []
  head : Nat := 0
  inside : head ≤ stored.length := by simp

namespace Queue

variable {α : Type u}

def items (queue : Queue α) : List α := queue.stored.drop queue.head

def push (queue : Queue α) (item : α) : Queue α where
  stored := queue.stored ++ [item]
  head := queue.head
  inside := Nat.le_trans queue.inside (by simp)

/-- Drop the items that have been taken, if they are more than half of the stored ones. -/
def compact (queue : Queue α) : Queue α :=
  if queue.stored.length / 2 < queue.head then { stored := queue.stored.drop queue.head } else queue

def pop? (queue : Queue α) : Option (α × Queue α) :=
  if remains : queue.head < queue.stored.length then
    some (queue.stored[queue.head],
      compact { stored := queue.stored, head := queue.head + 1, inside := remains })
  else none

def size (queue : Queue α) : Nat := queue.stored.length - queue.head

def map {β : Type v} (queue : Queue α) (f : α → β) : Queue β where
  stored := queue.stored.map f
  head := queue.head
  inside := by simpa using queue.inside

end Queue

/-- Waiting items: a stack with its top first, or a queue. -/
inductive Waitlist (α : Type u) where
  | stack (items : List α)
  | queue (line : Queue α)

namespace Waitlist

variable {α : Type u}

def empty : WaitOrder → Waitlist α
  | .depthFirst => stack []
  | .breadthFirst => queue {}

def items : Waitlist α → List α
  | stack items => items
  | queue line => line.items

def push : Waitlist α → α → Waitlist α
  | stack items, item => stack (item :: items)
  | queue line, item => queue (line.push item)

def pop? : Waitlist α → Option (α × Waitlist α)
  | stack [] => none
  | stack (item :: items) => some (item, stack items)
  | queue line => line.pop?.map fun (item, rest) => (item, queue rest)

def size : Waitlist α → Nat
  | stack items => items.length
  | queue line => line.size

def map {β : Type v} (waitlist : Waitlist α) (f : α → β) : Waitlist β :=
  match waitlist with
  | stack items => stack (items.map f)
  | queue line => queue (line.map f)

theorem size_lt_of_pop? {waitlist rest : Waitlist α} {item : α}
    (taken : waitlist.pop? = some (item, rest)) : rest.size < waitlist.size := by
  cases waitlist with
  | stack items =>
    cases items with
    | nil => cases taken
    | cons first items =>
      cases taken
      exact Nat.lt_succ_self _
  | queue line =>
    simp only [pop?, Queue.pop?] at taken
    split at taken
    · cases taken
      simp only [size, Queue.size, Queue.compact]
      split
      · simp only [List.length_drop]
        omega
      · dsimp only
        omega
    · cases taken

end Waitlist

end Reachability
