/-!
# Binary heaps

A heap of items with priorities, kept in an array where the children of position
`i` are at `2 * i + 1` and `2 * i + 2`.
-/

namespace Reachability.Graph

abbrev Heap := Array (Nat × Nat)

namespace Heap

def before (heap : Heap) (first second : Nat) : Bool :=
  match heap[first]?, heap[second]? with
  | some a, some b => a.1 < b.1
  | _, _ => false

def siftUp (heap : Heap) (position : Nat) : Heap :=
  if 0 < position ∧ heap.before position ((position - 1) / 2) = true then
    siftUp (heap.swapIfInBounds position ((position - 1) / 2)) ((position - 1) / 2)
  else heap
termination_by position

/-- The child to compare with: the right one only if its priority is strictly smaller. -/
def smallerChild (heap : Heap) (size position : Nat) : Nat :=
  if 2 * position + 2 < size && heap.before (2 * position + 2) (2 * position + 1) then
    2 * position + 2
  else 2 * position + 1

theorem lt_smallerChild (heap : Heap) (size position : Nat) :
    position < heap.smallerChild size position := by
  unfold smallerChild
  split <;> omega

/-- Exchange an item with its smaller child as long as that has a strictly smaller priority. -/
def siftDown (heap : Heap) (size position : Nat) : Heap :=
  if 2 * position + 1 < size ∧ heap.before (heap.smallerChild size position) position = true then
    siftDown (heap.swapIfInBounds position (heap.smallerChild size position)) size
      (heap.smallerChild size position)
  else heap
termination_by size - position
decreasing_by
  have := lt_smallerChild heap size position
  omega

def insert (heap : Heap) (priority item : Nat) : Heap :=
  siftUp (heap.push (priority, item)) heap.size

/-- Restore the order around a position: the item there goes down if a child comes before it, and up
otherwise. -/
def fix (heap : Heap) (position : Nat) : Heap :=
  if 2 * position + 1 < heap.size ∧
      heap.before (heap.smallerChild heap.size position) position = true then
    heap.siftDown heap.size position
  else heap.siftUp position

/-- Give an item another priority. -/
def update (heap : Heap) (priority item : Nat) : Heap :=
  match heap.findIdx? fun entry => entry.2 = item with
  | some position => fix (heap.setIfInBounds position (priority, item)) position
  | none => heap

/-- Remove the first item: the last one takes its place and is sifted down. -/
def extract? (heap : Heap) : Option ((Nat × Nat) × Heap) :=
  match heap[0]? with
  | none => none
  | some first =>
    let last := heap.size - 1
    some (first, (siftDown (heap.swapIfInBounds 0 last) last 0).pop)

end Heap

end Reachability.Graph
