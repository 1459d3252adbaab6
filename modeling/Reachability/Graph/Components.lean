/-!
# Strongly connected components

A depth-first traversal keeps the nodes whose component is not complete on a
stack.  A node from which no lower number on the stack can be reached is the
first one of its component, which is the part of the stack above it.
-/

namespace Reachability.Graph

variable {α : Type u} [DecidableEq α]

structure Traversal (α : Type u) where
  /-- The nodes entered so far and their numbers, the latest first. -/
  numbers : List (α × Nat) := []
  /-- The nodes that have no component yet, the latest first. -/
  stack : List α := []
  /-- The components found so far, the latest first. -/
  found : List (List α) := []

namespace Traversal

def enter (traversal : Traversal α) (node : α) : Traversal α :=
  { traversal with
    numbers := (node, traversal.numbers.length) :: traversal.numbers
    stack := node :: traversal.stack }

def close (traversal : Traversal α) (node : α) : Traversal α :=
  { traversal with
    stack := (traversal.stack.dropWhile (· ≠ node)).drop 1
    found := (node :: (traversal.stack.takeWhile (· ≠ node)).reverse) :: traversal.found }

/-- Visit a node that has not been entered, and return the lowest number on the stack that is known
to be reachable from it.  `depth` bounds the length of the paths that are followed. -/
def visit (successors : α → List α) : Nat → α → Traversal α → Nat × Traversal α
  | 0, _, traversal => (traversal.numbers.length, traversal)
  | depth + 1, node, traversal =>
    let number := traversal.numbers.length
    let (lowest, traversal) := (successors node).foldl (fun (lowest, traversal) next =>
      match traversal.numbers.lookup next with
      | none =>
        let (reached, traversal) := visit successors depth next traversal
        (min lowest reached, traversal)
      | some entered =>
        if next ∈ traversal.stack then (min lowest entered, traversal)
        else (lowest, traversal)) (number, traversal.enter node)
    if lowest = number then (lowest, traversal.close node) else (lowest, traversal)

end Traversal

/-- The components of the nodes reachable from `nodes`, those of successors first, each from the
node entered first.  `size` is at least the number of reachable nodes. -/
def components (size : Nat) (nodes : List α) (successors : α → List α) : List (List α) :=
  (nodes.foldl (fun traversal node =>
    match traversal.numbers.lookup node with
    | none => (Traversal.visit successors size node traversal).2
    | some _ => traversal) ({} : Traversal α)).found.reverse

def cyclicComponents (size : Nat) (nodes : List α) (successors : α → List α) : List (List α) :=
  (components size nodes successors).filter fun component =>
    match component with
    | [node] => node ∈ successors node
    | _ => true

end Reachability.Graph
