/-!
# Sequences

Sequences as ordered sets, and removal inside a fixed storage.
-/

namespace Reachability

variable {α : Type u} [BEq α]

def addUnique (items : List α) (item : α) : List α :=
  if items.contains item then items else items ++ [item]

def removeAll (items : List α) (item : α) : List α := items.filter fun other => other != item

/-- The storage of `items` after removal: behind the kept items the former contents are left. -/
def storageAfterRemove (items : List α) (item : α) : List α :=
  let kept := removeAll items item
  kept ++ items.drop kept.length

end Reachability
