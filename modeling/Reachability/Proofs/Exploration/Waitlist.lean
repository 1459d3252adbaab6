import Mathlib
import Reachability.Exploration.Waitlist

/-!
# Order of waitlists

A waitlist is seen through the items that it will give away, in that order.  A
stack puts a new item in front of them and a queue puts it behind them; both
give away the first one.  Dropping the items that a queue has given away before
changes nothing in this view.
-/

namespace Reachability

variable {α : Type u}

namespace WaitOrder

/-- Items in the order in which they are taken, if they have come in the given one. -/
def arrange (order : WaitOrder) (items : List α) : List α :=
  match order with
  | .depthFirst => items.reverse
  | .breadthFirst => items

variable {order : WaitOrder} {items : List α} {item : α}

@[simp] theorem arrange_arrange : order.arrange (order.arrange items) = items := by
  cases order with
  | depthFirst => exact List.reverse_reverse items
  | breadthFirst => rfl

@[simp] theorem mem_arrange : item ∈ order.arrange items ↔ item ∈ items := by
  cases order with
  | depthFirst => exact List.mem_reverse
  | breadthFirst => exact Iff.rfl

theorem filter_arrange (keep : α → Bool) :
    (order.arrange items).filter keep = order.arrange (items.filter keep) := by
  cases order with
  | depthFirst => exact List.filter_reverse
  | breadthFirst => rfl

end WaitOrder

namespace Queue

@[simp] theorem items_push (queue : Queue α) (item : α) :
    (queue.push item).items = queue.items ++ [item] :=
  List.drop_append_of_le_length queue.inside

@[simp] theorem items_compact (queue : Queue α) : queue.compact.items = queue.items := by
  unfold compact
  split
  · exact List.drop_zero
  · rfl

theorem items_of_pop? {queue rest : Queue α} {item : α} (taken : queue.pop? = some (item, rest)) :
    queue.items = item :: rest.items := by
  unfold pop? at taken
  split at taken
  · rename_i remains
    cases taken
    rw [items_compact]
    exact List.drop_eq_getElem_cons remains
  · cases taken

theorem items_eq_nil_of_pop? {queue : Queue α} (stuck : queue.pop? = none) : queue.items = [] := by
  unfold pop? at stuck
  split at stuck
  · cases stuck
  · rename_i done
    exact List.drop_of_length_le (Nat.not_lt.mp done)

end Queue

namespace Waitlist

/-- The order in which a waitlist gives items away. -/
def order : Waitlist α → WaitOrder
  | stack _ => .depthFirst
  | queue _ => .breadthFirst

@[simp] theorem order_empty (order : WaitOrder) : (empty order : Waitlist α).order = order := by
  cases order <;> rfl

@[simp] theorem items_empty (order : WaitOrder) : (empty order : Waitlist α).items = [] := by
  cases order <;> rfl

@[simp] theorem order_push (waitlist : Waitlist α) (item : α) :
    (waitlist.push item).order = waitlist.order := by
  cases waitlist <;> rfl

theorem items_push (waitlist : Waitlist α) (item : α) :
    (waitlist.push item).items =
      waitlist.order.arrange (waitlist.order.arrange waitlist.items ++ [item]) := by
  cases waitlist with
  | stack stored => simp [push, items, order, WaitOrder.arrange]
  | queue line => exact line.items_push item

theorem mem_push {waitlist : Waitlist α} {item other : α} :
    other ∈ (waitlist.push item).items ↔ other = item ∨ other ∈ waitlist.items := by
  rw [items_push]
  simp [or_comm]

theorem items_of_pop? {waitlist rest : Waitlist α} {item : α}
    (taken : waitlist.pop? = some (item, rest)) :
    waitlist.items = item :: rest.items ∧ rest.order = waitlist.order := by
  cases waitlist with
  | stack items =>
    cases items with
    | nil => cases taken
    | cons first items =>
      cases taken
      exact ⟨rfl, rfl⟩
  | queue line =>
    obtain ⟨⟨first, others⟩, found, result⟩ := Option.map_eq_some_iff.mp taken
    cases result
    exact ⟨Queue.items_of_pop? found, rfl⟩

theorem items_eq_nil_of_pop? {waitlist : Waitlist α} (stuck : waitlist.pop? = none) :
    waitlist.items = [] := by
  cases waitlist with
  | stack items =>
    cases items with
    | nil => rfl
    | cons first items => cases stuck
  | queue line => exact Queue.items_eq_nil_of_pop? (Option.map_eq_none_iff.mp stuck)

end Waitlist

end Reachability
