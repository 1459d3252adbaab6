import Mathlib
import Reachability.Proofs.Exploration.ReachedSet

/-!
# Histories of reached sets

A history is a reached set together with an account of what has been done to it:
which states were inserted, which of them were replaced and which were taken.
The account says what the parts of the reached set must be.  Reached are the
states that were inserted and not replaced; those of them that were not taken
wait, and the next one to be taken is the latest or the oldest of them.
-/

namespace Reachability

namespace Reached

variable {κ : Type u}

/-- What can be done to a reached set. -/
inductive Operation (κ : Type u) where
  | add (state : ReachedState κ)
  | replace (old state : ReachedState κ)
  | pop

def Operation.named : Operation κ → List (ReachedState κ)
  | add state => [state]
  | replace old state => [old, state]
  | pop => []

/-- A reached set with the states that were inserted, in this order, those of them that were
replaced and those that were taken. -/
structure History (κ : Type u) where
  reached : Reached κ
  inserted : List (ReachedState κ) := []
  replaced : List (ReachedState κ) := []
  taken : List (ReachedState κ) := []

variable [DecidableEq κ]

namespace History

def start (order : WaitOrder) : History κ := { reached := .empty order }

/-- Perform an operation and note what it does.  A state that was inserted before is not inserted
again, and only an inserted state can be replaced. -/
def step (history : History κ) : Operation κ → History κ
  | .add state =>
    { history with
      reached := history.reached.add state
      inserted := addUnique history.inserted state }
  | .replace old state =>
    { history with
      reached := history.reached.replace old state
      inserted := addUnique history.inserted state
      replaced := if old ∈ history.inserted then addUnique history.replaced old
        else history.replaced }
  | .pop =>
    { history with
      reached := history.reached.pop.2
      taken := history.taken ++ history.reached.pop.1.toList }

def run (order : WaitOrder) (operations : List (Operation κ)) : History κ :=
  operations.foldl step (start order)

/-- Replaced states are not inserted again, and replacing ones are new. -/
def Allows (history : History κ) : Operation κ → Prop
  | .add state => state ∉ history.replaced
  | .replace _ state => state ∉ history.inserted
  | .pop => True

instance (history : History κ) (operation : Operation κ) : Decidable (history.Allows operation) :=
  match operation with
  | .add state => inferInstanceAs (Decidable (state ∉ history.replaced))
  | .replace _ state => inferInstanceAs (Decidable (state ∉ history.inserted))
  | .pop => inferInstanceAs (Decidable True)

/-- Every operation is allowed when its turn comes. -/
def AllowsAll (history : History κ) : List (Operation κ) → Prop
  | [] => True
  | operation :: operations =>
    history.Allows operation ∧ (history.step operation).AllowsAll operations

/-- The states that were inserted and neither replaced nor taken, in order of insertion. -/
def pending (history : History κ) : List (ReachedState κ) :=
  history.inserted.filter fun state => state ∉ history.replaced ∧ state ∉ history.taken

theorem inserted_of_pending {history : History κ} {state : ReachedState κ}
    (member : state ∈ history.pending) : state ∈ history.inserted :=
  (List.mem_filter.mp member).1

end History

/-- Keys and numbers tell states apart. -/
def Distinct (states : List (ReachedState κ)) : Prop :=
  ∀ first ∈ states, ∀ second ∈ states,
    first.key = second.key ∨ first.id = second.id → first = second

instance (states : List (ReachedState κ)) : Decidable (Distinct states) :=
  inferInstanceAs (Decidable (∀ first ∈ states, ∀ second ∈ states,
    first.key = second.key ∨ first.id = second.id → first = second))

/-- Operations on states that are told apart by keys and numbers, each of them allowed. -/
structure Regular (order : WaitOrder) (operations : List (Operation κ)) : Prop where
  distinct : Distinct (operations.flatMap Operation.named)
  allowed : (History.start order).AllowsAll operations

section Lines

variable {order : WaitOrder} {waiting : List Nat} {pending items rest : List (ReachedState κ)}
  {waitlist : Waitlist (ReachedState κ)} {state : ReachedState κ}

/-- Those items of a waitlist that wait are the pending states, in the order in which they are
taken. -/
def Lined (order : WaitOrder) (items : List (ReachedState κ)) (waiting : List Nat)
    (pending : List (ReachedState κ)) : Prop :=
  (items.filter fun item => waiting.contains item.id) = order.arrange pending

omit [DecidableEq κ] in
theorem Lined.push (lined : Lined order waitlist.items waiting pending)
    (ordered : waitlist.order = order) (fresh : ∀ other ∈ waitlist.items, other.id ≠ state.id) :
    Lined order (waitlist.push state).items (addUnique waiting state.id) (pending ++ [state]) := by
  let waits (item : ReachedState κ) : Bool := (addUnique waiting state.id).contains item.id
  have others : waitlist.items.filter waits = order.arrange pending := by
    refine Eq.trans (List.filter_congr ?_) lined
    intro other queued
    rw [Bool.eq_iff_iff, List.contains_iff_mem, List.contains_iff_mem, mem_addUnique]
    exact or_iff_left (fresh other queued)
  have single : [state].filter waits = [state] := by simp [waits]
  calc (waitlist.push state).items.filter waits
      = order.arrange (order.arrange (waitlist.items.filter waits) ++ [state].filter waits) := by
        rw [Waitlist.items_push, ordered, WaitOrder.filter_arrange, List.filter_append,
          WaitOrder.filter_arrange]
    _ = order.arrange (pending ++ [state]) := by
        rw [others, single, WaitOrder.arrange_arrange]

theorem Lined.without (lined : Lined order items waiting pending)
    (apart : ∀ other ∈ items, other.id = state.id → other = state) :
    Lined order items (removeAll waiting state.id) (pending.filter (· ≠ state)) := by
  unfold Lined
  rw [← WaitOrder.filter_arrange, ← lined, List.filter_filter]
  apply List.filter_congr
  intro other queued
  rw [Bool.eq_iff_iff, Bool.and_eq_true, List.contains_iff_mem, List.contains_iff_mem,
    mem_removeAll, decide_eq_true_eq, and_comm]
  apply and_congr_left
  intro _
  exact not_congr ⟨apart other queued, congrArg _⟩

omit [DecidableEq κ] in
theorem Lined.drop {skipped : List (ReachedState κ)}
    (lined : Lined order (skipped ++ rest) waiting pending)
    (idle : ∀ other ∈ skipped, other.id ∉ waiting) : Lined order rest waiting pending := by
  unfold Lined at lined ⊢
  rwa [List.filter_append, List.filter_eq_nil_iff.mpr, List.nil_append] at lined
  intro other member
  rw [List.contains_iff_mem]
  exact idle other member

end Lines

section Steps

/-- A reached set agrees with the account of its history. -/
structure Tracks (pool : List (ReachedState κ)) (order : WaitOrder) (history : History κ) :
    Prop where
  valid : history.reached.Valid
  ordered : history.reached.waitlist.order = order
  known : ∀ state ∈ history.inserted, state ∈ pool
  insertedOnce : history.inserted.Nodup
  replaced : ∀ state ∈ history.replaced, state ∈ history.inserted
  taken : ∀ state ∈ history.taken, state ∈ history.inserted
  takenOnce : history.taken.Nodup
  listed : ∀ state, state ∈ history.reached.states ↔
    state ∈ history.inserted ∧ state ∉ history.replaced
  queued : ∀ state ∈ history.reached.waitlist.items, state ∈ history.inserted
  lined : Lined order history.reached.waitlist.items history.reached.waiting history.pending
  members : history.reached.members.Nodup
  waiting : history.reached.waiting.Nodup

variable {pool : List (ReachedState κ)} {order : WaitOrder} {history : History κ}
  {state old : ReachedState κ}

theorem tracks_start (pool : List (ReachedState κ)) (order : WaitOrder) :
    Tracks pool order (History.start order) where
  valid := valid_empty order
  ordered := Waitlist.order_empty order
  known := by simp [History.start]
  insertedOnce := List.nodup_nil
  replaced := by simp [History.start]
  taken := by simp [History.start]
  takenOnce := List.nodup_nil
  listed := by simp [History.start, empty]
  queued := by simp [History.start, empty]
  lined := by cases order <;> rfl
  members := List.nodup_nil
  waiting := List.nodup_nil

namespace Tracks

section

variable (tracks : Tracks pool order history)

include tracks

theorem apart (distinct : Distinct pool) (named : state ∈ pool) {other : ReachedState κ}
    (inserted : other ∈ history.inserted) (same : other.id = state.id) :
    other = state :=
  distinct other (tracks.known other inserted) state named (.inr same)

theorem fresh (distinct : Distinct pool) (named : state ∈ pool) (new : state ∉ history.inserted) :
    history.reached.Fresh state where
  id other member same :=
    new (tracks.apart distinct named ((tracks.listed other).mp member).1 same ▸
      ((tracks.listed other).mp member).1)
  key other member same := by
    have inserted := ((tracks.listed other).mp member).1
    exact new (distinct other (tracks.known other inserted) state named (.inl same) ▸ inserted)
  queue other queued same :=
    new (tracks.apart distinct named (tracks.queued other queued) same ▸ tracks.queued other queued)

theorem contains_iff (distinct : Distinct pool) (named : state ∈ pool) :
    history.reached.contains state = true ↔ state ∈ history.reached.states := by
  rw [tracks.valid.contains_iff]
  constructor
  · intro found
    obtain ⟨other, member, same⟩ := found
    exact tracks.apart distinct named ((tracks.listed other).mp member).1 same ▸ member
  · intro member
    exact ⟨state, member, rfl⟩

theorem known_append (named : state ∈ pool) :
    ∀ other ∈ history.inserted ++ [state], other ∈ pool := by
  intro other member
  rcases List.mem_append.mp member with earlier | single
  · exact tracks.known other earlier
  · exact List.mem_singleton.mp single ▸ named

theorem nodup_append (new : state ∉ history.inserted) :
    (history.inserted ++ [state]).Nodup := by
  apply List.Nodup.append tracks.insertedOnce (List.nodup_singleton state)
  exact List.disjoint_singleton.mpr new

theorem insert (distinct : Distinct pool) (named : state ∈ pool) (new : state ∉ history.inserted) :
    Tracks pool order
      { history with
        reached := history.reached.add state
        inserted := history.inserted ++ [state] } := by
  have fresh := tracks.fresh distinct named new
  have notReplaced : state ∉ history.replaced := fun member => new (tracks.replaced state member)
  have notTaken : state ∉ history.taken := fun member => new (tracks.taken state member)
  have pending : History.pending
      { history with
        reached := history.reached.add state
        inserted := history.inserted ++ [state] } = history.pending ++ [state] := by
    simp [History.pending, notReplaced, notTaken]
  constructor
  · exact tracks.valid.add fresh
  · rw [add_eq fresh tracks.valid]
    exact (Waitlist.order_push _ _).trans tracks.ordered
  · exact tracks.known_append named
  · exact tracks.nodup_append new
  · exact fun other member => List.mem_append_left _ (tracks.replaced other member)
  · exact fun other member => List.mem_append_left _ (tracks.taken other member)
  · exact tracks.takenOnce
  · intro other
    rw [mem_states_add tracks.valid fresh, tracks.listed, List.mem_append, List.mem_singleton,
      or_and_right]
    apply or_congr_right
    constructor
    · intro same
      exact ⟨same, same ▸ notReplaced⟩
    · exact And.left
  · intro other queued
    rcases (mem_items_add tracks.valid fresh).mp queued with same | earlier
    · exact List.mem_append_right _ (List.mem_singleton.mpr same)
    · exact List.mem_append_left _ (tracks.queued other earlier)
  · rw [pending, add_eq fresh tracks.valid]
    exact tracks.lined.push tracks.ordered fresh.queue
  · rw [add_eq fresh tracks.valid]
    exact nodup_addUnique tracks.members _
  · rw [add_eq fresh tracks.valid]
    exact nodup_addUnique tracks.waiting _

theorem exchange (distinct : Distinct pool) (member : old ∈ history.reached.states)
    (named : state ∈ pool) (new : state ∉ history.inserted) :
    Tracks pool order
      { history with
        reached := history.reached.replace old state
        inserted := history.inserted ++ [state]
        replaced := history.replaced ++ [old] } := by
  have fresh := tracks.fresh distinct named new
  have oldInserted := ((tracks.listed old).mp member).1
  have different : state ≠ old := fun same => new (same ▸ oldInserted)
  have notReplaced : state ∉ history.replaced := fun member => new (tracks.replaced state member)
  have notTaken : state ∉ history.taken := fun member => new (tracks.taken state member)
  have pending : History.pending
      { history with
        reached := history.reached.replace old state
        inserted := history.inserted ++ [state]
        replaced := history.replaced ++ [old] } =
      history.pending.filter (· ≠ old) ++ [state] := by
    simp only [History.pending, List.filter_append, List.filter_filter]
    congr 1
    · apply List.filter_congr
      intro other _
      rw [Bool.eq_iff_iff]
      simp only [List.mem_append, List.mem_singleton, not_or, Bool.and_eq_true, decide_eq_true_eq]
      tauto
    · simp [notReplaced, notTaken, different]
  constructor
  · exact tracks.valid.replace member fresh
  · rw [replace_eq tracks.valid member state]
    exact (Waitlist.order_push _ _).trans tracks.ordered
  · exact tracks.known_append named
  · exact tracks.nodup_append new
  · intro other otherMember
    rcases List.mem_append.mp otherMember with earlier | single
    · exact List.mem_append_left _ (tracks.replaced other earlier)
    · exact List.mem_append_left _ (List.mem_singleton.mp single ▸ oldInserted)
  · exact fun other otherMember => List.mem_append_left _ (tracks.taken other otherMember)
  · exact tracks.takenOnce
  · intro other
    rw [mem_states_replace tracks.valid member state, tracks.listed]
    simp only [List.mem_append, List.mem_singleton, not_or]
    constructor
    · rintro (rfl | ⟨⟨inserted, kept⟩, apart⟩)
      · exact ⟨.inr rfl, notReplaced, different⟩
      · exact ⟨.inl inserted, kept, apart⟩
    · rintro ⟨inserted | same, kept, apart⟩
      · exact .inr ⟨⟨inserted, kept⟩, apart⟩
      · exact .inl same
  · intro other queued
    rcases (mem_items_replace tracks.valid member state).mp queued with same | earlier
    · exact List.mem_append_right _ (List.mem_singleton.mpr same)
    · exact List.mem_append_left _ (tracks.queued other earlier)
  · rw [pending, replace_eq tracks.valid member state]
    refine Lined.push ?_ tracks.ordered fresh.queue
    apply tracks.lined.without
    intro other queued same
    exact tracks.apart distinct (tracks.known old oldInserted) (tracks.queued other queued) same
  · rw [replace_eq tracks.valid member state]
    exact nodup_addUnique (nodup_removeAll tracks.members _) _
  · rw [replace_eq tracks.valid member state]
    exact nodup_addUnique (nodup_removeAll tracks.waiting _) _

theorem next_eq :
    history.reached.pop.1 = (order.arrange history.pending).head? := by
  have lined := tracks.lined
  cases next : history.reached.pop.1 with
  | none =>
    obtain ⟨rest, _, _, idle, _⟩ := pop_eq_of_none next
    rw [← List.append_nil history.reached.waitlist.items] at lined
    have nothing : [] = order.arrange history.pending := lined.drop idle
    rw [← nothing, List.head?_nil]
  | some state =>
    obtain ⟨skipped, rest, items, _, waits, idle, _⟩ := pop_eq_of_some next
    rw [items] at lined
    have remaining := lined.drop idle
    unfold Lined at remaining
    rw [← remaining]
    simp [waits]

theorem mem_pending_of_next (next : history.reached.pop.1 = some state) :
    state ∈ history.pending := by
  rw [tracks.next_eq] at next
  exact WaitOrder.mem_arrange.mp (List.mem_of_mem_head? next)

theorem take (distinct : Distinct pool) (next : history.reached.pop.1 = some state) :
    Tracks pool order
      { history with
        reached := history.reached.pop.2
        taken := history.taken ++ [state] } := by
  have isPending := tracks.mem_pending_of_next next
  simp only [History.pending, List.mem_filter, decide_eq_true_eq] at isPending
  obtain ⟨inserted, notReplaced, notTaken⟩ := isPending
  have valid := (tracks.valid.pop_some (Prod.ext next rfl : _ = (some state, _))).2.2.2.2.2
  have pending : History.pending
      { history with
        reached := history.reached.pop.2
        taken := history.taken ++ [state] } = history.pending.filter (· ≠ state) := by
    simp only [History.pending, List.filter_filter]
    apply List.filter_congr
    intro other _
    rw [Bool.eq_iff_iff]
    simp only [List.mem_append, List.mem_singleton, not_or, Bool.and_eq_true, decide_eq_true_eq]
    tauto
  obtain ⟨skipped, rest, items, ordered, waits, idle, after⟩ := pop_eq_of_some next
  constructor
  · exact valid
  · rw [after]
    exact ordered.trans tracks.ordered
  · exact tracks.known
  · exact tracks.insertedOnce
  · exact tracks.replaced
  · intro other member
    rcases List.mem_append.mp member with earlier | single
    · exact tracks.taken other earlier
    · exact List.mem_singleton.mp single ▸ inserted
  · apply List.Nodup.append tracks.takenOnce (List.nodup_singleton state)
    exact List.disjoint_singleton.mpr notTaken
  · rw [after]
    exact tracks.listed
  · rw [after]
    intro other queued
    apply tracks.queued
    rw [items]
    exact List.mem_append_right _ (List.mem_cons_of_mem _ queued)
  · rw [pending, after]
    have without := tracks.lined.without fun other queued same =>
      tracks.apart distinct (tracks.known state inserted) (tracks.queued other queued) same
    rw [items, List.append_cons] at without
    refine without.drop ?_
    intro other member waiting
    rw [mem_removeAll] at waiting
    rcases List.mem_append.mp member with earlier | single
    · exact idle other earlier waiting.1
    · exact waiting.2 (List.mem_singleton.mp single ▸ rfl)
  · rw [after]
    exact tracks.members
  · rw [after]
    exact nodup_removeAll tracks.waiting _

theorem drain (next : history.reached.pop.1 = none) :
    Tracks pool order { history with reached := history.reached.pop.2 } := by
  obtain ⟨rest, items, ordered, idle, after⟩ := pop_eq_of_none next
  rw [after]
  have nothing : Lined order rest.items history.reached.waiting history.pending := by
    have lined := tracks.lined
    rw [← List.append_nil history.reached.waitlist.items, ← items] at lined
    exact lined.drop idle
  exact
    { tracks with
      valid :=
        { tracks.valid with
          queued := by simp [items]
          awaited := fun id waits => by
            obtain ⟨other, queued, same⟩ := tracks.valid.awaited id waits
            exact absurd (same ▸ waits) (idle other queued) }
      ordered := ordered.trans tracks.ordered
      queued := by simp [items]
      lined := nothing }

theorem step (distinct : Distinct pool) {operation : Operation κ}
    (named : ∀ state ∈ operation.named, state ∈ pool) (allowed : history.Allows operation) :
    Tracks pool order (history.step operation) := by
  cases operation with
  | add state =>
    have known : state ∈ pool := named state List.mem_cons_self
    simp only [History.step]
    by_cases new : state ∈ history.inserted
    · have contained : history.reached.contains state = true :=
        (tracks.contains_iff distinct known).mpr ((tracks.listed state).mpr ⟨new, allowed⟩)
      have unchanged : history.reached.add state = history.reached := by
        unfold add
        rw [if_pos contained]
      rw [unchanged, addUnique_of_mem new]
      exact tracks
    · rw [addUnique_of_not_mem new]
      exact tracks.insert distinct known new
  | replace old state =>
    have knownOld : old ∈ pool := named old List.mem_cons_self
    have known : state ∈ pool := named state (List.mem_cons_of_mem _ List.mem_cons_self)
    simp only [History.step]
    rw [addUnique_of_not_mem allowed]
    by_cases member : old ∈ history.reached.states
    · obtain ⟨inserted, notReplaced⟩ := (tracks.listed old).mp member
      rw [if_pos inserted, addUnique_of_not_mem notReplaced]
      exact tracks.exchange distinct member known allowed
    · have added : history.reached.replace old state = history.reached.add state := by
        unfold Reached.replace
        rw [if_neg fun contained => member ((tracks.contains_iff distinct knownOld).mp contained)]
      have same : (if old ∈ history.inserted then addUnique history.replaced old
          else history.replaced) = history.replaced := by
        split
        · rename_i inserted
          apply addUnique_of_mem
          by_contra notReplaced
          exact member ((tracks.listed old).mpr ⟨inserted, notReplaced⟩)
        · rfl
      rw [added, same]
      exact tracks.insert distinct known allowed
  | pop =>
    simp only [History.step]
    cases next : history.reached.pop.1 with
    | none =>
      rw [Option.toList_none, List.append_nil]
      exact tracks.drain next
    | some state =>
      rw [Option.toList_some]
      exact tracks.take distinct next

/-- What a whole sequence of allowed operations preserves. -/
theorem foldl (distinct : Distinct pool) {operations : List (Operation κ)}
    (named : ∀ operation ∈ operations, ∀ state ∈ operation.named, state ∈ pool)
    (allowed : history.AllowsAll operations) :
    Tracks pool order (operations.foldl History.step history) := by
  induction operations generalizing history with
  | nil => exact tracks
  | cons operation operations induction =>
    apply induction
    · exact tracks.step distinct (named operation List.mem_cons_self) allowed.1
    · exact fun later member => named later (List.mem_cons_of_mem _ member)
    · exact allowed.2

end

end Tracks

theorem Regular.tracks {operations : List (Operation κ)} (regular : Regular order operations) :
    Tracks (operations.flatMap Operation.named) order (History.run order operations) := by
  apply (tracks_start _ order).foldl regular.distinct
  · intro operation member state named
    exact List.mem_flatMap.mpr ⟨operation, member, named⟩
  · exact regular.allowed

end Steps

section Views

variable {pool : List (ReachedState κ)} {order : WaitOrder} {history : History κ}
  {state : ReachedState κ}

namespace Tracks

section

variable (tracks : Tracks pool order history)

include tracks

theorem perm_members :
    history.reached.members.Perm (history.reached.states.map ReachedState.id) :=
  (List.perm_ext_iff_of_nodup tracks.members tracks.valid.distinctIds).mpr tracks.valid.members

theorem mem_pending_iff :
    state ∈ history.pending ↔
      state ∈ history.reached.waitlist.items ∧ state.id ∈ history.reached.waiting := by
  have lined := tracks.lined
  unfold Lined at lined
  rw [← WaitOrder.mem_arrange, ← lined, List.mem_filter, List.contains_iff_mem]

theorem perm_waiting (distinct : Distinct pool) :
    history.reached.waiting.Perm (history.pending.map ReachedState.id) := by
  have once : (history.pending.map ReachedState.id).Nodup := by
    apply List.Nodup.map_on _ (tracks.insertedOnce.filter _)
    intro first inFirst second inSecond same
    exact tracks.apart distinct (tracks.known second (History.inserted_of_pending inSecond))
      (History.inserted_of_pending inFirst) same
  apply (List.perm_ext_iff_of_nodup tracks.waiting once).mpr
  intro id
  rw [List.mem_map]
  constructor
  · intro waits
    obtain ⟨other, queued, same⟩ := tracks.valid.awaited id waits
    exact ⟨other, tracks.mem_pending_iff.mpr ⟨queued, same ▸ waits⟩, same⟩
  · rintro ⟨other, member, rfl⟩
    exact (tracks.mem_pending_iff.mp member).2

theorem isWaiting_iff (distinct : Distinct pool) (named : state ∈ pool) :
    history.reached.isWaiting state = true ↔ state ∈ history.pending := by
  rw [isWaiting, List.contains_iff_mem, (tracks.perm_waiting distinct).mem_iff, List.mem_map]
  constructor
  · rintro ⟨other, member, same⟩
    exact tracks.apart distinct named (History.inserted_of_pending member) same ▸ member
  · intro member
    exact ⟨state, member, rfl⟩

theorem hasWaiting_eq (distinct : Distinct pool) :
    history.reached.hasWaiting = !history.pending.isEmpty := by
  rw [hasWaiting, (tracks.perm_waiting distinct).isEmpty_eq, List.isEmpty_map]

theorem isSome_next (distinct : Distinct pool) :
    history.reached.pop.1.isSome = history.reached.hasWaiting := by
  rw [tracks.hasWaiting_eq distinct, tracks.next_eq, Bool.eq_iff_iff]
  cases order with
  | depthFirst | breadthFirst => simp [WaitOrder.arrange]

theorem count_taken_le (state : ReachedState κ) :
    history.taken.count state ≤ history.inserted.count state := by
  by_cases taken : state ∈ history.taken
  · rw [List.count_eq_one_of_mem tracks.takenOnce taken,
      List.count_eq_one_of_mem tracks.insertedOnce (tracks.taken state taken)]
  · rw [List.count_eq_zero_of_not_mem taken]
    exact Nat.zero_le _

end

end Tracks

/-- What a reached set shows is what its history accounts for: `named` are the states that it is
asked about. -/
structure Accounted (named : List (ReachedState κ)) (order : WaitOrder) (history : History κ) :
    Prop where
  states : ∀ state, state ∈ history.reached.states ↔
    state ∈ history.inserted ∧ state ∉ history.replaced
  once : history.reached.states.Nodup
  members : history.reached.members.Perm (history.reached.states.map ReachedState.id)
  contained : ∀ state ∈ named,
    history.reached.contains state = true ↔ state ∈ history.reached.states
  grouped : ∀ location, (history.reached.statesAt location).Perm
    (history.reached.states.filter fun state => state.location = location)
  waiting : history.reached.waiting.Perm (history.pending.map ReachedState.id)
  awaited : ∀ state ∈ named, history.reached.isWaiting state = true ↔ state ∈ history.pending
  waitingMembers : ∀ id ∈ history.reached.waiting, id ∈ history.reached.members
  /-- Something is taken exactly if something waits. -/
  succeeds : history.reached.pop.1.isSome = history.reached.hasWaiting
  /-- What is taken waited, waits no longer and was not replaced. -/
  next : ∀ state, history.reached.pop.1 = some state →
    history.reached.isWaiting state = true ∧ history.reached.pop.2.isWaiting state = false ∧
      state ∉ history.replaced
  takenOnce : ∀ state, history.taken.count state ≤ history.inserted.count state
  /-- A state takes the position of the one that it replaces. -/
  placed : ∀ old ∈ history.reached.states, ∀ state,
    (history.reached.replace old state).states =
      history.reached.states.map fun other => if other = old then state else other
  latest : order = .depthFirst → history.reached.pop.1 = history.pending.getLast?
  oldest : order = .breadthFirst → history.reached.pop.1 = history.pending.head?

/-- After any regular sequence of operations the parts of a reached set agree with its history, and
so does the state that is taken next. -/
theorem Regular.accounted {operations : List (Operation κ)} (regular : Regular order operations) :
    Accounted (operations.flatMap Operation.named) order (History.run order operations) := by
  have tracks := regular.tracks
  constructor
  · exact tracks.listed
  · exact tracks.valid.nodup_states
  · exact tracks.perm_members
  · exact fun state named => tracks.contains_iff regular.distinct named
  · exact tracks.valid.grouped
  · exact tracks.perm_waiting regular.distinct
  · exact fun state named => tracks.isWaiting_iff regular.distinct named
  · intro id waits
    obtain ⟨state, queued, rfl⟩ := tracks.valid.awaited id waits
    apply (tracks.valid.members _).mpr
    exact List.mem_map_of_mem (tracks.valid.queued state queued waits)
  · exact tracks.isSome_next regular.distinct
  · intro state next
    obtain ⟨waited, done⟩ := isWaiting_pop next
    have pending := (List.mem_filter.mp (tracks.mem_pending_of_next next)).2
    exact ⟨waited, done, (of_decide_eq_true pending).1⟩
  · exact tracks.count_taken_le
  · intro old member state
    rw [replace_eq tracks.valid member state]
    exact replaceIn_eq_map tracks.valid.distinctKeys member state
  · intro isDepthFirst
    subst isDepthFirst
    rw [tracks.next_eq]
    exact List.head?_reverse
  · intro isBreadthFirst
    subst isBreadthFirst
    exact tracks.next_eq

/-- A waiting state is replaced by one at another location, while others come and are taken. -/
def replacing : List (Operation Nat) :=
  [.add ⟨0, 0, some 1⟩, .add ⟨1, 1, some 1⟩, .add ⟨2, 2, some 2⟩, .pop, .add ⟨0, 0, some 1⟩,
    .replace ⟨2, 2, some 2⟩ ⟨3, 3, some 1⟩, .pop, .add ⟨4, 4, none⟩]

theorem Regular.accounted_replacing :
    Accounted (replacing.flatMap Operation.named) .breadthFirst
      (History.run .breadthFirst replacing) ∧
      (History.run .breadthFirst replacing).taken = [⟨0, 0, some 1⟩, ⟨1, 1, some 1⟩] ∧
      (History.run .breadthFirst replacing).pending = [⟨3, 3, some 1⟩, ⟨4, 4, none⟩] ∧
      (History.run .breadthFirst replacing).reached.pop.1 = some ⟨3, 3, some 1⟩ := by
  refine ⟨Regular.accounted ⟨by decide, ?_⟩, ?_, ?_, ?_⟩
  · unfold replacing
    repeat' constructor
    all_goals decide
  · cbv
  · cbv
  · cbv

end Views

end Reached

end Reachability
