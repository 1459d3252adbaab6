import Mathlib
import Reachability.Exploration.Explore
import Reachability.Proofs.Arg.Coherence
import Reachability.Proofs.Exploration.ReachedSet

/-!
# Elementary moves of an exploration

Whatever an exploration does to its graph and its reached set consists of four
moves: a state gets a successor, a successor is merged into a reached state, it
is dropped because it is covered, or it becomes a reached state itself.  Between
its creation and the end of its insertion a successor is pending.  `Tracked` is
the invariant that relates the graph, the reached set and the pending states.
-/

namespace Reachability

variable {σ : Type u}

namespace Arg

theorem location_eq (arg : Arg σ) (analysis : Analysis σ) (key : Nat) :
    (arg.location analysis key).map Node.id = (arg.wrapped? key).bind analysis.place := by
  unfold location wrapped? Analysis.place
  cases arg.get? key <;> rfl

theorem isTarget_eq (arg : Arg σ) (analysis : Analysis σ) (key : Nat) :
    arg.isTarget analysis key = ((arg.wrapped? key).map analysis.isTarget).getD false := by
  unfold isTarget wrapped?
  cases arg.get? key <;> rfl

theorem Coherent.location_root {analysis : Analysis σ} {graph : FlowGraph} {Proper : σ → Prop}
    {Link : σ → σ → Prop} {root : Nat} {arg : Arg σ}
    (coherent : arg.Coherent analysis graph Proper Link root) :
    (arg.location analysis root).map Node.id = some graph.entry := by
  obtain ⟨state, found⟩ := exists_state coherent.rootLive
  rw [location_eq, found]
  exact coherent.rootPlace state found

end Arg

namespace Search

/-- A reached state has refused to merge with a successor, or it is the result of such a merge. -/
def Answered (setting : Setting σ) (search : Search σ) (successor : Nat)
    (state : ReachedState Nat) : Prop :=
  ∀ new value, search.arg.wrapped? successor = some new →
    search.arg.wrapped? state.key = some value →
      setting.analysis.merge new value = none ∨
        ∃ reached, setting.analysis.merge new reached = some value

/-- All reached states at the location of a successor have answered, and none of them covers it. -/
def Unmet (setting : Setting σ) (search : Search σ) (successor : Nat) : Prop :=
  ∀ state ∈ search.reached.states,
    state.location = (search.entry setting successor).location →
      search.Answered setting successor state ∧
        ∀ new value, search.arg.wrapped? successor = some new →
          search.arg.wrapped? state.key = some value → setting.analysis.covers new value = false

/-- A move leads from an exploration with some pending states to another one, while states at `node`
are expanded.  Counts and reports may change at any time. -/
inductive Move (setting : Setting σ) (node : Nat) :
    Search σ × List Nat → Search σ × List Nat → Prop where
  | spawn {search after : Search σ} {pending : List Nat} {parent : Nat} {edge : Edge}
      {state next : σ} :
      parent ∈ search.reached.keys →
      search.arg.wrapped? parent = some state →
      setting.analysis.isTarget state = false →
      setting.analysis.place state = some node →
      edge ∈ setting.graph.outgoing node →
      next ∈ setting.analysis.transfer state edge →
      after.arg = search.arg.spawn parent next →
      after.reached = search.reached →
      Move setting node (search, pending) (after, pending ++ [search.arg.states.size])
  | merge {search after : Search σ} {pending : List Nat} {successor : Nat}
      {old : ReachedState Nat} {new reached merged : σ} :
      successor ∈ pending →
      old ∈ search.reached.states →
      search.arg.wrapped? successor = some new →
      search.arg.wrapped? old.key = some reached →
      setting.analysis.merge new reached = some merged →
      search.arg.Merged successor old.key merged after.arg →
      after.reached = search.reached.replace old (after.entry setting search.arg.states.size) →
      Move setting node (search, pending) (after, pending)
  | drop {search after : Search σ} {pending : List Nat} {successor key : Nat} {new reached : σ} :
      search.arg.wrapped? successor = some new →
      key ∈ search.reached.keys →
      search.arg.wrapped? key = some reached →
      setting.analysis.covers new reached = true →
      after.arg = search.arg.discard successor →
      after.reached = search.reached →
      Move setting node (search, successor :: pending) (after, pending)
  | add {search after : Search σ} {pending : List Nat} {successor : Nat} :
      search.Unmet setting successor →
      after.arg = search.arg →
      after.reached = search.reached.add (search.entry setting successor) →
      Move setting node (search, successor :: pending) (after, pending)
  | note {search after : Search σ} {pending : List Nat} :
      after.arg = search.arg →
      after.reached = search.reached →
      Move setting node (search, pending) (after, pending)

theorem Move.extension {setting : Setting σ} {node : Nat} {before after : Search σ × List Nat}
    (move : Move setting node before after) : before.1.arg.Extends after.1.arg := by
  cases move with
  | spawn _ _ _ _ _ _ argAfter _ =>
    rw [argAfter]
    exact Arg.extension_spawn ..
  | merge _ _ _ _ _ merged _ => exact merged.extension
  | drop _ _ _ _ argAfter _ =>
    rw [argAfter]
    exact Arg.extension_discard ..
  | add _ argAfter _ | note argAfter _ =>
    rw [argAfter]
    exact .refl _

/-- The graph and the reached set agree: up to the pending states, the reached states are those of
the graph.  Pending states have never been inserted and have no children. -/
structure Tracked (setting : Setting σ) (Proper : σ → Prop) (Link : σ → σ → Prop) (root : Nat)
    (search : Search σ) (pending : List Nat) : Prop where
  coherent : search.arg.Coherent setting.analysis setting.graph Proper Link root
  valid : search.reached.Valid
  listed : ∀ state ∈ search.reached.states, state = search.entry setting state.key
  queued : ∀ state ∈ search.reached.waitlist.items, state = search.entry setting state.key ∧
    search.arg.first ≤ state.key ∧ state.key < search.arg.states.size ∧ state.key ∉ pending
  live : ∀ key, key ∈ search.arg.live ↔ key ∈ search.reached.keys ∨ key ∈ pending
  distinct : pending.Nodup
  apart : ∀ key ∈ pending, key ∉ search.reached.keys
  leaves : ∀ key ∈ pending, key ≠ root ∧ search.arg.children key = []

section Entry

variable {setting : Setting σ} {search after : Search σ} {key : Nat}

theorem entry_id : (search.entry setting key).id = search.arg.id key := rfl

theorem entry_location : (search.entry setting key).location =
    (search.arg.wrapped? key).bind setting.analysis.place :=
  search.arg.location_eq setting.analysis key

theorem entry_of_extension (extension : search.arg.Extends after.arg)
    (bound : key < search.arg.states.size) :
    after.entry setting key = search.entry setting key := by
  have location : (after.entry setting key).location = (search.entry setting key).location := by
    rw [entry_location, entry_location, extension.wrapped key bound]
  unfold entry at location ⊢
  dsimp only at location
  rw [location, extension.id key bound]

theorem entry_of_arg (same : after.arg = search.arg) :
    after.entry setting key = search.entry setting key := by
  unfold entry
  rw [same]

end Entry

namespace Tracked

variable {setting : Setting σ} {Proper : σ → Prop} {Link : σ → σ → Prop} {root : Nat}
  {search after : Search σ} {pending : List Nat} {successor : Nat}

theorem mem_keys {key : Nat} :
    key ∈ search.reached.keys ↔ ∃ state ∈ search.reached.states, state.key = key :=
  List.mem_map

section

variable (tracked : Tracked setting Proper Link root search pending) {key : Nat}
  {state : ReachedState Nat}

include tracked

theorem reached_live (reached : key ∈ search.reached.keys) : key ∈ search.arg.live :=
  (tracked.live key).mpr (.inl reached)

theorem pending_live (waits : key ∈ pending) : key ∈ search.arg.live :=
  (tracked.live key).mpr (.inr waits)

theorem state_live (member : state ∈ search.reached.states) : state.key ∈ search.arg.live :=
  tracked.reached_live (mem_keys.mpr ⟨state, member, rfl⟩)

theorem proper {value : σ} (live : key ∈ search.arg.live)
    (found : search.arg.wrapped? key = some value) : Proper value :=
  tracked.coherent.proper key value (Arg.first_le live) found

theorem id_eq (above : search.arg.first ≤ key) (below : key < search.arg.states.size) :
    (search.entry setting key).id = key - search.arg.first :=
  tracked.coherent.numbered key above below

theorem state_id (member : state ∈ search.reached.states) :
    state.id = state.key - search.arg.first := by
  have live := tracked.state_live member
  rw [tracked.listed state member]
  exact tracked.id_eq (Arg.first_le live) (Arg.lt_size_of_live live)

theorem fresh (numbered : state.id = state.key - search.arg.first)
    (above : search.arg.first ≤ state.key) (unreached : state.key ∉ search.reached.keys)
    (unqueued : ∀ other ∈ search.reached.waitlist.items, other.key ≠ state.key) :
    search.reached.Fresh state := by
  have distinct : ∀ other ∈ search.reached.states, other.key ≠ state.key := by
    intro other member same
    exact unreached (mem_keys.mpr ⟨other, member, same⟩)
  constructor
  · intro other member same
    have otherLive := Arg.first_le (tracked.state_live member)
    rw [tracked.state_id member, numbered] at same
    exact distinct other member (by omega)
  · exact distinct
  · intro other member same
    obtain ⟨isEntry, otherAbove, otherBelow, _⟩ := tracked.queued other member
    rw [isEntry, tracked.id_eq otherAbove otherBelow, numbered] at same
    exact unqueued other member (by omega)

theorem listed_after (extension : search.arg.Extends after.arg) :
    ∀ state ∈ search.reached.states, state = after.entry setting state.key := by
  intro state member
  rw [entry_of_extension extension (Arg.lt_size_of_live (tracked.state_live member))]
  exact tracked.listed state member

theorem queued_after (extension : search.arg.Extends after.arg) :
    ∀ state ∈ search.reached.waitlist.items, state = after.entry setting state.key ∧
      after.arg.first ≤ state.key ∧ state.key < after.arg.states.size := by
  intro state member
  obtain ⟨isEntry, above, below, _⟩ := tracked.queued state member
  rw [entry_of_extension extension below, extension.first]
  exact ⟨isEntry, above, Nat.lt_of_lt_of_le below extension.size⟩

end

theorem spawn (laws : setting.analysis.LinkLaws setting.graph Proper Link)
    (tracked : Tracked setting Proper Link root search pending) {parent node : Nat} {edge : Edge}
    {state next : σ} (reached : parent ∈ search.reached.keys)
    (found : search.arg.wrapped? parent = some state)
    (plain : setting.analysis.isTarget state = false)
    (placed : setting.analysis.place state = some node)
    (leaving : edge ∈ setting.graph.outgoing node)
    (computed : next ∈ setting.analysis.transfer state edge)
    (argAfter : after.arg = search.arg.spawn parent next)
    (reachedAfter : after.reached = search.reached) :
    Tracked setting Proper Link root after (pending ++ [search.arg.states.size]) := by
  have live := tracked.reached_live reached
  have bound := Arg.lt_size_of_live live
  have first_le := Nat.le_trans (Arg.first_le live) (Nat.le_of_lt bound)
  have proper := tracked.proper live found
  have extension : search.arg.Extends after.arg := argAfter ▸ Arg.extension_spawn ..
  have new_not_live : search.arg.states.size ∉ search.arg.live :=
    fun newLive => Nat.lt_irrefl _ (Arg.lt_size_of_live newLive)
  constructor
  · rw [argAfter]
    exact tracked.coherent.spawn live found
      (laws.transfer proper (FlowGraph.mem_outgoing.mp leaving).1 computed)
      (laws.successor proper plain placed leaving computed)
  · rw [reachedAfter]
    exact tracked.valid
  · rw [reachedAfter]
    exact tracked.listed_after extension
  · rw [reachedAfter]
    intro queued member
    obtain ⟨isEntry, above, below⟩ := tracked.queued_after extension queued member
    obtain ⟨_, _, bound, notPending⟩ := tracked.queued queued member
    refine ⟨isEntry, above, below, ?_⟩
    rw [List.mem_append, List.mem_singleton, not_or]
    exact ⟨notPending, Nat.ne_of_lt bound⟩
  · intro key
    rw [argAfter, reachedAfter, Arg.mem_live_spawn first_le, tracked.live, List.mem_append,
      List.mem_singleton, or_assoc]
  · rw [List.nodup_append]
    refine ⟨tracked.distinct, List.nodup_singleton _, ?_⟩
    intro key member new isNew same
    rw [List.mem_singleton] at isNew
    exact new_not_live (isNew ▸ same ▸ tracked.pending_live member)
  · intro key member
    rw [reachedAfter]
    rcases List.mem_append.mp member with old | isNew
    · exact tracked.apart key old
    · rw [List.mem_singleton] at isNew
      exact fun reached => new_not_live (isNew ▸ tracked.reached_live reached)
  · intro key member
    rw [argAfter, Arg.children_spawn bound]
    have different : key ≠ parent := by
      rintro rfl
      rcases List.mem_append.mp member with old | isNew
      · exact tracked.apart key old reached
      · exact absurd bound (by simp [List.mem_singleton.mp isNew])
    rw [if_neg different]
    rcases List.mem_append.mp member with old | isNew
    · exact tracked.leaves key old
    · rw [List.mem_singleton] at isNew
      rw [isNew]
      refine ⟨fun isRoot => new_not_live (isRoot ▸ tracked.coherent.rootLive), ?_⟩
      simp [Arg.children, Arg.get?_eq_none (Nat.le_refl _)]

theorem drop (tracked : Tracked setting Proper Link root search (successor :: pending))
    (argAfter : after.arg = search.arg.discard successor)
    (reachedAfter : after.reached = search.reached) :
    Tracked setting Proper Link root after pending := by
  have waits : successor ∈ successor :: pending := List.mem_cons_self
  obtain ⟨other, leaf⟩ := tracked.leaves successor waits
  have extension : search.arg.Extends after.arg := argAfter ▸ Arg.extension_discard ..
  have absent : successor ∉ pending := (List.nodup_cons.mp tracked.distinct).1
  constructor
  · rw [argAfter]
    exact tracked.coherent.discard other leaf
  · rw [reachedAfter]
    exact tracked.valid
  · rw [reachedAfter]
    exact tracked.listed_after extension
  · rw [reachedAfter]
    intro queued member
    obtain ⟨isEntry, above, below⟩ := tracked.queued_after extension queued member
    obtain ⟨_, _, _, notPending⟩ := tracked.queued queued member
    exact ⟨isEntry, above, below, fun later => notPending (List.mem_cons_of_mem _ later)⟩
  · intro key
    rw [argAfter, reachedAfter, Arg.mem_live_discard, tracked.live, List.mem_cons]
    constructor
    · rintro ⟨reached | same | later, different⟩
      · exact .inl reached
      · exact absurd same different
      · exact .inr later
    · rintro (reached | later)
      · exact ⟨.inl reached, fun same => tracked.apart successor waits (same ▸ reached)⟩
      · exact ⟨.inr (.inr later), fun same => absent (same ▸ later)⟩
  · exact (List.nodup_cons.mp tracked.distinct).2
  · intro key member
    rw [reachedAfter]
    exact tracked.apart key (List.mem_cons_of_mem _ member)
  · intro key member
    obtain ⟨notRoot, leafKey⟩ := tracked.leaves key (List.mem_cons_of_mem _ member)
    refine ⟨notRoot, ?_⟩
    rw [argAfter, Arg.children_discard, leafKey]
    split
    · rfl
    · split <;> rfl

theorem add (tracked : Tracked setting Proper Link root search (successor :: pending))
    (argAfter : after.arg = search.arg)
    (reachedAfter : after.reached = search.reached.add (search.entry setting successor)) :
    Tracked setting Proper Link root after pending ∧
      search.reached.Fresh (search.entry setting successor) := by
  have waits : successor ∈ successor :: pending := List.mem_cons_self
  have live := tracked.pending_live waits
  have above := Arg.first_le live
  have below := Arg.lt_size_of_live live
  have absent : successor ∉ pending := (List.nodup_cons.mp tracked.distinct).1
  have fresh : search.reached.Fresh (search.entry setting successor) := by
    refine tracked.fresh (tracked.id_eq above below) above (tracked.apart successor waits) ?_
    intro other member equal
    exact (tracked.queued other member).2.2.2 (equal ▸ waits)
  have states : ∀ state, state ∈ after.reached.states ↔
      state ∈ search.reached.states ∨ state = search.entry setting successor := by
    intro state
    rw [reachedAfter, Reached.mem_states_add tracked.valid fresh]
  have keys : ∀ key, key ∈ after.reached.keys ↔ key ∈ search.reached.keys ∨ key = successor := by
    intro key
    simp only [mem_keys, states]
    constructor
    · rintro ⟨state, member | rfl, rfl⟩
      · exact .inl ⟨state, member, rfl⟩
      · exact .inr rfl
    · rintro (⟨state, member, rfl⟩ | rfl)
      · exact ⟨state, .inl member, rfl⟩
      · exact ⟨_, .inr rfl, rfl⟩
  refine ⟨?_, fresh⟩
  constructor
  · rw [argAfter]
    exact tracked.coherent
  · rw [reachedAfter]
    exact tracked.valid.add fresh
  · intro state member
    rw [entry_of_arg argAfter]
    rcases (states state).mp member with old | rfl
    · exact tracked.listed state old
    · rfl
  · intro state member
    rw [reachedAfter, Reached.mem_items_add tracked.valid fresh] at member
    rw [entry_of_arg argAfter, argAfter]
    rcases member with rfl | old
    · exact ⟨rfl, above, below, absent⟩
    · obtain ⟨isEntry, oldAbove, oldBelow, notPending⟩ := tracked.queued state old
      exact ⟨isEntry, oldAbove, oldBelow, fun later => notPending (List.mem_cons_of_mem _ later)⟩
  · intro key
    rw [argAfter, tracked.live, keys, List.mem_cons, or_assoc]
  · exact (List.nodup_cons.mp tracked.distinct).2
  · intro key member
    rw [keys, not_or]
    exact ⟨tracked.apart key (List.mem_cons_of_mem _ member), fun equal => absent (equal ▸ member)⟩
  · intro key member
    rw [argAfter]
    exact tracked.leaves key (List.mem_cons_of_mem _ member)

/-- States may be taken from the waitlist, and nothing else may change. -/
theorem of_items (tracked : Tracked setting Proper Link root search pending)
    (argAfter : after.arg = search.arg) (states : after.reached.states = search.reached.states)
    (items : ∀ state ∈ after.reached.waitlist.items, state ∈ search.reached.waitlist.items)
    (valid : after.reached.Valid) : Tracked setting Proper Link root after pending := by
  have keys : after.reached.keys = search.reached.keys := congrArg (List.map _) states
  constructor
  · exact argAfter ▸ tracked.coherent
  · exact valid
  · intro state member
    rw [entry_of_arg argAfter]
    exact tracked.listed state (states ▸ member)
  · intro state queued
    rw [entry_of_arg argAfter, argAfter]
    exact tracked.queued state (items state queued)
  · rw [argAfter, keys]
    exact tracked.live
  · exact tracked.distinct
  · rw [keys]
    exact tracked.apart
  · rw [argAfter]
    exact tracked.leaves

theorem note (tracked : Tracked setting Proper Link root search pending)
    (argAfter : after.arg = search.arg) (reachedAfter : after.reached = search.reached) :
    Tracked setting Proper Link root after pending := by
  apply tracked.of_items argAfter (congrArg Reached.states reachedAfter)
  · rw [reachedAfter]
    exact fun _ queued => queued
  · rw [reachedAfter]
    exact tracked.valid

theorem merge (laws : setting.analysis.LinkLaws setting.graph Proper Link)
    (tracked : Tracked setting Proper Link root search pending) {old : ReachedState Nat}
    {new reached wrapped : σ} (waits : successor ∈ pending) (member : old ∈ search.reached.states)
    (newFound : search.arg.wrapped? successor = some new)
    (oldFound : search.arg.wrapped? old.key = some reached)
    (merges : setting.analysis.merge new reached = some wrapped)
    (merged : search.arg.Merged successor old.key wrapped after.arg)
    (reachedAfter : after.reached =
      search.reached.replace old (after.entry setting search.arg.states.size)) :
    Tracked setting Proper Link root after pending ∧
      search.reached.Fresh (after.entry setting search.arg.states.size) := by
  have oldLive := tracked.state_live member
  have merging : Arg.Merging setting.analysis setting.graph Proper Link root successor old.key new
      reached wrapped search.arg after.arg :=
    ⟨tracked.coherent, laws, tracked.pending_live waits, oldLive, newFound, oldFound,
      (tracked.leaves successor waits).1, merges, merged⟩
  have first_le : search.arg.first ≤ search.arg.states.size :=
    Nat.le_trans (Arg.first_le oldLive) (Nat.le_of_lt (Arg.lt_size_of_live oldLive))
  have extension := merged.extension
  have notNew : ∀ {key}, key ∈ search.arg.live → key ≠ search.arg.states.size :=
    fun keyLive => Nat.ne_of_lt (Arg.lt_size_of_live keyLive)
  have fresh : search.reached.Fresh (after.entry setting search.arg.states.size) := by
    apply tracked.fresh _ first_le
    · exact fun reached => notNew (tracked.reached_live reached) rfl
    · exact fun other queued => Nat.ne_of_lt (tracked.queued other queued).2.2.1
    · rw [entry_id, merged.id, if_pos rfl]
      rfl
  have keys : ∀ key, key ∈ after.reached.keys ↔
      key = search.arg.states.size ∨ (key ∈ search.reached.keys ∧ key ≠ old.key) := by
    intro key
    rw [reachedAfter, Reached.mem_keys_replace tracked.valid member]
    rfl
  have oldApart : ∀ key ∈ pending, key ≠ old.key := by
    rintro key keyWaits rfl
    exact tracked.apart old.key keyWaits (mem_keys.mpr ⟨old, member, rfl⟩)
  refine ⟨?_, fresh⟩
  constructor
  · exact merging.coherentAfter
  · rw [reachedAfter]
    exact tracked.valid.replace member fresh
  · intro state stateMember
    rw [reachedAfter, Reached.mem_states_replace tracked.valid member] at stateMember
    rcases stateMember with rfl | ⟨kept, _⟩
    · rfl
    · exact tracked.listed_after extension state kept
  · intro state stateMember
    rw [reachedAfter, Reached.mem_items_replace tracked.valid member] at stateMember
    rcases stateMember with rfl | earlier
    · refine ⟨rfl, ?_, ?_, fun later => notNew (tracked.pending_live later) rfl⟩
      · rw [extension.first]
        exact first_le
      · rw [merged.size]
        exact Nat.lt_succ_self _
    · obtain ⟨isEntry, above, below⟩ := tracked.queued_after extension state earlier
      exact ⟨isEntry, above, below, (tracked.queued state earlier).2.2.2⟩
  · intro key
    rw [merging.mem_live, tracked.live, keys]
    constructor
    · rintro (⟨reached | later, different⟩ | isNew)
      · exact .inl (.inr ⟨reached, different⟩)
      · exact .inr later
      · exact .inl (.inl isNew)
    · rintro ((isNew | ⟨reached, different⟩) | later)
      · exact .inr isNew
      · exact .inl ⟨.inl reached, different⟩
      · exact .inl ⟨.inr later, oldApart key later⟩
  · exact tracked.distinct
  · intro key later
    rw [keys, not_or, not_and_or]
    exact ⟨notNew (tracked.pending_live later), .inl (tracked.apart key later)⟩
  · intro key later
    obtain ⟨notRoot, leaf⟩ := tracked.leaves key later
    exact ⟨notRoot,
      merging.children_eq_nil (tracked.pending_live later) (oldApart key later) leaf⟩

end Tracked

/-- Any number of moves. -/
def Moves (setting : Setting σ) (node : Nat) :
    Search σ × List Nat → Search σ × List Nat → Prop :=
  Relation.ReflTransGen (Move setting node)

section Steps

variable {setting : Setting σ} {Proper : σ → Prop} {Link : σ → σ → Prop} {root node : Nat}
  {before after : Search σ × List Nat}

theorem Move.tracked (laws : setting.analysis.LinkLaws setting.graph Proper Link)
    (move : Move setting node before after)
    (tracked : Tracked setting Proper Link root before.1 before.2) :
    Tracked setting Proper Link root after.1 after.2 := by
  cases move with
  | spawn reached found plain placed leaving computed argAfter reachedAfter =>
    exact tracked.spawn laws reached found plain placed leaving computed argAfter reachedAfter
  | merge waits member newFound oldFound merges merged reachedAfter =>
    exact (tracked.merge laws waits member newFound oldFound merges merged reachedAfter).1
  | drop _ _ _ _ argAfter reachedAfter => exact tracked.drop argAfter reachedAfter
  | add _ argAfter reachedAfter => exact (tracked.add argAfter reachedAfter).1
  | note argAfter reachedAfter => exact tracked.note argAfter reachedAfter

/-- A reached state that does not wait after a move was there before, and did not wait. -/
theorem Move.settled (move : Move setting node before after)
    (tracked : Tracked setting Proper Link root before.1 before.2) {state : ReachedState Nat}
    (member : state ∈ after.1.reached.states) (settled : state.id ∉ after.1.reached.waiting) :
    state ∈ before.1.reached.states ∧ state.id ∉ before.1.reached.waiting := by
  cases move with
  | spawn _ _ _ _ _ _ _ reachedAfter | drop _ _ _ _ _ reachedAfter | note _ reachedAfter =>
    rw [reachedAfter] at member settled
    exact ⟨member, settled⟩
  | merge waits oldMember newFound oldFound merges merged reachedAfter =>
    rw [reachedAfter, Reached.mem_waiting_replace tracked.valid oldMember, not_or,
      not_and_or, not_not] at settled
    rw [reachedAfter, Reached.mem_states_replace tracked.valid oldMember] at member
    rcases member with rfl | ⟨kept, different⟩
    · exact absurd rfl settled.1
    · refine ⟨kept, settled.2.resolve_right ?_⟩
      exact fun same => different (tracked.valid.eq_of_id kept oldMember same)
  | add _ argAfter reachedAfter =>
    have fresh := (tracked.add argAfter reachedAfter).2
    rw [reachedAfter, Reached.mem_waiting_add tracked.valid fresh, not_or] at settled
    rw [reachedAfter, Reached.mem_states_add tracked.valid fresh] at member
    rcases member with old | rfl
    · exact ⟨old, settled.1⟩
    · exact absurd rfl settled.2

/-- No pending state lies at the node that is being left. -/
def Away (setting : Setting σ) (node : Nat) (stage : Search σ × List Nat) : Prop :=
  ∀ key ∈ stage.2, ∀ state, stage.1.arg.wrapped? key = some state →
    setting.analysis.place state ≠ some node

section

variable (laws : setting.analysis.LinkLaws setting.graph Proper Link)
  (move : Move setting node before after)
  (tracked : Tracked setting Proper Link root before.1 before.2)

include laws move tracked

theorem Move.away (away : Away setting node before) : Away setting node after := by
  have kept : ∀ key ∈ before.2, ∀ state, after.1.arg.wrapped? key = some state →
      setting.analysis.place state ≠ some node := by
    intro key waits state found
    rw [move.extension.wrapped key (Arg.lt_size_of_live (tracked.pending_live waits))] at found
    exact away key waits state found
  cases move with
  | @spawn _ _ _ parent _ _ next reached found plain placed leaving computed argAfter _ =>
    intro key waits value valueFound
    rcases List.mem_append.mp waits with old | isNew
    · exact kept key old value valueFound
    · rw [argAfter, (Arg.sameStates_spawn ..).wrapped, Arg.wrapped?_create,
        if_pos (List.mem_singleton.mp isNew), Option.some.injEq] at valueFound
      have proper := tracked.proper (tracked.reached_live reached) found
      rw [← valueFound, ← placed]
      exact (laws.moves (laws.successor proper plain placed leaving computed)).symm
  | merge => exact kept
  | drop | add => exact fun key waits => kept key (List.mem_cons_of_mem _ waits)
  | note => exact kept

/-- The states at the node that is being left are not replaced: successors are merged elsewhere. -/
theorem Move.keeps (away : Away setting node before) {state : ReachedState Nat}
    (member : state ∈ before.1.reached.states) (here : state.location = some node) :
    state ∈ after.1.reached.states := by
  cases move with
  | spawn _ _ _ _ _ _ _ reachedAfter | drop _ _ _ _ _ reachedAfter
  | note _ reachedAfter => exact reachedAfter ▸ member
  | @merge _ _ _ successor old _ _ _ waits oldMember newFound oldFound merges _ reachedAfter =>
    rw [reachedAfter, Reached.mem_states_replace tracked.valid oldMember]
    refine .inr ⟨member, ?_⟩
    rintro rfl
    rw [tracked.listed state member, entry_location, oldFound] at here
    have samePlace := (laws.mergePlace
      (tracked.proper (tracked.pending_live waits) newFound)
      (tracked.proper (tracked.state_live member) oldFound) merges).1
    exact away successor waits _ newFound (samePlace.trans here)
  | add _ argAfter reachedAfter =>
    have fresh := (tracked.add argAfter reachedAfter).2
    rw [reachedAfter, Reached.mem_states_add tracked.valid fresh]
    exact .inl member

end

theorem Moves.extension (moves : Moves setting node before after) :
    before.1.arg.Extends after.1.arg := by
  induction moves with
  | refl => exact .refl _
  | tail _ move induction => exact induction.trans move.extension

section

variable (laws : setting.analysis.LinkLaws setting.graph Proper Link)
  (moves : Moves setting node before after)
  (started : Tracked setting Proper Link root before.1 before.2)

include laws moves started

theorem Moves.tracked : Tracked setting Proper Link root after.1 after.2 := by
  induction moves with
  | refl => exact started
  | tail _ move induction => exact move.tracked laws induction

theorem Moves.settled {state : ReachedState Nat} (member : state ∈ after.1.reached.states)
    (settled : state.id ∉ after.1.reached.waiting) :
    state ∈ before.1.reached.states ∧ state.id ∉ before.1.reached.waiting := by
  induction moves with
  | refl => exact ⟨member, settled⟩
  | tail earlier move induction =>
    obtain ⟨member, settled⟩ := move.settled (Moves.tracked laws earlier started) member settled
    exact induction member settled

theorem Moves.keeps (away : Away setting node before) {state : ReachedState Nat}
    (member : state ∈ before.1.reached.states) (here : state.location = some node) :
    state ∈ after.1.reached.states ∧ Away setting node after := by
  induction moves with
  | refl => exact ⟨member, away⟩
  | tail earlier move induction =>
    have middle := Moves.tracked laws earlier started
    exact ⟨move.keeps laws middle induction.2 induction.1 here,
      move.away laws middle induction.2⟩

end

end Steps

end Search

end Reachability
