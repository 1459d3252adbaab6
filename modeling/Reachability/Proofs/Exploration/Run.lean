import Mathlib
import Reachability.Proofs.Exploration.Moves

/-!
# Runs of an exploration

The functions of the exploration are sequences of moves, so every loop head of
a run keeps what the moves keep.  A run may be interrupted at any iteration;
`Search.Ends` leaves open when that happens.
-/

namespace Reachability

variable {σ : Type u}

namespace Arg

private theorem foldl_create (key : Nat) (nexts : List σ) (keys : List Nat) (arg : Arg σ) :
    nexts.foldl (fun (keys, arg) wrapped =>
      let (child, arg) := Arg.create arg wrapped
      (child :: keys, arg.link key child)) (keys, arg) =
      ((List.range' arg.states.size nexts.length).reverse ++ keys,
        nexts.foldl (fun arg next => arg.spawn key next) arg) := by
  induction nexts generalizing keys arg with
  | nil => rfl
  | cons next nexts induction =>
    have size : (arg.spawn key next).states.size = arg.states.size + 1 := by
      rw [(sameStates_spawn ..).size, size_create]
    have step := induction (arg.states.size :: keys) (arg.spawn key next)
    rw [size] at step
    rw [List.foldl_cons, List.foldl_cons, List.length_cons, List.range'_succ, List.reverse_cons,
      List.append_assoc]
    exact step

variable {arg : Arg σ} {key : Nat}

/-- A transfer creates one child for each successor, and their positions follow one another. -/
theorem transfer_eq (analysis : Analysis σ) (edge : Edge) {state : σ}
    (found : arg.wrapped? key = some state) :
    arg.transfer analysis key edge =
      (List.range' arg.states.size (analysis.transfer state edge).length,
        (analysis.transfer state edge).foldl (fun arg next => arg.spawn key next) arg) := by
  have successors : ((arg.get? key).map fun state =>
      analysis.transfer state.wrapped edge).getD [] = analysis.transfer state edge := by
    unfold wrapped? at found
    obtain ⟨argState, argFound, rfl⟩ := Option.map_eq_some_iff.mp found
    rw [argFound]
    rfl
  unfold transfer
  simp only [successors, foldl_create, List.append_nil, List.reverse_reverse]

theorem exists_covering {analysis : Analysis σ} {reached : List Nat}
    (stops : arg.stop analysis key reached = true) :
    ∃ new, arg.wrapped? key = some new ∧ ∃ other ∈ reached, ∃ state,
      arg.wrapped? other = some state ∧ analysis.covers new state = true := by
  unfold stop at stops
  split at stops
  · cases stops
  · rename_i argState found
    obtain ⟨state, member, covers⟩ := List.any_eq_true.mp stops
    obtain ⟨other, otherMember, otherFound⟩ := List.mem_filterMap.mp member
    exact ⟨argState.wrapped, by simp [wrapped?, found], other, otherMember, state, otherFound,
      covers⟩

theorem covers_eq_false {analysis : Analysis σ} {reached : List Nat}
    (goesOn : arg.stop analysis key reached = false) {new state : σ}
    (newFound : arg.wrapped? key = some new) {other : Nat} (member : other ∈ reached)
    (found : arg.wrapped? other = some state) : analysis.covers new state = false := by
  unfold stop at goesOn
  obtain ⟨argState, argFound, rfl⟩ := Option.map_eq_some_iff.mp newFound
  rw [argFound] at goesOn
  have uncovered := List.any_eq_false.mp goesOn state
    (List.mem_filterMap.mpr ⟨other, member, found⟩)
  exact Bool.eq_false_iff.mpr uncovered

end Arg

def Progress.search : Progress σ → Search σ
  | .continued search => search
  | .finished search _ => search
  | .failed search _ => search

namespace Search

variable {setting : Setting σ} {Proper : σ → Prop} {Link : σ → σ → Prop} {root node key : Nat}
  {search : Search σ} {pending : List Nat} {successor : Nat} {state : ReachedState Nat}

/-- A reached state that is expanded: it is no target, and it lies at a node. -/
structure Expandable (setting : Setting σ) (node : Nat) (search : Search σ)
    (key : Nat) (state : σ) :
    Prop where
  reached : key ∈ search.reached.keys
  found : search.arg.wrapped? key = some state
  plain : setting.analysis.isTarget state = false
  placed : setting.analysis.place state = some node

theorem moves_spawnAll (pending : List Nat) {parent : Nat} {edge : Edge} {state : σ}
    (expandable : search.Expandable setting node parent state)
    (leaving : edge ∈ setting.graph.outgoing node) (nexts : List σ)
    (computed : ∀ next ∈ nexts, next ∈ setting.analysis.transfer state edge) :
    let spawned : Search σ :=
      { search with arg := nexts.foldl (fun arg next => arg.spawn parent next) search.arg }
    let children := List.range' search.arg.states.size nexts.length
    Moves setting node (search, pending) (spawned, pending ++ children) ∧
      ∀ next ∈ nexts, ∃ child ∈ children, spawned.arg.wrapped? child = some next := by
  induction nexts generalizing search pending with
  | nil =>
    simp only [List.length_nil, List.range'_zero, List.append_nil, List.foldl_nil]
    exact ⟨.refl, by simp⟩
  | cons next nexts induction =>
    obtain ⟨reached, found, plain, placed⟩ := expandable
    let after : Search σ := { search with arg := search.arg.spawn parent next }
    have size : after.arg.states.size = search.arg.states.size + 1 := by
      rw [(Arg.sameStates_spawn ..).size, Arg.size_create]
    have extension : search.arg.Extends after.arg := Arg.extension_spawn ..
    have first : Move setting node (search, pending)
        (after, pending ++ [search.arg.states.size]) :=
      .spawn reached found plain placed leaving (computed next (by simp)) rfl rfl
    have rest := @induction after (pending ++ [search.arg.states.size])
      ⟨reached, extension.wrapped_of_some found, plain, placed⟩
      fun other member => computed other (List.mem_cons_of_mem _ member)
    simp only [size, List.append_assoc, List.singleton_append] at rest
    simp only [List.foldl_cons, List.length_cons, List.range'_succ]
    refine ⟨Relation.ReflTransGen.head first rest.1, ?_⟩
    intro other member
    rcases List.mem_cons.mp member with rfl | later
    · refine ⟨search.arg.states.size, List.mem_cons_self, ?_⟩
      apply (Moves.extension rest.1).wrapped_of_some
      rw [(Arg.sameStates_spawn ..).wrapped, Arg.wrapped?_create, if_pos rfl]
    · obtain ⟨child, childMember, childFound⟩ := rest.2 other later
      exact ⟨child, List.mem_cons_of_mem _ childMember, childFound⟩

/-- What a merge leaves; whether it is reported makes no difference. -/
theorem mergeInto_some {old : ReachedState Nat} {arg : Arg σ}
    (changed : search.arg.merge setting.analysis successor old.key = (some key, arg))
    (merged : List Nat) : ∃ after : Search σ,
      mergeInto setting successor (merged, search) old = (merged ++ [key], after) ∧
      after.arg = arg ∧ after.reached = search.reached.replace old (after.entry setting key) ∧
      after.stats = { search.stats with merges := search.stats.merges + 1 } := by
  simp only [mergeInto, changed]
  cases setting.traced with
  | false | true => exact ⟨_, rfl, rfl, rfl, rfl⟩

theorem Answered.after {after : Search σ} (answered : search.Answered setting successor state)
    (extension : search.arg.Extends after.arg) (successorBound : successor < search.arg.states.size)
    (bound : state.key < search.arg.states.size) : after.Answered setting successor state := by
  intro new value newFound found
  rw [extension.wrapped successor successorBound] at newFound
  rw [extension.wrapped state.key bound] at found
  exact answered new value newFound found

/-- What merging a successor into the states `olds` leaves, if `merged` are results of earlier
merges: the other reached states stay, results of merges are new and reached, and all reached states
in place of `olds` have answered. -/
structure Merging (setting : Setting σ) (node successor : Nat) (pending : List Nat)
    (olds : List (ReachedState Nat)) (merged : List Nat) (search : Search σ)
    (result : List Nat × Search σ) : Prop where
  moves : Moves setting node (search, pending) (result.2, pending)
  kept : ∀ state ∈ search.reached.states, state ∉ olds → state ∈ result.2.reached.states
  grows : ∀ key ∈ merged, key ∈ result.1
  listed : ∀ key ∈ result.1, key ∈ merged ∨
    search.arg.states.size ≤ key ∧ key ∈ result.2.reached.keys
  states : ∀ state ∈ result.2.reached.states, state ∈ search.reached.states ∧ state ∉ olds ∨
    (state ∈ olds ∨ state.key ∈ result.1) ∧ result.2.Answered setting successor state

section

variable (laws : setting.analysis.LinkLaws setting.graph Proper Link)
  (tracked : Tracked setting Proper Link root search pending) (waits : successor ∈ pending)

include laws tracked waits

theorem mergeInto_cases {old : ReachedState Nat} (member : old ∈ search.reached.states)
    (merged : List Nat) :
    mergeInto setting successor (merged, search) old = (merged, search) ∧
        (∀ new reached, search.arg.wrapped? successor = some new →
          search.arg.wrapped? old.key = some reached → setting.analysis.merge new reached = none) ∨
      ∃ new reached wrapped after, search.arg.wrapped? successor = some new ∧
        search.arg.wrapped? old.key = some reached ∧
        setting.analysis.merge new reached = some wrapped ∧
        mergeInto setting successor (merged, search) old =
          (merged ++ [search.arg.states.size], after) ∧
        search.arg.Merged successor old.key wrapped after.arg ∧
        after.reached = search.reached.replace old (after.entry setting search.arg.states.size) ∧
        after.stats = { search.stats with merges := search.stats.merges + 1 } := by
  rcases search.arg.merge_cases setting.analysis successor old.key with
    ⟨kept, refused⟩ | ⟨new, reached, wrapped, newFound, oldFound, merges, changed⟩
  · refine .inl ⟨?_, refused⟩
    simp only [mergeInto, kept]
  · have mergeable := tracked.coherent.mergeable laws (tracked.pending_live waits)
      (tracked.state_live member) newFound oldFound merges
    obtain ⟨after, listed, argAfter, reachedAfter, counted⟩ := mergeInto_some changed merged
    have description : search.arg.Merged successor old.key wrapped after.arg :=
      argAfter ▸ Arg.merged_linkMerged mergeable wrapped
    exact .inr ⟨new, reached, wrapped, after, newFound, oldFound, merges, listed, description,
      reachedAfter, counted⟩

theorem merging_mergeInto (node : Nat) {old : ReachedState Nat}
    (member : old ∈ search.reached.states) (merged : List Nat) :
    Merging setting node successor pending [old] merged search
      (mergeInto setting successor (merged, search) old) := by
  rcases mergeInto_cases laws tracked waits member merged with ⟨kept, refused⟩ |
    ⟨new, reached, wrapped, after, newFound, oldFound, merges, listed, description, reachedAfter, _⟩
  · rw [kept]
    refine ⟨.refl, fun state stateMember _ => stateMember, fun key earlier => earlier,
      fun key keyMember => .inl keyMember, ?_⟩
    intro state stateMember
    by_cases isOld : state = old
    · subst isOld
      refine .inr ⟨.inl List.mem_cons_self, ?_⟩
      exact fun new value newFound found => .inl (refused new value newFound found)
    · exact .inl ⟨stateMember, by simpa using isOld⟩
  · have extension := description.extension
    have states : ∀ state, state ∈ after.reached.states ↔
        state = after.entry setting search.arg.states.size ∨
          state ∈ search.reached.states ∧ state ≠ old := by
      intro state
      rw [reachedAfter, Reached.mem_states_replace tracked.valid member]
    rw [listed]
    constructor
    · exact .single (.merge waits member newFound oldFound merges description reachedAfter)
    · intro state stateMember notOld
      exact (states state).mpr (.inr ⟨stateMember, by simpa using notOld⟩)
    · exact fun key earlier => List.mem_append_left _ earlier
    · intro key keyMember
      rcases List.mem_append.mp keyMember with earlier | isNew
      · exact .inl earlier
      · rw [List.mem_singleton] at isNew
        refine .inr ⟨Nat.le_of_eq isNew.symm, Tracked.mem_keys.mpr
          ⟨after.entry setting search.arg.states.size, ?_, isNew.symm⟩⟩
        exact (states _).mpr (.inl rfl)
    · intro state stateMember
      rcases (states state).mp stateMember with isNew | ⟨stays, different⟩
      · refine .inr ⟨.inr ?_, ?_⟩
        · rw [isNew]
          exact List.mem_append_right _ List.mem_cons_self
        · intro other value otherFound found
          rw [extension.wrapped_of_some newFound, Option.some.injEq] at otherFound
          rw [isNew] at found
          have created : after.arg.wrapped? search.arg.states.size = some wrapped := by
            rw [description.wrapped, if_pos rfl]
          have same := created.symm.trans found
          rw [Option.some.injEq] at same
          rw [← otherFound, ← same]
          exact .inr ⟨reached, merges⟩
      · exact .inl ⟨stays, by simpa using different⟩

/-- Merges follow one another: no result of an earlier one is among the states that are merged
later. -/
theorem Merging.trans {olds others : List (ReachedState Nat)} {merged : List Nat}
    {middle last : List Nat × Search σ} (known : ∀ other ∈ others, other ∈ search.reached.states)
    (first : Merging setting node successor pending olds merged search middle)
    (second : Merging setting node successor pending others middle.1 middle.2 last) :
    Merging setting node successor pending (olds ++ others) merged search last := by
  have trackedMiddle := Moves.tracked laws first.moves tracked
  constructor
  · exact Relation.ReflTransGen.trans first.moves second.moves
  · intro state member absent
    rw [List.mem_append, not_or] at absent
    exact second.kept state (first.kept state member absent.1) absent.2
  · exact fun key earlier => second.grows key (first.grows key earlier)
  · intro key keyMember
    rcases second.listed key keyMember with earlier | ⟨isNew, reached⟩
    · rcases first.listed key earlier with earliest | ⟨isNew, reached⟩
      · exact .inl earliest
      · obtain ⟨state, member, rfl⟩ := Tracked.mem_keys.mp reached
        refine .inr ⟨isNew, Tracked.mem_keys.mpr ⟨state, second.kept state member ?_, rfl⟩⟩
        intro stale
        have bound := Arg.lt_size_of_live (tracked.state_live (known state stale))
        omega
    · exact .inr ⟨Nat.le_trans (Moves.extension first.moves).size isNew, reached⟩
  · intro state member
    rcases second.states state member with ⟨earlier, notOther⟩ | ⟨met, answered⟩
    · rcases first.states state earlier with ⟨earliest, notOld⟩ | ⟨met, answered⟩
      · exact .inl ⟨earliest, by simp [notOld, notOther]⟩
      · refine .inr ⟨?_, answered.after (Moves.extension second.moves)
          (Arg.lt_size_of_live (trackedMiddle.pending_live waits))
          (Arg.lt_size_of_live (trackedMiddle.state_live earlier))⟩
        rcases met with isOld | isMerged
        · exact .inl (List.mem_append_left _ isOld)
        · exact .inr (second.grows _ isMerged)
    · refine .inr ⟨?_, answered⟩
      rcases met with isOther | isMerged
      · exact .inl (List.mem_append_right _ isOther)
      · exact .inr isMerged

theorem merging_mergeAll (node : Nat) {olds : List (ReachedState Nat)} (distinct : olds.Nodup)
    (members : ∀ old ∈ olds, old ∈ search.reached.states) (merged : List Nat) :
    Merging setting node successor pending olds merged search
      (olds.foldl (mergeInto setting successor) (merged, search)) := by
  induction olds generalizing search merged with
  | nil =>
    exact ⟨.refl, fun state member _ => member, fun key earlier => earlier,
      fun key earlier => .inl earlier, fun state member => .inl ⟨member, List.not_mem_nil⟩⟩
  | cons old olds induction =>
    rw [List.nodup_cons] at distinct
    rw [List.forall_mem_cons] at members
    have first := merging_mergeInto laws tracked waits node members.1 merged
    have membersAfter : ∀ other ∈ olds,
        other ∈ (mergeInto setting successor (merged, search) old).2.reached.states := by
      intro other member
      apply first.kept other (members.2 other member)
      rw [List.mem_singleton]
      exact fun same => distinct.1 (same ▸ member)
    exact first.trans laws tracked waits members.2
      (induction (Moves.tracked laws first.moves tracked) distinct.2 membersAfter _)

end

section

variable (laws : setting.analysis.LinkLaws setting.graph Proper Link)

include laws

/-- Inserting a successor ends with dropping it or adding it. -/
theorem moves_insert (node : Nat)
    (tracked : Tracked setting Proper Link root search (successor :: pending)) :
    Moves setting node (search, successor :: pending)
      (search.insert setting successor, pending) := by
  have waits : successor ∈ successor :: pending := List.mem_cons_self
  have bound := Arg.lt_size_of_live (tracked.pending_live waits)
  have atLocation : ∀ old, old ∈ search.reached.statesAt (search.entry setting successor).location ↔
      old ∈ search.reached.states ∧ old.location = (search.entry setting successor).location :=
    fun old => tracked.valid.mem_statesAt
  unfold insert
  dsimp only
  split
  · rename_i stops
    obtain ⟨new, newFound, key, member, state, found, covers⟩ := Arg.exists_covering stops
    obtain ⟨old, oldMember, rfl⟩ := List.mem_map.mp member
    exact .single (.drop newFound
      (Tracked.mem_keys.mpr ⟨old, ((atLocation old).mp oldMember).1, rfl⟩) found covers rfl rfl)
  · rename_i goesOn
    have merging := merging_mergeAll laws tracked waits node (tracked.valid.nodup_statesAt _)
      (fun old member => ((atLocation old).mp member).1) []
    have extension := Moves.extension merging.moves
    split
    · rename_i stops
      rw [Bool.and_eq_true] at stops
      obtain ⟨new, newFound, key, member, state, found, covers⟩ := Arg.exists_covering stops.2
      rcases merging.listed key member with impossible | ⟨_, reached⟩
      · cases impossible
      · exact merging.moves.tail (.drop newFound reached found covers rfl rfl)
    · rename_i remains
      have sameEntry : _ = search.entry setting successor := entry_of_extension extension bound
      refine merging.moves.tail (.add ?_ rfl (by rw [sameEntry]))
      intro state member here
      rw [sameEntry] at here
      rcases merging.states state member with ⟨earlier, elsewhere⟩ | ⟨met, answered⟩
      · exact absurd ((atLocation state).mpr ⟨earlier, here⟩) elsewhere
      · refine ⟨answered, ?_⟩
        intro new value newFound found
        rcases met with isOld | isMerged
        · have oldBound := Arg.lt_size_of_live (tracked.state_live ((atLocation state).mp isOld).1)
          rw [extension.wrapped successor bound] at newFound
          rw [extension.wrapped state.key oldBound] at found
          exact Arg.covers_eq_false (Bool.eq_false_iff.mpr goesOn) newFound
            (List.mem_map_of_mem isOld) found
        · rw [Bool.and_eq_true, not_and, Bool.not_eq_true', Bool.not_eq_true] at remains
          refine Arg.covers_eq_false (remains ?_) newFound isMerged found
          exact List.isEmpty_eq_false_iff_exists_mem.mpr ⟨state.key, isMerged⟩

theorem moves_insertAll (node : Nat) {successors : List Nat}
    (tracked : Tracked setting Proper Link root search successors) :
    Moves setting node (search, successors)
      (successors.foldl (fun search successor =>
        { search with stats.successors := search.stats.successors + 1 }.insert setting successor)
        search, []) := by
  induction successors generalizing search with
  | nil => exact .refl
  | cons successor successors induction =>
    let counted : Search σ :=
      { search with stats.successors := search.stats.successors + 1 }
    have noted : Move setting node (search, successor :: successors)
        (counted, successor :: successors) := .note rfl rfl
    have inserted := moves_insert laws node (noted.tracked laws tracked)
    have first := Relation.ReflTransGen.head noted inserted
    exact Relation.ReflTransGen.trans first (induction (Moves.tracked laws first tracked))

variable (tracked : Tracked setting Proper Link root search []) {key : Nat} {state : σ}
  (expandable : search.Expandable setting node key state)

include tracked expandable

/-- Expanding a state along an edge: first all successors are created, then they are inserted. -/
theorem moves_expandAlong {edge : Edge} (leaving : edge ∈ setting.graph.outgoing node) :
    ∃ spawned : Search σ × List Nat, Moves setting node (search, []) spawned ∧
      (∀ next ∈ setting.analysis.transfer state edge, ∃ child ∈ spawned.1.arg.live,
        spawned.1.arg.wrapped? child = some next) ∧
      Moves setting node spawned (search.expandAlong setting key edge, []) := by
  obtain ⟨spawns, created⟩ := moves_spawnAll [] expandable leaving
    (setting.analysis.transfer state edge) fun _ computed => computed
  rw [List.nil_append] at spawns
  have tracked := Moves.tracked laws spawns tracked
  refine ⟨_, spawns, ?_, ?_⟩
  · intro next computed
    obtain ⟨child, member, childFound⟩ := created next computed
    exact ⟨child, tracked.pending_live member, childFound⟩
  · have inserts := moves_insertAll laws node tracked
    unfold expandAlong
    rw [Arg.transfer_eq setting.analysis edge expandable.found]
    exact inserts

/-- A state stays reached while it is expanded, because its successors lie elsewhere. -/
theorem Expandable.after {after : Search σ} (moves : Moves setting node (search, []) (after, [])) :
    after.Expandable setting node key state := by
  obtain ⟨reached, found, plain, placed⟩ := expandable
  obtain ⟨expanded, member, rfl⟩ := Tracked.mem_keys.mp reached
  have here : expanded.location = some node := by
    rw [tracked.listed expanded member, entry_location, found]
    exact placed
  have stays := (Moves.keeps laws moves tracked (by simp [Away]) member here).1
  exact ⟨Tracked.mem_keys.mpr ⟨expanded, stays, rfl⟩, (Moves.extension moves).wrapped_of_some found,
    plain, placed⟩

private theorem moves_expandAll (edges : List Edge)
    (leaving : ∀ edge ∈ edges, edge ∈ setting.graph.outgoing node) :
    Moves setting node (search, []) (edges.foldl (expandAlong setting key) search, []) ∧
      ∀ edge ∈ edges, ∀ next ∈ setting.analysis.transfer state edge,
        ∃ spawned : Search σ × List Nat, Moves setting node (search, []) spawned ∧
          (∃ child ∈ spawned.1.arg.live, spawned.1.arg.wrapped? child = some next) ∧
          Moves setting node spawned (edges.foldl (expandAlong setting key) search, []) := by
  induction edges generalizing search with
  | nil => exact ⟨.refl, by simp⟩
  | cons edge edges induction =>
    obtain ⟨spawned, creates, created, inserts⟩ :=
      moves_expandAlong laws tracked expandable (leaving edge List.mem_cons_self)
    have first := Relation.ReflTransGen.trans creates inserts
    obtain ⟨rest, later⟩ := induction (Moves.tracked laws first tracked)
      (expandable.after laws tracked first)
      fun other otherMember => leaving other (List.mem_cons_of_mem _ otherMember)
    refine ⟨Relation.ReflTransGen.trans first rest, ?_⟩
    intro other otherMember next computed
    rcases List.mem_cons.mp otherMember with rfl | otherMember
    · exact ⟨spawned, creates, created next computed, Relation.ReflTransGen.trans inserts rest⟩
    · obtain ⟨middle, before, child, after⟩ := later other otherMember next computed
      exact ⟨middle, Relation.ReflTransGen.trans first before, child, after⟩

omit laws tracked in
theorem Expandable.edges :
    ((search.arg.location setting.analysis key).map fun node =>
      setting.graph.outgoing node.id).getD [] = setting.graph.outgoing node := by
  have location := search.arg.location_eq setting.analysis key
  rw [expandable.found, Option.bind_some, expandable.placed] at location
  obtain ⟨located, isLocation, rfl⟩ := Option.map_eq_some_iff.mp location
  rw [isLocation]
  rfl

theorem moves_expand :
    Moves setting node (search, []) (search.expand setting key, []) ∧
      ∀ edge ∈ setting.graph.outgoing node, ∀ next ∈ setting.analysis.transfer state edge,
        ∃ spawned : Search σ × List Nat, Moves setting node (search, []) spawned ∧
          (∃ child ∈ spawned.1.arg.live, spawned.1.arg.wrapped? child = some next) ∧
          Moves setting node spawned (search.expand setting key, []) := by
  obtain ⟨moves, created⟩ := moves_expandAll laws tracked expandable
    (setting.graph.outgoing node) fun _ leaving => leaving
  have counted : Move setting node
      ((setting.graph.outgoing node).foldl (expandAlong setting key) search, [])
      (search.expand setting key, []) := by
    unfold expand
    rw [expandable.edges]
    exact .note rfl rfl
  refine ⟨moves.tail counted, ?_⟩
  intro edge leaving next computed
  obtain ⟨spawned, before, child, after⟩ := created edge leaving next computed
  exact ⟨spawned, before, child, after.tail counted⟩

end

/-- The exploration after a state has been taken from the waitlist. -/
structure Popped (search : Search σ) (state : ReachedState Nat) (popped : Search σ) : Prop where
  member : state ∈ search.reached.states
  waited : state.id ∈ search.reached.waiting
  arg : popped.arg = search.arg
  states : popped.reached.states = search.reached.states
  waiting : popped.reached.waiting = removeAll search.reached.waiting state.id
  items : ∀ other ∈ popped.reached.waitlist.items, other ∈ search.reached.waitlist.items
  valid : popped.reached.Valid
  stats : popped.stats = { search.stats with iterations := search.stats.iterations + 1 }

theorem Popped.tracked {popped : Search σ} (pops : search.Popped state popped)
    (tracked : Tracked setting Proper Link root search pending) :
    Tracked setting Proper Link root popped pending :=
  tracked.of_items pops.arg pops.states pops.items pops.valid

theorem Popped.exists_expandable (laws : setting.analysis.LinkLaws setting.graph Proper Link)
    {popped : Search σ} (pops : search.Popped state popped)
    (tracked : Tracked setting Proper Link root popped [])
    (plain : popped.arg.isTarget setting.analysis state.key = false) :
    ∃ node value, popped.Expandable setting node state.key value := by
  have reached : state.key ∈ popped.reached.keys :=
    Tracked.mem_keys.mpr ⟨state, pops.states ▸ pops.member, rfl⟩
  have live := tracked.reached_live reached
  obtain ⟨value, found⟩ := Arg.exists_state live
  obtain ⟨node, placed⟩ := laws.located (tracked.proper live found)
  rw [Arg.isTarget_eq, found] at plain
  exact ⟨node, value, reached, found, plain, placed⟩

/-- The next iteration takes a state from the waitlist, unless it is interrupted. -/
structure Pops (setting : Setting σ) (search : Search σ) (state : ReachedState Nat) : Prop where
  waits : search.reached.hasWaiting = true
  within : search.atBound setting = false
  next : search.reached.pop.1 = some state

theorem Pops.step (valid : search.reached.Valid) (pops : search.Pops setting state) :
    ∃ popped, search.Popped state popped ∧
      search.step setting none = popped.visit setting state.key := by
  obtain ⟨waits, within, next⟩ := pops
  have popped : search.reached.pop = (some state, search.reached.pop.2) := Prod.ext next rfl
  obtain ⟨member, waited, states, waiting, items, validAfter⟩ := valid.pop_some popped
  unfold Search.step
  rw [waits, within, popped]
  refine ⟨_, ?_, rfl⟩
  split <;> exact ⟨member, waited, rfl, states, waiting, items, validAfter, rfl⟩

/-- What one iteration can do: end for one of three reasons, or visit a state that has waited. -/
theorem step_cases (valid : search.reached.Valid) (interruption : Option Interruption) :
    search.step setting interruption = .finished search .exhausted ∧
        search.reached.waiting = [] ∨
      (∃ reason, search.step setting interruption = .finished search (.inconclusive reason)) ∨
      ∃ state popped, search.Pops setting state ∧ search.Popped state popped ∧
        search.step setting interruption = popped.visit setting state.key := by
  cases waits : search.reached.hasWaiting with
  | false =>
    left
    have nothing : search.reached.waiting = [] := by
      simpa [Reached.hasWaiting] using waits
    simp [step, waits, nothing]
  | true =>
    right
    cases bound : search.atBound setting with
    | true =>
      left
      unfold step
      rw [waits, bound]
      exact ⟨_, rfl⟩
    | false =>
      cases interruption with
      | some cause =>
        left
        unfold step
        rw [waits, bound]
        exact ⟨_, rfl⟩
      | none =>
        right
        obtain ⟨state, after, popped⟩ := valid.pop_ne_none waits
        have pops : search.Pops setting state := ⟨waits, bound, congrArg Prod.fst popped⟩
        obtain ⟨visited, taken, visits⟩ := pops.step valid
        exact ⟨state, visited, pops, taken, visits⟩

theorem visit_eq_continued (plain : search.arg.isTarget setting.analysis key = false) :
    search.visit setting key = .continued (search.expand setting key) := by
  unfold visit
  rw [plain]
  exact if_neg Bool.false_ne_true

theorem visit_eq_targetFound {path : List Nat} {witness : List Edge}
    (isTarget : search.arg.isTarget setting.analysis key = true)
    (pathFound : search.arg.witnessPath key = .ok path)
    (edgesFound : search.arg.pathEdges setting.analysis setting.graph path = .ok witness) :
    search.visit setting key = .finished search (.targetFound key path witness) := by
  unfold visit
  rw [isTarget, pathFound]
  dsimp only
  rw [edgesFound]
  exact if_pos rfl

theorem visit_continued {next : Search σ} (continued : search.visit setting key = .continued next) :
    search.arg.isTarget setting.analysis key = false ∧ next = search.expand setting key := by
  unfold visit at continued
  split at continued
  · split at continued
    · cases continued
    · split at continued <;> cases continued
  · rename_i plain
    cases continued
    exact ⟨Bool.eq_false_iff.mpr plain, rfl⟩

theorem visit_targetFound {target : Nat} {final : Search σ} {path : List Nat} {witness : List Edge}
    (found : search.visit setting key = .finished final (.targetFound target path witness)) :
    target = key ∧ search.arg.isTarget setting.analysis key = true := by
  unfold visit at found
  split at found
  · rename_i isTarget
    split at found
    · cases found
    · split at found <;> cases found
      exact ⟨rfl, isTarget⟩
  · cases found

theorem visit_ne_exhausted (key : Nat) (final : Search σ) :
    search.visit setting key ≠ .finished final .exhausted := by
  unfold visit
  split
  · split
    · simp
    · split <;> simp
  · simp

/-- One iteration leads from a loop head to the next one. -/
def Continues (setting : Setting σ) (search next : Search σ) : Prop :=
  ∃ interruption, search.step setting interruption = .continued next

theorem Continues.expanded {next : Search σ}
    (laws : setting.analysis.LinkLaws setting.graph Proper Link)
    (continues : search.Continues setting next)
    (tracked : Tracked setting Proper Link root search []) :
    ∃ state popped node value, search.Popped state popped ∧
      Tracked setting Proper Link root popped [] ∧
      popped.Expandable setting node state.key value ∧ next = popped.expand setting state.key := by
  obtain ⟨interruption, continued⟩ := continues
  rcases step_cases tracked.valid interruption with ⟨ended, _⟩ | ⟨reason, ended⟩ |
    ⟨state, popped, _, pops, visits⟩
  · rw [ended] at continued
    cases continued
  · rw [ended] at continued
    cases continued
  · rw [visits] at continued
    obtain ⟨plain, expanded⟩ := visit_continued continued
    have trackedPopped := pops.tracked tracked
    obtain ⟨node, value, expandable⟩ := pops.exists_expandable laws trackedPopped plain
    exact ⟨state, popped, node, value, pops, trackedPopped, expandable, expanded⟩

/-- An exploration starts with a new graph on top of whatever has been recorded before; its root is
reached and waits. -/
theorem start_ok {order : WaitOrder} {prior : Arg σ}
    (started : (Search.start setting order prior).1 = .ok search) :
    setting.analysis.place (setting.analysis.initial (setting.graph.node setting.graph.entry)) =
        some setting.graph.entry ∧
      search.arg = (prior.initial setting.analysis (setting.graph.node setting.graph.entry)).2 ∧
      search.reached = (Reached.empty order).add (search.entry setting prior.states.size) := by
  unfold Search.start at started
  dsimp only at started
  split at started
  · rename_i atEntry
    rw [Arg.location_eq] at atEntry
    cases started
    refine ⟨?_, rfl, rfl⟩
    have found := prior.wrapped?_initial setting.analysis (setting.graph.node setting.graph.entry)
    exact (congrArg (Option.bind · setting.analysis.place) found).symm.trans atEntry
  · cases started

theorem exists_start (order : WaitOrder) (prior : Arg σ)
    (placed : setting.analysis.place
      (setting.analysis.initial (setting.graph.node setting.graph.entry)) =
        some setting.graph.entry) :
    ∃ search, (Search.start setting order prior).1 = .ok search := by
  have atEntry := Arg.location_eq
    (prior.initial setting.analysis (setting.graph.node setting.graph.entry)).2 setting.analysis
    prior.states.size
  rw [prior.wrapped?_initial, Option.bind_some, placed] at atEntry
  unfold Search.start
  dsimp only
  refine ⟨_, congrArg Prod.fst (if_pos ?_)⟩
  exact atEntry

section

variable (laws : setting.analysis.LinkLaws setting.graph Proper Link) {order : WaitOrder}
  {prior : Arg σ}

include laws

theorem start_tracked (started : (Search.start setting order prior).1 = .ok search) :
    Tracked setting Proper Link prior.states.size search [] := by
  obtain ⟨atEntry, argStart, reachedStart⟩ := start_ok started
  have coherent := Arg.Coherent.initial laws prior atEntry
  have live : ∀ {key}, key ∈ search.arg.live ↔ key = prior.states.size := by
    rw [argStart]
    exact prior.mem_live_initial setting.analysis _
  rw [← argStart] at coherent
  have valid : (Reached.empty order : Reached Nat).Valid := Reached.valid_empty order
  have fresh := Reached.fresh_empty order (search.entry setting prior.states.size)
  have states : ∀ state, state ∈ search.reached.states ↔
      state = search.entry setting prior.states.size := by
    intro state
    rw [reachedStart, Reached.mem_states_add valid fresh]
    simp [Reached.empty]
  constructor
  · exact coherent
  · rw [reachedStart]
    exact valid.add fresh
  · intro state member
    rw [states] at member
    rw [member]
    rfl
  · intro state member
    rw [reachedStart, Reached.mem_items_add valid fresh] at member
    rcases member with rfl | impossible
    · exact ⟨rfl, Arg.first_le coherent.rootLive,
        Arg.lt_size_of_live coherent.rootLive, by simp⟩
    · simp [Reached.empty] at impossible
  · intro key
    simp only [live, Tracked.mem_keys, states, List.not_mem_nil, or_false, exists_eq_left]
    exact eq_comm
  · exact List.nodup_nil
  · simp
  · simp

/-- Everything between the start of an exploration and a loop head is tracked. -/
theorem head_tracked {start : Search σ} (started : (Search.start setting order prior).1 = .ok start)
    (heads : Relation.ReflTransGen (Continues setting) start search) :
    Tracked setting Proper Link prior.states.size search [] := by
  induction heads with
  | refl => exact start_tracked laws started
  | tail _ continues induction =>
    obtain ⟨_, _, _, _, _, tracked, expandable, rfl⟩ := continues.expanded laws induction
    exact Moves.tracked laws (moves_expand laws tracked expandable).1 tracked

end

theorem visit_ended (ended : ∀ next, search.visit setting key ≠ .continued next) :
    (search.visit setting key).search = search := by
  unfold visit at ended ⊢
  split
  · split
    · rfl
    · split <;> rfl
  · rename_i plain
    rw [if_neg plain] at ended
    exact absurd rfl (ended _)

/-- How an exploration ends when interruptions may come at any iteration. -/
def Ends (setting : Setting σ) (start : Search σ) (progress : Progress σ) : Prop :=
  ∃ head interruption, Relation.ReflTransGen (Continues setting) start head ∧
    head.step setting interruption = progress ∧ ∀ next, progress ≠ .continued next

/-- Repeating iterations under one interruption, or none, is a special case. -/
theorem ends_of_explore {interruption : Option Interruption} {fuel : Nat} {progress : Progress σ}
    (explored : search.explore setting interruption fuel = progress)
    (ended : ∀ next, progress ≠ .continued next) : search.Ends setting progress := by
  induction fuel generalizing search with
  | zero => exact absurd explored.symm (ended search)
  | succ fuel induction =>
    unfold explore at explored
    split at explored
    · rename_i next continued
      obtain ⟨head, last, heads, step, _⟩ := induction explored
      exact ⟨head, last, .head ⟨interruption, continued⟩ heads, step, ended⟩
    · exact ⟨search, interruption, .refl, explored, ended⟩

/-- An exploration at the head of an iteration, or as the last iteration has left it. -/
inductive Occurs (setting : Setting σ) (start : Search σ) : Search σ → Prop where
  | head {search : Search σ} :
      Relation.ReflTransGen (Continues setting) start search → Occurs setting start search
  | ended {progress : Progress σ} :
      start.Ends setting progress → Occurs setting start progress.search

section

variable (laws : setting.analysis.LinkLaws setting.graph Proper Link) {order : WaitOrder}
  {prior : Arg σ} {start : Search σ} (started : (Search.start setting order prior).1 = .ok start)

include laws started

/-- What holds at the start of an exploration, and stays true when a state is taken and when it is
expanded, holds throughout. -/
theorem Occurs.induct {Holds : Search σ → Prop} (initial : Holds start)
    (pop : ∀ {head state popped}, head.Popped state popped → Holds head → Holds popped)
    (expand : ∀ {head state popped node value},
      Relation.ReflTransGen (Continues setting) start head → head.Popped state popped →
      Tracked setting Proper Link prior.states.size popped [] →
      popped.Expandable setting node state.key value → Holds popped →
      Holds (popped.expand setting state.key))
    (occurs : start.Occurs setting search) : Holds search := by
  have atHead : ∀ {head}, Relation.ReflTransGen (Continues setting) start head → Holds head := by
    intro head heads
    induction heads with
    | refl => exact initial
    | tail earlier continues induction =>
      obtain ⟨state, popped, node, value, pops, tracked, expandable, rfl⟩ :=
        continues.expanded laws (head_tracked laws started earlier)
      exact expand earlier pops tracked expandable (pop pops induction)
  cases occurs with
  | head heads => exact atHead heads
  | ended ends =>
    obtain ⟨head, interruption, heads, rfl, ended⟩ := ends
    rcases step_cases (head_tracked laws started heads).valid interruption with ⟨exhausted, _⟩ |
      ⟨reason, stopped⟩ | ⟨state, popped, _, pops, visits⟩
    · rw [exhausted]
      exact atHead heads
    · rw [stopped]
      exact atHead heads
    · rw [visits] at ended ⊢
      rw [visit_ended ended]
      exact pop pops (atHead heads)

theorem Occurs.tracked (occurs : start.Occurs setting search) :
    Tracked setting Proper Link prior.states.size search [] := by
  apply Occurs.induct laws started (start_tracked laws started) _ _ occurs
  · exact fun pops tracked => pops.tracked tracked
  · exact fun _ _ tracked expandable _ =>
      Moves.tracked laws (moves_expand laws tracked expandable).1 tracked

theorem head_wrapped_root (heads : Relation.ReflTransGen (Continues setting) start search) :
    search.arg.wrapped? prior.states.size =
      some (setting.analysis.initial (setting.graph.node setting.graph.entry)) := by
  apply Occurs.induct laws started _ _ _ (.head heads)
  · rw [(start_ok started).2.1]
    exact prior.wrapped?_initial setting.analysis _
  · exact fun pops found => pops.arg ▸ found
  · exact fun _ _ tracked expandable found =>
      (Moves.extension (moves_expand laws tracked expandable).1).wrapped_of_some found

end

end Search

end Reachability
