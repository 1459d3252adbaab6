import Mathlib
import Reachability.Proofs.Exploration.Budget

/-!
# The account of an exploration

Every successor is settled in one of three ways: a reached state covers it, it
is merged into exactly one reached state, or it becomes a reached state itself.
Each way is counted, so the number of reached states is known from the counts.
That a successor is not merged twice rests on the reached states: no two of them
can be merged with the same state.
-/

namespace Reachability

variable {σ : Type u} {κ : Type v}

namespace Search

/-- What becomes of a successor: it is stopped by a reached state that covers it, it is merged into
one reached state and discarded while the others stay, or it is added to the reached states. -/
inductive Settles (setting : Setting σ) (successor : Nat) (before after : Search σ) : Prop where
  | stopped {old : ReachedState Nat} {new reached : σ} (member : old ∈ before.reached.states)
      (newFound : before.arg.wrapped? successor = some new)
      (oldFound : before.arg.wrapped? old.key = some reached)
      (covers : setting.analysis.covers new reached = true)
      (discarded : successor ∉ after.arg.live)
      (states : after.reached.states = before.reached.states)
      (stats : after.stats = { before.stats with stopped := before.stats.stopped + 1 })
  | merged {old entry : ReachedState Nat} {others : List (ReachedState Nat)}
      {new reached merged : σ} (newFound : before.arg.wrapped? successor = some new)
      (oldFound : before.arg.wrapped? old.key = some reached)
      (merges : setting.analysis.merge new reached = some merged)
      (entryFound : after.arg.wrapped? entry.key = some merged)
      (covers : setting.analysis.covers new merged = true)
      (discarded : successor ∉ after.arg.live)
      (states : before.reached.states.Perm (old :: others))
      (statesAfter : after.reached.states.Perm (entry :: others))
      (stats : after.stats = { before.stats with merges := before.stats.merges + 1 })
  | added (kept : successor ∈ after.arg.live)
      (states : after.reached.states =
        before.reached.states ++ [before.entry setting successor])
      (stats : after.stats = before.stats)

/-- An exploration counts a successor that has not been reached and settles it, or it does something
that changes neither the reached states nor these counts. -/
inductive Accounts (setting : Setting σ) (before after : Search σ) : Prop where
  | noted (states : after.reached.states = before.reached.states)
      (successors : after.stats.successors = before.stats.successors)
      (stopped : after.stats.stopped = before.stats.stopped)
      (merges : after.stats.merges = before.stats.merges)
  | settled {successor : Nat} (live : successor ∈ before.arg.live)
      (fresh : successor ∉ before.reached.keys)
      (settles : Settles setting successor
        { before with stats.successors := before.stats.successors + 1 } after)

/-- The number of reached states follows from the counts. -/
def Balanced (search : Search σ) : Prop :=
  search.reached.size + search.stats.stopped + search.stats.merges = 1 + search.stats.successors

variable {setting : Setting σ} {Proper : σ → Prop} {Link : σ → σ → Prop} {root node : Nat}
  {search before after : Search σ} {pending : List Nat} {successor : Nat}

section Balance

/-- Each way to settle a successor adds one to the reached states or to the counts. -/
theorem Settles.balance (settles : Settles setting successor before after) :
    after.reached.size + after.stats.stopped + after.stats.merges =
        before.reached.size + before.stats.stopped + before.stats.merges + 1 ∧
      after.stats.successors = before.stats.successors := by
  unfold Reached.size
  cases settles with
  | stopped _ _ _ _ _ states stats =>
    rw [states, stats]
    dsimp only
    omega
  | merged _ _ _ _ _ _ states statesAfter stats =>
    rw [states.length_eq, statesAfter.length_eq, stats, List.length_cons, List.length_cons]
    dsimp only
    omega
  | added _ states stats =>
    rw [states, stats, List.length_append, List.length_singleton]
    omega

theorem Accounts.balanced (accounts : before.Accounts setting after) (balanced : before.Balanced) :
    after.Balanced := by
  unfold Balanced at balanced ⊢
  cases accounts with
  | noted states successors stopped merges =>
    unfold Reached.size at balanced ⊢
    rw [states, successors, stopped, merges]
    exact balanced
  | settled _ _ settles =>
    obtain ⟨sum, successors⟩ := settles.balance
    rw [sum, successors]
    dsimp only
    omega

end Balance

/-- No state can be merged with two reached ones. -/
def Lone (setting : Setting σ) (Proper : σ → Prop) (search : Search σ) : Prop :=
  ∀ first ∈ search.reached.states, ∀ second ∈ search.reached.states, ∀ new state other, Proper new →
    search.arg.wrapped? first.key = some state → search.arg.wrapped? second.key = some other →
    setting.analysis.merge new state ≠ none → setting.analysis.merge new other ≠ none →
      first = second

theorem Separated.lone {slot : σ → κ} (separated : search.Separated slot)
    (tracked : Tracked setting Proper Link root search pending)
    (alike : ∀ {new reached}, Proper new → Proper reached →
      setting.analysis.merge new reached ≠ none → slot new = slot reached) :
    search.Lone setting Proper := by
  intro first firstMember second secondMember new state other proper found otherFound merges
    otherMerges
  have isProper := tracked.proper (tracked.state_live firstMember) found
  have otherProper := tracked.proper (tracked.state_live secondMember) otherFound
  exact separated first firstMember second secondMember state other found otherFound
    ((alike proper isProper merges).symm.trans (alike proper otherProper otherMerges))

variable (taken : ∀ {new reached merged}, setting.analysis.merge new reached = some merged →
  setting.analysis.covers new merged = true)

section Insertion

section

variable (laws : setting.analysis.LinkLaws setting.graph Proper Link)
  (tracked : Tracked setting Proper Link root search pending)

include laws tracked

theorem mergeAll_refused (waits : successor ∈ pending) {olds : List (ReachedState Nat)}
    (members : ∀ old ∈ olds, old ∈ search.reached.states)
    (refused : ∀ old ∈ olds, ∀ new reached, search.arg.wrapped? successor = some new →
      search.arg.wrapped? old.key = some reached → setting.analysis.merge new reached = none)
    (merged : List Nat) :
    olds.foldl (mergeInto setting successor) (merged, search) = (merged, search) := by
  induction olds with
  | nil => rfl
  | cons old olds induction =>
    rw [List.forall_mem_cons] at members refused
    rw [List.foldl_cons]
    rcases mergeInto_cases laws tracked waits members.1 merged with ⟨kept, _⟩ |
      ⟨new, reached, wrapped, _, newFound, oldFound, merges, _⟩
    · rw [kept]
      exact induction members.2 refused.2
    · rw [refused.1 new reached newFound oldFound] at merges
      cases merges

/-- Merging a successor into reached states changes nothing, or one merge is made and no other. -/
theorem mergeAll_cases (waits : successor ∈ pending) (lone : search.Lone setting Proper)
    {olds : List (ReachedState Nat)} (distinct : olds.Nodup)
    (members : ∀ old ∈ olds, old ∈ search.reached.states) :
    olds.foldl (mergeInto setting successor) ([], search) = ([], search) ∨
      ∃ old ∈ olds, ∃ new reached wrapped after, search.arg.wrapped? successor = some new ∧
        search.arg.wrapped? old.key = some reached ∧
        setting.analysis.merge new reached = some wrapped ∧
        olds.foldl (mergeInto setting successor) ([], search) =
          ([search.arg.states.size], after) ∧
        search.arg.Merged successor old.key wrapped after.arg ∧
        after.reached = search.reached.replace old (after.entry setting search.arg.states.size) ∧
        after.stats = { search.stats with merges := search.stats.merges + 1 } := by
  induction olds with
  | nil => exact .inl rfl
  | cons old olds induction =>
    rw [List.nodup_cons] at distinct
    rw [List.forall_mem_cons] at members
    rw [List.foldl_cons]
    rcases mergeInto_cases laws tracked waits members.1 [] with ⟨kept, _⟩ |
      ⟨new, reached, wrapped, after, newFound, oldFound, merges, listed, description,
        reachedAfter, counted⟩
    · rw [kept]
      rcases induction distinct.2 members.2 with unchanged | ⟨other, member, rest⟩
      · exact .inl unchanged
      · exact .inr ⟨other, List.mem_cons_of_mem _ member, rest⟩
    · have move : Move setting 0 (search, pending) (after, pending) :=
        .merge waits members.1 newFound oldFound merges description reachedAfter
      have extension := move.extension
      have others : ∀ other ∈ olds, other ∈ after.reached.states := by
        intro other member
        rw [reachedAfter, Reached.mem_states_replace tracked.valid members.1]
        exact .inr ⟨members.2 other member, fun same => distinct.1 (same ▸ member)⟩
      have refused : ∀ other ∈ olds, ∀ state value, after.arg.wrapped? successor = some state →
          after.arg.wrapped? other.key = some value →
            setting.analysis.merge state value = none := by
        intro other member state value stateFound valueFound
        rw [extension.wrapped_of_some newFound, Option.some.injEq] at stateFound
        rw [extension.wrapped other.key
          (Arg.lt_size_of_live (tracked.state_live (members.2 other member)))] at valueFound
        subst stateFound
        by_contra otherMerges
        have same := lone old members.1 other (members.2 other member) new reached value
          (tracked.proper (tracked.pending_live waits) newFound) oldFound valueFound
          (by simp [merges]) otherMerges
        exact distinct.1 (same ▸ member)
      refine .inr ⟨old, List.mem_cons_self, new, reached, wrapped, after, newFound, oldFound,
        merges, ?_, description, reachedAfter, counted⟩
      rw [listed]
      exact mergeAll_refused laws (move.tracked laws tracked) waits others refused _

end

include taken in
theorem settles_insert (laws : setting.analysis.LinkLaws setting.graph Proper Link)
    (tracked : Tracked setting Proper Link root search (successor :: pending))
    (lone : search.Lone setting Proper) :
    Settles setting successor search (search.insert setting successor) := by
  have waits : successor ∈ successor :: pending := List.mem_cons_self
  have atLocation : ∀ old ∈ search.reached.statesAt (search.entry setting successor).location,
      old ∈ search.reached.states :=
    fun old member => (tracked.valid.mem_statesAt.mp member).1
  have discarded : ∀ arg : Arg σ, successor ∉ (arg.discard successor).live := by
    intro arg live
    rw [Arg.mem_live_discard] at live
    exact live.2 rfl
  unfold insert
  dsimp only
  split
  · rename_i stops
    obtain ⟨new, newFound, key, member, state, found, covers⟩ := Arg.exists_covering stops
    obtain ⟨old, oldMember, rfl⟩ := List.mem_map.mp member
    exact .stopped (atLocation old oldMember) newFound found covers (discarded _) rfl rfl
  · rcases mergeAll_cases laws tracked waits lone (tracked.valid.nodup_statesAt _) atLocation with
      unchanged | ⟨old, member, new, reached, wrapped, after, newFound, oldFound, merges, listed,
        description, reachedAfter, counted⟩
    · have added : Tracked setting Proper Link root { search with
            reached := search.reached.add (search.entry setting successor) } pending ∧
          search.reached.Fresh (search.entry setting successor) := tracked.add rfl rfl
      rw [unchanged]
      refine .added (tracked.pending_live waits) ?_ rfl
      exact congrArg Reached.states (Reached.add_eq added.2 tracked.valid)
    · rw [listed]
      have created : after.arg.wrapped? search.arg.states.size = some wrapped := by
        rw [description.wrapped, if_pos rfl]
      have covered : after.arg.stop setting.analysis successor [search.arg.states.size] = true := by
        by_contra goesOn
        have uncovered := Arg.covers_eq_false (Bool.eq_false_iff.mpr goesOn)
          (description.extension.wrapped_of_some newFound) List.mem_cons_self created
        rw [taken merges] at uncovered
        cases uncovered
      obtain ⟨others, states, statesAfter⟩ := Reached.replace_perm tracked.valid
        (atLocation old member) (after.entry setting search.arg.states.size)
      rw [← reachedAfter] at statesAfter
      simp only [List.isEmpty_cons, Bool.not_false, Bool.true_and, covered, if_true]
      exact .merged newFound oldFound merges ((Arg.wrapped?_discard ..).trans created)
        (taken merges) (discarded _) states statesAfter counted

end Insertion

section Expansion

include taken

section

variable (laws : setting.analysis.LinkLaws setting.graph Proper Link)

include laws

theorem accounts_insertAll {successors : List Nat}
    (tracked : Tracked setting Proper Link root search successors)
    (lone : ∀ stage pending, Moves setting node (search, successors) (stage, pending) → stage.Lone
      setting Proper) :
    Relation.ReflTransGen (Accounts setting) search
      (successors.foldl (fun search successor =>
        { search with stats.successors := search.stats.successors + 1 }.insert setting successor)
        search) := by
  induction successors generalizing search with
  | nil => exact .refl
  | cons successor successors induction =>
    let counted : Search σ :=
      { search with stats.successors := search.stats.successors + 1 }
    have noted : Move setting node (search, successor :: successors)
        (counted, successor :: successors) := .note rfl rfl
    have trackedCounted := noted.tracked laws tracked
    have settles := settles_insert taken laws trackedCounted (lone counted _ (.single noted))
    have accounts : search.Accounts setting (counted.insert setting successor) :=
      .settled (tracked.pending_live List.mem_cons_self) (tracked.apart _ List.mem_cons_self)
        settles
    have first := Relation.ReflTransGen.head noted (moves_insert laws node trackedCounted)
    exact .head accounts (induction (Moves.tracked laws first tracked)
      fun stage pending later => lone stage pending (Relation.ReflTransGen.trans first later))

variable (tracked : Tracked setting Proper Link root search []) {key : Nat} {state : σ}
  (expandable : search.Expandable setting node key state)
  (lone : ∀ stage pending, Moves setting node (search, []) (stage, pending) → stage.Lone setting
    Proper)

include tracked expandable lone

theorem accounts_expandAlong {edge : Edge} (leaving : edge ∈ setting.graph.outgoing node) :
    Relation.ReflTransGen (Accounts setting) search (search.expandAlong setting key edge) := by
  obtain ⟨spawns, _⟩ := moves_spawnAll [] expandable leaving
    (setting.analysis.transfer state edge) fun _ computed => computed
  rw [List.nil_append] at spawns
  have inserts := accounts_insertAll taken laws (Moves.tracked laws spawns tracked)
    fun stage pending later => lone stage pending (Relation.ReflTransGen.trans spawns later)
  unfold expandAlong
  rw [Arg.transfer_eq setting.analysis edge expandable.found]
  refine .head ?_ inserts
  exact .noted rfl rfl rfl rfl

theorem accounts_expandAll (edges : List Edge)
    (leaving : ∀ edge ∈ edges, edge ∈ setting.graph.outgoing node) :
    Relation.ReflTransGen (Accounts setting) search
      (edges.foldl (expandAlong setting key) search) := by
  induction edges generalizing search with
  | nil => exact .refl
  | cons edge edges induction =>
    rw [List.forall_mem_cons] at leaving
    have accounts := accounts_expandAlong taken laws tracked expandable lone leaving.1
    obtain ⟨spawned, creates, _, inserts⟩ := moves_expandAlong laws tracked expandable leaving.1
    have first := Relation.ReflTransGen.trans creates inserts
    exact accounts.trans (induction (Moves.tracked laws first tracked)
      (expandable.after laws tracked first)
      (fun stage pending later => lone stage pending (Relation.ReflTransGen.trans first later))
      leaving.2)

theorem accounts_expand :
    Relation.ReflTransGen (Accounts setting) search (search.expand setting key) := by
  have accounts := accounts_expandAll taken laws tracked expandable lone
    (setting.graph.outgoing node) fun _ leaving => leaving
  unfold expand
  rw [expandable.edges]
  exact accounts.tail (.noted rfl rfl rfl rfl)

end

end Expansion

section Run

include taken in
/-- Where no state can be merged with two reached ones, all that an exploration does is accounted
for. -/
theorem Occurs.accounts (laws : setting.analysis.LinkLaws setting.graph Proper Link)
    {order : WaitOrder}
    {prior : Arg σ} {start : Search σ} (started : (Search.start setting order prior).1 = .ok start)
    (lone : ∀ head state popped node stage pending,
      Relation.ReflTransGen (Continues setting) start head → head.Popped state popped →
      Moves setting node (popped, []) (stage, pending) → stage.Lone setting Proper)
    (occurs : start.Occurs setting search) :
    Relation.ReflTransGen (Accounts setting) start search := by
  apply Occurs.induct laws started .refl _ _ occurs
  · intro head state popped pops accounts
    exact accounts.tail
      (.noted pops.states (by rw [pops.stats]) (by rw [pops.stats]) (by rw [pops.stats]))
  · intro head state popped node value heads pops tracked expandable accounts
    exact accounts.trans (accounts_expand taken laws tracked expandable
      fun stage pending => lone head state popped node stage pending heads pops)

theorem start_balanced {order : WaitOrder} {prior : Arg σ}
    (started : (Search.start setting order prior).1 = .ok search) : search.Balanced := by
  obtain ⟨_, _, reachedStart⟩ := start_ok started
  have fresh := Reached.fresh_empty order (search.entry setting prior.states.size)
  unfold Balanced Reached.size
  rw [reachedStart, Reached.add_eq fresh (Reached.valid_empty order), stats_start started]
  rfl

/-- The number of reached states can be told from the counts wherever these account for all that has
been done. -/
theorem Balanced.accounts (balanced : before.Balanced)
    (accounts : Relation.ReflTransGen (Accounts setting) before after) : after.Balanced := by
  induction accounts with
  | refl => exact balanced
  | tail _ last induction => exact last.balanced induction

end Run

end Search

end Reachability
