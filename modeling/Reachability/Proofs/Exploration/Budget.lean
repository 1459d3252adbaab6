import Mathlib
import Reachability.Proofs.Exploration.Run

/-!
# The budget of an exploration

Suppose that every state belongs to one of finitely many slots, that a new state
is covered by a reached one of its slot or merged into it, and that a merge makes
the reached state lighter.  Then no two reached states share a slot, and what an
exploration can still do is bounded: each reached state may be merged as often as
its weight says, and after that it is taken from the waitlist once.
-/

namespace Reachability

variable {σ : Type u} {κ : Type v}

/-- The conditions under which reached states never share a slot, and under which a reached state
can be merged `limit` times at most. -/
structure Analysis.SlotLaws (analysis : Analysis σ) (Proper : σ → Prop) (slot : σ → κ)
    (slots : List κ) (weight : σ → Nat) (limit : Nat) : Prop where
  listed : ∀ {state}, Proper state → slot state ∈ slots
  place : ∀ {state other}, Proper state → Proper other → slot state = slot other →
    analysis.place state = analysis.place other
  light : ∀ {state}, Proper state → weight state ≤ limit
  merges : ∀ {new reached}, Proper new → Proper reached → slot new = slot reached →
    analysis.covers new reached = false → analysis.merge new reached ≠ none
  merged : ∀ {new reached merged}, Proper new → Proper reached →
    analysis.merge new reached = some merged →
      slot merged = slot reached ∧ weight merged < weight reached
  taken : ∀ {new reached merged}, analysis.merge new reached = some merged →
    analysis.covers new merged = true

namespace Search

/-- No two reached states share a slot. -/
def Separated (slot : σ → κ) (search : Search σ) : Prop :=
  ∀ first ∈ search.reached.states, ∀ second ∈ search.reached.states, ∀ state other,
    search.arg.wrapped? first.key = some state → search.arg.wrapped? second.key = some other →
      slot state = slot other → first = second

def weightOf (weight : σ → Nat) (search : Search σ) (state : ReachedState Nat) : Nat :=
  ((search.arg.wrapped? state.key).map weight).getD 0

def load (weight : σ → Nat) (search : Search σ) : Nat :=
  (search.reached.states.map (search.weightOf weight)).sum

/-- What has been done and what can still be done without new reached states: `count` states have
been taken from the waitlist, others wait, and reached states can be merged as long as they have
weight. -/
def InBudget (weight : σ → Nat) (limit count : Nat) (search : Search σ) : Prop :=
  count + search.load weight + search.reached.waiting.length ≤
    search.reached.states.length * (limit + 1)

variable {setting : Setting σ} {Proper : σ → Prop} {Link : σ → σ → Prop} {root node : Nat}
  {search : Search σ} {slot : σ → κ} {slots : List κ} {weight : σ → Nat} {limit count : Nat}
  {order : WaitOrder} {prior : Arg σ}

section Moves

variable {before after : Search σ × List Nat}

section

variable {after : Search σ} {pending : List Nat}
  (tracked : Tracked setting Proper Link root search pending)
  (extension : search.arg.Extends after.arg)

include tracked extension

theorem weightOf_extension {state : ReachedState Nat} (member : state ∈ search.reached.states) :
    after.weightOf weight state = search.weightOf weight state := by
  unfold weightOf
  rw [extension.wrapped state.key (Arg.lt_size_of_live (tracked.state_live member))]

theorem load_eq {state : ReachedState Nat} {others : List (ReachedState Nat)}
    (states : after.reached.states.Perm (state :: others))
    (earlier : ∀ other ∈ others, other ∈ search.reached.states) :
    after.load weight =
      after.weightOf weight state + (others.map (search.weightOf weight)).sum := by
  have kept : others.map (after.weightOf weight) = others.map (search.weightOf weight) := by
    apply List.map_congr_left
    exact fun other member => weightOf_extension tracked extension (earlier other member)
  unfold load
  rw [(states.map _).sum_eq, List.map_cons, List.sum_cons, kept]

end

section

variable {after : Search σ} {pending : List Nat} (separated : search.Separated slot)
  (tracked : Tracked setting Proper Link root search pending)

include separated tracked

theorem Separated.unchanged (extension : search.arg.Extends after.arg)
    (reachedAfter : after.reached = search.reached) :
    after.Separated slot := by
  intro first firstMember second secondMember state other found otherFound same
  rw [reachedAfter] at firstMember secondMember
  rw [extension.wrapped first.key (Arg.lt_size_of_live (tracked.state_live firstMember))] at found
  rw [extension.wrapped second.key (Arg.lt_size_of_live (tracked.state_live secondMember))]
    at otherFound
  exact separated first firstMember second secondMember state other found otherFound same

theorem Separated.insert (extension : search.arg.Extends after.arg) {kept : ReachedState Nat → Prop}
    (added : ReachedState Nat) {value : σ} (found : after.arg.wrapped? added.key = some value)
    (states : ∀ state ∈ after.reached.states, state = added ∨ state ∈ search.reached.states ∧ kept
      state)
    (apart : ∀ state ∈ search.reached.states, kept state → ∀ other, search.arg.wrapped? state.key =
      some other → slot value ≠ slot other) :
    after.Separated slot := by
  have earlier : ∀ state ∈ search.reached.states, ∀ other,
      after.arg.wrapped? state.key = some other → search.arg.wrapped? state.key = some other := by
    intro state member other otherFound
    rwa [extension.wrapped state.key (Arg.lt_size_of_live (tracked.state_live member))]
      at otherFound
  intro first firstMember second secondMember state other firstFound secondFound same
  rcases states first firstMember with rfl | ⟨firstMember, firstKept⟩
  · rcases states second secondMember with rfl | ⟨secondMember, secondKept⟩
    · rfl
    · rw [found, Option.some.injEq] at firstFound
      subst firstFound
      exact absurd same
        (apart second secondMember secondKept other (earlier second secondMember other secondFound))
  · rcases states second secondMember with rfl | ⟨secondMember, _⟩
    · rw [found, Option.some.injEq] at secondFound
      subst secondFound
      exact absurd same.symm
        (apart first firstMember firstKept state (earlier first firstMember state firstFound))
    · exact separated first firstMember second secondMember state other
        (earlier first firstMember state firstFound)
        (earlier second secondMember other secondFound) same

end

theorem InBudget.unchanged {after : Search σ} {pending : List Nat}
    (inBudget : search.InBudget weight limit count)
    (tracked : Tracked setting Proper Link root search pending)
    (extension : search.arg.Extends after.arg) (reachedAfter : after.reached = search.reached) :
    after.InBudget weight limit count := by
  have same : after.load weight = search.load weight := by
    unfold load
    rw [reachedAfter]
    apply congrArg List.sum
    apply List.map_congr_left
    exact fun state member => weightOf_extension tracked extension member
  unfold InBudget at inBudget ⊢
  rw [same, reachedAfter]
  exact inBudget

section

variable (slotLaws : setting.analysis.SlotLaws Proper slot slots weight limit)
  (move : Move setting node before after)
  (tracked : Tracked setting Proper Link root before.1 before.2)

include slotLaws move tracked

/-- A state is added only where its slot is free: a reached state of its slot would cover it, or
would have been merged into one that covers it. -/
theorem Move.separated (separated : before.1.Separated slot) : after.1.Separated slot := by
  have extension := move.extension
  cases move with
  | spawn _ _ _ _ _ _ _ reachedAfter
  | drop _ _ _ _ _ reachedAfter
  | note _ reachedAfter => exact separated.unchanged tracked extension reachedAfter
  | @merge search after pending successor old new reached merged waits member newFound oldFound
      merges description reachedAfter =>
      have newProper := tracked.proper (tracked.pending_live waits) newFound
      have oldProper := tracked.proper (tracked.state_live member) oldFound
      have created : after.arg.wrapped? search.arg.states.size = some merged := by
        rw [description.wrapped, if_pos rfl]
      apply separated.insert tracked extension (after.entry setting search.arg.states.size) created
      · intro state stateMember
        rwa [reachedAfter, Reached.mem_states_replace tracked.valid member] at stateMember
      · intro state stateMember different other found same
        rw [(slotLaws.merged newProper oldProper merges).1] at same
        exact different
          (separated old member state stateMember reached other oldFound found same).symm
  | @add search after pending successor unmet argAfter reachedAfter =>
    have live := tracked.pending_live List.mem_cons_self
    obtain ⟨value, found⟩ := Arg.exists_state live
    have proper := tracked.proper live found
    apply separated.insert tracked extension (search.entry setting successor) (argAfter ▸ found)
    · intro state stateMember
      rw [reachedAfter, Reached.mem_states_add tracked.valid
        (tracked.add argAfter reachedAfter).2] at stateMember
      exact stateMember.symm.imp_right fun earlier => ⟨earlier, trivial⟩
    · intro state stateMember _ other otherFound same
      have otherProper := tracked.proper (tracked.state_live stateMember) otherFound
      have here : state.location = (search.entry setting successor).location := by
        rw [tracked.listed state stateMember, entry_location, entry_location, otherFound, found,
          Option.bind_some, Option.bind_some]
        exact (slotLaws.place proper otherProper same).symm
      obtain ⟨answered, uncovered⟩ := unmet state stateMember here
      have notCovered := uncovered value other found otherFound
      rcases answered value other found otherFound with refused | ⟨reached, merged⟩
      · exact slotLaws.merges proper otherProper same notCovered refused
      · rw [slotLaws.taken merged] at notCovered
        cases notCovered

/-- A merge costs at least as much weight as the one state that it lets wait; a state that is added
brings a budget of its own. -/
theorem Move.inBudget (inBudget : before.1.InBudget weight limit count) :
    after.1.InBudget weight limit count := by
  have extension := move.extension
  cases move with
  | spawn _ _ _ _ _ _ _ reachedAfter
  | drop _ _ _ _ _ reachedAfter
  | note _ reachedAfter => exact inBudget.unchanged tracked extension reachedAfter
  | @merge search after pending successor old new reached merged waits member newFound oldFound
      merges description reachedAfter =>
      let state := after.entry setting search.arg.states.size
      obtain ⟨others, statesBefore, statesAfter⟩ :=
        Reached.replace_perm tracked.valid member state
      rw [← reachedAfter] at statesAfter
      have lighter : after.weightOf weight state < search.weightOf weight old := by
        unfold weightOf
        rw [oldFound, description.wrapped,
          if_pos (show state.key = search.arg.states.size from rfl)]
        exact (slotLaws.merged (tracked.proper (tracked.pending_live waits) newFound)
          (tracked.proper (tracked.state_live member) oldFound) merges).2
      have earlier : ∀ other ∈ others, other ∈ search.reached.states :=
        fun other otherMember => statesBefore.mem_iff.mpr (List.mem_cons_of_mem _ otherMember)
      have loadBefore : search.load weight =
          search.weightOf weight old + (others.map (search.weightOf weight)).sum :=
        load_eq tracked (.refl _) statesBefore earlier
      have loadAfter : after.load weight =
          after.weightOf weight state + (others.map (search.weightOf weight)).sum :=
        load_eq tracked extension statesAfter earlier
      have waiting : after.reached.waiting.length ≤ search.reached.waiting.length + 1 := by
        rw [reachedAfter, Reached.replace_eq tracked.valid member]
        exact (length_addUnique _ _).trans (Nat.succ_le_succ (length_removeAll _ _))
      have size : after.reached.states.length = search.reached.states.length := by
        rw [statesAfter.length_eq, statesBefore.length_eq, List.length_cons, List.length_cons]
      unfold InBudget at inBudget ⊢
      dsimp only at inBudget ⊢
      rw [loadBefore] at inBudget
      rw [loadAfter, size]
      omega
  | @add search after pending successor unmet argAfter reachedAfter =>
    have live := tracked.pending_live List.mem_cons_self
    have fresh := (tracked.add argAfter reachedAfter).2
    have light : after.weightOf weight (search.entry setting successor) ≤ limit := by
      obtain ⟨value, found⟩ := Arg.exists_state live
      unfold weightOf
      rw [argAfter]
      change ((search.arg.wrapped? successor).map weight).getD 0 ≤ limit
      rw [found]
      exact slotLaws.light (tracked.proper live found)
    have states : after.reached.states =
        search.reached.states ++ [search.entry setting successor] := by
      rw [reachedAfter, Reached.add_eq fresh tracked.valid]
    have waiting : after.reached.waiting.length ≤ search.reached.waiting.length + 1 := by
      rw [reachedAfter, Reached.add_eq fresh tracked.valid]
      exact length_addUnique _ _
    have total : after.load weight =
        after.weightOf weight (search.entry setting successor) + search.load weight := by
      apply load_eq tracked extension
      · rw [states]
        exact List.perm_append_singleton _ _
      · exact fun other member => member
    unfold InBudget at inBudget ⊢
    dsimp only at inBudget ⊢
    rw [total, states, List.length_append, List.length_singleton, Nat.succ_mul]
    omega

end

end Moves

/-- The invariant of an exploration that has taken `count` states from the waitlist. -/
structure Paced (slot : σ → κ) (weight : σ → Nat) (limit count : Nat) (search : Search σ) :
    Prop where
  separated : search.Separated slot
  inBudget : search.InBudget weight limit count

theorem Moves.paced {before after : Search σ × List Nat}
    (laws : setting.analysis.LinkLaws setting.graph Proper Link)
    (slotLaws : setting.analysis.SlotLaws Proper slot slots weight limit)
    (moves : Moves setting node before after)
    (tracked : Tracked setting Proper Link root before.1 before.2)
    (paced : before.1.Paced slot weight limit count) : after.1.Paced slot weight limit count := by
  induction moves with
  | refl => exact paced
  | tail earlier move induction =>
    have middle := Moves.tracked laws earlier tracked
    exact ⟨move.separated slotLaws middle induction.separated,
      move.inBudget slotLaws middle induction.inBudget⟩

theorem Popped.paced {state : ReachedState Nat} {popped : Search σ}
    (pops : search.Popped state popped) (paced : search.Paced slot weight limit count) :
    popped.Paced slot weight limit (count + 1) := by
  constructor
  · unfold Separated
    rw [pops.arg, pops.states]
    exact paced.separated
  · have same : popped.load weight = search.load weight := by
      unfold load weightOf
      rw [pops.arg, pops.states]
    have inBudget := paced.inBudget
    have shorter := length_removeAll_lt pops.waited
    unfold InBudget at inBudget ⊢
    rw [same, pops.states, pops.waiting]
    omega

section Iterations

theorem iterations_mergeInto (successor : Nat) (merging : List Nat × Search σ)
    (old : ReachedState Nat) :
    (mergeInto setting successor merging old).2.stats.iterations =
      merging.2.stats.iterations := by
  unfold mergeInto
  dsimp only
  split
  · rfl
  · dsimp only
    split <;> rfl

theorem iterations_insert (search : Search σ) (successor : Nat) :
    (search.insert setting successor).stats.iterations = search.stats.iterations := by
  have merged : ∀ olds : List (ReachedState Nat),
      (olds.foldl (mergeInto setting successor) ([], search)).2.stats.iterations =
        search.stats.iterations := by
    intro olds
    apply List.foldlRecOn
      (motive := fun (merging : List Nat × Search σ) => merging.2.stats.iterations = _)
    · rfl
    · intro merging same old _
      exact (iterations_mergeInto successor merging old).trans same
  unfold insert
  dsimp only
  split
  · rfl
  · split
    · exact merged _
    · exact merged _

theorem iterations_expand (search : Search σ) (key : Nat) :
    (search.expand setting key).stats.iterations = search.stats.iterations := by
  unfold expand
  dsimp only
  apply List.foldlRecOn (motive := fun (after : Search σ) => after.stats.iterations = _)
  · rfl
  · intro after same edge _
    unfold expandAlong
    dsimp only
    apply List.foldlRecOn (motive := fun (after : Search σ) => after.stats.iterations = _)
    · exact same
    · intro after same successor _
      exact (iterations_insert _ successor).trans same

end Iterations

theorem Popped.iterations_expand {state : ReachedState Nat} {popped : Search σ}
    (pops : search.Popped state popped) :
    (popped.expand setting state.key).stats.iterations = search.stats.iterations + 1 := by
  rw [Search.iterations_expand, pops.stats]

theorem stats_start (started : (Search.start setting order prior).1 = .ok search) :
    search.stats = {} := by
  unfold Search.start at started
  dsimp only at started
  split at started
  · cases started
    rfl
  · cases started

theorem iterations_start (started : (Search.start setting order prior).1 = .ok search) :
    search.stats.iterations = 0 := by
  rw [stats_start started]

theorem Separated.length_states (separated : search.Separated slot)
    (slotLaws : setting.analysis.SlotLaws Proper slot slots weight limit)
    (tracked : Tracked setting Proper Link root search []) :
    search.reached.states.length ≤ slots.length := by
  let slotOf (state : ReachedState Nat) : Option κ := (search.arg.wrapped? state.key).map slot
  have occupied : ∀ state ∈ search.reached.states, ∃ value,
      search.arg.wrapped? state.key = some value ∧ slot value ∈ slots := by
    intro state member
    have live := tracked.state_live member
    obtain ⟨value, found⟩ := Arg.exists_state live
    exact ⟨value, found, slotLaws.listed (tracked.proper live found)⟩
  have distinct : (search.reached.states.map slotOf).Nodup := by
    apply List.Nodup.map_on _ tracked.valid.nodup_states
    intro first firstMember second secondMember same
    obtain ⟨state, found, _⟩ := occupied first firstMember
    obtain ⟨other, otherFound, _⟩ := occupied second secondMember
    simp only [slotOf, found, otherFound, Option.map_some, Option.some.injEq] at same
    exact separated first firstMember second secondMember state other found otherFound same
  have within : search.reached.states.map slotOf ⊆ slots.map some := by
    intro slotted member
    obtain ⟨state, stateMember, rfl⟩ := List.mem_map.mp member
    obtain ⟨value, found, listed⟩ := occupied state stateMember
    simp only [slotOf, found, Option.map_some]
    exact List.mem_map_of_mem listed
  have shorter := (List.subperm_of_subset distinct within).length_le
  rwa [List.length_map, List.length_map] at shorter

theorem visit_conclusive (key : Nat) (final : Search σ) (reason : Inconclusive) :
    search.visit setting key ≠ .finished final (.inconclusive reason) := by
  unfold visit
  split
  · split
    · simp
    · split <;> simp
  · simp

/-- Without a bound, only interruptions end an exploration without a verdict. -/
theorem step_conclusive (unbounded : setting.maxIterations ≤ 0) (final : Search σ)
    (reason : Inconclusive) :
    search.step setting none ≠ .finished final (.inconclusive reason) := by
  have within : search.atBound setting = false := by
    simp [atBound, Int.not_lt.mpr unbounded]
  unfold step
  rw [within]
  split
  · simp
  · dsimp only
    rw [if_neg Bool.false_ne_true]
    split
    · simp
    · exact visit_conclusive _ final reason

section

variable (laws : setting.analysis.LinkLaws setting.graph Proper Link)
  (slotLaws : setting.analysis.SlotLaws Proper slot slots weight limit)

include laws slotLaws

theorem start_paced (started : (Search.start setting order prior).1 = .ok search) :
    search.Paced slot weight limit 0 := by
  have tracked := start_tracked laws started
  obtain ⟨_, _, reachedStart⟩ := start_ok started
  have fresh := Reached.fresh_empty order (search.entry setting prior.states.size)
  have added := Reached.add_eq fresh (Reached.valid_empty order)
  have states : search.reached.states = [search.entry setting prior.states.size] := by
    rw [reachedStart, added]
    rfl
  have waiting : search.reached.waiting.length = 1 := by
    rw [reachedStart, added]
    rfl
  constructor
  · intro first firstMember second secondMember _ _ _ _ _
    rw [states, List.mem_singleton] at firstMember secondMember
    rw [firstMember, secondMember]
  · have member : search.entry setting prior.states.size ∈ search.reached.states := by
      rw [states]
      exact List.mem_cons_self
    have light : search.weightOf weight (search.entry setting prior.states.size) ≤ limit := by
      obtain ⟨value, found⟩ := Arg.exists_state (tracked.state_live member)
      unfold weightOf
      rw [found]
      exact slotLaws.light (tracked.proper (tracked.state_live member) found)
    unfold InBudget load
    rw [states, waiting, List.map_singleton, List.sum_singleton, List.length_singleton]
    omega

theorem Occurs.paced {start : Search σ} (started : (Search.start setting order prior).1 = .ok start)
    (occurs : start.Occurs setting search) :
    search.Paced slot weight limit search.stats.iterations := by
  apply Occurs.induct laws started _ _ _ occurs
  · rw [iterations_start started]
    exact start_paced laws slotLaws started
  · intro head state popped pops paced
    rw [pops.stats]
    exact pops.paced paced
  · intro head state popped node value _ _ tracked expandable paced
    rw [iterations_expand]
    exact Moves.paced laws slotLaws (moves_expand laws tracked expandable).1 tracked paced

theorem Occurs.iterations_le {start : Search σ}
    (started : (Search.start setting order prior).1 = .ok start)
    (occurs : start.Occurs setting search) :
    search.stats.iterations ≤ slots.length * (limit + 1) := by
  have paced := occurs.paced laws slotLaws started
  have few := paced.separated.length_states slotLaws (occurs.tracked laws started)
  have bounded := Nat.mul_le_mul_right (limit + 1) few
  have inBudget := paced.inBudget
  unfold InBudget at inBudget
  omega

/-- Without a bound and without interruptions, an exploration with slots comes to a verdict, if no
iteration of it fails. -/
theorem exists_verdict {start : Search σ}
    (started : (Search.start setting order prior).1 = .ok start)
    (unbounded : setting.maxIterations ≤ 0)
    (sure : ∀ {head}, Relation.ReflTransGen (Continues setting) start head →
      ∀ final error, head.step setting none ≠ .failed final error)
    (heads : Relation.ReflTransGen (Continues setting) start search) {fuel : Nat}
    (enough : slots.length * (limit + 1) < search.stats.iterations + fuel) :
    ∃ final verdict, search.explore setting none fuel = .finished final verdict ∧
      ∀ reason, verdict ≠ .inconclusive reason := by
  induction fuel generalizing search with
  | zero =>
    have few := Occurs.iterations_le laws slotLaws started (.head heads)
    omega
  | succ fuel induction =>
    have tracked := head_tracked laws started heads
    unfold explore
    cases stepped : search.step setting none with
    | continued next =>
      have continues : search.Continues setting next := ⟨none, stepped⟩
      obtain ⟨state, popped, node, value, pops, _, _, rfl⟩ := continues.expanded laws tracked
      have counted : (popped.expand setting state.key).stats.iterations = _ :=
        pops.iterations_expand
      exact induction (heads.tail continues) (by omega)
    | finished final verdict =>
      refine ⟨final, verdict, rfl, ?_⟩
      rintro reason rfl
      exact step_conclusive unbounded final reason stepped
    | failed final error => exact absurd stepped (sure heads final error)

end

end Search

end Reachability
