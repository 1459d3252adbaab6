import Mathlib
import Reachability.Proofs.Exploration.Run

/-!
# Coverage by the reached states

An exploration simulates any transition system whose states its abstract states
describe.  A described state stays described when successors are merged or
dropped, and once a reached state has been explored, so are all successors of
the states it describes.  When nothing waits any more, the reached states
therefore describe all that can be reached, and none of them is a target.
-/

namespace Reachability

variable {σ : Type u} {γ : Type v}

/-- The conditions under which the abstract states of an analysis simulate the transitions `Step`,
which start from the states in `Start`. -/
structure Analysis.Simulates (analysis : Analysis σ) (graph : FlowGraph) (Proper : σ → Prop)
    (Start : γ → Prop) (Step : γ → γ → Prop) (Describes : γ → σ → Prop) : Prop where
  start : ∀ {concrete}, Start concrete →
    Describes concrete (analysis.initial (graph.node graph.entry))
  step : ∀ {concrete after state node}, Proper state → analysis.isTarget state = false →
    analysis.place state = some node → Describes concrete state → Step concrete after →
      ∃ edge ∈ graph.outgoing node, ∃ next ∈ analysis.transfer state edge, Describes after next
  covers : ∀ {concrete state reached}, Proper state → Proper reached →
    analysis.covers state reached = true → Describes concrete state → Describes concrete reached
  merge : ∀ {concrete new reached merged}, Proper new → Proper reached →
    analysis.merge new reached = some merged → Describes concrete reached →
      Describes concrete merged

namespace Search

/-- Some state of the graph describes a concrete state. -/
def Covers (Describes : γ → σ → Prop) (search : Search σ) (concrete : γ) : Prop :=
  ∃ key ∈ search.arg.live, ∃ state, search.arg.wrapped? key = some state ∧
    Describes concrete state

variable {setting : Setting σ} {Proper : σ → Prop} {Link : σ → σ → Prop} {root node : Nat}
  {Start : γ → Prop} {Step : γ → γ → Prop} {Describes : γ → σ → Prop}

theorem Move.covers
    (simulates : setting.analysis.Simulates setting.graph Proper Start Step Describes)
    {before after : Search σ × List Nat} (move : Move setting node before after)
    (tracked : Tracked setting Proper Link root before.1 before.2) {concrete : γ}
    (covered : before.1.Covers Describes concrete) : after.1.Covers Describes concrete := by
  obtain ⟨key, live, state, found, describes⟩ := covered
  have kept := move.extension.wrapped_of_some found
  have proper := tracked.proper live found
  have first_le := Nat.le_trans (Arg.first_le live)
    (Nat.le_of_lt (Arg.lt_size_of_live live))
  cases move with
  | spawn _ _ _ _ _ _ argAfter _ =>
    refine ⟨key, ?_, state, kept, describes⟩
    rw [argAfter, Arg.mem_live_spawn first_le]
    exact .inl live
  | @merge _ _ _ successor old new reached merged waits member newFound oldFound merges
      description _ =>
      have oldBound := Arg.lt_size_of_live (tracked.state_live member)
      by_cases replaced : key = old.key
      · subst replaced
        rw [found, Option.some.injEq] at oldFound
        subst oldFound
        have newProper := tracked.proper (tracked.pending_live waits) newFound
        refine ⟨_, (description.mem_live first_le oldBound).mpr (.inr rfl), merged, ?_,
          simulates.merge newProper proper merges describes⟩
        rw [description.wrapped, if_pos rfl]
      · exact ⟨key, (description.mem_live first_le oldBound).mpr (.inl ⟨live, replaced⟩), state,
          kept, describes⟩
  | @drop _ _ _ successor other new reached newFound otherReached otherFound covers argAfter
      _ =>
      have otherLive := tracked.reached_live otherReached
      have different : other ≠ successor := by
        rintro rfl
        exact tracked.apart other List.mem_cons_self otherReached
      by_cases dropped : key = successor
      · subst dropped
        rw [found, Option.some.injEq] at newFound
        subst newFound
        have otherProper := tracked.proper otherLive otherFound
        refine ⟨other, ?_, reached, ?_, simulates.covers proper otherProper covers describes⟩
        · rw [argAfter, Arg.mem_live_discard]
          exact ⟨otherLive, different⟩
        · rw [argAfter, Arg.wrapped?_discard]
          exact otherFound
      · refine ⟨key, ?_, state, kept, describes⟩
        rw [argAfter, Arg.mem_live_discard]
        exact ⟨live, dropped⟩
  | add _ argAfter _ | note argAfter _ => exact ⟨key, argAfter ▸ live, state, kept, describes⟩

theorem Moves.covers
    (laws : setting.analysis.LinkLaws setting.graph Proper Link)
    (simulates : setting.analysis.Simulates setting.graph Proper Start Step Describes)
    {before after : Search σ × List Nat} (moves : Moves setting node before after)
    (tracked : Tracked setting Proper Link root before.1 before.2) {concrete : γ}
    (covered : before.1.Covers Describes concrete) : after.1.Covers Describes concrete := by
  induction moves with
  | refl => exact covered
  | tail earlier move induction =>
    exact move.covers simulates (Moves.tracked laws earlier tracked) induction

/-- A reached state that has been explored is no target, and the successors of all that it describes
are covered. -/
def Explored (setting : Setting σ) (Step : γ → γ → Prop) (Describes : γ → σ → Prop)
    (search : Search σ) (key : Nat) : Prop :=
  ∀ state, search.arg.wrapped? key = some state → setting.analysis.isTarget state = false ∧
    ∀ concrete after, Describes concrete state → Step concrete after →
      search.Covers Describes after

/-- Every reached state waits or has been explored. -/
def Closed (setting : Setting σ) (Step : γ → γ → Prop) (Describes : γ → σ → Prop)
    (search : Search σ) : Prop :=
  ∀ state ∈ search.reached.states, state.id ∉ search.reached.waiting →
    search.Explored setting Step Describes state.key

section

variable (laws : setting.analysis.LinkLaws setting.graph Proper Link)
  (simulates : setting.analysis.Simulates setting.graph Proper Start Step Describes)

include laws simulates

theorem Continues.closed {search next : Search σ} (continues : search.Continues setting next)
    (tracked : Tracked setting Proper Link root search [])
    (closed : search.Closed setting Step Describes) :
    next.Closed setting Step Describes ∧
      ∀ concrete, search.Covers Describes concrete → next.Covers Describes concrete := by
  obtain ⟨taken, popped, node, value, pops, trackedPopped, expandable, rfl⟩ :=
    continues.expanded laws tracked
  obtain ⟨moves, created⟩ := moves_expand laws trackedPopped expandable
  obtain ⟨reached, found, plain, placed⟩ := expandable
  have proper := trackedPopped.proper (trackedPopped.reached_live reached) found
  have keepsCoverage : ∀ concrete, search.Covers Describes concrete →
      (popped.expand setting taken.key).Covers Describes concrete := by
    intro concrete covered
    refine Moves.covers laws simulates moves trackedPopped ?_
    unfold Covers at covered ⊢
    rwa [pops.arg]
  refine ⟨?_, keepsCoverage⟩
  intro state member settled current currentFound
  obtain ⟨memberBefore, settledBefore⟩ := Moves.settled laws moves trackedPopped member settled
  rw [pops.states] at memberBefore
  rw [pops.waiting, mem_removeAll, not_and_or, not_not] at settledBefore
  have bound := Arg.lt_size_of_live (tracked.state_live memberBefore)
  rw [(Moves.extension moves).wrapped state.key (pops.arg ▸ bound), pops.arg] at currentFound
  rcases settledBefore with settledBefore | same
  · obtain ⟨notTarget, covered⟩ := closed state memberBefore settledBefore current currentFound
    exact ⟨notTarget, fun concrete after describes steps =>
      keepsCoverage after (covered concrete after describes steps)⟩
  · have same := tracked.valid.eq_of_id memberBefore pops.member same
    subst same
    rw [pops.arg, currentFound, Option.some.injEq] at found
    subst found
    refine ⟨plain, ?_⟩
    intro concrete after describes steps
    obtain ⟨edge, leaving, nextState, computed, describesNext⟩ :=
      simulates.step proper plain placed describes steps
    obtain ⟨spawned, before, ⟨child, childLive, childFound⟩, rest⟩ :=
      created edge leaving nextState computed
    exact Moves.covers laws simulates rest (Moves.tracked laws before trackedPopped)
      ⟨child, childLive, nextState, childFound, describesNext⟩

theorem head_closed {order : WaitOrder} {prior : Arg σ} {start search : Search σ}
    (started : (Search.start setting order prior).1 = .ok start)
    (heads : Relation.ReflTransGen (Continues setting) start search) :
    search.Closed setting Step Describes ∧
      ∀ concrete, Start concrete → search.Covers Describes concrete := by
  induction heads with
  | refl =>
    obtain ⟨atEntry, argStart, reachedStart⟩ := start_ok started
    have tracked := start_tracked laws started
    have valid : (Reached.empty order : Reached Nat).Valid := Reached.valid_empty order
    have fresh := Reached.fresh_empty order (start.entry setting prior.states.size)
    constructor
    · intro state member settled
      rw [reachedStart, Reached.mem_states_add valid fresh] at member
      rw [reachedStart, Reached.mem_waiting_add valid fresh, not_or] at settled
      rcases member with impossible | rfl
      · simp [Reached.empty] at impossible
      · exact absurd rfl settled.2
    · intro concrete starts
      refine ⟨prior.states.size, tracked.coherent.rootLive, _, ?_, simulates.start starts⟩
      rw [argStart]
      exact prior.wrapped?_initial setting.analysis (setting.graph.node setting.graph.entry)
  | tail heads continues induction =>
    have tracked := head_tracked laws started heads
    obtain ⟨closed, keepsCoverage⟩ := continues.closed laws simulates tracked induction.1
    exact ⟨closed, fun concrete starts => keepsCoverage concrete (induction.2 concrete starts)⟩

end

/-- Some reached state describes a concrete state. -/
def Reaches (Describes : γ → σ → Prop) (search : Search σ) (concrete : γ) : Prop :=
  ∃ state ∈ search.reached.states, ∃ value, search.arg.wrapped? state.key = some value ∧
    Describes concrete value

/-- What the reached states describe is closed under transitions, and none of them is a target. -/
structure Saturated (setting : Setting σ) (Start : γ → Prop) (Step : γ → γ → Prop)
    (Describes : γ → σ → Prop) (search : Search σ) : Prop where
  starts : ∀ {concrete}, Start concrete → search.Reaches Describes concrete
  steps : ∀ {concrete after}, search.Reaches Describes concrete → Step concrete after →
    search.Reaches Describes after
  plain : ∀ state ∈ search.reached.states, ∀ value,
    search.arg.wrapped? state.key = some value → setting.analysis.isTarget value = false

section

variable (laws : setting.analysis.LinkLaws setting.graph Proper Link)
  (simulates : setting.analysis.Simulates setting.graph Proper Start Step Describes)

include laws simulates

theorem saturated_of_exhausted {order : WaitOrder} {prior : Arg σ} {start final : Search σ}
    (started : (Search.start setting order prior).1 = .ok start)
    (ends : start.Ends setting (.finished final .exhausted)) :
    final.Saturated setting Start Step Describes := by
  obtain ⟨head, interruption, heads, ended, _⟩ := ends
  have tracked := head_tracked laws started heads
  obtain ⟨closed, covered⟩ := head_closed laws simulates started heads
  obtain ⟨same, nothing⟩ : final = head ∧ head.reached.waiting = [] := by
    rcases step_cases tracked.valid interruption with ⟨step, nothing⟩ | ⟨reason, step⟩ |
      ⟨state, popped, _, _, step⟩
    · rw [step] at ended
      cases ended
      exact ⟨rfl, nothing⟩
    · rw [step] at ended
      cases ended
    · rw [step] at ended
      exact absurd ended (visit_ne_exhausted _ _)
  subst same
  have reached : ∀ {concrete}, final.Covers Describes concrete →
      final.Reaches Describes concrete := by
    rintro concrete ⟨key, live, value, found, describes⟩
    rcases (tracked.live key).mp live with listed | pending
    · obtain ⟨state, member, rfl⟩ := Tracked.mem_keys.mp listed
      exact ⟨state, member, value, found, describes⟩
    · cases pending
  have explored : ∀ state ∈ final.reached.states,
      final.Explored setting Step Describes state.key := by
    intro state member
    exact closed state member (by simp [nothing])
  constructor
  · exact fun starts => reached (covered _ starts)
  · rintro concrete after ⟨state, member, value, found, describes⟩ steps
    exact reached ((explored state member value found).2 concrete after describes steps)
  · exact fun state member value found => (explored state member value found).1

theorem exists_reached_of_exhausted {order : WaitOrder} {prior : Arg σ} {start final : Search σ}
    (started : (Search.start setting order prior).1 = .ok start)
    (ends : start.Ends setting (.finished final .exhausted)) {first last : γ} (starts : Start first)
    (run : Relation.ReflTransGen Step first last) :
    ∃ state ∈ final.reached.states, ∃ value, state = final.entry setting state.key ∧
      final.arg.wrapped? state.key = some value ∧ Proper value ∧
      setting.analysis.isTarget value = false ∧ Describes last value := by
  have tracked := Occurs.tracked laws started (.ended ends)
  have saturated := saturated_of_exhausted laws simulates started ends
  have reaches : final.Reaches Describes last := by
    induction run with
    | refl => exact saturated.starts starts
    | tail _ steps induction => exact saturated.steps induction steps
  obtain ⟨state, member, value, found, describes⟩ := reaches
  exact ⟨state, member, value, tracked.listed state member, found,
    tracked.proper (tracked.state_live member) found, saturated.plain state member value found,
    describes⟩

end

end Search

end Reachability
