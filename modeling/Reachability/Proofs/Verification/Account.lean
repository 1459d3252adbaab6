import Mathlib
import Reachability.Proofs.Exploration.Account
import Reachability.Proofs.Verification.Paths
import Reachability.Proofs.Verification.Termination

/-!
# The account of explored programs

If values are joined, reached states that could be merged with the same state
would agree on their location and on whether they are targets, and there is only
one such state.  If values are kept apart, nothing is merged.  So every
exploration of a program accounts for its successors.
-/

namespace Reachability

namespace Launch

variable {config : Config} {name : String} {program : Stmt}
  {setting : Setting (List ComponentState)} {prior : Arg (List ComponentState)}
  {start search : Search (List ComponentState)}

section

variable (launch : Launch config name program setting prior start)

include launch

theorem covers_merged {new reached merged : List ComponentState}
    (merges : setting.analysis.merge new reached = some merged) :
    setting.analysis.covers new merged = true := by
  obtain ⟨components, composition⟩ := launch.exists_composition
  rw [composition.composed] at merges ⊢
  exact covers_of_mergedTuple (Analysis.mergedTuple_of_merge merges)

/-- At no time can a state be merged with two reached ones. -/
theorem exists_lone :
    ∃ Proper, setting.analysis.LinkLaws setting.graph Proper
        (Linked setting.analysis setting.graph config.analysis.targetFunction) ∧
      ∀ head state popped node stage pending,
        Relation.ReflTransGen (Search.Continues setting) start head → head.Popped state popped →
        Search.Moves setting node (popped, []) (stage, pending) → stage.Lone setting Proper := by
  have listed := (usable_of_validate launch.valid).valueMerge
  simp only [List.mem_cons, List.not_mem_nil, or_false] at listed
  rcases listed with joins | separate
  · obtain ⟨components, composition, linkLaws, slotLaws⟩ := launch.exists_slotLaws (.inl joins)
    obtain ⟨order, _, started⟩ := launch.started
    refine ⟨_, linkLaws, ?_⟩
    intro head state popped node stage pending heads pops moves
    have tracked := pops.tracked (Search.head_tracked linkLaws started heads)
    have paced := pops.paced (Search.Occurs.paced linkLaws slotLaws started (.head heads))
    apply (Search.Moves.paced linkLaws slotLaws moves tracked paced).separated.lone
      (Search.Moves.tracked linkLaws moves tracked)
    intro new reached newConforms reachedConforms mergeable
    obtain ⟨merged, merges⟩ := Option.ne_none_iff_exists'.mp mergeable
    rw [composition.composed] at merges
    obtain ⟨_, ⟨place, _⟩, isTarget, _⟩ :=
      composite_merge newConforms.1 reachedConforms.1 merges
    rw [composition.composed]
    exact Prod.ext place isTarget
  · obtain ⟨components, composition⟩ := launch.exists_composition
    refine ⟨_, composition.linkLaws launch.simple, ?_⟩
    intro head state popped node stage pending _ _ _ first _ second _ new value _ _ _ _ mergeable
    rw [composition.composed, composite_merge_eq_none (separate_policies composition separate)]
      at mergeable
    exact absurd rfl mergeable

end

/-- Whenever an exploration is at the head of an iteration or has ended, for whatever reason, the
number of its reached states is known from its counts.  From its start on it has only counted
successors and settled each of them: stopped it, merged it into exactly one reached state and
discarded it, or added it.  No successor is left over. -/
theorem successors_accounted (launch : Launch config name program setting prior start)
    (occurs : start.Occurs setting search) :
    (search.reached.size : Int) = 1 + search.stats.successors - search.stats.stopped -
        search.stats.merges ∧
      Relation.ReflTransGen (Search.Accounts setting) start search ∧
      ∀ key, key ∈ search.arg.live ↔ key ∈ search.reached.keys := by
  obtain ⟨Proper, laws, lone⟩ := launch.exists_lone
  obtain ⟨order, _, started⟩ := launch.started
  have accounts := occurs.accounts launch.covers_merged laws started lone
  have balanced := (Search.start_balanced started).accounts accounts
  unfold Search.Balanced at balanced
  refine ⟨by omega, accounts, ?_⟩
  intro key
  rw [(occurs.tracked laws started).live]
  simp

/-- The loop is stopped once and merged three times, so seven of ten successors and the initial
state are left. -/
theorem successors_accounted_countsFar : ∃ setting start final,
    Launch {} "countsFar" countsFar setting {} start ∧
      start.Ends setting (.finished final .exhausted) ∧ final.stats.successors = 10 ∧
      final.stats.stopped = 1 ∧ final.stats.merges = 3 ∧ final.reached.size = 7 ∧
      Relation.ReflTransGen (Search.Accounts setting) start final := by
  have counts : (endWithin 20 {} "countsFar" countsFar).map
      (fun ended => (ended.2.1.stats.successors, ended.2.1.stats.stopped, ended.2.1.stats.merges,
        ended.2.2.status)) = some (10, 1, 3, "exhausted") := by cbv
  obtain ⟨⟨setting, final, verdict⟩, ended, isCounts⟩ := Option.map_eq_some_iff.mp counts
  simp only [Prod.mk.injEq] at isCounts
  obtain ⟨successors, stopped, merges, status⟩ := isCounts
  obtain ⟨start, launch, ends⟩ := launch_of_end rfl ended
  cases Verdict.status_eq_exhausted.mp status
  obtain ⟨size, accounts, _⟩ := successors_accounted launch (.ended ends)
  refine ⟨setting, start, final, launch, ends, successors, stopped, merges, ?_, accounts⟩
  dsimp only [Progress.search] at size
  rw [successors, stopped, merges] at size
  omega

end Launch

end Reachability
