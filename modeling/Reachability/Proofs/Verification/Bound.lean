import Mathlib
import Reachability.Proofs.Exploration.Bound
import Reachability.Proofs.Verification.Witness

/-!
# Verdicts and the bound on iterations

The bound of a configuration only cuts its explorations off.  Where an
exploration comes to an answer within the bound, nothing depends on it; where it
does not, the exploration stops at the bound with states left.
-/

namespace Reachability

def Config.bounded (config : Config) (bound : Int) : Config :=
  { config with analysis := { config.analysis with maxIterations := bound } }

namespace Launch

variable {config : Config} {name : String} {program : Stmt}
  {setting : Setting (List ComponentState)} {prior : Arg (List ComponentState)}
  {start : Search (List ComponentState)}

theorem explore_ne_failed (launch : Launch config name program setting prior start)
    (interruption : Option Interruption) (fuel : Nat) (final : Search (List ComponentState))
    (error : WitnessError) : start.explore setting interruption fuel ≠ .failed final error := by
  intro explored
  obtain ⟨head, last, heads, failed, _⟩ := Search.ends_of_explore explored (by simp)
  exact launch.step_ne_failed heads last final error failed

theorem states_ne_nil (launch : Launch config name program setting prior start)
    {head : Search (List ComponentState)} (occurs : start.Occurs setting head)
    (waits : head.reached.hasWaiting = true) : head.reached.states ≠ [] := by
  obtain ⟨Proper, laws, tracked⟩ := launch.exists_tracked occurs
  obtain ⟨state, after, popped⟩ := tracked.valid.pop_ne_none waits
  exact List.ne_nil_of_mem (tracked.valid.pop_some popped).1

theorem prepare_bounded (launch : Launch config name program setting {} start) (bound : Int) :
    (Verification.prepare (config.bounded bound).analysis setting.traced name program).1 =
      .ok { name, setting := setting.bounded bound, search := start } := by
  obtain ⟨order, ordered, started⟩ := launch.started
  have sameComposition : (config.bounded bound).analysis.compose setting.graph =
      .ok setting.analysis := launch.composed
  have sameOrder : WaitOrder.ofName (config.bounded bound).analysis.waitlist = .ok order := ordered
  have sameStart : (Search.start
      { graph := setting.graph, analysis := setting.analysis
        maxIterations := (config.bounded bound).analysis.maxIterations
        traced := setting.traced } order {}).1 = .ok start := started
  have built := launch.built
  unfold Verification.prepare
  cases found : FlowGraph.build name program with
  | mk result messages =>
    rw [found] at built
    dsimp only at built
    rw [built]
    simp only [Verification.begin, sameComposition, sameOrder, sameStart]
    rfl

theorem bounded (launch : Launch config name program setting prior start) (bound : Int) :
    Launch config name program (setting.bounded bound) prior start :=
  ⟨launch.valid, launch.built, launch.composed, launch.started⟩

theorem bounded_yields (launch : Launch config name program setting prior start) {bound : Nat}
    {wider : Int} (positive : 0 < bound) (within : bound ≤ wider ∨ wider ≤ 0) :
    (∃ final verdict, start.Yields (setting.bounded bound) final verdict ∧
        start.Yields (setting.bounded wider) final verdict ∧ verdict.conclusive = true ∧
        final.stats.iterations ≤ bound) ∨
      ∃ head, start.Yields (setting.bounded bound) head (.inconclusive (.iterationBound bound)) ∧
        head.stats.iterations = bound ∧ head.reached.states ≠ [] ∧
        head.reached.hasWaiting = true ∧
        ∀ final verdict, start.Yields (setting.bounded wider) final verdict →
          verdict.conclusive = true → bound < final.stats.iterations := by
  obtain ⟨order, _, started⟩ := launch.started
  have sure := (launch.bounded bound).explore_ne_failed none
  rcases Search.bounded_yields positive within (Search.iterations_start started) sure with
    answered | ⟨head, yields, counted, waits, later⟩
  · exact .inl answered
  · obtain ⟨fuel, explored⟩ := yields
    have occurs : start.Occurs (setting.bounded bound) head :=
      .ended (Search.ends_of_explore explored (by simp))
    exact .inr ⟨head, ⟨fuel, explored⟩, counted,
      (launch.bounded bound).states_ne_nil occurs waits, waits, later⟩

end Launch

/-- A configuration can be explored with any bound.  If the run with a wider bound or with none
comes to an answer after as many iterations as the bound allows, the run with the bound ends with
the same answer, the same reached set and the same counts.  If it does not, the run with the bound
makes all its iterations and ends without an answer and with states left.  An answer is never
another one than that without the bound. -/
theorem bound_truncates (config : Config) (traced : Bool) {name : String} {program : Stmt}
    {graph : FlowGraph} (valid : config.validate = .ok ())
    (built : (FlowGraph.build name program).1 = .ok graph) {bound : Nat} {wider : Int}
    (positive : 0 < bound) (within : bound ≤ wider ∨ wider ≤ 0) :
    ∃ (setting : Setting (List ComponentState)) (start final : Search (List ComponentState))
      (verdict : Verdict),
      (Verification.prepare (config.bounded bound).analysis traced name program).1 =
        .ok { name, setting := setting.bounded bound, search := start } ∧
      (Verification.prepare (config.bounded wider).analysis traced name program).1 =
        .ok { name, setting := setting.bounded wider, search := start } ∧
      setting.graph = graph ∧ start.Yields (setting.bounded bound) final verdict ∧
      (∀ other answer, start.Yields (setting.bounded wider) other answer →
        answer.conclusive = true → other.stats.iterations ≤ bound →
        final = other ∧ verdict = answer) ∧
      ((∀ other answer, start.Yields (setting.bounded wider) other answer →
          answer.conclusive = true → bound < other.stats.iterations) →
        verdict = .inconclusive (.iterationBound bound) ∧ final.stats.iterations = bound ∧
          final.reached.states ≠ [] ∧ final.reached.hasWaiting = true) ∧
      (verdict.conclusive = true → start.Yields (setting.bounded wider) final verdict) := by
  obtain ⟨preparation, prepared, isGraph, _⟩ := exists_preparation valid built traced
  have prior := launch_of_prepare valid prepared
  have launch : Launch config name program { preparation.setting with traced } {}
      preparation.search := ⟨prior.valid, prior.built, prior.composed, prior.started⟩
  rcases launch.bounded_yields positive within with
    ⟨final, verdict, yields, same, conclusive, few⟩ | ⟨head, yields, counted, reached, waits, later⟩
  · refine ⟨_, _, final, verdict, launch.prepare_bounded bound, launch.prepare_bounded wider,
      isGraph, yields, ?_, ?_, fun _ => same⟩
    · intro other answer others _ _
      obtain ⟨rfl, rfl⟩ := same.unique others
      exact ⟨rfl, rfl⟩
    · intro late
      have impossible := late final verdict same conclusive
      omega
  · refine ⟨_, _, head, _, launch.prepare_bounded bound, launch.prepare_bounded wider, isGraph,
      yields, ?_, ?_, ?_⟩
    · intro other answer others conclusive few
      have more := later other answer others conclusive
      omega
    · exact fun _ => ⟨rfl, counted, reached, waits⟩
    · intro conclusive
      cases conclusive

/-- The loop is explored to the end without a bound, and with a bound of three it is cut off. -/
theorem bound_truncates_countsUp :
    ∃ (setting : Setting (List ComponentState)) (start final other : Search (List ComponentState)),
      (Verification.prepare (({} : Config).bounded 3).analysis false "countsUp" countsUp).1 =
        .ok { name := "countsUp", setting := setting.bounded 3, search := start } ∧
      start.Yields (setting.bounded 0) other .exhausted ∧ other.stats.iterations = 6 ∧
      start.Yields (setting.bounded 3) final (.inconclusive (.iterationBound 3)) ∧
      final.stats.iterations = 3 ∧ final.reached.hasWaiting = true := by
  obtain ⟨_, _, _, launch, _⟩ := exists_launch_countsUp
  obtain ⟨setting, start, final, verdict, prepared, unbounded, _, yields, _, stops, _⟩ :=
    bound_truncates {} false rfl launch.built (show 0 < 3 by decide) (.inr (Int.le_refl 0))
  have counts : (endWithin 20 (({} : Config).bounded 0) "countsUp" countsUp).map
      (fun ended => (ended.2.1.stats.iterations, ended.2.2.status)) =
        some (6, "exhausted") := by cbv
  have answered : ∃ other, start.Yields (setting.bounded 0) other .exhausted ∧
      other.stats.iterations = 6 := by
    simp only [endWithin, unbounded, Except.toOption, Option.bind_some] at counts
    cases explored : start.explore (setting.bounded 0) none 20 with
    | continued | failed =>
      rw [explored] at counts
      cases counts
    | finished other answer =>
      rw [explored] at counts
      simp only [Progress.verdict?, Progress.search, Option.map_some, Option.some.injEq,
        Prod.mk.injEq] at counts
      cases Verdict.status_eq_exhausted.mp counts.2
      exact ⟨other, ⟨20, explored⟩, counts.1⟩
  obtain ⟨other, exhausted, counted⟩ := answered
  have late : ∀ another answer, start.Yields (setting.bounded 0) another answer →
      answer.conclusive = true → 3 < another.stats.iterations := by
    intro another answer others _
    obtain ⟨rfl, rfl⟩ := exhausted.unique others
    rw [counted]
    decide
  obtain ⟨rfl, stopped, _, waits⟩ := stops late
  exact ⟨setting, start, final, other, prepared, exhausted, counted, yields, stopped, waits⟩

end Reachability
