import Mathlib
import Reachability.Proofs.Verification.Bound
import Reachability.Proofs.Verification.Confirmation
import Reachability.Verification.Functions

/-!
# Valid configurations can be run

A configuration that passes its checks has no name that is unknown later: the
analyses are composed, the exploration starts at the entry, each component is
given states of its own kind only, and once the exploration has ended, for any
reason and after any number of iterations, there is a report.  Any other
configuration is refused before anything is done.
-/

namespace Reachability

open ComponentState

namespace Verification

variable {setting : Setting (List ComponentState)} {arg : Arg (List ComponentState)}
  {walks : List (List Nat)}

theorem exists_firstReached (target : String) (traced : ∀ path ∈ walks, ∃ edges,
      arg.pathEdges setting.analysis setting.graph path = .ok edges) (index : Nat) :
    ∃ found, firstReached target setting arg index walks = .ok found := by
  induction walks generalizing index with
  | nil => exact ⟨none, rfl⟩
  | cons path walks induction =>
    rw [List.forall_mem_cons] at traced
    obtain ⟨⟨edges, found⟩, rest⟩ := traced
    simp only [firstReached, found, bind, Except.bind, pure, Except.pure]
    cases (attempt target setting arg path edges).reached with
    | true => exact ⟨_, rfl⟩
    | false => exact induction rest (index + 1)

/-- A confirmation succeeds if the walks to the target can be listed and have edges. -/
theorem exists_confirm (target : String) (report : Report) {state : Nat}
    (listed : report.search.arg.witnessWalks state maxReplayedWitnesses = .ok walks)
    (traced : ∀ path ∈ walks, ∃ edges,
      report.search.arg.pathEdges report.setting.analysis report.setting.graph path = .ok edges)
    (path : List Nat) (witness : List Edge) :
    ∃ result, confirm target report state path witness = .ok result := by
  obtain ⟨found, reached⟩ := exists_firstReached target traced 0
  simp only [confirm, listed, reached, bind, Except.bind, pure, Except.pure]
  cases found with
  | none | some attempt => exact ⟨_, rfl⟩

end Verification

section

variable {config : Config} {name : String} {program : Stmt} {preparation : Preparation}
  (launch : Launch config name program preparation.setting {} preparation.search)

include launch

/-- However an exploration ends, there is a report.  A target that has been found may be confirmed
or not. -/
theorem exists_report {progress : Progress (List ComponentState)}
    (ends : preparation.search.Ends preparation.setting progress) :
    ∃ report, (Verification.conclude config.analysis.targetFunction preparation progress).1 =
      .ok report := by
  have ⟨head, interruption, heads, step, ended⟩ := ends
  cases progress with
  | continued next => exact absurd rfl (ended next)
  | failed final error => exact absurd step (launch.step_ne_failed heads interruption final error)
  | finished final verdict =>
    cases verdict with
    | exhausted | inconclusive reason => exact ⟨_, rfl⟩
    | targetFound key path witness =>
      obtain ⟨walks, listed, traced⟩ := launch.exists_walks ends
      obtain ⟨⟨report, messages⟩, confirmed⟩ := Verification.exists_confirm
        config.analysis.targetFunction (preparation.report final (.targetFound key path witness))
        listed (fun walk member => (traced walk member).imp fun _ found => found.1) path witness
      refine ⟨report, ?_⟩
      simp only [Verification.conclude]
      unfold Preparation.report at confirmed
      rw [confirmed]

/-- Nothing has been recorded before the exploration, so all recorded states are tracked. -/
theorem fits_of_occurs {components : List Component}
    (composition : Composition config preparation.setting components)
    {search : Search (List ComponentState)}
    (occurs : preparation.search.Occurs preparation.setting search) {key : Nat}
    {tuple : List ComponentState} (recorded : search.arg.wrapped? key = some tuple) :
    List.Forall₂ Belongs components tuple ∧
      ∃ node, preparation.setting.analysis.place tuple = some node := by
  have laws := composition.linkLaws launch.simple
  obtain ⟨order, _, started⟩ := launch.started
  have tracked := occurs.tracked laws started
  have first : search.arg.first ≤ 0 := Arg.first_le tracked.coherent.rootLive
  have belongs := tracked.coherent.proper key tuple (first.trans (Nat.zero_le key)) recorded
  exact ⟨belongs, laws.located belongs⟩

end

/-- With a configuration that passes its checks, every program with a control-flow graph is
prepared, and there is a report whenever the exploration ends, also if a timeout ends it after some
iterations.  With any other configuration nothing is verified, and the error says that the
configuration is invalid. -/
theorem validated_runs (config : Config) :
    (config.validate = .ok () → ∀ name program graph traced,
      (FlowGraph.build name program).1 = .ok graph →
      ∃ components preparation,
        (Verification.prepare config.analysis traced name program).1 = .ok preparation ∧
        Launch config name program preparation.setting {} preparation.search ∧
        Composition config preparation.setting components ∧
        preparation.setting.analysis.place (preparation.setting.analysis.initial
          (preparation.setting.graph.node preparation.setting.graph.entry)) =
            some preparation.setting.graph.entry ∧
        (∀ search, preparation.search.Occurs preparation.setting search →
          ∀ key tuple, search.arg.wrapped? key = some tuple →
            List.Forall₂ Belongs components tuple ∧
              ∃ node, preparation.setting.analysis.place tuple = some node) ∧
        (∀ progress, preparation.search.Ends preparation.setting progress →
          ∃ report, (Verification.conclude config.analysis.targetFunction preparation progress).1 =
            .ok report) ∧
        ∀ interruption fuel,
          (∃ search, preparation.search.explore preparation.setting interruption fuel =
            .continued search) ∨
          ∃ report, (verify config traced interruption fuel name program).1 = .ok report) ∧
    ∀ error, config.validate = .error error →
      error.message = "invalid configuration: " ++ error.reason ∧
      (∀ traced interruption fuel name program,
        verify config traced interruption fuel name program = (.error (.config error), [])) ∧
      ∀ traced interruption fuel workers functions,
        verifyFunctions config traced interruption fuel workers functions = .error error := by
  constructor
  · intro valid name program graph traced built
    obtain ⟨preparation, prepared, _, _⟩ := exists_preparation valid built traced
    have launch := launch_of_prepare valid prepared
    obtain ⟨components, composition⟩ := launch.exists_composition
    obtain ⟨_, _, started⟩ := launch.started
    refine ⟨components, preparation, prepared, launch, composition, (Search.start_ok started).1,
      fun search occurs key tuple => fits_of_occurs launch composition occurs,
      fun progress ends => exists_report launch ends, ?_⟩
    intro interruption fuel
    have verified : (verify config traced interruption fuel name program).1 =
        (Verification.conclude config.analysis.targetFunction preparation
          (preparation.search.explore preparation.setting interruption fuel)).1 := by
      cases found : Verification.prepare config.analysis traced name program with
      | mk result messages =>
        rw [found] at prepared
        cases prepared
        simp only [verify, valid, Verification.run, found]
    rw [verified]
    cases explored : preparation.search.explore preparation.setting interruption fuel with
    | continued search => exact .inl ⟨search, rfl⟩
    | finished | failed =>
      exact .inr (exists_report launch (Search.ends_of_explore explored (by simp)))
  · intro error invalid
    refine ⟨rfl, ?_, ?_⟩
    · intro traced interruption fuel name program
      simp only [verify, invalid]
    · intro traced interruption fuel workers functions
      simp only [verifyFunctions, invalid, bind, Except.bind]

/-- The components in another order, and states explored first come, first served. -/
def reordered : Config :=
  { analysis := { components := ["unreach-call", "value", "location"], waitlist := "bfs" } }

/-- No component follows locations. -/
def unlocated : Config := { analysis := { components := ["value", "unreach-call"] } }

theorem validated_runs_reordered :
    (∃ report, (verify reordered false none 20 "countsUp" countsUp).1 = .ok report) ∧
      (∃ preparation head report,
        (Verification.prepare reordered.analysis false "countsUp" countsUp).1 = .ok preparation ∧
        preparation.search.step preparation.setting none = .continued head ∧
        (Verification.conclude "reach_error" preparation
          (head.step preparation.setting (some .deadlineExceeded))).1 = .ok report) ∧
      (verify unlocated false none 20 "countsUp" countsUp).1.toOption.isNone = true ∧
      unlocated.validate = .error .missingLocation := by
  have valid : reordered.validate = .ok () := by rfl
  have invalid : unlocated.validate = .error .missingLocation := by rfl
  have ends : statusWithin 20 reordered "countsUp" countsUp = some "exhausted" := by cbv
  have goesOn : statusWithin 1 reordered "countsUp" countsUp = none := by cbv
  obtain ⟨graph, built⟩ : ∃ graph, (FlowGraph.build "countsUp" countsUp).1 = .ok graph := by
    obtain ⟨setting, _, _, launch, _⟩ := exists_launch_countsUp
    exact ⟨_, launch.built⟩
  obtain ⟨_, preparation, prepared, launch, _, _, _, concludes, runs⟩ :=
    (validated_runs reordered).1 valid "countsUp" countsUp graph false built
  refine ⟨?_, ?_, ?_, invalid⟩
  · rcases runs none 20 with ⟨search, continued⟩ | reported
    · rw [statusWithin, prepared] at ends
      simp only [Except.toOption, Option.bind_some, continued] at ends
      cases ends
    · exact reported
  · cases stepped : preparation.search.step preparation.setting none with
    | continued head =>
      have late : ∀ next, head.step preparation.setting (some .deadlineExceeded) ≠
          .continued next := by
        intro next
        unfold Search.step
        split
        · simp
        · split <;> simp
      obtain ⟨report, reported⟩ := concludes _ ⟨head, _, .single ⟨none, stepped⟩, rfl, late⟩
      exact ⟨preparation, head, report, prepared, stepped, reported⟩
    | failed final error => exact absurd stepped (launch.step_ne_failed .refl none final error)
    | finished final verdict =>
      rw [statusWithin, prepared] at goesOn
      simp only [Except.toOption, Option.bind_some, Search.explore, stepped] at goesOn
      cases goesOn
  · rw [((validated_runs unlocated).2 _ invalid).2.1]
    rfl

end Reachability
