import Mathlib
import Reachability.Proofs.Analysis.Rearrangement
import Reachability.Proofs.Exploration.Correspondence
import Reachability.Proofs.Verification.Paths
import Reachability.Proofs.Verification.Termination

/-!
# The order of the components

A configuration lists its components in some order.  Explorations whose
configurations differ in that order only stay in step, and their states differ
in the order of their parts only.
-/

namespace Reachability

open ComponentState

def Config.rearranged (config : Config) (names : List String) : Config :=
  { config with analysis := { config.analysis with components := names } }

/-- Tuples that hold the same state for each name. -/
def Reordered (names names' : List String) (tuple tuple' : List ComponentState) : Prop :=
  ∃ slot : String → ComponentState, tuple = names.map slot ∧ tuple' = names'.map slot

section Configuration

variable {config : Config} {names : List String}

theorem componentError?_of_nodup {seen : List String}
    (known : ∀ name ∈ names, name ∈ knownComponents ∧ name ∉ seen) (distinct : names.Nodup) :
    AnalysisSpec.componentError? seen names = none := by
  induction names generalizing seen with
  | nil => rfl
  | cons name names induction =>
    rw [List.forall_mem_cons] at known
    rw [List.nodup_cons] at distinct
    have later : ∀ other ∈ names, other ∈ knownComponents ∧ other ∉ name :: seen := by
      intro other member
      refine ⟨(known.2 other member).1, ?_⟩
      rw [List.mem_cons, not_or]
      refine ⟨?_, (known.2 other member).2⟩
      intro same
      exact distinct.1 (same ▸ member)
    have rest := induction later distinct.2
    simp [AnalysisSpec.componentError?, known.1.1, known.1.2, rest]

theorem validate_rearranged (valid : config.validate = .ok ())
    (perm : names.Perm config.analysis.components) :
    (config.rearranged names).validate = .ok () := by
  have usable := usable_of_validate valid
  rw [validate_eq_ok] at valid ⊢
  unfold AnalysisSpec.error? at valid ⊢
  split at valid
  · cases valid
  · have nonempty : ¬names.isEmpty = true := by
      have located := perm.mem_iff.mpr usable.located
      simp [List.ne_nil_of_mem located]
    refine (if_neg nonempty).trans ?_
    simp only [Option.or_eq_none_iff, Option.map_eq_none_iff, List.find?_eq_none,
      AnalysisSpec.requirements, List.forall_mem_cons] at valid ⊢
    obtain ⟨_, location, property, rest⟩ := valid
    refine ⟨?_, ?_, ?_, rest⟩
    · apply componentError?_of_nodup
      · intro name member
        exact ⟨usable.known name (perm.mem_iff.mp member), List.not_mem_nil⟩
      · exact perm.nodup_iff.mpr usable.distinct
    · rw [← perm.contains_eq] at location
      exact location
    · rw [← perm.any_eq] at property
      exact property

end Configuration

namespace Component

def ofName (policy : MergePolicy) (name : String) : Component :=
  if name = "location" then .location else if name = "value" then .value policy else .calls

theorem ofName_name {policy : MergePolicy} {component : Component}
    (agrees : ∀ other, component = .value other → other = policy) :
    ofName policy component.name = component := by
  cases component with
  | location => rfl
  | value other => rw [agrees other rfl]; rfl
  | calls => rfl

theorem eq_location_of_ofName {policy : MergePolicy} {name : String}
    (isLocation : ofName policy name = .location) : name = "location" := by
  unfold ofName at isLocation
  split at isLocation
  · assumption
  · split at isLocation
    · cases isLocation
    · cases isLocation

theorem independent (graph : FlowGraph) (target : String) (policy : MergePolicy) :
    Analysis.Independent (fun name => (ofName policy name).analysis graph target)
      (fun name => Belongs (ofName policy name)) := by
  constructor
  · exact fun name node => initial_eq node ▸ belongs_state node .unknown
  · exact fun edge belongs => exists_successor graph target edge belongs
  · exact fun belongs reachedBelongs => belongs_merged graph target belongs reachedBelongs
  · intro name other state otherState belongs otherBelongs located otherLocated
    rw [eq_location_of_ofName (eq_location belongs located),
      eq_location_of_ofName (eq_location otherBelongs otherLocated)]

end Component

theorem Composition.analysis_eq {config : Config} {setting : Setting (List ComponentState)}
    {components : List Component} (composition : Composition config setting components)
    {policy : MergePolicy} (found : MergePolicy.ofName config.analysis.valueMerge = .ok policy) :
    setting.analysis = .composite (config.analysis.components.map fun name =>
      (Component.ofName policy name).analysis setting.graph config.analysis.targetFunction) := by
  rw [composition.composed, ← composition.named, List.map_map]
  refine congrArg Analysis.composite (List.map_congr_left ?_)
  intro component member
  rw [Function.comp_apply, Component.ofName_name]
  intro other isValue
  have named := composition.policies other (isValue ▸ member)
  exact Except.ok.inj (named.symm.trans found)

namespace Launch

variable {config : Config} {names : List String} {name : String} {program : Stmt}
  {setting setting' : Setting (List ComponentState)} {start start' : Search (List ComponentState)}

theorem rearranged_explore (launch : Launch config name program setting {} start)
    (launch' : Launch (config.rearranged names) name program setting' {} start')
    (perm : names.Perm config.analysis.components)
    (bounds : setting.maxIterations = setting'.maxIterations)
    (interruption : Option Interruption) (fuel : Nat) :
    (start.explore setting interruption fuel).Corresponds
      (Reordered config.analysis.components names)
      (start'.explore setting' interruption fuel) := by
  have graphs : setting.graph = setting'.graph :=
    Except.ok.inj (launch.built.symm.trans launch'.built)
  obtain ⟨policy, found⟩ := (usable_of_validate launch.valid).exists_policy
  obtain ⟨components, composition⟩ := launch.exists_composition
  obtain ⟨components', composition'⟩ := launch'.exists_composition
  have independent := Component.independent setting'.graph config.analysis.targetFunction policy
  have settings : setting.Corresponds
      (Rearranged (fun name => Belongs (Component.ofName policy name))
        config.analysis.components names) setting' := by
    refine ⟨graphs, ?_, bounds⟩
    rw [composition.analysis_eq found, composition'.analysis_eq found, graphs]
    exact independent.corresponds perm.symm
  obtain ⟨order, ordered, started⟩ := launch.started
  obtain ⟨order', ordered', started'⟩ := launch'.started
  cases Except.ok.inj (ordered.symm.trans ordered')
  have starts := Search.Corresponds.start settings ⟨rfl, rfl, rfl, fun _ => .none⟩ started started'
  apply (starts.explore settings interruption fuel).mono
  intro tuple tuple' rearranged
  obtain ⟨slot, _, here, there⟩ := rearranged
  exact ⟨slot, here, there⟩

end Launch

theorem Progress.Corresponds.exists_finished {σ : Type u} {τ : Type v} {Related : σ → τ → Prop}
    {progress : Progress σ} {other : Progress τ} (alike : progress.Corresponds Related other)
    {verdict : Verdict} (ended : progress.verdict? = some verdict) :
    ∃ final final', progress = .finished final verdict ∧ other = .finished final' verdict ∧
      final.Corresponds Related final' := by
  cases alike with
  | continued | failed => cases ended
  | finished alike =>
    cases ended
    exact ⟨_, _, rfl, rfl, alike⟩

/-- The order of the components makes no difference.  If they are rearranged in a configuration that
passes its checks, it still does, and after any number of iterations without interruption both
explorations of a program have ended or neither has.  They have the same verdict, with the same
witness, the same counts and the same reached states, of which the same ones wait; and the states of
their graphs hold the same component states, each in the order of its own configuration. -/
theorem components_commute (config : Config) (traced : Bool) {names : List String} {name : String}
    {program : Stmt} {graph : FlowGraph} (valid : config.validate = .ok ())
    (perm : names.Perm config.analysis.components)
    (built : (FlowGraph.build name program).1 = .ok graph) :
    (config.rearranged names).validate = .ok () ∧ ∃ first second,
      (Verification.prepare config.analysis traced name program).1 = .ok first ∧
      (Verification.prepare (config.rearranged names).analysis traced name program).1 =
        .ok second ∧
      ∀ fuel, (first.search.explore first.setting none fuel).Corresponds
        (Reordered config.analysis.components names)
        (second.search.explore second.setting none fuel) := by
  have valid' := validate_rearranged valid perm
  obtain ⟨first, prepared, _, bound⟩ := exists_preparation valid built traced
  obtain ⟨second, prepared', _, bound'⟩ := exists_preparation valid' built traced
  have launch := launch_of_prepare valid prepared
  have launch' := launch_of_prepare valid' prepared'
  exact ⟨valid', first, second, prepared, prepared',
    launch.rearranged_explore launch' perm (bound.trans bound'.symm) none⟩

/-- The target behind the loop is found along the same path if calls are listed first and locations
last. -/
theorem components_commute_countsThrough :
    ["unreach-call", "value", "location"].Perm ({} : Config).analysis.components ∧
    ∃ first second final final' key path witness,
      (Verification.prepare ({} : Config).analysis false "countsThrough"
        Launch.countsThrough).1 = .ok first ∧
      (Verification.prepare
        (({} : Config).rearranged ["unreach-call", "value", "location"]).analysis false
        "countsThrough" Launch.countsThrough).1 = .ok second ∧
      first.search.explore first.setting none 40 =
        .finished final (.targetFound key path witness) ∧
      second.search.explore second.setting none 40 =
        .finished final' (.targetFound key path witness) ∧
      final.Corresponds (Reordered ["location", "value", "unreach-call"]
        ["unreach-call", "value", "location"]) final' := by
  have perm : ["unreach-call", "value", "location"].Perm ({} : Config).analysis.components := by
    decide
  have limit : (FlowGraph.build "countsThrough" Launch.countsThrough).1.toOption.map
      (fun graph => iterationLimit graph Launch.countsThrough) = some 36 := by cbv
  have computed : statusWithin 40 {} "countsThrough" Launch.countsThrough =
      some "target found" := by cbv
  obtain ⟨graph, built, _⟩ := exists_graph_of_limit limit
  obtain ⟨_, first, second, prepared, prepared', runs⟩ := components_commute {} false rfl perm built
  rw [statusWithin, prepared] at computed
  obtain ⟨verdict, ended, status⟩ := Option.map_eq_some_iff.mp computed
  obtain ⟨key, path, witness, rfl⟩ := Verdict.status_eq_targetFound.mp status
  obtain ⟨final, final', explored, explored', alike⟩ := (runs 40).exists_finished ended
  exact ⟨perm, first, second, final, final', key, path, witness, prepared, prepared', explored,
    explored', alike⟩

end Reachability
