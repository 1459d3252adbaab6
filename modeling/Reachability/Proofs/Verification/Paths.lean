import Mathlib
import Reachability.Proofs.Analysis.Paths
import Reachability.Proofs.Verification.Witness

/-!
# Verdicts and feasible paths

An exploration merges and drops states, but its verdict can be compared with the
feasible paths of its control-flow graph.  If nothing waits any more, none of
them calls the target.  If states are kept apart, every link of the graph is a
step of the analysis, so the witness of a target is feasible itself.  Merging
does not change what is feasible; verdicts of different explorations of one
program are therefore related.
-/

namespace Reachability

section Unmerged

variable {σ : Type u} {analysis : Analysis σ} {graph : FlowGraph} {Proper : σ → Prop}
  {Link : σ → σ → Prop}

/-- Where states are never merged, every link is a step of the analysis. -/
theorem Analysis.LinkLaws.unmerged (laws : analysis.LinkLaws graph Proper Link)
    (apart : ∀ new reached, analysis.merge new reached = none) :
    analysis.LinkLaws graph Proper fun state next =>
      Link state next ∧ analysis.Successor graph state next := by
  have never : ∀ {new reached merged : σ}, analysis.merge new reached ≠ some merged := by
    intro new reached merged merges
    rw [apart] at merges
    cases merges
  constructor
  · exact laws.initial
  · exact laws.located
  · exact laws.transfer
  · exact laws.merge
  · exact laws.mergePlace
  · intro state node edge next proper plain placed leaving computed
    exact ⟨laws.successor proper plain placed leaving computed, edge,
      (FlowGraph.mem_outgoing.mp leaving).1, computed⟩
  · intro _ _ _ _ _ _ _ merges
    exact absurd merges never
  · intro _ _ _ _ _ _ _ merges
    exact absurd merges never
  · intro state next linked
    exact laws.moves linked.1
  · intro state next linked
    exact laws.leavesEntry linked.1

end Unmerged

section Composition

variable {graph : FlowGraph} {target : String} {components others : List Component}

theorem Analysis.mergedTuple_unchanged {σ : Type u} {components : List (Analysis σ)}
    (apart : ∀ component ∈ components, ∀ new reached, component.merge new reached = none)
    {new reached merged : List σ} {changed : Bool}
    (merges : mergedTuple components new reached = some (changed, merged)) : changed = false := by
  fun_induction mergedTuple components new reached generalizing changed merged with
  | case1 component components new news reached reacheds _ covers induction =>
    rw [List.forall_mem_cons] at apart
    obtain ⟨⟨others, rest⟩, restMerges, result⟩ := Option.map_eq_some_iff.mp merges
    cases result
    rw [apart.1 new reached, induction apart.2 restMerges]
    rfl
  | case2 => cases merges
  | case3 =>
    cases merges
    rfl

theorem Component.merge_eq_none {component : Component}
    (separate : ∀ policy, component = .value policy → policy = .separate)
    (new reached : ComponentState) :
    (component.analysis graph target).merge new reached = none := by
  cases component with
  | location => rfl
  | calls => rfl
  | value policy =>
    rw [separate policy rfl]
    cases new <;> cases reached <;> rfl

theorem composite_merge_eq_none
    (separate : ∀ policy, .value policy ∈ components → policy = .separate)
    (new reached : List ComponentState) :
    (Component.joint graph target components).merge new reached =
      none := by
  have apart : ∀ component ∈ components.map (Component.analysis graph target),
      ∀ new reached, component.merge new reached = none := by
    intro analysis member
    obtain ⟨component, componentMember, rfl⟩ := List.mem_map.mp member
    apply Component.merge_eq_none
    rintro policy rfl
    exact separate policy componentMember
  simp only [Analysis.composite]
  split
  · rename_i found
    cases Analysis.mergedTuple_unchanged apart found
  · rfl

theorem Component.initial_transfer_eq {component other : Component}
    (same : component.name = other.name) :
    (component.analysis graph target).initial = (other.analysis graph target).initial ∧
      (component.analysis graph target).transfer = (other.analysis graph target).transfer := by
  cases component with
  | location =>
    cases other with
    | location => exact ⟨rfl, rfl⟩
    | value | calls => simp [Component.name] at same
  | value policy =>
    cases other with
    | value => exact ⟨rfl, rfl⟩
    | location | calls => simp [Component.name] at same
  | calls =>
    cases other with
    | calls => exact ⟨rfl, rfl⟩
    | location | value => simp [Component.name] at same

/-- Merge policies make no difference to what is computed along paths. -/
theorem composite_initial_transfer_eq
    (same : components.map Component.name = others.map Component.name) :
    let first := Component.joint graph target components
    let second := Component.joint graph target others
    first.initial = second.initial ∧ first.transfer = second.transfer := by
  intro first second
  have pairs : List.Forall₂ (fun component other => component.name = other.name) components
      others := by
    rw [← List.forall₂_map_right_iff, ← List.forall₂_map_left_iff, same]
    exact List.forall₂_refl _
  clear same
  constructor
  · funext node
    simp only [first, second, Analysis.composite, List.map_map]
    induction pairs with
    | nil => rfl
    | cons alike rest induction =>
      simp only [List.map_cons, Function.comp_apply, (Component.initial_transfer_eq alike).1,
        induction]
  · funext tuple edge
    simp only [first, second, Analysis.composite]
    induction pairs generalizing tuple with
    | nil => rfl
    | cons alike rest induction =>
      cases tuple with
      | nil => rfl
      | cons state tuple =>
        simp only [List.map_cons, Analysis.successorTuples_cons,
          (Component.initial_transfer_eq alike).2, induction]

theorem Analysis.along_eq {σ : Type u} {first second : Analysis σ}
    (same : first.transfer = second.transfer) (state : σ) (path : List Edge) :
    first.along state path = second.along state path := by
  induction path generalizing state with
  | nil => rfl
  | cons edge path induction => simp only [Analysis.along, same, induction]

end Composition

section Links

variable {analysis : Analysis (List ComponentState)} {graph : FlowGraph} {target : String}
  {Proper : List ComponentState → Prop} {root : Nat} {arg : Arg (List ComponentState)}

/-- The edges along a path of links are those of the steps that have led from state to state. -/
theorem Arg.Traces.along_ne_nil (simple : graph.Simple)
    (ends : ∀ {state next edge}, Proper state → next ∈ analysis.transfer state edge →
      analysis.place state = some edge.source ∧ analysis.place next = some edge.target)
    (coherent : arg.Coherent analysis graph Proper
      (fun state next => Linked analysis graph target state next ∧
        analysis.Successor graph state next) root)
    {path : List Nat} {edges : List Edge} (traces : arg.Traces analysis graph target path edges)
    (chain : path.IsChain fun parent child => parent ∈ arg.live ∧ arg.Child parent child)
    {key : Nat} (starts : path.head? = some key) {state : List ComponentState}
    (found : arg.wrapped? key = some state) : analysis.along state edges ≠ [] := by
  induction traces generalizing key state with
  | last => simp [Analysis.along]
  | @step first next edge _ _ member source isNext _ _ _ induction =>
    have same : first = key := Option.some.inj starts
    subst same
    rw [List.isChain_cons_cons] at chain
    obtain ⟨⟨live, link⟩, chain⟩ := chain
    have nextLive := (coherent.childLinked first live next link).1
    obtain ⟨nextState, nextFound⟩ := Arg.exists_state nextLive
    obtain ⟨_, taken, takenMember, computed⟩ :=
      coherent.related first live next link state nextState found nextFound
    have proper := coherent.proper first state (Arg.first_le live) found
    obtain ⟨leaves, arrives⟩ := ends proper computed
    rw [Arg.location_eq, found, Option.bind_some, leaves, Option.some.injEq] at source
    rw [Arg.location_eq, nextFound, Option.bind_some, arrives, Option.some.injEq] at isNext
    have same := simple.unique taken takenMember edge member source isNext
    subst same
    obtain ⟨last, lastMember⟩ := List.exists_mem_of_ne_nil _ (induction chain rfl nextFound)
    exact List.ne_nil_of_mem (List.mem_flatMap.mpr ⟨nextState, computed, lastMember⟩)

end Links

namespace Launch

variable {config config' : Config} {name : String} {program : Stmt}
  {setting setting' : Setting (List ComponentState)} {prior prior' : Arg (List ComponentState)}
  {start start' final final' : Search (List ComponentState)}

theorem not_calls_of_exhausted (launch : Launch config name program setting prior start)
    (ends : start.Ends setting (.finished final .exhausted)) {path : List Edge}
    (feasible : setting.analysis.Feasible setting.graph path) :
    ∀ edge ∈ path, edge.action.calls config.analysis.targetFunction = false := by
  obtain ⟨components, composed, located, watched, laws⟩ := launch.exists_laws
  obtain ⟨order, _, started⟩ := launch.started
  have simulates := composite_simulates_successors setting.graph
    config.analysis.targetFunction located
  rw [← composed] at simulates
  obtain ⟨last, member⟩ := List.exists_mem_of_ne_nil _ feasible.passes
  obtain ⟨_, _, tuple, _, _, belongs, plain, inside⟩ :=
    Search.exists_reached_of_exhausted laws simulates started ends rfl
      (Analysis.successors_of_along feasible.edges member)
  intro edge edgeMember
  rw [Bool.eq_false_iff]
  intro calls
  rw [composed, composite_isTarget belongs, called_of_inside inside] at plain
  rw [composed] at member
  have called := (called_along watched (belongs_composite_initial _) member).2
    (.inr ⟨edge, edgeMember, calls⟩)
  rw [plain] at called
  cases called

theorem separate_policies {components : List Component}
    (composition : Composition config setting components)
    (separate : config.analysis.valueMerge = "sep") :
    ∀ policy, .value policy ∈ components → policy = .separate := by
  intro policy member
  have named := composition.policies policy member
  rw [separate] at named
  cases named
  rfl

section

variable (launch : Launch config name program setting prior start)

include launch

theorem feasible_of_targetFound (separate : config.analysis.valueMerge = "sep") {key : Nat}
    {path : List Nat} {witness : List Edge}
    (ends : start.Ends setting (.finished final (.targetFound key path witness))) :
    setting.analysis.Feasible setting.graph witness ∧
      ∃ edge ∈ witness, edge.action.calls config.analysis.targetFunction = true := by
  obtain ⟨head, state, heads, _, popped, rfl, _, edgesFound, isWitness⟩ := launch.exists_visit ends
  obtain ⟨components, composition⟩ := launch.exists_composition
  obtain ⟨order, _, started⟩ := launch.started
  have composed := composition.composed
  have laws := composition.linkLaws launch.simple
  have apart : ∀ new reached, setting.analysis.merge new reached = none := by
    rw [composed]
    exact composite_merge_eq_none (separate_policies composition separate)
  have coherent := (Search.head_tracked laws started heads).coherent
  have stepwise := (Search.head_tracked (laws.unmerged apart) started heads).coherent
  obtain ⟨root, isRoot, _, pathTo, _⟩ := isWitness.rooted
  rw [coherent.rooted, Option.some.injEq] at isRoot
  subst isRoot
  obtain ⟨rest, rfl⟩ := List.head?_eq_some_iff.mp pathTo.starts
  have live := (Search.head_tracked laws started heads).state_live popped.member
  obtain ⟨_, chain⟩ := coherent.isChain_children live pathTo.ends pathTo.links
  obtain ⟨edges, traces⟩ := coherent.exists_traces chain
  rw [traces.pathEdges launch.simple, Except.ok.injEq] at edgesFound
  subst edgesFound
  obtain ⟨first, isFirst, atEntry⟩ := isWitness.starts
  obtain ⟨last, isLast, calls⟩ := isWitness.calls
  refine ⟨⟨isWitness.edges, ?_, isWitness.connected, ?_⟩, last, List.mem_of_getLast? isLast, calls⟩
  · intro other isOther
    rw [isFirst, Option.some.injEq] at isOther
    rw [← isOther]
    exact atEntry
  · apply traces.along_ne_nil launch.simple ?_ stepwise chain rfl
      (Search.head_wrapped_root laws started heads)
    intro tuple next edge belongs computed
    rw [composed] at computed ⊢
    have steps := (mem_successorTuples belongs).mp computed
    exact ⟨place_of_steps composition.located belongs steps,
      place_after_steps composition.located belongs steps⟩

theorem feasible_of_named (launch' : Launch config' name program setting' prior' start')
    (sameComponents : config'.analysis.components = config.analysis.components)
    (sameTarget : config'.analysis.targetFunction = config.analysis.targetFunction)
    {path : List Edge} (feasible : setting'.analysis.Feasible setting'.graph path) :
    setting.analysis.Feasible setting.graph path := by
  have sameGraph : setting'.graph = setting.graph :=
    Except.ok.inj (launch'.built.symm.trans launch.built)
  obtain ⟨components, composition⟩ := launch.exists_composition
  obtain ⟨others, otherComposition⟩ := launch'.exists_composition
  have sameNames : others.map Component.name = components.map Component.name := by
    rw [composition.named, otherComposition.named, sameComponents]
  obtain ⟨edges, starts, connected, passes⟩ := feasible
  rw [otherComposition.composed, sameGraph, sameTarget] at passes
  rw [sameGraph] at edges starts
  obtain ⟨sameInitial, sameTransfer⟩ := composite_initial_transfer_eq sameNames
  rw [sameInitial, Analysis.along_eq sameTransfer, ← composition.composed] at passes
  exact ⟨edges, starts, connected, passes⟩

theorem not_targetFound_of_exhausted (launch' : Launch config' name program setting' prior' start')
    (sameComponents : config'.analysis.components = config.analysis.components)
    (sameTarget : config'.analysis.targetFunction = config.analysis.targetFunction)
    (separate : config'.analysis.valueMerge = "sep")
    (ends : start.Ends setting (.finished final .exhausted)) {key : Nat} {path : List Nat}
    {witness : List Edge} :
    ¬start'.Ends setting' (.finished final' (.targetFound key path witness)) := by
  intro ends'
  obtain ⟨feasible, edge, member, calls⟩ := launch'.feasible_of_targetFound separate ends'
  rw [sameTarget, launch.not_calls_of_exhausted ends
    (launch.feasible_of_named launch' sameComponents sameTarget feasible) edge member] at calls
  cases calls

end

/-- Verdicts agree with the feasible paths, whatever the order of exploration and the bounds on it
are. An exploration that is exhausted excludes that any of them calls the target, and if states are
kept apart the witness of a target is one of them.  Two explorations of the same components that
keep states apart come to the same verdict, unless one of them has none, and no such exploration
finds a target if another one, whatever it merges, is exhausted. -/
theorem verdicts_agree_with_paths (launch : Launch config name program setting prior start)
    (launch' : Launch config' name program setting' prior' start')
    (sameComponents : config'.analysis.components = config.analysis.components)
    (sameTarget : config'.analysis.targetFunction = config.analysis.targetFunction)
    {verdict verdict' : Verdict} (ends : start.Ends setting (.finished final verdict))
    (ends' : start'.Ends setting' (.finished final' verdict')) :
    (verdict = .exhausted → ∀ path, setting.analysis.Feasible setting.graph path →
        ∀ edge ∈ path, edge.action.calls config.analysis.targetFunction = false) ∧
      (config.analysis.valueMerge = "sep" → ∀ key path witness,
        verdict = .targetFound key path witness →
        setting.analysis.Feasible setting.graph witness ∧
          ∃ edge ∈ witness, edge.action.calls config.analysis.targetFunction = true) ∧
      (config.analysis.valueMerge = "sep" → config'.analysis.valueMerge = "sep" →
        (∀ reason, verdict ≠ .inconclusive reason) →
        (∀ reason, verdict' ≠ .inconclusive reason) → verdict'.status = verdict.status) ∧
      (config'.analysis.valueMerge = "sep" → verdict = .exhausted →
        ∀ key path witness, verdict' ≠ .targetFound key path witness) := by
  refine ⟨?_, ?_, ?_, ?_⟩
  · rintro rfl path feasible
    exact launch.not_calls_of_exhausted ends feasible
  · rintro separate key path witness rfl
    exact launch.feasible_of_targetFound separate ends
  · intro separate separate' conclusive conclusive'
    cases verdict with
    | inconclusive reason => exact absurd rfl (conclusive reason)
    | exhausted =>
      cases verdict' with
      | inconclusive reason => exact absurd rfl (conclusive' reason)
      | exhausted => rfl
      | targetFound =>
        exact absurd ends' (launch.not_targetFound_of_exhausted launch' sameComponents
          sameTarget separate' ends)
    | targetFound =>
      cases verdict' with
      | inconclusive reason => exact absurd rfl (conclusive' reason)
      | targetFound => rfl
      | exhausted =>
        exact absurd ends (launch'.not_targetFound_of_exhausted launch sameComponents.symm
          sameTarget.symm separate ends')
  · rintro separate rfl key path witness rfl
    exact launch.not_targetFound_of_exhausted launch' sameComponents sameTarget separate ends ends'

/-- States are kept apart and explored in a given order. -/
def keepsApart (order : String) : Config :=
  { analysis := { valueMerge := "sep", waitlist := order } }

theorem statusWithin_keepsApart :
    statusWithin 30 (keepsApart "dfs") "countsThrough" countsThrough = some "target found" := by
  cbv

/-- Both orders find the target after the loop, along a feasible path; and the loop without a target
after it is exhausted whether states are joined or not. -/
theorem verdicts_agree_with_paths_counting :
    (∃ setting start final verdict setting' start' final' verdict',
      Launch (keepsApart "dfs") "countsThrough" countsThrough setting {} start ∧
      Launch (keepsApart "bfs") "countsThrough" countsThrough setting' {} start' ∧
      start.Ends setting (.finished final verdict) ∧
      start'.Ends setting' (.finished final' verdict') ∧
      verdict'.status = verdict.status ∧
      ∃ witness, setting.analysis.Feasible setting.graph witness ∧
        ∃ edge ∈ witness, edge.action.calls "reach_error" = true) ∧
    ∃ setting start final setting' start' final',
      Launch {} "countsUp" countsUp setting {} start ∧
      Launch (keepsApart "bfs") "countsUp" countsUp setting' {} start' ∧
      start.Ends setting (.finished final .exhausted) ∧
      start'.Ends setting' (.finished final' .exhausted) ∧
      ∀ path, setting.analysis.Feasible setting.graph path →
        ∀ edge ∈ path, edge.action.calls "reach_error" = false := by
  constructor
  · obtain ⟨setting, start, final, verdict, launch, ends, found⟩ :=
      launch_of_status (keepsApart "dfs") "countsThrough" countsThrough 30 "target found"
        (by cbv) statusWithin_keepsApart
    obtain ⟨setting', start', final', verdict', launch', ends', found'⟩ :=
      launch_of_status (keepsApart "bfs") "countsThrough" countsThrough 30 "target found"
        (by cbv) (by cbv)
    have agrees := verdicts_agree_with_paths launch launch' rfl rfl ends ends'
    obtain ⟨key, path, witness, rfl⟩ := Verdict.status_eq_targetFound.mp found
    obtain ⟨_, _, _, rfl⟩ := Verdict.status_eq_targetFound.mp found'
    exact ⟨setting, start, final, _, setting', start', final', _, launch, launch', ends, ends',
      agrees.2.2.1 rfl rfl (by simp) (by simp), witness, agrees.2.1 rfl key path witness rfl⟩
  · obtain ⟨setting, start, final, launch, ends⟩ := exists_launch_countsUp
    obtain ⟨setting', start', final', verdict', launch', ends', found'⟩ :=
      launch_of_status (keepsApart "bfs") "countsUp" countsUp 30 "exhausted" (by cbv) (by cbv)
    cases Verdict.status_eq_exhausted.mp found'
    exact ⟨setting, start, final, setting', start', final', launch, launch', ends, ends',
      (verdicts_agree_with_paths launch launch' rfl rfl ends ends').1 rfl⟩

end Launch

end Reachability
