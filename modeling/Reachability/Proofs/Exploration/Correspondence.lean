import Mathlib
import Reachability.Proofs.Arg.Correspondence
import Reachability.Proofs.Exploration.Run

/-!
# Corresponding explorations

Explorations with corresponding analyses stay in step: both take the same states
from equal waitlists, merge and discard the same ones and stop together, with
the same verdict.  `Search.Corresponds` is kept by one iteration and therefore
by all.  Reports show the wrapped states and may differ.
-/

namespace Reachability

variable {σ : Type u} {τ : Type v} {Related : σ → τ → Prop}

namespace Arg.Corresponds

variable {arg : Arg σ} {other : Arg τ} {analysis : Analysis σ} {analysis' : Analysis τ}

theorem spawn (alike : arg.Corresponds Related other) (parent : Nat) {next : σ} {next' : τ}
    (related : Related next next') :
    (arg.spawn parent next).Corresponds Related (other.spawn parent next') := by
  unfold Arg.spawn
  rw [alike.size]
  exact (alike.create related).link parent other.states.size

theorem spawnAll (alike : arg.Corresponds Related other) (parent : Nat) {nexts : List σ}
    {nexts' : List τ} (related : List.Forall₂ Related nexts nexts') :
    (nexts.foldl (fun arg next => arg.spawn parent next) arg).Corresponds Related
      (nexts'.foldl (fun arg next => arg.spawn parent next) other) := by
  induction related generalizing arg other with
  | nil => exact alike
  | cons first _ induction => exact induction (alike.spawn parent first)

/-- The successors of corresponding states get the same positions. -/
theorem transfer (alike : arg.Corresponds Related other)
    (analyses : analysis.Corresponds Related analysis') (key : Nat) (edge : Edge) :
    (arg.transfer analysis key edge).1 = (other.transfer analysis' key edge).1 ∧
      (arg.transfer analysis key edge).2.Corresponds Related
        (other.transfer analysis' key edge).2 := by
  rcases alike.get?_cases key with ⟨missing, missing'⟩ | ⟨state, state', found, found', here⟩
  · simp only [Arg.transfer, missing, missing']
    exact ⟨rfl, alike⟩
  · have successors := analyses.transfer edge here.wrapped
    have wrapped : arg.wrapped? key = some state.wrapped := congrArg (Option.map _) found
    have wrapped' : other.wrapped? key = some state'.wrapped := congrArg (Option.map _) found'
    rw [transfer_eq analysis edge wrapped, transfer_eq analysis' edge wrapped']
    refine ⟨?_, alike.spawnAll key successors⟩
    rw [alike.size, successors.length_eq]

end Arg.Corresponds

/-- Settings for the same graph and bound, with corresponding analyses. -/
structure Setting.Corresponds (Related : σ → τ → Prop) (setting : Setting σ) (other : Setting τ) :
    Prop where
  graph : setting.graph = other.graph
  analysis : setting.analysis.Corresponds Related other.analysis
  maxIterations : setting.maxIterations = other.maxIterations

/-- Explorations with corresponding graphs of states that have reached the same positions, of which
the same ones wait, and have counted the same. -/
structure Search.Corresponds (Related : σ → τ → Prop) (search : Search σ) (other : Search τ) :
    Prop where
  arg : search.arg.Corresponds Related other.arg
  reached : search.reached = other.reached
  stats : search.stats = other.stats

/-- Outcomes of the same kind, with the same verdict or error. -/
inductive Progress.Corresponds (Related : σ → τ → Prop) : Progress σ → Progress τ → Prop where
  | continued {search other} (alike : Search.Corresponds Related search other) :
      Corresponds Related (.continued search) (.continued other)
  | finished {search other} (alike : Search.Corresponds Related search other) (verdict : Verdict) :
      Corresponds Related (.finished search verdict) (.finished other verdict)
  | failed {search other} (alike : Search.Corresponds Related search other)
      (error : WitnessError) : Corresponds Related (.failed search error) (.failed other error)

namespace Search.Corresponds

variable {setting : Setting σ} {setting' : Setting τ} {search : Search σ} {other : Search τ}

section

variable (alike : search.Corresponds Related other)

include alike

theorem entry_eq (settings : setting.Corresponds Related setting') (key : Nat) :
    search.entry setting key = other.entry setting' key := by
  unfold Search.entry
  rw [alike.arg.id_eq, alike.arg.location_eq settings.analysis]

theorem reported (traced traced' : Bool) (message message' : String) :
    (if traced then search.report message else search).Corresponds Related
      (if traced' then other.report message' else other) := by
  cases traced with
  | false => cases traced' with
    | false => exact alike
    | true => exact ⟨alike.arg, alike.reached, alike.stats⟩
  | true => cases traced' with
    | false | true => exact ⟨alike.arg, alike.reached, alike.stats⟩

section

variable (settings : setting.Corresponds Related setting')

include settings

theorem mergeInto (successor : Nat) (merged : List Nat) (old : ReachedState Nat) :
    (mergeInto setting successor (merged, search) old).1 =
        (mergeInto setting' successor (merged, other) old).1 ∧
      (mergeInto setting successor (merged, search) old).2.Corresponds Related
        (mergeInto setting' successor (merged, other) old).2 := by
  have merges := alike.arg.merge settings.analysis successor old.key
  unfold Search.mergeInto
  dsimp only
  generalize search.arg.merge setting.analysis successor old.key = result at merges ⊢
  generalize other.arg.merge setting'.analysis successor old.key = result' at merges ⊢
  obtain ⟨key, arg⟩ := result
  obtain ⟨key', arg'⟩ := result'
  obtain ⟨rfl, args⟩ := merges
  cases key with
  | none => exact ⟨rfl, args, alike.reached, alike.stats⟩
  | some key =>
    have counted : Corresponds Related
        { search with arg, stats.merges := search.stats.merges + 1 }
        { other with arg := arg', stats.merges := other.stats.merges + 1 } :=
      ⟨args, alike.reached, by rw [alike.stats]⟩
    have replaced := counted.entry_eq settings key
    refine ⟨rfl, ?_⟩
    dsimp only at replaced ⊢
    apply Corresponds.reported
    refine ⟨args, ?_, counted.stats⟩
    rw [replaced, alike.reached]

theorem mergeAll (successor : Nat) (merged : List Nat) (olds : List (ReachedState Nat)) :
    (olds.foldl (Search.mergeInto setting successor) (merged, search)).1 =
        (olds.foldl (Search.mergeInto setting' successor) (merged, other)).1 ∧
      (olds.foldl (Search.mergeInto setting successor) (merged, search)).2.Corresponds Related
        (olds.foldl (Search.mergeInto setting' successor) (merged, other)).2 := by
  induction olds generalizing merged search other with
  | nil => exact ⟨rfl, alike⟩
  | cons old olds induction =>
    obtain ⟨same, after⟩ := alike.mergeInto settings successor merged old
    rw [List.foldl_cons, List.foldl_cons, ← Prod.eta (Search.mergeInto setting _ _ _), same]
    exact induction after _

theorem insert (successor : Nat) :
    (search.insert setting successor).Corresponds Related (other.insert setting' successor) := by
  unfold Search.insert
  simp only [alike.entry_eq settings successor, alike.reached,
    alike.arg.stop_eq settings.analysis]
  split
  · exact ⟨alike.arg.discard successor, rfl, by rw [alike.stats]⟩
  · obtain ⟨same, after⟩ := alike.mergeAll settings successor []
      (other.reached.statesAt (other.entry setting' successor).location)
    rw [same, after.arg.stop_eq settings.analysis, after.reached]
    split
    · exact ⟨after.arg.discard successor, rfl, after.stats⟩
    · exact ⟨after.arg, rfl, after.stats⟩

theorem expandAlong (key : Nat) (edge : Edge) :
    (expandAlong setting key search edge).Corresponds Related
      (expandAlong setting' key other edge) := by
  obtain ⟨same, args⟩ := alike.arg.transfer settings.analysis key edge
  unfold Search.expandAlong
  dsimp only
  rw [same]
  have created : Corresponds Related
      { search with arg := (search.arg.transfer setting.analysis key edge).2 }
      { other with arg := (other.arg.transfer setting'.analysis key edge).2 } :=
    ⟨args, alike.reached, alike.stats⟩
  apply List.foldl_rel created
  intro successor _ search other alike
  have counted : Corresponds Related
      { search with stats.successors := search.stats.successors + 1 }
      { other with stats.successors := other.stats.successors + 1 } :=
    ⟨alike.arg, alike.reached, by rw [alike.stats]⟩
  exact counted.insert settings successor

theorem expandAll (key : Nat) (edges : List Edge) :
    (edges.foldl (Search.expandAlong setting key) search).Corresponds Related
      (edges.foldl (Search.expandAlong setting' key) other) :=
  List.foldl_rel alike fun edge _ _ _ alike => alike.expandAlong settings key edge

theorem expand (key : Nat) :
    (search.expand setting key).Corresponds Related (other.expand setting' key) := by
  unfold Search.expand
  rw [alike.arg.location_eq settings.analysis, settings.graph]
  have expanded := alike.expandAll settings key
    (((other.arg.location setting'.analysis key).map fun node =>
      setting'.graph.outgoing node.id).getD [])
  refine ⟨expanded.arg, expanded.reached, ?_⟩
  dsimp only
  rw [expanded.stats, expanded.reached]

/-- Both find a target, with the same path, or none. -/
theorem visit (key : Nat) :
    (search.visit setting key).Corresponds Related (other.visit setting' key) := by
  unfold Search.visit
  rw [alike.arg.isTarget_eq settings.analysis, alike.arg.witnessPath_eq]
  simp only [alike.arg.pathEdges_eq settings.analysis, settings.graph]
  split
  · cases other.arg.witnessPath key with
    | error error => exact .failed alike error
    | ok path =>
      dsimp only
      cases other.arg.pathEdges setting'.analysis setting'.graph path with
      | error error => exact .failed alike error
      | ok witness => exact .finished alike _
  · exact .continued (alike.expand settings key)

theorem step (interruption : Option Interruption) :
    (search.step setting interruption).Corresponds Related (other.step setting' interruption) := by
  unfold Search.step Search.atBound
  rw [alike.reached, alike.stats, settings.maxIterations]
  split
  · exact .finished alike .exhausted
  · split
    · exact .finished alike _
    · cases interruption with
      | some cause => exact .finished alike _
      | none =>
        dsimp only
        have popped : Corresponds Related
            { search with
              reached := other.reached.pop.2
              stats := { other.stats with iterations := other.stats.iterations + 1 } }
            { other with
              reached := other.reached.pop.2
              stats := { other.stats with iterations := other.stats.iterations + 1 } } :=
          ⟨alike.arg, rfl, rfl⟩
        cases other.reached.pop.1 with
        | none => exact .continued popped
        | some state => exact (popped.reported ..).visit settings state.key

/-- Explorations that start in step end together or not at all. -/
theorem explore (interruption : Option Interruption) (fuel : Nat) :
    (search.explore setting interruption fuel).Corresponds Related
      (other.explore setting' interruption fuel) := by
  induction fuel generalizing search other with
  | zero => exact .continued alike
  | succ fuel induction =>
    have next := alike.step settings interruption
    unfold Search.explore
    generalize search.step setting interruption = progress at next ⊢
    generalize other.step setting' interruption = progress' at next ⊢
    cases next with
    | continued alike => exact induction alike
    | finished alike verdict => exact .finished alike verdict
    | failed alike error => exact .failed alike error

end

end

theorem start (settings : setting.Corresponds Related setting') {order : WaitOrder} {prior : Arg σ}
    {prior' : Arg τ} (priors : prior.Corresponds Related prior')
    (started : (Search.start setting order prior).1 = .ok search)
    (started' : (Search.start setting' order prior').1 = .ok other) :
    search.Corresponds Related other := by
  obtain ⟨keys, args⟩ := priors.initial settings.analysis
    (setting'.graph.node setting'.graph.entry)
  unfold Search.start at started started'
  rw [settings.graph] at started
  dsimp only at started started'
  split at started
  · split at started'
    · cases started
      cases started'
      have bare : Corresponds Related
          { arg := (prior.initial setting.analysis (setting'.graph.node setting'.graph.entry)).2
            reached := .empty order }
          { arg := (prior'.initial setting'.analysis (setting'.graph.node setting'.graph.entry)).2
            reached := .empty order } := ⟨args, rfl, rfl⟩
      refine ⟨args, ?_, rfl⟩
      dsimp only
      rw [keys, bare.entry_eq settings]
    · cases started'
  · cases started

end Search.Corresponds

theorem Progress.Corresponds.mono {Weaker : σ → τ → Prop} {progress : Progress σ}
    {other : Progress τ} (alike : progress.Corresponds Related other)
    (weakens : ∀ state state', Related state state' → Weaker state state') :
    progress.Corresponds Weaker other := by
  cases alike with
  | continued alike => exact .continued { alike with arg := alike.arg.mono weakens }
  | finished alike verdict => exact .finished { alike with arg := alike.arg.mono weakens } verdict
  | failed alike error => exact .failed { alike with arg := alike.arg.mono weakens } error

end Reachability
