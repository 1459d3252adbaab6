import Mathlib
import Reachability.Proofs.Analysis.Links
import Reachability.Proofs.Bounds.Inclusion
import Reachability.Proofs.Exploration.Coverage

/-!
# Paths through an analysis

Apart from merging and coverage, an analysis computes the states along a path
edge by edge.  A path along which there always is a successor is feasible.
Transfer is monotone, so a tuple that covers another one has all its successors,
and an exploration simulates the plain computation along paths.
-/

namespace Reachability

open ComponentState

namespace Analysis

variable {σ : Type u}

/-- The states that are computed along a path. -/
def along (analysis : Analysis σ) (state : σ) : List Edge → List σ
  | [] => [state]
  | edge :: path => (analysis.transfer state edge).flatMap fun next => analysis.along next path

/-- A path of a control-flow graph from its entry, along which there always is a successor. -/
structure Feasible (analysis : Analysis σ) (graph : FlowGraph) (path : List Edge) : Prop where
  edges : ∀ edge ∈ path, edge ∈ graph.edges
  starts : ∀ first, path.head? = some first → first.source = graph.entry
  connected : path.IsChain fun edge next => edge.target = next.source
  passes : analysis.along (analysis.initial (graph.node graph.entry)) path ≠ []

/-- One state is computed from another one along some edge. -/
def Successor (analysis : Analysis σ) (graph : FlowGraph) (state next : σ) : Prop :=
  ∃ edge ∈ graph.edges, next ∈ analysis.transfer state edge

theorem successors_of_along {analysis : Analysis σ} {graph : FlowGraph} {path : List Edge}
    (edges : ∀ edge ∈ path, edge ∈ graph.edges) {state last : σ}
    (member : last ∈ analysis.along state path) :
    Relation.ReflTransGen (analysis.Successor graph) state last := by
  induction path generalizing state with
  | nil =>
    rw [List.mem_singleton.mp member]
  | cons edge path induction =>
    rw [List.forall_mem_cons] at edges
    obtain ⟨next, computed, rest⟩ := List.mem_flatMap.mp member
    exact .head ⟨edge, edges.1, computed⟩ (induction edges.2 rest)

end Analysis

section Calls

variable {graph : FlowGraph} {target : String} {components : List Component}
  {tuple next last : List ComponentState} {edge : Edge}

theorem called_steps_of_called (steps : List.Forall₂ (Steps graph target edge) tuple next)
    (called : tuple.any isCalled = true) : next.any isCalled = true := by
  induction steps with
  | nil => exact called
  | cons here rest induction =>
    rw [List.any_cons, Bool.or_eq_true] at called ⊢
    rcases called with first | others
    · cases here with
      | called => exact .inl rfl
      | location | bounds | safe => cases first
    · exact .inr (induction others)

theorem called_along (watched : .calls ∈ components)
    (belongs : List.Forall₂ Belongs components tuple) {path : List Edge}
    (member : last ∈
      (Component.joint graph target components).along tuple path) :
    List.Forall₂ Belongs components last ∧
      (tuple.any isCalled = true ∨ (∃ edge ∈ path, edge.action.calls target = true) →
        last.any isCalled = true) := by
  induction path generalizing tuple with
  | nil =>
    cases List.mem_singleton.mp member
    refine ⟨belongs, ?_⟩
    rintro (called | ⟨edge, impossible, _⟩)
    · exact called
    · cases impossible
  | cons edge path induction =>
    obtain ⟨next, computed, rest⟩ := List.mem_flatMap.mp member
    have steps := (mem_successorTuples belongs).mp computed
    obtain ⟨lastBelongs, called⟩ := induction (belongs_steps belongs steps) rest
    refine ⟨lastBelongs, ?_⟩
    intro either
    apply called
    cases before : tuple.any isCalled with
    | true => exact .inl (called_steps_of_called steps before)
    | false =>
      rw [before] at either
      obtain ⟨other, otherMember, calls⟩ := either.resolve_left Bool.false_ne_true
      rcases List.mem_cons.mp otherMember with rfl | later
      · obtain ⟨state, stateMember, stateBelongs⟩ := exists_belongs belongs watched
        cases stateBelongs with
        | call callee =>
          exact .inl ((called_steps steps before ⟨callee, stateMember⟩).trans calls)
      · exact .inr ⟨other, later, calls⟩

end Calls

/-- A state lies inside another one, and none of its intervals is empty. -/
inductive ComponentState.Inside : (state wider : ComponentState) → Prop where
  | location {state wider : Node} (same : state.id = wider.id) :
      Inside (.location state) (.location wider)
  | bounds {state wider : Bounds} (inside : state.Inside wider) :
      Inside (.bounds state) (.bounds wider)
  | call {callee : Option String} : Inside (.call callee) (.call callee)

section Inclusion

variable {graph : FlowGraph} {target : String} {components : List Component}
  {tuple wider next reached new merged : List ComponentState} {edge : Edge}

theorem exists_inside_step {state wide after : ComponentState} (inside : Inside state wide)
    (steps : Steps graph target edge state after) :
    ∃ wideAfter, Steps graph target edge wide wideAfter ∧ Inside after wideAfter := by
  cases inside with
  | location same =>
    cases steps with
    | location leaves => exact ⟨_, .location (same.symm.trans leaves), .location rfl⟩
  | bounds inside =>
    cases steps with
    | bounds passes =>
      obtain ⟨wideAfter, widePasses, afterInside⟩ := inside.after passes
      exact ⟨_, .bounds widePasses, .bounds afterInside⟩
  | call =>
    cases steps with
    | safe => exact ⟨_, .safe, .call⟩
    | called => exact ⟨_, .called, .call⟩

/-- A wide tuple steps wherever a tuple inside it does. -/
theorem exists_inside_steps (inside : List.Forall₂ Inside tuple wider)
    (steps : List.Forall₂ (Steps graph target edge) tuple next) :
    ∃ widerNext, List.Forall₂ (Steps graph target edge) wider widerNext ∧
      List.Forall₂ Inside next widerNext := by
  induction inside generalizing next with
  | nil =>
    cases steps
    exact ⟨[], .nil, .nil⟩
  | cons here rest induction =>
    cases steps with
    | cons first others =>
      obtain ⟨wideFirst, firstSteps, firstInside⟩ := exists_inside_step here first
      obtain ⟨wideOthers, othersStep, othersInside⟩ := induction others
      exact ⟨wideFirst :: wideOthers, .cons firstSteps othersStep,
        .cons firstInside othersInside⟩

theorem inside_of_covers (inside : List.Forall₂ Inside tuple wider)
    (covers : List.Forall₂ Covers wider reached) : List.Forall₂ Inside tuple reached := by
  induction inside generalizing reached with
  | nil =>
    cases covers
    exact .nil
  | cons here rest induction =>
    cases covers with
    | cons first others =>
      refine .cons ?_ (induction others)
      cases here with
      | location same =>
        cases first with
        | location alike => exact .location (same.trans alike)
      | bounds inside =>
        cases first with
        | bounds includes => exact .bounds (inside.of_includes includes)
      | call =>
        cases first
        exact .call

theorem inside_of_merges (merges : MergesAll new reached merged)
    (inside : List.Forall₂ Inside tuple reached) : List.Forall₂ Inside tuple merged := by
  induction merges generalizing tuple with
  | nil => exact inside
  | cons here rest induction =>
    cases inside with
    | cons first others =>
      refine .cons ?_ (induction others)
      cases here with
      | location | call => exact first
      | bounds _ joined =>
        cases first with
        | bounds inside =>
          rcases joined with rfl | rfl
          · exact .bounds inside
          · exact .bounds inside.join

theorem belongs_of_inside (inside : List.Forall₂ Inside tuple wider)
    (belongs : List.Forall₂ Belongs components wider) : List.Forall₂ Belongs components tuple := by
  induction inside generalizing components with
  | nil => exact belongs
  | cons here rest induction =>
    cases belongs with
    | cons first others =>
      refine .cons ?_ (induction others)
      cases here <;> cases first <;> constructor

theorem called_of_inside (inside : List.Forall₂ Inside tuple wider) :
    wider.any isCalled = tuple.any isCalled := by
  induction inside with
  | nil => rfl
  | cons here rest induction =>
    rw [List.any_cons, List.any_cons, induction]
    cases here <;> rfl

theorem initial_inside (node : Node) :
    List.Forall₂ Inside ((Component.joint graph target components).initial node)
      ((Component.joint graph target components).initial node) := by
  rw [composite_initial, List.forall₂_map_left_iff, List.forall₂_map_right_iff, List.forall₂_same]
  intro component _
  cases component with
  | location => exact .location rfl
  | value policy => exact .bounds (.refl Bounds.nonempty_unknown)
  | calls => exact .call

/-- A composition that follows locations simulates its own transfer along the edges of the graph. -/
theorem composite_simulates_successors (graph : FlowGraph) (target : String)
    (located : .location ∈ components) :
    let analysis := Component.joint graph target components
    analysis.Simulates graph (List.Forall₂ Belongs components)
      (fun tuple => tuple = analysis.initial (graph.node graph.entry))
      (analysis.Successor graph) (List.Forall₂ Inside) := by
  intro analysis
  constructor
  · rintro tuple rfl
    exact initial_inside _
  · rintro tuple next wider node belongs _ placed inside ⟨edge, member, computed⟩
    have steps := (mem_successorTuples (belongs_of_inside inside belongs)).mp computed
    obtain ⟨widerNext, widerSteps, nextInside⟩ := exists_inside_steps inside steps
    refine ⟨edge, ?_, widerNext, (mem_successorTuples belongs).mpr widerSteps, nextInside⟩
    exact leaves_of_steps located belongs placed member widerSteps
  · intro tuple wider reached belongs reachedBelongs covers inside
    exact inside_of_covers inside ((coversTuple_iff belongs reachedBelongs).mp covers)
  · intro tuple new reached merged newBelongs reachedBelongs merges inside
    exact inside_of_merges (mergesAll_of_merge newBelongs reachedBelongs merges) inside

end Inclusion

end Reachability
