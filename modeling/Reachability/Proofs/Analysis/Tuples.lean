import Mathlib
import Reachability.Proofs.Analysis.Products
import Reachability.Verification.Composition

/-!
# Tuples of component states

Each component analysis works on states of one form.  What it does to them is
described by three relations, one for each operator, and the composition does
to tuples what its components do to their states.
-/

namespace Reachability

/-- The component analyses that can be composed. -/
inductive Component where
  | location
  | value (policy : MergePolicy)
  | calls

def Component.name : Component → String
  | location => "location"
  | value _ => "value"
  | calls => "unreach-call"

def Component.analysis (graph : FlowGraph) (target : String) :
    Component → Analysis ComponentState
  | location => .locations graph
  | value policy => .values policy
  | calls => .targetCalls target

/-- The state of a component at a node, with the given bounds and without a call to the target. -/
def Component.state (node : Node) (bounds : Bounds) : Component → ComponentState
  | location => .location node
  | value _ => .bounds bounds
  | calls => .call none

/-- The composition of the analyses of some components. -/
abbrev Component.joint (graph : FlowGraph) (target : String) (components : List Component) :
    Analysis (List ComponentState) :=
  .composite (components.map (Component.analysis graph target))

namespace ComponentState

/-- The form of the states that a component works on. -/
inductive Belongs : Component → ComponentState → Prop where
  | location (node : Node) : Belongs .location (.location node)
  | value (policy : MergePolicy) (bounds : Bounds) : Belongs (.value policy) (.bounds bounds)
  | call (callee : Option String) : Belongs .calls (.call callee)

/-- The successors of a state along an edge. -/
inductive Steps (graph : FlowGraph) (target : String) (edge : Edge) :
    ComponentState → ComponentState → Prop where
  | location {node : Node} (leaves : node.id = edge.source) :
      Steps graph target edge (.location node) (.location (graph.node edge.target))
  | bounds {before after : Bounds} (passes : before.after edge.action = some after) :
      Steps graph target edge (.bounds before) (.bounds after)
  | safe : Steps graph target edge (.call none)
      (.call (if edge.action.calls target then some target else none))
  | called {callee : String} :
      Steps graph target edge (.call (some callee)) (.call (some callee))

/-- The state that a merge leaves in the place of a reached one. -/
inductive Merges : (new reached merged : ComponentState) → Prop where
  | location {new reached : Node} (same : new.id = reached.id) :
      Merges (.location new) (.location reached) (.location reached)
  | bounds {new reached merged : Bounds} (covers : merged.includes new = true)
      (joined : merged = reached ∨ merged = new.join reached) :
      Merges (.bounds new) (.bounds reached) (.bounds merged)
  | call {callee : Option String} : Merges (.call callee) (.call callee) (.call callee)

/-- One state covers another. -/
inductive Covers : (state reached : ComponentState) → Prop where
  | location {state reached : Node} (same : state.id = reached.id) :
      Covers (.location state) (.location reached)
  | bounds {state reached : Bounds} (includes : reached.includes state = true) :
      Covers (.bounds state) (.bounds reached)
  | call {callee : Option String} : Covers (.call callee) (.call callee)

def isCalled : ComponentState → Bool
  | call callee => callee.isSome
  | _ => false

end ComponentState

open ComponentState

namespace Component

variable {graph : FlowGraph} {target : String} {component : Component}
  {state reached next : ComponentState} {edge : Edge}

theorem location_eq : (component.analysis graph target).location = node? := by
  cases component <;> rfl

theorem isTarget_eq (belongs : Belongs component state) :
    (component.analysis graph target).isTarget state = state.isCalled := by
  cases belongs <;> rfl

theorem initial_eq (node : Node) :
    (component.analysis graph target).initial node = component.state node .unknown := by
  cases component <;> rfl

theorem belongs_state (node : Node) (bounds : Bounds) :
    Belongs component (component.state node bounds) := by
  cases component with
  | location => exact .location node
  | value policy => exact .value policy bounds
  | calls => exact .call none

theorem mem_transfer (belongs : Belongs component state) :
    next ∈ (component.analysis graph target).transfer state edge ↔
      Steps graph target edge state next := by
  cases belongs with
  | location node =>
    simp only [analysis, Analysis.locations]
    split
    · rename_i leaves
      rw [List.mem_singleton]
      constructor
      · rintro rfl
        exact .location leaves
      · rintro ⟨⟩
        rfl
    · rename_i stays
      constructor
      · simp
      · rintro ⟨leaves⟩
        exact absurd leaves stays
  | value policy bounds =>
    simp only [analysis, Analysis.values, Option.mem_toList, Option.map_eq_some_iff]
    constructor
    · rintro ⟨after, passes, rfl⟩
      exact .bounds passes
    · rintro ⟨⟩
      exact ⟨_, by assumption, rfl⟩
  | call callee =>
    cases callee with
    | none =>
      simp only [analysis, Analysis.targetCalls, List.mem_singleton]
      constructor
      · rintro rfl
        exact .safe
      · rintro ⟨⟩
        rfl
    | some callee =>
      simp only [analysis, Analysis.targetCalls, List.mem_singleton]
      constructor
      · rintro rfl
        exact .called
      · rintro ⟨⟩
        rfl

theorem covers_iff (belongs : Belongs component state)
    (reachedBelongs : Belongs component reached) :
    (component.analysis graph target).covers state reached = true ↔ Covers state reached := by
  cases belongs with
  | location node =>
    cases reachedBelongs
    simp only [analysis, Analysis.locations, beq_iff_eq]
    constructor
    · exact .location
    · intro covered
      cases covered with
      | location same => exact same
  | value policy bounds =>
    cases reachedBelongs
    simp only [analysis, Analysis.values]
    constructor
    · exact .bounds
    · intro covered
      cases covered with
      | bounds includes => exact includes
  | call callee =>
    cases reachedBelongs
    simp only [analysis, Analysis.targetCalls, beq_iff_eq]
    constructor
    · rintro rfl
      exact .call
    · rintro ⟨⟩
      rfl

theorem merged_bounds (policy : MergePolicy) (new old : Bounds) :
    (Analysis.values policy).merged (.bounds new) (.bounds old) =
      .bounds ((new.mergeInto policy old).getD old) := by
  simp only [Analysis.merged, Analysis.values]
  cases new.mergeInto policy old <;> rfl

/-- Locations and calls are never merged, so those of merged states agree; bounds are joined. -/
theorem merges_merged (belongs : Belongs component state)
    (reachedBelongs : Belongs component reached)
    (covers : (component.analysis graph target).covers state
      ((component.analysis graph target).merged state reached) = true) :
    Merges state reached ((component.analysis graph target).merged state reached) := by
  cases belongs with
  | location node =>
    cases reachedBelongs
    exact .location (beq_iff_eq.mp covers)
  | value policy new =>
    cases reachedBelongs with
    | value _ old =>
      simp only [analysis, merged_bounds] at covers ⊢
      refine .bounds covers ?_
      unfold Bounds.mergeInto
      split
      · exact .inl rfl
      · dsimp only
        split
        · exact .inl rfl
        · exact .inr rfl
  | call callee =>
    cases reachedBelongs
    have same := beq_iff_eq.mp covers
    subst same
    exact .call

end Component

/-- Tuples merge state by state. -/
inductive MergesAll : (new reached merged : List ComponentState) → Prop where
  | nil : MergesAll [] [] []
  | cons {new reached merged : ComponentState} {news reacheds mergeds : List ComponentState}
      (here : Merges new reached merged) (rest : MergesAll news reacheds mergeds) :
      MergesAll (new :: news) (reached :: reacheds) (merged :: mergeds)

section Tuples

variable {graph : FlowGraph} {target : String} {components : List Component}
  {tuple reached next merged : List ComponentState} {edge : Edge}

section

variable (belongs : List.Forall₂ Belongs components tuple)

include belongs

theorem mem_successorTuples :
    next ∈ Analysis.successorTuples (components.map (Component.analysis graph target)) tuple edge ↔
      List.Forall₂ (Steps graph target edge) tuple next := by
  induction belongs generalizing next with
  | nil => simp
  | cons here rest induction =>
    simp only [List.map_cons, Analysis.successorTuples_cons, List.mem_flatMap, List.mem_map]
    constructor
    · rintro ⟨first, firstMember, others, othersMember, rfl⟩
      exact .cons ((Component.mem_transfer here).mp firstMember) (induction.mp othersMember)
    · intro steps
      cases steps with
      | cons first others =>
        exact ⟨_, (Component.mem_transfer here).mpr first, _, induction.mpr others, rfl⟩

theorem coversTuple_iff (reachedBelongs : List.Forall₂ Belongs components reached) :
    Analysis.coversTuple (components.map (Component.analysis graph target)) tuple reached = true ↔
      List.Forall₂ Covers tuple reached := by
  induction belongs generalizing reached with
  | nil =>
    cases reachedBelongs
    simp [Analysis.coversTuple]
  | cons here rest induction =>
    cases reachedBelongs with
    | cons reachedHere reachedRest =>
      simp only [List.map_cons, Analysis.coversTuple, Bool.and_eq_true, List.forall₂_cons,
        Component.covers_iff here reachedHere, induction reachedRest]

theorem mergesAll_of_mergedTuple (reachedBelongs : List.Forall₂ Belongs components reached)
    {changed : Bool}
    (merges : Analysis.mergedTuple (components.map (Component.analysis graph target)) tuple reached
      = some (changed, merged)) :
    MergesAll tuple reached merged := by
  induction belongs generalizing reached changed merged with
  | nil =>
    cases reachedBelongs
    cases merges
    exact .nil
  | cons here rest induction =>
    cases reachedBelongs with
    | cons reachedHere reachedRest =>
      simp only [List.map_cons, Analysis.mergedTuple] at merges
      split at merges
      · rename_i covers
        obtain ⟨⟨othersChanged, others⟩, othersMerged, result⟩ :=
          Option.map_eq_some_iff.mp merges
        cases result
        exact .cons (Component.merges_merged here reachedHere covers)
          (induction reachedRest othersMerged)
      · cases merges

theorem composite_isTarget :
    (Component.joint graph target components).isTarget tuple =
      tuple.any isCalled := by
  simp only [Analysis.composite, Analysis.slots]
  induction belongs with
  | nil => rfl
  | cons here rest induction =>
    simp only [List.map_cons, List.zip_cons_cons, List.any_cons, induction,
      Component.isTarget_eq here]

theorem composite_location :
    (Component.joint graph target components).location tuple =
      tuple.findSome? node? := by
  simp only [Analysis.composite, Analysis.slots]
  induction belongs with
  | nil => rfl
  | cons here rest induction =>
    simp only [List.map_cons, List.zip_cons_cons, List.findSome?_cons, induction,
      Component.location_eq]

end

end Tuples

end Reachability
