import Mathlib
import Reachability.Proofs.Analysis.Tuples
import Reachability.Proofs.Arg.Coherence
import Reachability.Proofs.FlowGraph.Passage

/-!
# Links between tuples

A tuple and its successor lie at the two ends of an edge, and the successor is
a target exactly if that edge calls the target function.  Merging tuples changes
neither where they lie nor whether they are targets, so all links of an
exploration are of this kind.
-/

namespace Reachability

open ComponentState

section Views

variable {graph : FlowGraph} {target : String} {components : List Component}
  {tuple new reached next merged : List ComponentState} {edge : Edge}

theorem exists_belongs (belongs : List.Forall₂ Belongs components tuple) {component : Component}
    (member : component ∈ components) : ∃ state ∈ tuple, Belongs component state := by
  induction belongs with
  | nil => cases member
  | cons here rest induction =>
    rcases List.mem_cons.mp member with rfl | later
    · exact ⟨_, List.mem_cons_self, here⟩
    · obtain ⟨state, stateMember, stateBelongs⟩ := induction later
      exact ⟨state, List.mem_cons_of_mem _ stateMember, stateBelongs⟩

theorem exists_node (belongs : List.Forall₂ Belongs components tuple)
    (located : .location ∈ components) : ∃ node, tuple.findSome? node? = some node := by
  obtain ⟨state, member, belongsState⟩ := exists_belongs belongs located
  cases belongsState with
  | location node =>
    rw [← Option.isSome_iff_exists, List.findSome?_isSome_iff]
    exact ⟨_, member, rfl⟩

theorem located_of_node (belongs : List.Forall₂ Belongs components tuple) {node : Node}
    (found : tuple.findSome? node? = some node) : .location ∈ components := by
  induction belongs with
  | nil => cases found
  | cons here rest induction =>
    cases here with
    | location => exact List.mem_cons_self
    | value | call => exact List.mem_cons_of_mem _ (induction found)

theorem node_steps (steps : List.Forall₂ (Steps graph target edge) tuple next) :
    next.findSome? node? = (tuple.findSome? node?).map (fun _ => graph.node edge.target) ∧
      ∀ node, tuple.findSome? node? = some node → node.id = edge.source := by
  induction steps with
  | nil => simp
  | cons here rest induction =>
    cases here with
    | location leaves =>
      simp only [List.findSome?_cons, node?, Option.map_some, true_and]
      rintro node ⟨⟩
      exact leaves
    | bounds | safe | called => simpa only [List.findSome?_cons, node?] using induction

/-- A tuple that watches for calls is a target after an edge if it was one or the edge is a call to
the target. -/
theorem called_steps (steps : List.Forall₂ (Steps graph target edge) tuple next)
    (plain : tuple.any isCalled = false) (watched : ∃ callee, .call callee ∈ tuple) :
    next.any isCalled = edge.action.calls target := by
  have quiet : ∀ {tuple next : List ComponentState},
      List.Forall₂ (Steps graph target edge) tuple next → tuple.any isCalled = false →
      edge.action.calls target = false → next.any isCalled = false := by
    intro tuple next steps plain noCall
    induction steps with
    | nil => rfl
    | cons here rest induction =>
      rw [List.any_cons, Bool.or_eq_false_iff] at plain ⊢
      refine ⟨?_, induction plain.2⟩
      cases here with
      | location => rfl
      | bounds => rfl
      | safe => simp [noCall, isCalled]
      | called => exact plain.1
  cases calls : edge.action.calls target with
  | false => exact quiet steps plain calls
  | true =>
    obtain ⟨callee, member⟩ := watched
    clear quiet
    induction steps with
    | nil => cases member
    | cons here rest induction =>
      rw [List.any_cons, Bool.or_eq_false_iff] at plain
      rw [List.any_cons, Bool.or_eq_true]
      rcases List.mem_cons.mp member with rfl | later
      · left
        cases here with
        | safe => simp [calls, isCalled]
        | called => simp [isCalled]
      · exact .inr (induction plain.2 later)

theorem belongs_steps (belongs : List.Forall₂ Belongs components tuple)
    (steps : List.Forall₂ (Steps graph target edge) tuple next) :
    List.Forall₂ Belongs components next := by
  induction belongs generalizing next with
  | nil =>
    cases steps
    exact .nil
  | cons here rest induction =>
    cases steps with
    | cons step steps =>
      refine .cons ?_ (induction steps)
      cases step with
      | location =>
        cases here
        exact .location _
      | bounds =>
        cases here
        exact .value _ _
      | safe | called =>
        cases here
        exact .call _

theorem MergesAll.belongs (merges : MergesAll new reached merged)
    (belongs : List.Forall₂ Belongs components reached) :
    List.Forall₂ Belongs components merged := by
  induction merges generalizing components with
  | nil => exact belongs
  | cons here rest induction =>
    cases belongs with
    | cons first others =>
      refine .cons ?_ (induction others)
      cases here with
      | location | call => exact first
      | bounds =>
        cases first
        exact .value _ _

/-- Tuples are merged only at one location, where the result stays. -/
theorem MergesAll.node (merges : MergesAll new reached merged) :
    merged.findSome? node? = reached.findSome? node? ∧
      (new.findSome? node?).map Node.id = (reached.findSome? node?).map Node.id := by
  induction merges with
  | nil => exact ⟨rfl, rfl⟩
  | cons here rest induction =>
    cases here with
    | location same =>
      simp only [List.findSome?_cons, node?, Option.map_some, same, true_and]
    | bounds | call => simpa only [List.findSome?_cons, node?] using induction

theorem MergesAll.called (merges : MergesAll new reached merged) :
    merged.any isCalled = reached.any isCalled ∧ new.any isCalled = reached.any isCalled := by
  induction merges with
  | nil => exact ⟨rfl, rfl⟩
  | cons here rest induction =>
    cases here <;> simp [isCalled, induction.1, induction.2]

end Views

/-- The two tuples lie at the ends of an edge.  The first one is no target, and the second one is a
target exactly if the edge calls the target function. -/
def Linked (analysis : Analysis (List ComponentState)) (graph : FlowGraph) (target : String)
    (tuple next : List ComponentState) : Prop :=
  analysis.isTarget tuple = false ∧ ∃ edge ∈ graph.edges, analysis.place tuple = some edge.source ∧
    analysis.place next = some edge.target ∧ analysis.isTarget next = edge.action.calls target

/-- The two states lie at the ends of an edge. -/
def Along {σ : Type u} (analysis : Analysis σ) (graph : FlowGraph) (state next : σ) : Prop :=
  ∃ edge ∈ graph.edges, analysis.place state = some edge.source ∧
    analysis.place next = some edge.target

section Laws

variable {graph : FlowGraph} {target : String} {components : List Component}
  {tuple new reached next merged : List ComponentState} {edge : Edge}

/-- Tuples have been merged only if some state has changed. -/
theorem Analysis.mergedTuple_of_merge {σ : Type u} {analyses : List (Analysis σ)}
    {new reached merged : List σ} (merges : (composite analyses).merge new reached = some merged) :
    mergedTuple analyses new reached = some (true, merged) := by
  simp only [composite] at merges
  split at merges
  · rename_i found
    cases merges
    exact found
  · cases merges

theorem mergesAll_of_merge (belongs : List.Forall₂ Belongs components new)
    (reachedBelongs : List.Forall₂ Belongs components reached)
    (merges : (Component.joint graph target components).merge new
      reached = some merged) : MergesAll new reached merged :=
  mergesAll_of_mergedTuple belongs reachedBelongs (Analysis.mergedTuple_of_merge merges)

theorem composite_place (belongs : List.Forall₂ Belongs components tuple) :
    (Component.joint graph target components).place tuple =
      (tuple.findSome? node?).map Node.id := by
  unfold Analysis.place
  rw [composite_location belongs]

theorem place_of_steps (located : .location ∈ components)
    (belongs : List.Forall₂ Belongs components tuple)
    (steps : List.Forall₂ (Steps graph target edge) tuple next) :
    (Component.joint graph target components).place tuple =
      some edge.source := by
  obtain ⟨here, found⟩ := exists_node belongs located
  rw [composite_place belongs, found, Option.map_some, (node_steps steps).2 here found]

theorem place_after_steps (located : .location ∈ components)
    (belongs : List.Forall₂ Belongs components tuple)
    (steps : List.Forall₂ (Steps graph target edge) tuple next) :
    (Component.joint graph target components).place next =
      some edge.target := by
  obtain ⟨here, found⟩ := exists_node belongs located
  rw [composite_place (belongs_steps belongs steps), (node_steps steps).1, found]
  exact congrArg some (graph.node_id edge.target)

theorem leaves_of_steps (located : .location ∈ components)
    (belongs : List.Forall₂ Belongs components tuple) {node : Nat}
    (placed : (Component.joint graph target components).place tuple =
      some node) (member : edge ∈ graph.edges)
    (steps : List.Forall₂ (Steps graph target edge) tuple next) : edge ∈ graph.outgoing node := by
  rw [place_of_steps located belongs steps, Option.some.injEq] at placed
  exact FlowGraph.mem_outgoing.mpr ⟨member, placed⟩

theorem belongs_state (node : Node) (bounds : Bounds) :
    List.Forall₂ Belongs components (components.map (Component.state node bounds)) := by
  rw [List.forall₂_map_right_iff, List.forall₂_same]
  exact fun component _ => Component.belongs_state node bounds

theorem place_state (located : .location ∈ components) (node : Nat) (bounds : Bounds) :
    (Component.joint graph target components).place
      (components.map (Component.state (graph.node node) bounds)) = some node := by
  obtain ⟨found, isFound⟩ := exists_node (belongs_state (graph.node node) bounds) located
  obtain ⟨state, member, isNode⟩ := List.exists_of_findSome?_eq_some isFound
  rw [composite_place (belongs_state _ _), isFound, Option.map_some]
  obtain ⟨component, _, rfl⟩ := List.mem_map.mp member
  cases component with
  | location =>
    cases isNode
    exact congrArg some (graph.node_id node)
  | value policy | calls => cases isNode

theorem isTarget_state (node : Node) (bounds : Bounds) :
    (Component.joint graph target components).isTarget
      (components.map (Component.state node bounds)) = false := by
  rw [composite_isTarget (belongs_state _ _), List.any_map, List.any_eq_false]
  intro component _
  cases component <;> simp [Component.state, isCalled]

theorem composite_initial (node : Node) :
    (Component.joint graph target components).initial node =
      components.map (Component.state node .unknown) := by
  simp only [Analysis.composite, List.map_map]
  exact List.map_congr_left fun component _ => component.initial_eq node

theorem belongs_composite_initial (node : Node) :
    List.Forall₂ Belongs components ((Component.joint graph target components).initial node) := by
  rw [composite_initial]
  exact belongs_state node .unknown

/-- Merging changes neither where a tuple lies nor whether it is a target. -/
theorem composite_merge (newBelongs : List.Forall₂ Belongs components new)
    (reachedBelongs : List.Forall₂ Belongs components reached)
    (merges : (Component.joint graph target components).merge new
      reached = some merged) :
    let analysis := Component.joint graph target components
    List.Forall₂ Belongs components merged ∧
      (analysis.place new = analysis.place reached ∧
        analysis.place merged = analysis.place reached) ∧
      analysis.isTarget new = analysis.isTarget reached ∧
        analysis.isTarget merged = analysis.isTarget reached := by
  have slots := mergesAll_of_merge newBelongs reachedBelongs merges
  have belongs := slots.belongs reachedBelongs
  simp only [composite_place newBelongs, composite_place reachedBelongs, composite_place belongs,
    composite_isTarget newBelongs, composite_isTarget reachedBelongs, composite_isTarget belongs]
  exact ⟨belongs, ⟨slots.node.2, by rw [slots.node.1]⟩, slots.called.2, slots.called.1⟩

/-- Links that run along edges and depend only on where the tuples lie and whether they are
targets. -/
theorem composite_laws_of {analysis : Analysis (List ComponentState)}
    {Link : List ComponentState → List ComponentState → Prop}
    (composed : analysis = Component.joint graph target components)
    (simple : graph.Simple) (located : .location ∈ components)
    (successor : ∀ {tuple edge next}, List.Forall₂ Belongs components tuple →
      analysis.isTarget tuple = false → edge ∈ graph.edges →
      List.Forall₂ (Steps graph target edge) tuple next → Link tuple next)
    (along : ∀ {tuple next}, Link tuple next → Along analysis graph tuple next)
    (respects : ∀ {tuple other next later}, analysis.place tuple = analysis.place other →
      analysis.isTarget tuple = analysis.isTarget other →
      analysis.place next = analysis.place later →
      analysis.isTarget next = analysis.isTarget later → Link tuple next → Link other later) :
    analysis.LinkLaws graph (List.Forall₂ Belongs components) Link := by
  subst composed
  constructor
  · exact belongs_composite_initial _
  · intro tuple belongs
    obtain ⟨node, found⟩ := exists_node belongs located
    exact ⟨node.id, by rw [composite_place belongs, found]; rfl⟩
  · intro tuple edge next belongs _ computed
    exact belongs_steps belongs ((mem_successorTuples belongs).mp computed)
  · intro new reached merged newBelongs reachedBelongs merges
    exact (composite_merge newBelongs reachedBelongs merges).1
  · intro new reached merged newBelongs reachedBelongs merges
    exact (composite_merge newBelongs reachedBelongs merges).2.1
  · intro tuple node edge next belongs plain _ leaving computed
    exact successor belongs plain (FlowGraph.mem_outgoing.mp leaving).1
      ((mem_successorTuples belongs).mp computed)
  · intro new reached merged parent newBelongs reachedBelongs _ merges linked
    obtain ⟨_, ⟨newPlace, mergedPlace⟩, newTarget, mergedTarget⟩ :=
      composite_merge newBelongs reachedBelongs merges
    rcases linked with ofNew | ofReached
    · exact respects rfl rfl (newPlace.trans mergedPlace.symm)
        (newTarget.trans mergedTarget.symm) ofNew
    · exact respects rfl rfl mergedPlace.symm mergedTarget.symm ofReached
  · intro new reached merged child newBelongs reachedBelongs _ merges linked
    obtain ⟨_, ⟨_, mergedPlace⟩, _, mergedTarget⟩ :=
      composite_merge newBelongs reachedBelongs merges
    exact respects mergedPlace.symm mergedTarget.symm rfl rfl linked
  · intro tuple next linked same
    obtain ⟨edge, member, source, targetPlace⟩ := along linked
    rw [source, targetPlace, Option.some.injEq] at same
    exact simple.loopless edge member same
  · intro tuple next linked atEntry
    obtain ⟨edge, member, _, targetPlace⟩ := along linked
    rw [targetPlace, Option.some.injEq] at atEntry
    exact simple.entry edge member atEntry

theorem composite_linkLaws (target : String) (simple : graph.Simple)
    (located : .location ∈ components) (watched : .calls ∈ components) :
    let analysis := Component.joint graph target components
    analysis.LinkLaws graph (List.Forall₂ Belongs components) (Linked analysis graph target) := by
  intro analysis
  apply composite_laws_of rfl simple located
  · intro tuple edge next belongs plain member steps
    refine ⟨plain, edge, member, place_of_steps located belongs steps,
      place_after_steps located belongs steps, ?_⟩
    rw [composite_isTarget (belongs_steps belongs steps)]
    rw [composite_isTarget belongs] at plain
    apply called_steps steps plain
    obtain ⟨state, stateMember, stateBelongs⟩ := exists_belongs belongs watched
    cases stateBelongs with
    | call callee => exact ⟨callee, stateMember⟩
  · rintro tuple next ⟨_, edge, member, source, targetPlace, _⟩
    exact ⟨edge, member, source, targetPlace⟩
  · intro tuple other next later place isTarget nextPlace nextTarget linked
    unfold Linked at linked ⊢
    rw [← place, ← isTarget, ← nextPlace, ← nextTarget]
    exact linked

theorem composite_alongLaws (target : String) (simple : graph.Simple)
    (located : .location ∈ components) :
    let analysis := Component.joint graph target components
    analysis.LinkLaws graph (List.Forall₂ Belongs components) (Along analysis graph) := by
  intro analysis
  apply composite_laws_of rfl simple located
  · intro tuple edge next belongs _ member steps
    exact ⟨edge, member, place_of_steps located belongs steps,
      place_after_steps located belongs steps⟩
  · exact id
  · intro tuple other next later place _ nextPlace _ linked
    unfold Along at linked ⊢
    rw [← place, ← nextPlace]
    exact linked

theorem steps_keep {Extra : ComponentState → Prop}
    (kept : ∀ {state next}, Extra state → Steps graph target edge state next → Extra next)
    (steps : List.Forall₂ (Steps graph target edge) tuple next)
    (extra : ∀ state ∈ tuple, Extra state) : ∀ state ∈ next, Extra state := by
  induction steps with
  | nil => exact extra
  | cons here rest induction =>
    rw [List.forall_mem_cons] at extra ⊢
    exact ⟨kept extra.1 here, induction extra.2⟩

theorem MergesAll.keep {Extra : ComponentState → Prop}
    (kept : ∀ {new reached merged}, Extra reached → Merges new reached merged → Extra merged)
    (merges : MergesAll new reached merged) (extra : ∀ state ∈ reached, Extra state) :
    ∀ state ∈ merged, Extra state := by
  induction merges with
  | nil => exact extra
  | cons here rest induction =>
    rw [List.forall_mem_cons] at extra ⊢
    exact ⟨kept extra.1 here, induction extra.2⟩

/-- What every state of a tuple satisfies at first and keeps is satisfied throughout. -/
theorem statewise_linkLaws (target : String) (simple : graph.Simple)
    (located : .location ∈ components)
    (watched : .calls ∈ components) {Extra : ComponentState → Prop}
    (initial : ∀ component : Component,
      Extra ((component.analysis graph target).initial (graph.node graph.entry)))
    (steps : ∀ {edge state next}, edge ∈ graph.edges → Extra state →
      Steps graph target edge state next → Extra next)
    (merges : ∀ {new reached merged}, Extra reached → Merges new reached merged → Extra merged) :
    let analysis := Component.joint graph target components
    analysis.LinkLaws graph
      (fun tuple => List.Forall₂ Belongs components tuple ∧ ∀ state ∈ tuple, Extra state)
      (Linked analysis graph target) := by
  intro analysis
  apply (composite_linkLaws target simple located watched).and
  · intro state member
    simp only [Analysis.composite, List.map_map] at member
    obtain ⟨component, _, rfl⟩ := List.mem_map.mp member
    exact initial component
  · intro tuple edge next belongs extra member computed
    exact steps_keep (steps member) ((mem_successorTuples belongs).mp computed) extra
  · intro new reached merged newBelongs reachedBelongs _ extra merging
    exact (mergesAll_of_merge newBelongs reachedBelongs merging).keep merges extra

end Laws

end Reachability
