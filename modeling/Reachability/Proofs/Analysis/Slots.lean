import Mathlib
import Reachability.Proofs.Analysis.Links
import Reachability.Proofs.Bounds.Variables
import Reachability.Proofs.Exploration.Budget

/-!
# Slots of tuples

The slot of a tuple is its location together with whether it is a target.  If
values are joined, tuples of one slot are always merged, and each merge gives up
a variable: locations and calls agree, so only bounds can differ.
-/

namespace Reachability

namespace ComponentState

/-- What the states of an exploration satisfy: locations are nodes of the graph, bounds speak about
the given variables, and no function but the target has been called. -/
inductive Confined (graph : FlowGraph) (names : List String) (target : String) :
    ComponentState → Prop where
  | location {node : Node} (bound : node.id < graph.nodes.length) :
      Confined graph names target (.location node)
  | bounds {known : Bounds} (among : known.Among names) :
      Confined graph names target (.bounds known)
  | call {callee : Option String} (isTarget : ∀ name, callee = some name → name = target) :
      Confined graph names target (.call callee)

def size : ComponentState → Nat
  | bounds known => known.vars.length
  | _ => 0

/-- States that differ in their bounds at most. -/
inductive Alike (names : List String) : (new reached : ComponentState) → Prop where
  | location {new reached : Node} (same : new.id = reached.id) :
      Alike names (.location new) (.location reached)
  | bounds {new reached : Bounds} (among : reached.Among names) :
      Alike names (.bounds new) (.bounds reached)
  | call {callee : Option String} : Alike names (.call callee) (.call callee)

variable {graph : FlowGraph} {names : List String} {target : String} {edge : Edge}
  {state next new reached merged : ComponentState}

theorem Confined.steps (confined : state.Confined graph names target) (simple : graph.Simple)
    (member : edge ∈ graph.edges) (within : edge.action.Within names)
    (steps : Steps graph target edge state next) : next.Confined graph names target := by
  cases steps with
  | location _ =>
    apply Confined.location
    rw [graph.node_id]
    exact (simple.bounded edge member).2
  | bounds passes =>
    cases confined with
    | bounds among => exact .bounds (among.after within passes)
  | safe =>
    apply Confined.call
    intro name called
    split at called
    · exact (Option.some.inj called).symm
    · cases called
  | called => exact confined

theorem Confined.merges (confined : reached.Confined graph names target)
    (merges : Merges new reached merged) : merged.Confined graph names target := by
  cases merges with
  | location _ | call => exact confined
  | bounds _ joined =>
    cases confined with
    | bounds among =>
      rcases joined with rfl | rfl
      · exact .bounds among
      · exact .bounds among.join

theorem Confined.callee_eq {callee called : Option String}
    (confined : Confined graph names target (.call callee))
    (otherConfined : Confined graph names target (.call called))
    (same : isCalled (.call callee) = isCalled (.call called)) : callee = called := by
  cases confined with
  | call isTarget =>
    cases otherConfined with
    | call wasTarget =>
      cases callee with
      | none =>
        cases called with
        | none => rfl
        | some _ => cases same
      | some name =>
        cases called with
        | none => cases same
        | some other => rw [isTarget name rfl, wasTarget other rfl]

end ComponentState

open ComponentState

namespace Component

variable {graph : FlowGraph} {names : List String} {target : String} {component : Component}
  {new reached : ComponentState}

theorem confined_initial (simple : graph.Simple) :
    ((component.analysis graph target).initial (graph.node graph.entry)).Confined graph names
      target := by
  cases component with
  | location =>
    apply Confined.location
    rw [graph.node_id]
    exact simple.entryNode
  | value policy => exact .bounds Bounds.among_unknown
  | calls => exact .call (by simp)

theorem merge_bounds (policy : MergePolicy) (new known : Bounds) :
    (Analysis.values policy).merge (.bounds new) (.bounds known) =
      (new.mergeInto policy known).map .bounds := rfl

theorem covers_bounds (policy : MergePolicy) (bounds known : Bounds) :
    (Analysis.values policy).covers (.bounds bounds) (.bounds known) = known.includes bounds := rfl

/-- A merge that changes a state gives up one of its variables. -/
theorem size_merged (graph : FlowGraph) (target : String) (newBelongs : Belongs component new)
    (reachedBelongs : Belongs component reached) :
    let analysis := component.analysis graph target
    (analysis.merged new reached).size ≤ reached.size ∧
      ((analysis.merge new reached).isSome = true →
        (analysis.merged new reached).size < reached.size) := by
  cases newBelongs with
  | location node => exact ⟨Nat.le_refl _, by simp [analysis, Analysis.locations]⟩
  | call callee => exact ⟨Nat.le_refl _, by simp [analysis, Analysis.targetCalls]⟩
  | value policy bounds =>
    cases reachedBelongs with
    | value _ known =>
      simp only [analysis, merged_bounds, merge_bounds, Option.isSome_map]
      cases merges : bounds.mergeInto policy known with
      | none => exact ⟨Nat.le_refl _, by simp⟩
      | some joined =>
        have fewer := Bounds.length_vars_mergeInto merges
        exact ⟨Nat.le_of_lt fewer, fun _ => fewer⟩

/-- If values are joined, the merge of states that are alike covers the new one, and it changes the
reached one if that did not cover it. -/
theorem merged_alike (graph : FlowGraph) (target : String) (newBelongs : Belongs component new)
    (joins : ∀ policy, component = .value policy → policy = .join)
    (alike : Alike names new reached) :
    let analysis := component.analysis graph target
    analysis.covers new (analysis.merged new reached) = true ∧
      (analysis.covers new reached = false →
        ((analysis.merge new reached).isSome &&
          !analysis.covers (analysis.merged new reached) reached) = true) := by
  cases newBelongs with
  | location node =>
    cases alike with
    | location same => simp [analysis, Analysis.locations, Analysis.merged, same]
  | call callee =>
    cases alike with
    | call => simp [analysis, Analysis.targetCalls, Analysis.merged]
  | value policy bounds =>
    cases alike with
    | @bounds _ known among =>
      have isJoin := joins policy rfl
      subst isJoin
      simp only [analysis, merged_bounds, merge_bounds, covers_bounds, Option.isSome_map]
      have covers := Bounds.includes_join bounds known
      by_cases changed : bounds.join known = known
      · rw [changed] at covers
        simp [Bounds.mergeInto, changed, covers]
      · simp [Bounds.mergeInto, changed, covers, among.not_includes_join changed]

end Component

section Tuples

variable {graph : FlowGraph} {names : List String} {target : String} {components : List Component}
  {tuple new reached merged : List ComponentState}

theorem covers_of_mergedTuple {σ : Type u} {analyses : List (Analysis σ)}
    {new reached merged : List σ}
    {changed : Bool} (merges : Analysis.mergedTuple analyses new reached = some (changed, merged)) :
    Analysis.coversTuple analyses new merged = true := by
  induction analyses generalizing new reached merged changed with
  | nil => simp [Analysis.coversTuple]
  | cons analysis analyses induction =>
    cases new with
    | nil => simp [Analysis.coversTuple]
    | cons first news =>
      cases reached with
      | nil =>
        cases merges
        simp [Analysis.coversTuple]
      | cons known reacheds =>
        simp only [Analysis.mergedTuple] at merges
        split at merges
        · rename_i covers
          obtain ⟨⟨othersChanged, others⟩, othersMerged, result⟩ :=
            Option.map_eq_some_iff.mp merges
          cases result
          simp only [Analysis.coversTuple, Bool.and_eq_true]
          exact ⟨covers, induction othersMerged⟩
        · cases merges

theorem size_mergedTuple (newBelongs : List.Forall₂ Belongs components new)
    (reachedBelongs : List.Forall₂ Belongs components reached) {changed : Bool}
    (merges : Analysis.mergedTuple (components.map (Component.analysis graph target)) new reached =
      some (changed, merged)) :
    (merged.map size).sum ≤ (reached.map size).sum ∧
      (changed = true → (merged.map size).sum < (reached.map size).sum) := by
  induction newBelongs generalizing reached changed merged with
  | nil =>
    cases reachedBelongs
    cases merges
    exact ⟨Nat.le_refl _, by simp⟩
  | cons here rest induction =>
    cases reachedBelongs with
    | cons reachedHere reachedRest =>
      simp only [List.map_cons, Analysis.mergedTuple] at merges
      split at merges
      · obtain ⟨⟨othersChanged, others⟩, othersMerged, result⟩ :=
          Option.map_eq_some_iff.mp merges
        cases result
        obtain ⟨least, less⟩ := Component.size_merged graph target here reachedHere
        obtain ⟨leastRest, lessRest⟩ := induction reachedRest othersMerged
        simp only [List.map_cons, List.sum_cons]
        refine ⟨Nat.add_le_add least leastRest, ?_⟩
        intro changed
        rw [Bool.or_eq_true, Bool.and_eq_true] at changed
        rcases changed with ⟨isMerged, _⟩ | changed
        · exact Nat.add_lt_add_of_lt_of_le (less isMerged) leastRest
        · exact Nat.add_lt_add_of_le_of_lt least (lessRest changed)
      · cases merges

theorem exists_mergedTuple (newBelongs : List.Forall₂ Belongs components new)
    (reachedBelongs : List.Forall₂ Belongs components reached)
    (joins : ∀ policy, .value policy ∈ components → policy = .join)
    (alike : List.Forall₂ (Alike names) new reached) :
    let analyses := components.map (Component.analysis graph target)
    ∃ changed merged, Analysis.mergedTuple analyses new reached = some (changed, merged) ∧
      (Analysis.coversTuple analyses new reached = false → changed = true) := by
  induction newBelongs generalizing reached with
  | nil =>
    cases reachedBelongs
    exact ⟨false, [], rfl, by simp [Analysis.coversTuple]⟩
  | @cons component first components news here rest induction =>
    cases reachedBelongs with
    | @cons _ known _ reacheds reachedHere reachedRest =>
      cases alike with
      | cons alikeHere alikeRest =>
        obtain ⟨othersChanged, others, othersMerged, othersChange⟩ :=
          induction reachedRest (fun policy later => joins policy (List.mem_cons_of_mem _ later))
            alikeRest
        obtain ⟨covers, changes⟩ := Component.merged_alike graph target here
          (fun policy isValue => joins policy (isValue ▸ List.mem_cons_self)) alikeHere
        let analysis := component.analysis graph target
        refine ⟨(analysis.merge first known).isSome &&
          !analysis.covers (analysis.merged first known) known || othersChanged,
          analysis.merged first known :: others, ?_, ?_⟩
        · simp only [List.map_cons, Analysis.mergedTuple]
          rw [if_pos covers, othersMerged]
          rfl
        · intro uncovered
          simp only [List.map_cons, Analysis.coversTuple, Bool.and_eq_false_iff] at uncovered
          rw [Bool.or_eq_true]
          exact uncovered.imp changes othersChange

section

variable (belongs : List.Forall₂ Belongs components tuple)

include belongs

theorem exists_component_of_mem {state : ComponentState} (member : state ∈ tuple) :
    ∃ component ∈ components, Belongs component state := by
  induction belongs with
  | nil => cases member
  | cons here rest induction =>
    rcases List.mem_cons.mp member with rfl | later
    · exact ⟨_, List.mem_cons_self, here⟩
    · obtain ⟨component, componentMember, stateBelongs⟩ := induction later
      exact ⟨component, List.mem_cons_of_mem _ componentMember, stateBelongs⟩

theorem node_eq_none (absent : "location" ∉ components.map Component.name) :
    tuple.findSome? node? = none := by
  rw [List.findSome?_eq_none_iff]
  intro state member
  obtain ⟨component, listed, stateBelongs⟩ := exists_component_of_mem belongs member
  cases stateBelongs with
  | location node => exact absurd (List.mem_map_of_mem listed) absent
  | value => rfl
  | call => rfl

theorem isCalled_eq_false (absent : "unreach-call" ∉ components.map Component.name) :
    tuple.any isCalled = false := by
  rw [List.any_eq_false]
  intro state member
  obtain ⟨component, listed, stateBelongs⟩ := exists_component_of_mem belongs member
  cases stateBelongs with
  | location | value => simp [isCalled]
  | call callee => exact absurd (List.mem_map_of_mem listed) absent

theorem size_eq_zero (absent : "value" ∉ components.map Component.name) :
    (tuple.map size).sum = 0 := by
  rw [List.sum_eq_zero_iff, List.forall_mem_map]
  intro state member
  obtain ⟨component, listed, stateBelongs⟩ := exists_component_of_mem belongs member
  cases stateBelongs with
  | location => rfl
  | value => exact absurd (List.mem_map_of_mem listed) absent
  | call => rfl

end

/-- Tuples of one slot are alike, because each component occurs once. -/
theorem alike_of_slot (distinct : (components.map Component.name).Nodup)
    (newBelongs : List.Forall₂ Belongs components new)
    (reachedBelongs : List.Forall₂ Belongs components reached)
    (newConfined : ∀ state ∈ new, state.Confined graph names target)
    (reachedConfined : ∀ state ∈ reached, state.Confined graph names target)
    (samePlace : (new.findSome? node?).map Node.id = (reached.findSome? node?).map Node.id)
    (sameCall : new.any isCalled = reached.any isCalled) :
    List.Forall₂ (Alike names) new reached := by
  induction newBelongs generalizing reached with
  | nil =>
    cases reachedBelongs
    exact .nil
  | cons here rest induction =>
    cases reachedBelongs with
    | cons reachedHere reachedRest =>
      rw [List.map_cons, List.nodup_cons] at distinct
      rw [List.forall_mem_cons] at newConfined reachedConfined
      have later := fun samePlace sameCall => induction distinct.2 reachedRest newConfined.2
        reachedConfined.2 samePlace sameCall
      cases here with
      | location node =>
        cases reachedHere with
        | location known =>
          simp only [List.findSome?_cons, node?, Option.map_some, Option.some.injEq] at samePlace
          refine .cons (.location samePlace) (later ?_ sameCall)
          rw [node_eq_none rest distinct.1, node_eq_none reachedRest distinct.1]
      | value policy bounds =>
        cases reachedHere with
        | value _ known =>
          cases reachedConfined.1 with
          | bounds among => exact .cons (.bounds among) (later samePlace sameCall)
      | call callee =>
        cases reachedHere with
        | call called =>
          rw [List.any_cons, List.any_cons, isCalled_eq_false rest distinct.1,
            isCalled_eq_false reachedRest distinct.1, Bool.or_false, Bool.or_false] at sameCall
          have same := newConfined.1.callee_eq reachedConfined.1 sameCall
          subst same
          refine .cons .call (later samePlace ?_)
          rw [isCalled_eq_false rest distinct.1, isCalled_eq_false reachedRest distinct.1]

theorem size_le (distinct : (components.map Component.name).Nodup)
    (belongs : List.Forall₂ Belongs components tuple)
    (confined : ∀ state ∈ tuple, state.Confined graph names target) :
    (tuple.map size).sum ≤ names.length := by
  induction belongs with
  | nil => exact Nat.zero_le _
  | cons here rest induction =>
    rw [List.map_cons, List.nodup_cons] at distinct
    rw [List.forall_mem_cons] at confined
    rw [List.map_cons, List.sum_cons]
    cases here with
    | location | call =>
      simp only [size, Nat.zero_add]
      exact induction distinct.2 confined.2
    | value policy bounds =>
      rw [size_eq_zero rest distinct.1]
      cases confined.1 with
      | bounds among => exact among.length_vars

end Tuples

section Laws

variable {graph : FlowGraph} {names : List String} {components : List Component}

/-- What every tuple of an exploration satisfies. -/
def Conforms (graph : FlowGraph) (names : List String) (target : String)
    (components : List Component) (tuple : List ComponentState) : Prop :=
  List.Forall₂ Belongs components tuple ∧ ∀ state ∈ tuple, state.Confined graph names target

theorem conforms_linkLaws (target : String) (simple : graph.Simple)
    (within : ∀ edge ∈ graph.edges, edge.action.Within names) (located : .location ∈ components)
    (watched : .calls ∈ components) :
    let analysis := Component.joint graph target components
    analysis.LinkLaws graph (Conforms graph names target components)
      (Linked analysis graph target) := by
  apply statewise_linkLaws target simple located watched
  · intro component
    exact Component.confined_initial simple
  · intro edge state next member confined steps
    exact confined.steps simple member (within edge member) steps
  · exact Confined.merges

/-- The slots of tuples: each node, with and without a call to the target. -/
def tupleSlots (graph : FlowGraph) : List (Option Nat × Bool) :=
  (List.range graph.nodes.length).map some ×ˢ [false, true]

theorem length_tupleSlots : (tupleSlots graph).length = graph.nodes.length * 2 := by
  simp [tupleSlots, List.length_product]

theorem conforms_slotLaws (graph : FlowGraph) (names : List String) (target : String)
    (located : .location ∈ components)
    (distinct : (components.map Component.name).Nodup)
    (joins : ∀ policy, .value policy ∈ components → policy = .join) :
    let analysis := Component.joint graph target components
    analysis.SlotLaws (Conforms graph names target components)
      (fun tuple => (analysis.place tuple, analysis.isTarget tuple)) (tupleSlots graph)
      (fun tuple => (tuple.map size).sum) names.length := by
  intro analysis
  constructor
  · intro tuple conforms
    obtain ⟨node, found⟩ := exists_node conforms.1 located
    have bound : node.id < graph.nodes.length := by
      obtain ⟨state, member, isNode⟩ := List.exists_of_findSome?_eq_some found
      cases conforms.2 state member with
      | location bound =>
        cases isNode
        exact bound
      | bounds | call => cases isNode
    rw [composite_place conforms.1, found]
    unfold tupleSlots
    rw [List.mem_product]
    refine ⟨List.mem_map_of_mem (List.mem_range.mpr bound), ?_⟩
    cases analysis.isTarget tuple <;> simp
  · intro state other _ _ same
    exact congrArg Prod.fst same
  · intro tuple conforms
    exact size_le distinct conforms.1 conforms.2
  · intro new reached newConforms reachedConforms same uncovered refused
    rw [Prod.mk.injEq, composite_place newConforms.1, composite_place reachedConforms.1,
      composite_isTarget newConforms.1, composite_isTarget reachedConforms.1] at same
    have alike := alike_of_slot distinct newConforms.1 reachedConforms.1
      newConforms.2 reachedConforms.2 same.1 same.2
    obtain ⟨changed, merged, merges, changes⟩ :=
      exists_mergedTuple newConforms.1 reachedConforms.1 joins alike
    have isChanged := changes uncovered
    subst isChanged
    simp [analysis, Analysis.composite, merges] at refused
  · intro new reached merged newConforms reachedConforms merges
    obtain ⟨_, ⟨_, place⟩, _, isTarget⟩ := composite_merge newConforms.1 reachedConforms.1 merges
    exact ⟨Prod.ext place isTarget, (size_mergedTuple newConforms.1 reachedConforms.1
      (Analysis.mergedTuple_of_merge merges)).2 rfl⟩
  · intro new reached merged merges
    exact covers_of_mergedTuple (Analysis.mergedTuple_of_merge merges)

end Laws

end Reachability
