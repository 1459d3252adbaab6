import Mathlib
import Reachability.Proofs.Analysis.Tuples
import Reachability.Proofs.Arg.Correspondence

/-!
# Rearranged tuples

The order in which analyses are composed makes no difference to what their
composition does, if each of them has one successor at most and only one records
locations.  Whether tuples are covered, merged or targets is decided for all of
their states or for some, and neither depends on the order.
-/

namespace Reachability

/-- Tuples that hold a proper state for each index, both the same one. -/
def Rearranged {ι : Type u} {σ : Type v} (Proper : ι → σ → Prop) (indices indices' : List ι)
    (tuple tuple' : List σ) : Prop :=
  ∃ slot : ι → σ, (∀ index, Proper index (slot index)) ∧ tuple = indices.map slot ∧
    tuple' = indices'.map slot

/-- The first value found in a list does not depend on its order if one index at most has a
value. -/
theorem findSome?_eq_of_perm {ι : Type u} {α : Type v} {indices indices' : List ι}
    {value? : ι → Option α} (perm : indices.Perm indices')
    (unique : ∀ i j, (value? i).isSome → (value? j).isSome → i = j) :
    indices.findSome? value? = indices'.findSome? value? := by
  induction perm with
  | nil => rfl
  | cons index _ induction => rw [List.findSome?_cons, List.findSome?_cons, induction]
  | swap first second rest =>
    simp only [List.findSome?_cons]
    cases isFirst : value? first with
    | none => rfl
    | some value => cases isSecond : value? second with
      | none => rfl
      | some other =>
        have same := unique first second (by simp [isFirst]) (by simp [isSecond])
        rw [← isFirst, ← isSecond, same]
  | trans _ _ first second => exact first.trans second

namespace Analysis

variable {ι : Type u} {σ : Type v} {family : ι → Analysis σ} {Proper : ι → σ → Prop}

/-- Analyses that can be composed in any order.  Each keeps to its proper states and has one
successor at most, and only one of them records locations. -/
structure Independent (family : ι → Analysis σ) (Proper : ι → σ → Prop) : Prop where
  initial : ∀ index node, Proper index ((family index).initial node)
  successor : ∀ {index state} edge, Proper index state → ∃ next? : Option σ,
    (family index).transfer state edge = next?.toList ∧ ∀ next ∈ next?, Proper index next
  merged : ∀ {index new reached}, Proper index new → Proper index reached →
    Proper index ((family index).merged new reached)
  located : ∀ {i j state other}, Proper i state → Proper j other →
    ((family i).location state).isSome → ((family j).location other).isSome → i = j

section Families

variable (family) (new reached : ι → σ) (indices : List ι)

theorem successorTuples_map {slot : ι → σ} {edge : Edge} {next? : ι → Option σ}
    (computed : ∀ index, (family index).transfer (slot index) edge = (next? index).toList) :
    successorTuples (indices.map family) (indices.map slot) edge =
      if indices.all fun index => (next? index).isSome then
        [indices.map fun index => (next? index).getD (slot index)]
      else [] := by
  induction indices with
  | nil => rfl
  | cons index indices induction =>
    simp only [List.map_cons, successorTuples_cons, computed, induction, List.all_cons]
    cases next? index with
    | none => rfl
    | some next =>
      simp only [Option.toList_some, List.flatMap_cons, List.flatMap_nil, List.append_nil,
        Option.isSome_some, Bool.true_and, Option.getD_some]
      split
      · rfl
      · rfl

theorem coversTuple_map :
    coversTuple (indices.map family) (indices.map new) (indices.map reached) =
      indices.all fun index => (family index).covers (new index) (reached index) := by
  induction indices with
  | nil => rfl
  | cons index indices induction =>
    simp only [List.map_cons, coversTuple, List.all_cons, induction]

/-- Whether the state at an index is changed by a merge. -/
def changes (index : ι) : Bool :=
  ((family index).merge (new index) (reached index)).isSome &&
    !(family index).covers ((family index).merged (new index) (reached index)) (reached index)

theorem mergedTuple_map :
    mergedTuple (indices.map family) (indices.map new) (indices.map reached) =
      if indices.all fun index => (family index).covers (new index)
          ((family index).merged (new index) (reached index)) then
        some (indices.any (changes family new reached),
          indices.map fun index => (family index).merged (new index) (reached index))
      else none := by
  induction indices with
  | nil => rfl
  | cons index indices induction =>
    simp only [List.map_cons, mergedTuple, List.all_cons, List.any_cons, induction]
    cases (family index).covers (new index)
        ((family index).merged (new index) (reached index)) with
    | false => rfl
    | true =>
      simp only [if_true, Bool.true_and]
      split
      · rfl
      · rfl

theorem composite_merge_map :
    (composite (indices.map family)).merge (indices.map new) (indices.map reached) =
      if (indices.all fun index => (family index).covers (new index)
            ((family index).merged (new index) (reached index))) &&
          indices.any (changes family new reached) then
        some (indices.map fun index => (family index).merged (new index) (reached index))
      else none := by
  simp only [composite, mergedTuple_map]
  cases indices.all fun index => (family index).covers (new index)
      ((family index).merged (new index) (reached index)) with
  | false => rfl
  | true => cases indices.any (changes family new reached) with
    | false => rfl
    | true => rfl

theorem composite_isTarget_map (slot : ι → σ) :
    (composite (indices.map family)).isTarget (indices.map slot) =
      indices.any fun index => (family index).isTarget (slot index) := by
  simp only [composite, slots, List.zip_map', List.any_map]
  rfl

theorem composite_location_map (slot : ι → σ) :
    (composite (indices.map family)).location (indices.map slot) =
      indices.findSome? fun index => (family index).location (slot index) := by
  simp only [composite, slots, List.zip_map', List.findSome?_map]
  rfl

end Families

/-- Compositions in different orders do the same to rearranged tuples. -/
theorem Independent.corresponds (independent : Independent family Proper)
    {indices indices' : List ι} (perm : indices.Perm indices') :
    (composite (indices.map family)).Corresponds (Rearranged Proper indices indices')
      (composite (indices'.map family)) where
  initial node :=
    ⟨fun index => (family index).initial node, fun index => independent.initial index node,
      List.map_map, List.map_map⟩
  transfer edge related := by
    obtain ⟨slot, proper, rfl, rfl⟩ := related
    choose next? computed properNext using fun index => independent.successor edge (proper index)
    change List.Forall₂ _ (successorTuples ..) (successorTuples ..)
    rw [successorTuples_map family indices computed, successorTuples_map family indices' computed,
      perm.all_eq]
    split
    · refine .cons ⟨_, ?_, rfl, rfl⟩ .nil
      intro index
      cases found : next? index with
      | none => exact proper index
      | some next => exact properNext index next found
    · exact .nil
  merge related reachedRelated := by
    obtain ⟨slot, proper, rfl, rfl⟩ := related
    obtain ⟨reachedSlot, reachedProper, rfl, rfl⟩ := reachedRelated
    rw [composite_merge_map, composite_merge_map, perm.all_eq, perm.any_eq]
    split
    · refine .some ⟨_, ?_, rfl, rfl⟩
      exact fun index => independent.merged (proper index) (reachedProper index)
    · exact .none
  covers related reachedRelated := by
    obtain ⟨slot, _, rfl, rfl⟩ := related
    obtain ⟨reachedSlot, _, rfl, rfl⟩ := reachedRelated
    change coversTuple .. = coversTuple ..
    rw [coversTuple_map, coversTuple_map, perm.all_eq]
  isTarget related := by
    obtain ⟨slot, _, rfl, rfl⟩ := related
    rw [composite_isTarget_map, composite_isTarget_map, perm.any_eq]
  location related := by
    obtain ⟨slot, proper, rfl, rfl⟩ := related
    rw [composite_location_map, composite_location_map]
    apply findSome?_eq_of_perm perm
    exact fun i j => independent.located (proper i) (proper j)

end Analysis

namespace Component

open ComponentState

variable {graph : FlowGraph} {target : String} {component : Component}
  {state new reached : ComponentState}

theorem exists_successor (graph : FlowGraph) (target : String) (edge : Edge)
    (belongs : Belongs component state) : ∃ next? : Option ComponentState,
      (component.analysis graph target).transfer state edge = next?.toList ∧
        ∀ next ∈ next?, Belongs component next := by
  cases belongs with
  | location node =>
    refine ⟨if node.id = edge.source then some (.location (graph.node edge.target)) else none,
      ?_, ?_⟩
    · simp only [analysis, Analysis.locations]
      split
      · rfl
      · rfl
    · intro next member
      split at member
      · cases member
        exact .location _
      · cases member
  | value policy bounds =>
    refine ⟨(bounds.after edge.action).map .bounds, rfl, ?_⟩
    intro next member
    obtain ⟨after, _, rfl⟩ := Option.map_eq_some_iff.mp member
    exact .value policy after
  | call callee => cases callee with
    | none | some callee =>
      refine ⟨some _, rfl, ?_⟩
      intro next member
      cases member
      exact .call _

theorem belongs_merged (graph : FlowGraph) (target : String) (belongs : Belongs component new)
    (reachedBelongs : Belongs component reached) :
    Belongs component ((component.analysis graph target).merged new reached) := by
  cases belongs with
  | location node | call callee => exact reachedBelongs
  | value policy bounds => cases reachedBelongs with
    | value _ known =>
      rw [analysis, merged_bounds]
      exact .value policy _

theorem eq_location (belongs : Belongs component state)
    (located : ((component.analysis graph target).location state).isSome) :
    component = .location := by
  rw [location_eq] at located
  cases belongs with
  | location node => rfl
  | value policy bounds | call callee => cases located

end Component

end Reachability
