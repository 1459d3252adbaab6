import Mathlib
import Reachability.Analysis.Composite

/-!
# Successors of tuples

A composition extends tuples by the successors of one component after the other.
What comes out is the product of the successors of all components: every choice
of one successor for each of them, in lexicographic order of the positions that
the chosen successors have in their own lists.
-/

namespace Reachability.Analysis

variable {σ : Type u} {edge : Edge} {component : Analysis σ} {components : List (Analysis σ)}
  {state : σ} {states : List σ} {tuples : List (List σ)}

theorem extendTuples_nil : extendTuples edge components states [] = [] := by
  induction components generalizing states with
  | nil => rfl
  | cons component components induction =>
    cases states with
    | nil => rfl
    | cons state states =>
      unfold extendTuples
      split
      · rfl
      · exact induction
      · exact induction

/-- However many successors a state has, each tuple is extended by each of them in turn. -/
theorem extendTuples_cons :
    extendTuples edge (component :: components) (state :: states) tuples =
      extendTuples edge components states
        (tuples.flatMap fun tuple =>
          (component.transfer state edge).map fun next => tuple ++ [next]) := by
  conv_lhs => unfold extendTuples
  split
  · rename_i none
    have nowhere : (tuples.flatMap fun tuple =>
        (component.transfer state edge).map fun next => tuple ++ [next]) = [] :=
      List.flatMap_eq_nil_iff.mpr fun tuple _ => by rw [none, List.map_nil]
    rw [nowhere, extendTuples_nil]
  · rename_i next single
    simp only [single, List.map_cons, List.map_nil, ← List.map_eq_flatMap]
  · rfl

/-- The tuples that are extended are kept as the first parts of the results. -/
theorem extendTuples_eq_flatMap :
    extendTuples edge components states tuples =
      tuples.flatMap fun tuple => (successorTuples components states edge).map (tuple ++ ·) := by
  unfold successorTuples
  induction components generalizing states tuples with
  | nil => simp [extendTuples]
  | cons component components induction =>
    cases states with
    | nil => simp [extendTuples]
    | cons state states =>
      rw [extendTuples_cons, extendTuples_cons, induction, List.flatMap_assoc]
      apply List.flatMap_congr
      intro tuple _
      conv_rhs => rw [induction]
      simp [List.flatMap_map, List.map_flatMap, Function.comp_def]

@[simp] theorem successorTuples_nil : successorTuples [] states edge = [[]] := rfl

theorem successorTuples_cons :
    successorTuples (component :: components) (state :: states) edge =
      (component.transfer state edge).flatMap fun next =>
        (successorTuples components states edge).map (next :: ·) := by
  conv_lhs => rw [successorTuples, extendTuples_cons, extendTuples_eq_flatMap]
  simp [List.flatMap_map]

def slotSuccessors (components : List (Analysis σ)) (tuple : List σ) (edge : Edge) :
    List (List σ) :=
  List.zipWith (fun component state => component.transfer state edge) components tuple

/-- A tuple that has one item of each list, and the positions of these items. -/
inductive Chosen :
    (choices : List (List σ)) → (positions : List Nat) → (tuple : List σ) → Prop where
  | nil : Chosen [] [] []
  | cons {items : List σ} {choices : List (List σ)} {position : Nat} {positions : List Nat}
      {item : σ} {tuple : List σ} (here : items[position]? = some item)
      (rest : Chosen choices positions tuple) :
      Chosen (items :: choices) (position :: positions) (item :: tuple)

/-- The tuples with one item of each list, once for each choice of positions and in lexicographic
order of the positions. -/
def IsProduct (choices tuples : List (List σ)) : Prop :=
  ∃ chosen : List (List Nat), chosen.Pairwise (· < ·) ∧
    (∀ positions, positions ∈ chosen ↔ ∃ tuple, Chosen choices positions tuple) ∧
    List.Forall₂ (Chosen choices) chosen tuples

theorem isProduct_nil : IsProduct ([] : List (List σ)) [[]] := by
  refine ⟨[[]], List.pairwise_singleton _ _, ?_, .cons .nil .nil⟩
  intro positions
  rw [List.mem_singleton]
  constructor
  · rintro rfl
    exact ⟨[], .nil⟩
  · rintro ⟨tuple, ⟨⟩⟩
    rfl

private theorem forall₂_range (items : List σ) :
    List.Forall₂ (fun position item => items[position]? = some item)
      (List.range items.length) items := by
  rw [List.forall₂_iff_get]
  refine ⟨List.length_range, ?_⟩
  intro index inRange inItems
  simp [List.get_eq_getElem, List.getElem_range, inItems]

theorem IsProduct.cons {choices tuples : List (List σ)} (product : IsProduct choices tuples)
    (items : List σ) :
    IsProduct (items :: choices) (items.flatMap fun item => tuples.map (item :: ·)) := by
  obtain ⟨chosen, ordered, complete, pairs⟩ := product
  refine ⟨(List.range items.length).flatMap fun position => chosen.map (position :: ·), ?_, ?_, ?_⟩
  · rw [List.pairwise_flatMap]
    constructor
    · intro position _
      apply List.pairwise_map.mpr
      apply ordered.imp
      intro before after less
      exact List.cons_lt_cons_iff.mpr (.inr ⟨rfl, less⟩)
    · apply List.pairwise_lt_range.imp
      intro before after less first firstMember second secondMember
      obtain ⟨rest, _, rfl⟩ := List.mem_map.mp firstMember
      obtain ⟨others, _, rfl⟩ := List.mem_map.mp secondMember
      exact List.cons_lt_cons_iff.mpr (.inl less)
  · intro positions
    simp only [List.mem_flatMap, List.mem_range, List.mem_map]
    constructor
    · rintro ⟨position, inside, rest, member, rfl⟩
      obtain ⟨tuple, others⟩ := (complete rest).mp member
      exact ⟨items[position] :: tuple, .cons (List.getElem?_eq_getElem inside) others⟩
    · rintro ⟨tuple, ⟨⟩⟩
      rename_i position rest item tuple here others
      obtain ⟨inside, _⟩ := List.getElem?_eq_some_iff.mp here
      exact ⟨position, inside, rest, (complete rest).mpr ⟨tuple, others⟩, rfl⟩
  · apply List.rel_flatMap (forall₂_range items)
    intro position item here
    rw [List.forall₂_map_left_iff, List.forall₂_map_right_iff]
    apply pairs.imp
    intro rest tuple others
    exact .cons here others

theorem isProduct_successorTuples (arity : states.length = components.length) :
    IsProduct (slotSuccessors components states edge) (successorTuples components states edge) := by
  induction components generalizing states with
  | nil => exact isProduct_nil
  | cons component components induction =>
    cases states with
    | nil => cases arity
    | cons state states =>
      rw [successorTuples_cons]
      exact (induction (Nat.succ.inj arity)).cons (component.transfer state edge)

theorem successorTuples_eq_nil (arity : states.length = components.length) :
    successorTuples components states edge = [] ↔
      ∃ slot ∈ slots components states, slot.1.transfer slot.2 edge = [] := by
  unfold slots
  induction components generalizing states with
  | nil => simp
  | cons component components induction =>
    cases states with
    | nil => cases arity
    | cons state states =>
      rw [successorTuples_cons, List.zip_cons_cons, List.exists_mem_cons_iff,
        ← induction (Nat.succ.inj arity)]
      cases component.transfer state edge with
      | nil => simp
      | cons next nexts => simp +contextual [List.flatMap_eq_nil_iff]

/-- The successors of a tuple are the product of the successors of its states, and there are none
exactly if some state has none. -/
theorem composite_transfer_product (components : List (Analysis σ)) (tuple : List σ) (edge : Edge)
    (arity : tuple.length = components.length) :
    IsProduct (slotSuccessors components tuple edge) ((composite components).transfer tuple edge) ∧
      ((composite components).transfer tuple edge = [] ↔
        ∃ slot ∈ slots components tuple, slot.1.transfer slot.2 edge = []) :=
  ⟨isProduct_successorTuples arity, successorTuples_eq_nil arity⟩

/-- An analysis of numbers, each of which can be raised by any of the given amounts. -/
def raising (amounts : List Nat) : Analysis Nat where
  initial _ := 0
  transfer state _ := amounts.map (state + ·)
  merge _ _ := none
  covers state reached := state == reached
  isTarget _ := false
  location _ := none
  text := toString

/-- Equal successors count as often as they occur, and one component without successors is enough
for the tuple to have none. -/
theorem composite_transfer_product_raising :
    let edge : Edge := { id := 0, source := 0, target := 1, action := .blank "" }
    IsProduct [[11, 11], [20], [32, 30]]
        [[11, 20, 32], [11, 20, 30], [11, 20, 32], [11, 20, 30]] ∧
      (composite [raising [1, 2], raising [], raising [0]]).transfer [0, 0, 0] edge = [] := by
  intro edge
  constructor
  · exact (composite_transfer_product [raising [1, 1], raising [0], raising [2, 0]]
      [10, 20, 30] edge rfl).1
  · apply (composite_transfer_product _ _ edge rfl).2.mpr
    exact ⟨(raising [], 0), by simp [slots], rfl⟩

end Reachability.Analysis
