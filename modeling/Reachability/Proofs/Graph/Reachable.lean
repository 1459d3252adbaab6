import Mathlib
import Reachability.Proofs.Graph.Digraph

/-!
# Reachable nodes of directed graphs

The nodes found from a start are exactly those that a sequence of edges leads
to.  The search may take one step more than there are edges: every step takes a
node from the frontier, and an edge puts a node there at most once.
-/

namespace Reachability.Graph.Digraph

variable {graph : Digraph}

def Joins (graph : Digraph) (source target : Nat) : Prop := (source, target) ∈ graph.edges

/-- The number of edges that leave nodes not seen yet. -/
def unfollowed (graph : Digraph) (seen : List Nat) : Nat :=
  graph.edges.countP fun edge => edge.1 ∉ seen

theorem length_successors (graph : Digraph) (node : Nat) :
    (graph.successors node).length = graph.edges.countP fun edge => edge.1 = node := by
  unfold successors
  rw [List.length_mergeSort, List.length_filterMap_eq_countP]
  apply List.countP_congr
  intro edge _
  by_cases here : edge.1 = node
  · simp [here]
  · simp [here]

theorem unfollowed_cons {node : Nat} {seen : List Nat} (unseen : node ∉ seen) :
    graph.unfollowed (node :: seen) + (graph.successors node).length = graph.unfollowed seen := by
  rw [length_successors]
  unfold unfollowed
  induction graph.edges with
  | nil => rfl
  | cons edge edges induction =>
    simp only [List.countP_cons, ← induction]
    by_cases here : edge.1 = node
    · simp [here, unseen]
      omega
    · simp [here]
      omega

section Explore

variable {steps : Nat} {frontier seen : List Nat}

theorem reached_of_mem_explore {node : Nat} (found : node ∈ graph.explore steps frontier seen) :
    node ∈ seen ∨ ∃ start ∈ frontier, Relation.ReflTransGen graph.Joins start node := by
  induction steps generalizing frontier seen with
  | zero => exact .inl found
  | succ steps induction =>
    cases frontier with
    | nil => exact .inl found
    | cons first rest =>
      rw [explore] at found
      split at found
      · rcases induction found with old | ⟨start, member, reaches⟩
        · exact .inl old
        · exact .inr ⟨start, List.mem_cons_of_mem _ member, reaches⟩
      · rcases induction found with old | ⟨start, member, reaches⟩
        · rcases List.mem_cons.mp old with rfl | old
          · exact .inr ⟨node, List.mem_cons_self, .refl⟩
          · exact .inl old
        · rcases List.mem_append.mp member with waiting | next
          · exact .inr ⟨start, List.mem_cons_of_mem _ waiting, reaches⟩
          · exact .inr ⟨first, List.mem_cons_self, .head (mem_successors.mp next) reaches⟩

theorem explore_closed (enough : frontier.length + graph.unfollowed seen ≤ steps)
    (followed : ∀ node ∈ seen, ∀ next, graph.Joins node next → next ∈ seen ∨ next ∈ frontier) :
    (∀ node, node ∈ seen ∨ node ∈ frontier → node ∈ graph.explore steps frontier seen) ∧
      ∀ node ∈ graph.explore steps frontier seen, ∀ next, graph.Joins node next →
        next ∈ graph.explore steps frontier seen := by
  induction steps generalizing frontier seen with
  | zero =>
    have empty : frontier = [] := List.eq_nil_of_length_eq_zero (by omega)
    subst empty
    simp only [List.not_mem_nil, or_false] at followed ⊢
    exact ⟨fun _ member => member, followed⟩
  | succ steps induction =>
    cases frontier with
    | nil =>
      simp only [List.not_mem_nil, or_false] at followed ⊢
      exact ⟨fun _ member => member, followed⟩
    | cons first rest =>
      rw [List.length_cons] at enough
      rw [explore]
      split
      · rename_i old
        have still : ∀ node ∈ seen, ∀ next, graph.Joins node next →
            next ∈ seen ∨ next ∈ rest := by
          intro node member next joins
          rcases followed node member next joins with inSeen | waiting
          · exact .inl inSeen
          · rcases List.mem_cons.mp waiting with rfl | waiting
            · exact .inl old
            · exact .inr waiting
        obtain ⟨found, closed⟩ := induction (by omega) still
        refine ⟨?_, closed⟩
        rintro node (inSeen | waiting)
        · exact found node (.inl inSeen)
        · rcases List.mem_cons.mp waiting with rfl | waiting
          · exact found node (.inl old)
          · exact found node (.inr waiting)
      · rename_i unseen
        have counted := graph.unfollowed_cons unseen
        have still : ∀ node ∈ first :: seen, ∀ next, graph.Joins node next →
            next ∈ first :: seen ∨ next ∈ rest ++ graph.successors first := by
          intro node member next joins
          rcases List.mem_cons.mp member with rfl | old
          · exact .inr (List.mem_append_right _ (mem_successors.mpr joins))
          · rcases followed node old next joins with inSeen | waiting
            · exact .inl (List.mem_cons_of_mem _ inSeen)
            · rcases List.mem_cons.mp waiting with rfl | waiting
              · exact .inl List.mem_cons_self
              · exact .inr (List.mem_append_left _ waiting)
        obtain ⟨found, closed⟩ :=
          induction (by rw [List.length_append]; omega) still
        refine ⟨?_, closed⟩
        rintro node (inSeen | waiting)
        · exact found node (.inl (List.mem_cons_of_mem _ inSeen))
        · rcases List.mem_cons.mp waiting with rfl | waiting
          · exact found node (.inl List.mem_cons_self)
          · exact found node (.inr (List.mem_append_left _ waiting))

end Explore

theorem mem_reachable {start node : Nat} :
    node ∈ graph.reachable start ↔ Relation.ReflTransGen graph.Joins start node := by
  unfold reachable
  rw [List.mem_mergeSort]
  constructor
  · intro found
    rcases reached_of_mem_explore found with impossible | ⟨first, member, reaches⟩
    · cases impossible
    · rw [List.mem_singleton] at member
      rw [← member]
      exact reaches
  · intro reaches
    have enough : [start].length + graph.unfollowed [] ≤ graph.edges.length + 1 := by
      have le : graph.unfollowed [] ≤ graph.edges.length := List.countP_le_length
      rw [List.length_singleton]
      omega
    obtain ⟨found, closed⟩ := explore_closed enough (by simp)
    induction reaches with
    | refl => exact found start (.inr List.mem_cons_self)
    | tail _ joins induction => exact closed _ induction _ joins

theorem mem_edges_ofLists {nodes : List Nat} {edges : List (Nat × Nat)} {edge : Nat × Nat} :
    edge ∈ (ofLists nodes edges).edges ↔ edge ∈ edges := by
  have noEdges : (nodes.foldl addNode empty).edges = [] := by
    induction nodes using List.reverseRecOn with
    | nil => rfl
    | append_singleton nodes node induction =>
      rw [List.foldl_append]
      exact induction
  unfold ofLists
  generalize nodes.foldl addNode empty = start at noEdges ⊢
  have all : edge ∈ (edges.foldl (fun graph edge => graph.addEdge edge.1 edge.2) start).edges ↔
      edge ∈ edges ∨ edge ∈ start.edges := by
    clear noEdges
    induction edges generalizing start with
    | nil => simp
    | cons first rest induction =>
      rw [List.foldl_cons, induction, mem_edges_addEdge, List.mem_cons, or_assoc, or_left_comm]
  rw [all, noEdges]
  simp

end Reachability.Graph.Digraph
