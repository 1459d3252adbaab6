import Mathlib
import Reachability.Graph.Digraph
import Reachability.Proofs.Sequence

/-!
# Edges and walks of directed graphs

The ends of all edges are nodes of the graph, whatever has been added in which
order.  A walk is counted by its edges.
-/

namespace Reachability.Graph.Digraph

variable {graph : Digraph}

/-- Edges lie between nodes of the graph. -/
def Valid (graph : Digraph) : Prop :=
  ∀ edge ∈ graph.edges, edge.1 ∈ graph.nodes ∧ edge.2 ∈ graph.nodes

theorem mem_successors {node next : Nat} :
    next ∈ graph.successors node ↔ (node, next) ∈ graph.edges := by
  unfold successors
  rw [List.mem_mergeSort, List.mem_filterMap]
  constructor
  · rintro ⟨⟨source, target⟩, member, found⟩
    split at found
    · rename_i same
      cases found
      cases same
      exact member
    · cases found
  · intro member
    exact ⟨(node, next), member, by simp⟩

private theorem le_foldl_max (nodes : List Nat) (start : Nat) :
    start ≤ nodes.foldl (fun order node => max order (node + 1)) start ∧
      ∀ node ∈ nodes, node < nodes.foldl (fun order node => max order (node + 1)) start := by
  induction nodes generalizing start with
  | nil => simp
  | cons first rest induction =>
    obtain ⟨above, bound⟩ := induction (max start (first + 1))
    rw [List.foldl_cons]
    refine ⟨Nat.le_trans (Nat.le_max_left _ _) above, ?_⟩
    intro node member
    rcases List.mem_cons.mp member with rfl | later
    · exact Nat.lt_of_lt_of_le (Nat.lt_of_lt_of_le (Nat.lt_succ_self _) (Nat.le_max_right _ _))
        above
    · exact bound node later

theorem lt_order {node : Nat} (member : node ∈ graph.nodes) : node < graph.order :=
  (le_foldl_max graph.nodes 0).2 node member

section Adding

variable {source target node : Nat}

theorem mem_nodes_addNode :
    node ∈ (graph.addNode source).nodes ↔ node ∈ graph.nodes ∨ node = source :=
  mem_addUnique

theorem mem_nodes_addEdge : node ∈ (graph.addEdge source target).nodes ↔
    (node ∈ graph.nodes ∨ node = source) ∨ node = target := by
  unfold addEdge
  dsimp only
  split <;> rw [mem_nodes_addNode, mem_nodes_addNode]

theorem mem_edges_addEdge {edge : Nat × Nat} : edge ∈ (graph.addEdge source target).edges ↔
    edge = (source, target) ∨ edge ∈ graph.edges := by
  unfold addEdge
  dsimp only
  split
  · rename_i known
    have member : (source, target) ∈ graph.edges := by
      simpa [hasEdge, addNode] using known
    constructor
    · exact .inr
    · rintro (rfl | old)
      · exact member
      · exact old
  · exact List.mem_cons

theorem Valid.addNode (valid : graph.Valid) (source : Nat) : (graph.addNode source).Valid := by
  intro edge member
  obtain ⟨first, second⟩ := valid edge member
  exact ⟨mem_nodes_addNode.mpr (.inl first), mem_nodes_addNode.mpr (.inl second)⟩

theorem Valid.addEdge (valid : graph.Valid) (source target : Nat) :
    (graph.addEdge source target).Valid := by
  intro edge member
  rw [mem_nodes_addEdge, mem_nodes_addEdge]
  rcases mem_edges_addEdge.mp member with rfl | old
  · exact ⟨.inl (.inr rfl), .inr rfl⟩
  · obtain ⟨first, second⟩ := valid edge old
    exact ⟨.inl (.inl first), .inl (.inl second)⟩

end Adding

/-- The nodes at the end of walks from `start` with some number of edges. -/
inductive Walk (graph : Digraph) (start : Nat) : Nat → Nat → Prop where
  | start : Walk graph start 0 start
  | step {length node next : Nat} :
      Walk graph start length node →
      (node, next) ∈ graph.edges →
      Walk graph start (length + 1) next

theorem Walk.along {start node last length : Nat} {rest : List Nat}
    (walk : graph.Walk start length node)
    (path : List.IsChain (fun source target => (source, target) ∈ graph.edges) (node :: rest))
    (ends : (node :: rest).getLast? = some last) :
    graph.Walk start (length + rest.length) last := by
  induction rest generalizing node length with
  | nil =>
    cases ends
    exact walk
  | cons next rest induction =>
    rw [List.isChain_cons_cons] at path
    rw [List.getLast?_cons_cons] at ends
    have continued := induction (walk.step path.1) path.2 ends
    rw [List.length_cons, Nat.add_comm rest.length 1, ← Nat.add_assoc]
    exact continued

end Reachability.Graph.Digraph
