import Mathlib
import Reachability.Proofs.FlowGraph.WellFormed

/-!
# Control-flow graphs are reducible

In the graph of an accepted program, an edge that leads back leads to a node that
dominates its source, and the other edges ascend in the order in which nodes are
left.  A node is reached through nodes with lower numbers, so that it dominates
none of them.
-/

namespace Reachability

namespace Draft

variable {draft before after : Draft} {edge : Edge} {edges : List Edge} {Allowed : Action → Prop}

/-- Edges that do not lead back lead to nodes that no edge has left before. -/
def Ascending (edges : List Edge) : Prop :=
  edges.Pairwise fun earlier later => later.isBack = true ∨ earlier.source ≠ later.target

theorem Ascending.findIdx_lt (ascending : Ascending edges) (member : edge ∈ edges)
    (loopless : edge.source ≠ edge.target) (forward : edge.isBack = false) :
    edges.findIdx (·.source == edge.source) < edges.findIdx (·.source == edge.target) := by
  obtain ⟨earlier, later, rfl⟩ := List.append_of_mem member
  have apart : ∀ other ∈ earlier, other.source ≠ edge.target := by
    intro other isEarlier
    rcases (List.pairwise_append.mp ascending).2.2 other isEarlier edge List.mem_cons_self
      with isBack | apart
    · exact absurd (forward.symm.trans isBack) Bool.false_ne_true
    · exact apart
  have leaves : (earlier ++ edge :: later).findIdx (·.source == edge.source) ≤ earlier.length := by
    rw [List.findIdx_append]
    split
    · exact List.findIdx_le_length
    · simp [List.findIdx_cons]
  have notYet : (earlier ++ edge :: later).findIdx (·.source == edge.target) > earlier.length := by
    have none : earlier.findIdx (·.source == edge.target) = earlier.length := by
      apply List.findIdx_eq_length.mpr
      simpa using apart
    have other : (edge.source == edge.target) = false := beq_eq_false_iff_ne.mpr loopless
    rw [List.findIdx_append, none, if_neg (Nat.lt_irrefl _), List.findIdx_cons, other]
    simp
  exact Nat.lt_of_le_of_lt leaves notYet

/-- Edges lead on to nodes that are left later, or back to nodes that dominate their source. -/
structure Nested (draft : Draft) : Prop where
  ascending : Ascending draft.edges
  returns : ∀ edge ∈ draft.edges, edge.isBack = true → draft.Dominates edge.target edge.source

theorem Nested.addEdge (nested : draft.Nested) {source target pos : Nat} {action : Action}
    (leads : draft.Leads source target action) :
    (draft.addEdge source target action pos).Nested := by
  constructor
  · apply List.pairwise_append.mpr
    refine ⟨nested.ascending, List.pairwise_singleton _ _, ?_⟩
    intro earlier member later isLater
    rw [List.mem_singleton.mp isLater]
    cases leads with
    | on _ empty => exact .inr (source_ne_of_out empty member)
    | back isBack _ => exact .inl isBack
  · intro edge member isBack
    rcases mem_edges_addEdge.mp member with old | rfl
    · have dominates := nested.returns edge old isBack
      cases leads with
      | on _ empty => exact dominates.addEdge_on empty fun none => source_ne_of_out none old rfl
      | back _ returns => exact dominates.addEdge_back returns
    · cases leads with
      | on forward _ => exact absurd (forward.symm.trans isBack) Bool.false_ne_true
      | back _ returns => exact returns.addEdge_back returns

theorem Nested.extend (nested : draft.Nested) (sound : draft.Sound) {source pos : Nat}
    {action : Action} (forward : action.isBack = false) :
    (draft.extend source action pos).2.Nested := by
  have added : draft.addNode.2.Nested := ⟨nested.ascending, nested.returns⟩
  exact added.addEdge (.on forward (sound.out_eq_nil (Nat.le_refl _)))

theorem Operation.nested (operation : Operation Allowed before after) (sound : before.Sound)
    (nested : before.Nested) : after.Nested := by
  cases operation with
  | label node label =>
    have edges := (before.size_label node label).2.1
    constructor
    · rw [edges]
      exact nested.ascending
    · unfold Dominates
      rw [edges]
      exact nested.returns
  | extend _ forward _ => exact nested.extend sound forward
  | fork ready _ _ =>
    exact (nested.extend sound rfl).extend (sound.extend ready.bound ready.notExit) rfl
  | link _ _ _ _ leads _ => exact nested.addEdge leads
  | @leave source pos _ _ =>
    unfold addReturn
    cases found : before.exit with
    | some exit => exact nested.addEdge (.on rfl (sound.exit exit found).2.2)
    | none =>
      have extended : (before.extend source (.blank "return") pos).2.Nested :=
        nested.extend sound rfl
      exact ⟨extended.ascending, extended.returns⟩

/-- Every node but the first one is entered from a node with a lower number. -/
def Rooted (draft : Draft) : Prop :=
  ∀ node, 0 < node → node < draft.size →
    ∃ edge ∈ draft.edges, edge.target = node ∧ edge.source < node

theorem Rooted.extend (rooted : draft.Rooted) {source pos : Nat} {action : Action}
    (bound : source < draft.size) : (draft.extend source action pos).2.Rooted := by
  intro node positive inside
  rw [size_extend] at inside
  rcases Nat.lt_succ_iff_lt_or_eq.mp inside with old | rfl
  · obtain ⟨edge, member, ends⟩ := rooted node positive old
    exact ⟨edge, mem_edges_extend.mpr (.inl member), ends⟩
  · exact ⟨_, mem_edges_extend.mpr (.inr rfl), rfl, bound⟩

theorem Rooted.addEdge (rooted : draft.Rooted) (source target : Nat) (action : Action) (pos : Nat) :
    (draft.addEdge source target action pos).Rooted := by
  intro node positive inside
  obtain ⟨edge, member, ends⟩ := rooted node positive inside
  exact ⟨edge, mem_edges_addEdge.mpr (.inl member), ends⟩

theorem Operation.rooted (operation : Operation Allowed before after) (rooted : before.Rooted) :
    after.Rooted := by
  cases operation with
  | label node label =>
    obtain ⟨size, edges, _⟩ := before.size_label node label
    unfold Rooted
    rw [size, edges]
    exact rooted
  | extend ready _ _ => exact rooted.extend ready.bound
  | @fork source pos cond ready _ _ =>
    have once : (before.extend source (.assume cond true) pos).2.Rooted := rooted.extend ready.bound
    apply once.extend
    rw [size_extend]
    exact Nat.lt_succ_of_lt ready.bound
  | link _ _ _ _ _ _ => exact rooted.addEdge _ _ _ _
  | @leave source pos ready _ =>
    unfold addReturn
    cases before.exit with
    | some exit => exact rooted.addEdge _ _ _ _
    | none => exact rooted.extend ready.bound

theorem Arises.nested_rooted (arises : Arises Allowed before after) (sound : before.Sound)
    (nested : before.Nested) (rooted : before.Rooted) :
    after.Sound ∧ after.Nested ∧ after.Rooted := by
  induction arises with
  | refl => exact ⟨sound, nested, rooted⟩
  | tail _ operation induction =>
    obtain ⟨sound, nested, rooted⟩ := induction
    exact ⟨operation.sound sound, operation.nested sound nested, operation.rooted rooted⟩

/-- A node with a higher number is not needed on the way to a node. -/
theorem Rooted.bypasses (rooted : draft.Rooted) {node later : Nat} (inside : node < draft.size)
    (higher : node < later) : Graph.Bypasses (Edge.Joins draft.edges) 0 later node := by
  refine ⟨Nat.ne_of_lt (Nat.zero_lt_of_lt higher), ?_⟩
  induction node using Nat.strong_induction_on with
  | _ node induction =>
    rcases Nat.eq_zero_or_pos node with rfl | positive
    · exact .refl
    · obtain ⟨edge, member, isTarget, less⟩ := rooted node positive inside
      have reaches := induction edge.source less (Nat.lt_trans less inside)
        (Nat.lt_trans less higher)
      exact reaches.tail ⟨⟨edge, member, rfl, isTarget⟩, Nat.ne_of_lt higher⟩

end Draft

namespace FlowGraph

/-- Some edge leads back from one node to another. -/
def Back (graph : FlowGraph) (source target : Nat) : Prop :=
  ∃ edge ∈ graph.edges, edge.isBack = true ∧ edge.source = source ∧ edge.target = target

variable {name : String} {program : Stmt} {graph : FlowGraph}

theorem finished_nested (program : Stmt) :
    (finished (lowering program).1 (lowering program).2).Nested ∧
      (finished (lowering program).1 (lowering program).2).Rooted := by
  have nested : ({} : Draft).addNode.2.Nested := ⟨.nil, nofun⟩
  have rooted : ({} : Draft).addNode.2.Rooted :=
    fun node positive inside => absurd inside (Nat.not_lt.mpr positive)
  exact (Draft.Arises.nested_rooted (finished_arises program) Draft.sound_empty.addNode nested
    rooted).2

/-- The graph of an accepted program is reducible, and nodes are dominated only by nodes with lower
numbers. -/
theorem build_reducible (built : (build name program).1 = .ok graph) :
    Graph.Reducible (Edge.Joins graph.edges) graph.Back graph.entry
        (fun node => graph.edges.findIdx (·.source == node)) ∧
      ∀ node < graph.nodes.length, ∀ later,
        Graph.Dominates (Edge.Joins graph.edges) graph.entry later node → later ≤ node := by
  obtain ⟨_, rfl, _⟩ := build_ok_iff.mp built
  have tidy := lowered_tidy name program
  obtain ⟨nested, rooted⟩ := finished_nested program
  rw [edges_lowered] at tidy ⊢
  refine ⟨⟨?_, ?_⟩, ?_⟩
  · rintro source target ⟨edge, member, isBack, rfl, rfl⟩
    rw [edges_lowered] at member
    exact ⟨⟨edge, member, rfl, rfl⟩, nested.returns edge member isBack⟩
  · rintro source target ⟨edge, member, rfl, rfl⟩ notBack
    apply nested.ascending.findIdx_lt member (tidy.loopless edge member)
    rw [← Bool.not_eq_true]
    intro isBack
    apply notBack
    refine ⟨edge, ?_, isBack, rfl, rfl⟩
    rw [edges_lowered]
    exact member
  · intro node inside later dominates
    rw [length_nodes_lowered] at inside
    by_contra higher
    exact dominates (rooted.bypasses inside (Nat.lt_of_not_le higher))

end FlowGraph

end Reachability
