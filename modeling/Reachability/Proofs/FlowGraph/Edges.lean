import Mathlib
import Reachability.Proofs.FlowGraph.Operations

/-!
# The edges of lowered programs

Lowering adds edges only to nodes that have none: one edge alone, or two edges
with opposite assumptions at a conditional or at the head of a loop.  Apart from
blank edges, each carries an action of some statement.  Both hold of the graph
that is built in the end.
-/

namespace Reachability

namespace Draft

/-- Edges are added to a node without edges, one alone or two with opposite assumptions. -/
inductive Adds (Allowed : Action → Prop) (before after : Draft) : Prop where
  | same (edges : after.edges = before.edges)
  | single {edge : Edge} (empty : before.out edge.source = []) (allowed : Allowed edge.action)
      (edges : after.edges = before.edges ++ [edge])
  | fork {first second : Edge} {cond : Expr}
      (edges : after.edges = before.edges ++ [first, second])
      (empty : before.out first.source = []) (alike : second.source = first.source)
      (holds : first.action = .assume cond true) (fails : second.action = .assume cond false)
      (allowed : Allowed first.action) (otherAllowed : Allowed second.action)

section Adding

variable {Allowed : Action → Prop} {draft : Draft} {current pos : Nat}

theorem adds_fork {cond : Expr} (empty : draft.out current = [])
    (holds : Allowed (.assume cond true)) (fails : Allowed (.assume cond false)) :
    draft.Adds Allowed (draft.fork current cond pos) :=
  .fork (draft.edges_fork current cond pos) empty rfl rfl rfl holds fails

theorem Operation.adds {after : Draft} (operation : Operation Allowed draft after) :
    draft.Adds Allowed after := by
  cases operation with
  | label node label => exact .same (draft.size_label node label).2.1
  | extend ready _ allowed | link ready _ _ _ _ allowed => exact .single ready.empty allowed rfl
  | fork ready holds fails => exact adds_fork ready.empty holds fails
  | leave ready allowed =>
    unfold addReturn
    split
    · exact .single ready.empty allowed rfl
    · exact .single ready.empty allowed rfl

end Adding

end Draft

/-- The edges that leave a node: one at most, or two with opposite assumptions. -/
inductive Edge.Branching : List Edge → Prop where
  | none : Branching []
  | single (edge : Edge) : Branching [edge]
  | fork {first second : Edge} {cond : Expr} (holds : first.action = .assume cond true)
      (fails : second.action = .assume cond false) : Branching [first, second]

namespace Draft

variable {Allowed : Action → Prop} {before after : Draft}

theorem out_append {added : List Edge} (edges : after.edges = before.edges ++ added) (node : Nat) :
    after.out node = before.out node ++ added.filter fun edge => edge.source == node := by
  unfold out
  rw [edges, List.filter_append]

theorem Adds.branching (adds : before.Adds Allowed after)
    (branching : ∀ node, Edge.Branching (before.out node)) (node : Nat) :
    Edge.Branching (after.out node) := by
  cases adds with
  | same edges =>
    rw [out_append (edges.trans (List.append_nil _).symm), List.filter_nil, List.append_nil]
    exact branching node
  | @single edge empty _ edges =>
    rw [out_append edges, List.filter_singleton]
    by_cases here : edge.source = node
    · subst here
      rw [empty, beq_self_eq_true]
      exact .single edge
    · rw [beq_eq_false_iff_ne.mpr here, cond_false, List.append_nil]
      exact branching node
  | @fork first second _ edges empty alike holds fails _ _ =>
    rw [out_append edges, List.filter_cons, List.filter_singleton, alike]
    by_cases here : first.source = node
    · subst here
      rw [empty, beq_self_eq_true]
      exact .fork holds fails
    · rw [beq_eq_false_iff_ne.mpr here, cond_false, if_neg Bool.false_ne_true, List.append_nil]
      exact branching node

theorem Adds.allowed (adds : before.Adds Allowed after)
    (allowed : ∀ edge ∈ before.edges, Allowed edge.action) :
    ∀ edge ∈ after.edges, Allowed edge.action := by
  cases adds with
  | same edges =>
    rw [edges]
    exact allowed
  | single _ here edges =>
    rw [edges, List.forall_mem_append]
    exact ⟨allowed, by simpa using here⟩
  | fork edges _ _ _ _ here there =>
    rw [edges, List.forall_mem_append]
    exact ⟨allowed, by simpa using ⟨here, there⟩⟩

end Draft

namespace FlowGraph

variable {name : String} {program : Stmt} {graph : FlowGraph}

theorem build_adds (built : (build name program).1 = .ok graph) :
    ∃ draft : Draft, graph.edges = draft.edges ∧
      Relation.ReflTransGen (Draft.Adds (Stems program)) {} draft := by
  obtain ⟨_, isLowered, _⟩ := build_ok_iff.mp built
  refine ⟨finished (lowering program).1 (lowering program).2, ?_, ?_⟩
  · rw [isLowered, edges_lowered]
  · have adds : Draft.Operation (Stems program) ≤ Draft.Adds (Stems program) :=
      fun _ _ => Draft.Operation.adds
    apply Relation.ReflTransGen.head (b := ({} : Draft).addNode.2) (.same rfl)
    exact Relation.ReflTransGen.mono adds _ _ (finished_arises program)

theorem build_branching (built : (build name program).1 = .ok graph) (node : Nat) :
    Edge.Branching (graph.outgoing node) := by
  obtain ⟨draft, edges, adds⟩ := build_adds built
  have branching : ∀ node, Edge.Branching (draft.out node) := by
    clear edges
    induction adds with
    | refl => exact fun _ => .none
    | tail _ adds induction => exact adds.branching induction
  rw [outgoing_eq, edges]
  exact branching node

theorem build_stems (built : (build name program).1 = .ok graph) :
    ∀ edge ∈ graph.edges, Stems program edge.action := by
  obtain ⟨draft, edges, adds⟩ := build_adds built
  rw [edges]
  clear edges
  induction adds with
  | refl => simp
  | tail _ adds induction => exact adds.allowed induction

end FlowGraph

end Reachability
