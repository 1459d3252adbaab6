import Mathlib
import Reachability.Proofs.FlowGraph.Passage
import Reachability.Proofs.Graph.Dominance

/-!
# Nesting of loops

Whatever dominates the node from which a draft grows dominates all that is added.
So the head of a loop dominates every node where control can be in its body, and
an edge that leads back to the head opens no way around any node.  All other
edges lead to nodes that no edge leaves yet.
-/

namespace Reachability

/-- Actions of the edges that lead back to the head of a loop, at the end of the body or at a
jump. -/
def Action.isBack : Action → Bool
  | blank description => description = "loop" || description = "continue"
  | _ => false

def Edge.isBack (edge : Edge) : Bool := edge.action.isBack

theorem Edge.isBack_iff {edge : Edge} :
    edge.isBack = true ↔ edge.action = .blank "loop" ∨ edge.action = .blank "continue" := by
  unfold isBack
  cases edge.action with
  | blank description => simp [Action.isBack]
  | _ => simp [Action.isBack]

def Edge.Joins (edges : List Edge) (source target : Nat) : Prop :=
  ∃ edge ∈ edges, edge.source = source ∧ edge.target = target

namespace Draft

section Edges

variable {draft : Draft} {source target pos : Nat} {action : Action} {edge : Edge}

theorem mem_edges_addEdge :
    edge ∈ (draft.addEdge source target action pos).edges ↔
      edge ∈ draft.edges ∨ edge = { id := draft.edges.length, source, target, action, pos } := by
  unfold addEdge Network.addEdge
  rw [List.mem_append, List.mem_singleton]

theorem mem_edges_extend :
    edge ∈ (draft.extend source action pos).2.edges ↔
      edge ∈ draft.edges ∨
        edge = { id := draft.edges.length, source, target := draft.size, action, pos } :=
  mem_edges_addEdge

end Edges

/-- Every way from the first node to another one goes through `head`. -/
abbrev Dominates (draft : Draft) (head node : Nat) : Prop :=
  Graph.Dominates (Edge.Joins draft.edges) 0 head node

section Dominates

variable {draft before after : Draft} {head node source target pos : Nat} {action : Action}

/-- A way around what dominates the node from which a draft grows never leaves what was there
before. -/
theorem Grows.dominates (grows : before.Grows source after) (sound : before.Sound)
    (positive : 0 < before.size) (dominates : before.Dominates head source)
    (known : before.Dominates head node ∨ before.size ≤ node) : after.Dominates head node := by
  rintro ⟨starts, reaches⟩
  obtain ⟨added, edges, sources⟩ := grows.edges
  have stays : node < before.size ∧
      Relation.ReflTransGen (Graph.Avoids (Edge.Joins before.edges) head) 0 node := by
    clear known
    induction reaches with
    | refl => exact ⟨positive, .refl⟩
    | tail _ last induction =>
      obtain ⟨⟨edge, member, rfl, rfl⟩, apart⟩ := last
      rw [edges] at member
      rcases List.mem_append.mp member with old | new
      · exact ⟨(sound.edges edge old).2.2, induction.2.tail ⟨⟨edge, old, rfl, rfl⟩, apart⟩⟩
      · rcases sources edge new with isSource | fresh
        · exact absurd ⟨starts, isSource ▸ induction.2⟩ dominates
        · exact absurd induction.1 (Nat.not_lt.mpr fresh)
  rcases known with dominated | fresh
  · exact dominated ⟨starts, stays.2⟩
  · exact absurd stays.1 (Nat.not_lt.mpr fresh)

/-- An edge to a node that no edge leaves opens no way to a node that some edge leaves. -/
theorem Dominates.addEdge_on (dominates : draft.Dominates head node) (empty : draft.out target = [])
    (left : draft.out node ≠ []) :
    (draft.addEdge source target action pos).Dominates head node := by
  rintro ⟨starts, reaches⟩
  have unused : node = target ∨
      Relation.ReflTransGen (Graph.Avoids (Edge.Joins draft.edges) head) 0 node := by
    clear dominates left
    induction reaches with
    | refl => exact .inr .refl
    | tail _ last induction =>
      obtain ⟨⟨edge, member, rfl, rfl⟩, apart⟩ := last
      rcases mem_edges_addEdge.mp member with old | rfl
      · have reaches := induction.resolve_left (source_ne_of_out empty old)
        exact .inr (reaches.tail ⟨⟨edge, old, rfl, rfl⟩, apart⟩)
      · exact .inl rfl
  rcases unused with rfl | reaches
  · exact left empty
  · exact dominates ⟨starts, reaches⟩

/-- An edge to a node that dominates where it starts opens no way around any node. -/
theorem Dominates.addEdge_back (dominates : draft.Dominates head node)
    (returns : draft.Dominates target source) :
    (draft.addEdge source target action pos).Dominates head node := by
  rintro ⟨starts, reaches⟩
  apply dominates
  refine ⟨starts, ?_⟩
  clear dominates
  induction reaches with
  | refl => exact .refl
  | tail _ last induction =>
    obtain ⟨⟨edge, member, rfl, rfl⟩, apart⟩ := last
    rcases mem_edges_addEdge.mp member with old | rfl
    · exact induction.tail ⟨⟨edge, old, rfl, rfl⟩, apart⟩
    · exact returns.visits (fun _ _ avoids => avoids.1) induction

end Dominates

/-- Where an edge may lead: on to a node that no edge leaves, or back to one that dominates its
source. -/
inductive Leads (draft : Draft) (source target : Nat) (action : Action) : Prop where
  | on (forward : action.isBack = false) (empty : draft.out target = [])
  | back (isBack : action.isBack = true) (dominates : draft.Dominates target source)

/-- The way out of the loop around a statement has not been taken on, and the head of the loop
dominates where control is. -/
def Opens (targets : Option JumpTargets) (draft : Draft) (current : Nat) : Prop :=
  ∀ jumps, targets = some jumps →
    (draft.Ready jumps.exit ∧ jumps.exit ≠ current) ∧ draft.Dominates jumps.header current

section Opens

variable {targets : Option JumpTargets} {draft after : Draft} {current : Nat}

theorem Opens.label (opens : Opens targets draft current) (text : String) :
    Opens targets (draft.label current text) current := by
  intro jumps inside
  obtain ⟨⟨ready, apart⟩, dominates⟩ := opens jumps inside
  refine ⟨⟨ready.label current text, apart⟩, ?_⟩
  rw [Dominates, (draft.size_label current text).2.1]
  exact dominates

theorem Opens.grown {next : Nat} (opens : Opens targets draft current) (sound : draft.Sound)
    (grows : draft.Grows current after) (own : next = current ∨ draft.size ≤ next) :
    Opens targets after next := by
  intro jumps inside
  obtain ⟨⟨ready, apart⟩, dominates⟩ := opens jumps inside
  constructor
  · refine ⟨grows.ready ready apart, ?_⟩
    rcases own with rfl | fresh
    · exact apart
    · exact Nat.ne_of_lt (Nat.lt_of_lt_of_le ready.bound fresh)
  · apply grows.dominates sound (Nat.zero_lt_of_lt ready.bound) dominates
    rcases own with rfl | fresh
    · exact .inl dominates
    · exact .inr fresh

section Forks

variable {forked : Draft} {left right : Nat} (forks : draft.Forks current forked left right)
  (sound : draft.Sound) (opens : Opens targets draft current)

include forks sound opens

theorem Forks.opens_left : Opens targets forked left :=
  opens.grown sound forks.grows (.inr forks.leftFresh)

theorem Forks.opens_right {leftEnd : Option Nat} (lowers : forked.Lowers left (leftEnd, after)) :
    Opens targets after right := by
  have grows := forks.grows.trans lowers.grows (.inr forks.leftFresh)
  exact opens.grown sound grows (.inr forks.rightFresh)

end Forks

/-- The head of a loop dominates where its body starts. -/
theorem opens_openLoop (sound : draft.Sound) (ready : draft.Ready current) (cond : Expr)
    (pos : Nat) :
    Opens (some { header := draft.size, exit := draft.size + 2 })
      (draft.openLoop current cond pos) (draft.size + 1) := by
  obtain ⟨enters, forks⟩ := forks_loop sound ready cond pos
  have positive := Nat.zero_lt_of_lt (enters.finish _ rfl).1.bound
  rintro jumps ⟨⟩
  refine ⟨⟨forks.rightReady, forks.different.symm⟩, ?_⟩
  exact forks.grows.dominates enters.sound positive (.refl _ _ _) (.inr forks.leftFresh)

end Opens

end Draft

end Reachability
