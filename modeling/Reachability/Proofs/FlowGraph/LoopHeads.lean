import Mathlib
import Reachability.Proofs.FlowGraph.Heads
import Reachability.Proofs.FlowGraph.Reducible
import Reachability.Proofs.Graph.Decomposition
import Reachability.Proofs.Graph.Paths

/-!
# Loop heads

The search for loop heads takes the first node off each cyclic component and
goes on with the rest.  In the graph of an accepted program the first node of a
component is its header.  An edge that leads back to another node of the
component is not lost when the header is taken off: the way from its target to
its source does not go through the header.
-/

namespace Reachability.FlowGraph

open Relation (ReflTransGen)

variable {graph : FlowGraph} {nodes rest : List Nat} {node next head source target depth : Nat}
  {rank : Nat → Nat}

/-- The nodes among the given ones that edges lead to. -/
def inside (graph : FlowGraph) (nodes : List Nat) (node : Nat) : List Nat :=
  ((graph.outgoing node).map Edge.target).filter nodes.contains

theorem mem_inside :
    next ∈ graph.inside nodes node ↔ Edge.Joins graph.edges node next ∧ next ∈ nodes := by
  unfold inside Edge.Joins
  simp only [List.mem_filter, List.mem_map, List.contains_iff_mem, mem_outgoing, and_assoc]

theorem mem_headsAmong_succ :
    node ∈ graph.headsAmong (depth + 1) nodes ↔
      ∃ head rest, head :: rest ∈ Graph.cyclicComponents nodes.length nodes (graph.inside nodes) ∧
        (node = head ∨ node ∈ graph.headsAmong depth rest) := by
  rw [headsAmong, List.mem_flatMap]
  constructor
  · rintro ⟨component, found, member⟩
    cases component with
    | nil => cases member
    | cons head rest => exact ⟨head, rest, found, List.mem_cons.mp member⟩
  · rintro ⟨head, rest, found, member⟩
    exact ⟨head :: rest, found, List.mem_cons.mpr member⟩

/-- What is known of nodes among which heads are searched: dominating nodes come first. -/
structure Searched (graph : FlowGraph) (nodes : List Nat) : Prop where
  reached : ∀ node ∈ nodes, ReflTransGen (Edge.Joins graph.edges) graph.entry node
  ordered : nodes.Pairwise fun node later =>
    Graph.Dominates (Edge.Joins graph.edges) graph.entry later node → later = node

/-- A cyclic component among the nodes starts with its header. -/
structure Headed (graph : FlowGraph) (nodes : List Nat) (head : Nat) (rest : List Nat) : Prop where
  component : Graph.IsComponent (graph.inside nodes) (head :: rest)
  subset : head :: rest ⊆ nodes
  distinct : (head :: rest).Nodup
  searched : graph.Searched rest
  returns : ∃ source ∈ head :: rest, graph.Back source head
  dominates : ∀ node ∈ head :: rest,
    Graph.Dominates (Edge.Joins graph.edges) graph.entry head node

section Search

variable (reducible : Graph.Reducible (Edge.Joins graph.edges) graph.Back graph.entry rank)
  (searched : graph.Searched nodes)
include reducible searched

/-- The cyclic components among the nodes have headers, and contain every cycle. -/
theorem headed_components :
    (∀ head rest, head :: rest ∈ Graph.cyclicComponents nodes.length nodes (graph.inside nodes) →
      graph.Headed nodes head rest) ∧
    ∀ node ∈ nodes, Relation.TransGen (Graph.Steps (graph.inside nodes)) node node →
      ∃ head rest, node ∈ head :: rest ∧
        head :: rest ∈ Graph.cyclicComponents nodes.length nodes (graph.inside nodes) := by
  have steps : ∀ node, ∀ next ∈ graph.inside nodes node,
      Edge.Joins graph.edges node next ∧ next ∈ nodes := fun _ _ => mem_inside.mp
  have closed : ∀ node ∈ nodes.toFinset, ∀ next ∈ graph.inside nodes node, next ∈ nodes.toFinset :=
    fun node _ next isNext => List.mem_toFinset.mpr (steps node next isNext).2
  have listed : ∀ node ∈ nodes, node ∈ nodes.toFinset := fun _ => List.mem_toFinset.mpr
  obtain ⟨order, enters, decomposition, _⟩ :=
    Graph.components_spec closed listed nodes.toFinset_card_le
  have cyclic := (Graph.cyclicComponents_spec decomposition).2
  have orderly := enters.pairwise_dominates steps searched.ordered
  constructor
  · intro head rest found
    obtain ⟨isPart, cycle⟩ := (cyclic _).mp found
    have component := decomposition.components _ isPart
    have sublist := decomposition.ordered _ isPart
    have partDistinct := (enters.nodup List.nodup_nil).sublist sublist
    have partOrdered := List.pairwise_cons.mp (orderly.sublist sublist)
    have subset : head :: rest ⊆ nodes := by
      intro node member
      obtain ⟨start, isStart, reaches⟩ := enters.mem_iff.mp (sublist.subset member)
      rcases reaches.cases_tail with same | ⟨source, _, last⟩
      · exact same ▸ isStart
      · exact (steps source node last).2
    obtain ⟨header, isHeader, returns, dominates⟩ :=
      reducible.exists_header (fun node next isNext => (steps node next isNext).1) component cycle
    have isHead : header = head := by
      rcases List.mem_cons.mp isHeader with same | later
      · exact same
      · exact partOrdered.1 header later (dominates head List.mem_cons_self)
    subst isHead
    refine ⟨component, subset, partDistinct, ⟨?_, partOrdered.2⟩, returns, dominates⟩
    exact fun node member => searched.reached node (subset (List.mem_cons_of_mem _ member))
  · intro node member cycle
    have covered := (decomposition.covers node).mpr ⟨node, member, .refl⟩
    obtain ⟨part, isPart, inPart⟩ := List.mem_flatten.mp covered
    cases part with
    | nil => cases inPart
    | cons head rest => exact ⟨head, rest, inPart, (cyclic _).mpr ⟨isPart, node, inPart, cycle⟩⟩

end Search

theorem back_of_mem_headsAmong
    (reducible : Graph.Reducible (Edge.Joins graph.edges) graph.Back graph.entry rank)
    (searched : graph.Searched nodes) (member : node ∈ graph.headsAmong depth nodes) :
    ∃ source, graph.Back source node := by
  induction depth generalizing nodes with
  | zero => cases member
  | succ depth induction =>
    obtain ⟨head, rest, found, place⟩ := mem_headsAmong_succ.mp member
    have headed := (headed_components reducible searched).1 head rest found
    rcases place with isHead | later
    · obtain ⟨source, _, back⟩ := headed.returns
      exact ⟨source, isHead ▸ back⟩
    · exact induction headed.searched later

namespace Headed

/-- An edge that leads back to another node of a component than its header has a way from its target
to its source around the header: the target dominates the source, but not the header. -/
theorem avoids_head (headed : graph.Headed nodes head rest)
    (reducible : Graph.Reducible (Edge.Joins graph.edges) graph.Back graph.entry rank)
    (searched : graph.Searched nodes) (back : graph.Back source target) (member : target ∈ rest)
    (reaches : Graph.Reaches (graph.inside nodes) target source) :
    ReflTransGen (Graph.Avoids (Graph.Steps (graph.inside nodes)) head) target source := by
  rcases Graph.avoids_or_last_visit head reaches with around | fromHead
  · exact around
  rcases Graph.avoids_or_last_visit target fromHead with without | again
  · exfalso
    apply (reducible.returns source target back).2
    have bypasses : Graph.Bypasses (Edge.Joins graph.edges) graph.entry target head := by
      by_contra dominates
      have same := (headed.dominates target (List.mem_cons_of_mem _ member)).antisymm dominates
        (searched.reached head (headed.subset List.mem_cons_self))
      exact (List.nodup_cons.mp headed.distinct).1 (same ▸ member)
    refine ⟨bypasses.starts, bypasses.reaches.trans ?_⟩
    apply ReflTransGen.mono _ _ _ without
    intro first second avoids
    exact ⟨(mem_inside.mp avoids.1.1).1, avoids.2⟩
  · exact Graph.reaches_of_avoids again

/-- A way around the header stays in the rest of its component. -/
theorem reaches_rest (headed : graph.Headed nodes head rest) (member : node ∈ head :: rest)
    (isTarget : target ∈ head :: rest)
    (reaches : ReflTransGen (Graph.Avoids (Graph.Steps (graph.inside nodes)) head) node target) :
    Graph.Reaches (graph.inside rest) node target := by
  induction reaches using ReflTransGen.head_induction_on with
  | refl => exact .refl
  | @head node next first others induction =>
    have isNext := headed.component.mem_of_step member first.1 target isTarget
      (Graph.reaches_of_avoids others)
    apply ReflTransGen.head _ (induction isNext)
    apply mem_inside.mpr
    refine ⟨(mem_inside.mp first.1).1, ?_⟩
    rcases List.mem_cons.mp isNext with isHead | inRest
    · exact absurd isHead first.2
    · exact inRest

end Headed

/-- Every node of a cycle that an edge leads back to is found, if the search is not cut off. -/
theorem mem_headsAmong
    (reducible : Graph.Reducible (Edge.Joins graph.edges) graph.Back graph.entry rank)
    (searched : graph.Searched nodes) (back : graph.Back source target) (member : target ∈ nodes)
    (reaches : Graph.Reaches (graph.inside nodes) target source) (enough : nodes.length ≤ depth) :
    target ∈ graph.headsAmong depth nodes := by
  induction depth generalizing nodes with
  | zero =>
    rw [List.length_eq_zero_iff.mp (Nat.le_zero.mp enough)] at member
    cases member
  | succ depth induction =>
    have returns : Graph.Steps (graph.inside nodes) source target :=
      mem_inside.mpr ⟨(reducible.returns source target back).1, member⟩
    obtain ⟨headed, found⟩ := headed_components reducible searched
    obtain ⟨head, rest, isTarget, isPart⟩ := found target member (.tail' reaches returns)
    replace headed := headed head rest isPart
    apply mem_headsAmong_succ.mpr
    refine ⟨head, rest, isPart, ?_⟩
    rcases List.mem_cons.mp isTarget with isHead | inRest
    · exact .inl isHead
    · right
      have isSource := (headed.component.connected target isTarget source).mpr
        ⟨reaches, .single returns⟩
      have around := headed.avoids_head reducible searched back inRest reaches
      apply induction headed.searched inRest (headed.reaches_rest isTarget isSource around)
      have shorter : rest.length < nodes.length :=
        (headed.distinct.subperm headed.subset).length_le
      exact Nat.le_of_lt_succ (Nat.lt_of_lt_of_le shorter enough)

section Built

variable {name : String} {program : Stmt} (built : (build name program).1 = .ok graph)
include built

theorem build_searched : graph.Searched (graph.nodes.map Node.id) := by
  obtain ⟨_, lower⟩ := build_reducible built
  obtain ⟨_, rfl, _⟩ := build_ok_iff.mp built
  have tidy := lowered_tidy name program
  rw [Network.numbered]
  constructor
  · exact fun node member => tidy.connected node (List.mem_range.mp member)
  · apply List.pairwise_lt_range.imp_of_mem
    intro node later member _ less dominates
    exact absurd (lower node (List.mem_range.mp member) later dominates) (Nat.not_le.mpr less)

theorem mem_loopHeads : node ∈ graph.loopHeads ↔ ∃ source, graph.Back source node := by
  obtain ⟨reducible, _⟩ := build_reducible built
  have searched := build_searched built
  have simple := build_simple built
  have listed : ∀ node, node < graph.nodes.length → node ∈ graph.nodes.map Node.id := by
    obtain ⟨_, rfl, _⟩ := build_ok_iff.mp built
    rw [Network.numbered]
    exact fun node => List.mem_range.mpr
  unfold loopHeads
  dsimp only
  rw [List.mem_filter, List.contains_iff_mem]
  constructor
  · rintro ⟨_, isHead⟩
    exact back_of_mem_headsAmong reducible searched isHead
  · rintro ⟨source, back⟩
    obtain ⟨⟨edge, member, rfl, rfl⟩, dominates⟩ := reducible.returns source node back
    obtain ⟨isSource, isTarget⟩ := simple.bounded edge member
    refine ⟨listed edge.target isTarget, ?_⟩
    apply mem_headsAmong reducible searched back (listed edge.target isTarget)
    · have reaches := dominates.reaches (searched.reached edge.source (listed edge.source isSource))
      apply ReflTransGen.mono _ _ _ reaches
      rintro first second ⟨other, isOther, rfl, rfl⟩
      exact mem_inside.mpr ⟨⟨other, isOther, rfl, rfl⟩, listed _ (simple.bounded other isOther).2⟩
    · rw [List.length_map]

/-- The heads of all live loops, in the order of the statements, and which of them are led back
to. -/
theorem build_heads :
    ∃ heads : List Nat, heads.Pairwise (· < ·) ∧
      List.Forall₂ (fun head stmt => graph.HeadOf head stmt ∧
        (head ∈ graph.loopHeads ↔ stmt.comesBack = true)) heads (program.live.filter Stmt.isLoop) ∧
      ∀ head ∈ graph.loopHeads, head ∈ heads := by
  obtain ⟨accepted, isLowered, _⟩ := build_ok_iff.mp built
  have persists : (lowering program).2.Persists graph := by
    rw [isLowered]
    exact (finished_persists name (lowering_lowers program)).1
  obtain ⟨heads, added⟩ := (lowering_passage accepted).exists_heads (by simp [JumpTargets.Within])
    persists
  have returned : ∀ node, (lowering program).2.Returned node ↔ node ∈ graph.loopHeads := by
    intro node
    rw [mem_loopHeads built]
    have same : (finished (lowering program).1 (lowering program).2).Returned node ↔
        (lowering program).2.Returned node := by
      unfold finished
      split
      · exact Draft.returned_addEdge_forward rfl
      · exact Iff.rfl
    rw [← same]
    unfold Draft.Returned Back
    rw [isLowered, edges_lowered]
    constructor
    · rintro ⟨edge, member, isBack, isTarget⟩
      exact ⟨edge.source, edge, member, isBack, rfl, isTarget⟩
    · rintro ⟨_, edge, member, isBack, _, isTarget⟩
      exact ⟨edge, member, isBack, isTarget⟩
  refine ⟨heads, added.increasing, ?_, ?_⟩
  · simp only [← returned]
    exact added.tied
  · intro head isHead
    rcases added.complete head ((returned head).mpr isHead) with member | ⟨_, impossible, _⟩ | jumps
    · exact member
    · cases impossible
    · obtain ⟨_, impossible, _⟩ := jumps
      cases impossible

theorem loopHeads_increasing : graph.loopHeads.Pairwise (· < ·) := by
  obtain ⟨_, rfl, _⟩ := build_ok_iff.mp built
  unfold loopHeads
  dsimp only
  rw [Network.numbered]
  exact List.pairwise_lt_range.filter _

/-- The loop heads are the heads of the live loops that can come back to their condition. -/
theorem forall₂_loopHeads :
    List.Forall₂ graph.HeadOf graph.loopHeads (program.live.filter Stmt.comesBack) := by
  obtain ⟨heads, increasing, tied, complete⟩ := build_heads built
  have kept : heads.filter graph.loopHeads.contains = graph.loopHeads := by
    apply List.Pairwise.eq_of_mem_iff (increasing.filter _) (loopHeads_increasing built)
    intro head
    rw [List.mem_filter, List.contains_iff_mem]
    exact and_iff_right_of_imp (complete head)
  have loops : (program.live.filter Stmt.isLoop).filter Stmt.comesBack =
      program.live.filter Stmt.comesBack := by
    rw [List.filter_filter]
    apply List.filter_congr
    intro stmt _
    cases stmt with
    | loop span cond body => simp [Stmt.isLoop]
    | _ => rfl
  rw [← kept, ← loops]
  have filtered := List.rel_filter (p := graph.loopHeads.contains) (q := Stmt.comesBack)
    (fun head stmt (ties : graph.HeadOf head stmt ∧ (head ∈ graph.loopHeads ↔ _)) =>
      List.contains_iff_mem.trans ties.2) tied
  exact filtered.imp fun _ _ ties => ties.1

end Built

/-- A path along edges that lead on only ascends. -/
theorem exists_back_or_rank_le {path : List Nat} {start : Nat}
    (reducible : Graph.Reducible (Edge.Joins graph.edges) graph.Back graph.entry rank)
    (isPath : Graph.IsPath (Edge.Joins graph.edges) start target path) :
    (∃ head ∈ path, ∃ source, graph.Back source head) ∨
      rank start + path.length ≤ rank target + 1 := by
  induction path generalizing start with
  | nil => cases isPath.starts
  | cons first others induction =>
    cases isPath.starts
    cases others with
    | nil =>
      cases isPath.ends
      exact .inr (Nat.le_refl _)
    | cons second others =>
      obtain ⟨leads, later⟩ := isPath.tail
      by_cases back : graph.Back first second
      · exact .inl ⟨second, List.mem_cons_of_mem _ List.mem_cons_self, first, back⟩
      · have less := reducible.ascends first second leads back
        rcases induction later with ⟨head, member, returns⟩ | bound
        · exact .inl ⟨head, List.mem_cons_of_mem _ member, returns⟩
        · rw [List.length_cons]
          exact .inr (by omega)

/-- The loop heads of a program are numbered in increasing order.  They are the nodes that edges
lead back to, at the end of a body or at a jump, and the heads of the live loops that can come back
to their condition, in the order of the statements.  Every cycle goes through one of them. -/
theorem loopHeads_are_loops {name : String} {program : Stmt}
    (built : (build name program).1 = .ok graph) :
    graph.loopHeads.Pairwise (· < ·) ∧
      (∀ node, node ∈ graph.loopHeads ↔ ∃ edge ∈ graph.edges,
        (edge.action = .blank "loop" ∨ edge.action = .blank "continue") ∧ edge.target = node) ∧
      List.Forall₂ graph.HeadOf graph.loopHeads (program.live.filter Stmt.comesBack) ∧
      ∀ node cycle, Graph.IsPath (Edge.Joins graph.edges) node node cycle → 1 < cycle.length →
        ∃ head ∈ cycle, head ∈ graph.loopHeads := by
  obtain ⟨reducible, _⟩ := build_reducible built
  refine ⟨loopHeads_increasing built, ?_, forall₂_loopHeads built, ?_⟩
  · intro node
    rw [mem_loopHeads built]
    constructor
    · rintro ⟨_, edge, member, isBack, _, isTarget⟩
      exact ⟨edge, member, Edge.isBack_iff.mp isBack, isTarget⟩
    · rintro ⟨edge, member, isBack, isTarget⟩
      exact ⟨edge.source, edge, member, Edge.isBack_iff.mpr isBack, rfl, isTarget⟩
  · intro node cycle isPath several
    rcases exists_back_or_rank_le reducible isPath with ⟨head, member, returns⟩ | bound
    · exact ⟨head, member, (mem_loopHeads built).mpr returns⟩
    · omega

/-- A loop that contains one with jumps only, one that never comes back and a plain one. -/
def loopsWithin : Stmt :=
  .block {} [
    .loop {} (.var 0 "x")
      (.block {} [
        .loop {} (.var 0 "y") (.branch {} (.var 0 "z") (.cont {}) (.brk {})),
        .loop {} (.var 0 "z") (.ret {}),
        .loop {} (.var 0 "z") (.skip {}),
        .cont {}]),
    .skip {}]

/-- Three of the four loops have loop heads; nothing leads back to node 9, the head of the other
one. -/
theorem loopHeads_are_loops_loopsWithin :
    ∃ graph, (build "loops" loopsWithin).1 = .ok graph ∧ graph.loopHeads = [1, 4, 13] ∧
      List.Forall₂ graph.HeadOf [1, 4, 13] (loopsWithin.live.filter Stmt.comesBack) ∧
      ¬∃ edge ∈ graph.edges,
        (edge.action = .blank "loop" ∨ edge.action = .blank "continue") ∧ edge.target = 9 := by
  have built : (build "loops" loopsWithin).1 = .ok (lowered "loops" loopsWithin) :=
    build_ok_iff.mpr ⟨by cbv, rfl, lowered_faultless _ _⟩
  have heads : (lowered "loops" loopsWithin).loopHeads = [1, 4, 13] := by cbv
  obtain ⟨_, returns, tied, _⟩ := loopHeads_are_loops built
  rw [heads] at tied
  refine ⟨_, built, heads, tied, ?_⟩
  rw [← returns 9, heads]
  decide

end Reachability.FlowGraph
