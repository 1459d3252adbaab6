import Mathlib
import Reachability.Proofs.FlowGraph.Edges
import Reachability.Proofs.FlowGraph.Encoding
import Reachability.Proofs.Graph.Reachable

/-!
# Well-formed control-flow graphs

The operations of lowering keep the edges of a draft tidy: they are numbered in
order, none leads back to where it starts, two nodes are joined by one edge at
most, and every node can be reached from the first one.  This holds for any
tree, so the checks on a lowered graph never fail.  For an accepted tree, the
only node left without outgoing edges is the exit.
-/

namespace Reachability

namespace Edge

/-- What holds of the edges between `size` nodes while a program is lowered. -/
structure Tidy (edges : List Edge) (size : Nat) : Prop where
  ids : edges.map Edge.id = List.range edges.length
  loopless : ∀ edge ∈ edges, edge.source ≠ edge.target
  distinct : edges.Pairwise fun first second =>
    first.source = second.source → first.target ≠ second.target
  connected : ∀ node < size, Relation.ReflTransGen (Joins edges) 0 node

section Tidy

variable {edges : List Edge} {size : Nat} {edge : Edge}

theorem Joins.append {source target : Nat} (joins : Joins edges source target)
    (added : List Edge) : Joins (edges ++ added) source target := by
  obtain ⟨found, member, ends⟩ := joins
  exact ⟨found, List.mem_append_left _ member, ends⟩

theorem Tidy.connected_append (tidy : Tidy edges size) (added : List Edge) {node : Nat}
    (bound : node < size) : Relation.ReflTransGen (Joins (edges ++ added)) 0 node := by
  have keeps : Joins edges ≤ Joins (edges ++ added) := fun _ _ joins => joins.append added
  exact Relation.ReflTransGen.mono keeps _ _ (tidy.connected node bound)

theorem Tidy.append {larger : Nat} (tidy : Tidy edges size) (id : edge.id = edges.length)
    (different : edge.source ≠ edge.target) (bound : edge.source < size)
    (new : ∀ other ∈ edges, other.source = edge.source → other.target ≠ edge.target)
    (grown : ∀ node < larger, node < size ∨ node = edge.target) :
    Tidy (edges ++ [edge]) larger := by
  constructor
  · rw [List.map_append, tidy.ids, List.length_append, List.length_singleton, List.range_succ, ← id]
    rfl
  · rw [List.forall_mem_append, List.forall_mem_singleton]
    exact ⟨tidy.loopless, different⟩
  · rw [List.pairwise_append]
    refine ⟨tidy.distinct, List.pairwise_singleton _ _, ?_⟩
    intro other member last isLast
    rw [List.mem_singleton.mp isLast]
    exact new other member
  · intro node below
    rcases grown node below with old | rfl
    · exact tidy.connected_append [edge] old
    · apply Relation.ReflTransGen.tail (tidy.connected_append [edge] bound)
      exact ⟨edge, by simp, rfl, rfl⟩

end Tidy

end Edge

namespace Draft

variable {Allowed : Action → Prop} {before after : Draft}

theorem Operation.sound (operation : Operation Allowed before after) (sound : before.Sound) :
    after.Sound := by
  cases operation with
  | label node label => exact sound.label node label
  | extend ready _ _ => exact sound.extend ready.bound ready.notExit
  | fork ready _ _ => exact (forks_extend sound ready.bound ready.notExit _ _ _).sound
  | link ready positive bound _ _ _ => exact sound.addEdge ready.bound positive bound ready.notExit
  | leave ready _ => exact (Lowers.addReturn sound ready _).sound

section Tidy

variable {draft : Draft} {source target pos : Nat} {action : Action}

theorem Sound.tidy_extend (sound : draft.Sound) (tidy : Edge.Tidy draft.edges draft.size)
    (bound : source < draft.size) :
    Edge.Tidy (draft.extend source action pos).2.edges (draft.size + 1) := by
  refine tidy.append rfl (Nat.ne_of_lt bound) bound ?_ ?_
  · intro other member _
    exact Nat.ne_of_lt (sound.edges other member).2.2
  · intro node below
    exact Nat.lt_succ_iff_lt_or_eq.mp below

theorem Ready.tidy_addEdge (ready : draft.Ready source) (tidy : Edge.Tidy draft.edges draft.size)
    (apart : target ≠ source) :
    Edge.Tidy (draft.addEdge source target action pos).edges draft.size := by
  refine tidy.append rfl apart.symm ready.bound ?_ (fun _ below => .inl below)
  exact fun other member leaves => absurd leaves (source_ne_of_out ready.empty member)

end Tidy

theorem Operation.tidy (operation : Operation Allowed before after) (sound : before.Sound)
    (tidy : Edge.Tidy before.edges before.size) : Edge.Tidy after.edges after.size := by
  cases operation with
  | label node label =>
    obtain ⟨size, edges, _⟩ := before.size_label node label
    rw [size, edges]
    exact tidy
  | @extend source pos action ready _ _ =>
    rw [size_extend]
    exact sound.tidy_extend tidy ready.bound
  | @fork source pos cond ready _ _ =>
    have once : Edge.Tidy (before.extend source (.assume cond true) pos).2.edges
        (before.extend source (.assume cond true) pos).2.size := by
      rw [size_extend]
      exact sound.tidy_extend tidy ready.bound
    have onceSound : (before.extend source (.assume cond true) pos).2.Sound :=
      sound.extend ready.bound ready.notExit
    rw [size_extend]
    apply onceSound.tidy_extend once
    rw [size_extend]
    exact Nat.lt_succ_of_lt ready.bound
  | link ready _ _ apart _ _ => exact ready.tidy_addEdge tidy apart
  | @leave source pos ready _ =>
    unfold addReturn
    split
    · rename_i exit isExit
      apply ready.tidy_addEdge tidy
      rintro rfl
      exact ready.notExit isExit
    · have size : before.addNode.2.size = before.size + 1 := size_addNode before
      exact size ▸ sound.tidy_extend tidy ready.bound

theorem Arises.tidy (arises : Arises Allowed before after) (sound : before.Sound)
    (tidy : Edge.Tidy before.edges before.size) :
    after.Sound ∧ Edge.Tidy after.edges after.size := by
  induction arises with
  | refl => exact ⟨sound, tidy⟩
  | tail _ operation induction =>
    exact ⟨operation.sound induction.1, operation.tidy induction.1 induction.2⟩

section Ready

variable {draft : Draft} {node source target pos : Nat} {action : Action}

theorem ready_of_label {label : String} (ready : (draft.label source label).Ready node) :
    draft.Ready node := by
  obtain ⟨size, edges, exit⟩ := draft.size_label source label
  constructor
  · rw [← size]
    exact ready.bound
  · unfold out
    rw [← edges]
    exact ready.empty
  · rw [← exit]
    exact ready.notExit

theorem ready_of_addEdge (ready : (draft.addEdge source target action pos).Ready node) :
    draft.Ready node ∧ node ≠ source := by
  have empty := ready.empty
  rw [out_addEdge] at empty
  split at empty
  · simp at empty
  · rename_i other
    exact ⟨⟨ready.bound, empty, ready.notExit⟩, other⟩

theorem ready_of_addNode (ready : draft.addNode.2.Ready node) :
    draft.Ready node ∨ node = draft.size := by
  have bound := ready.bound
  rw [size_addNode] at bound
  rcases Nat.lt_succ_iff_lt_or_eq.mp bound with old | new
  · exact .inl ⟨old, ready.empty, ready.notExit⟩
  · exact .inr new

theorem ready_of_extend (ready : (draft.extend source action pos).2.Ready node) :
    draft.Ready node ∧ node ≠ source ∨ node = draft.size := by
  obtain ⟨before, other⟩ := ready_of_addEdge ready
  rcases ready_of_addNode before with old | new
  · exact .inl ⟨old, other⟩
  · exact .inr new

theorem ready_of_addReturn (ready : (draft.addReturn source pos).Ready node) :
    draft.Ready node ∧ node ≠ source := by
  unfold addReturn at ready
  split at ready
  · exact ready_of_addEdge ready
  · rename_i noExit
    obtain ⟨before, other⟩ := ready_of_addEdge ready
    have notNew : draft.size ≠ node := fun same => before.notExit (congrArg some same)
    have bound : node < draft.addNode.2.size := before.bound
    rw [size_addNode] at bound
    refine ⟨⟨by omega, before.empty, ?_⟩, other⟩
    rw [noExit]
    simp

theorem ready_of_addBlankFrom {finish : Option Nat} {description : String}
    (ready : (draft.addBlankFrom finish target description).Ready node) :
    draft.Ready node ∧ finish ≠ some node := by
  cases finish with
  | none => exact ⟨ready, by simp⟩
  | some last =>
    obtain ⟨before, other⟩ := ready_of_addEdge ready
    exact ⟨before, fun same => other (Option.some.inj same).symm⟩

end Ready

/-- All control that lowering has led from a node is led on, up to where it arrives.  Outside of
loops it can only be led to the exit. -/
structure Settles (targets : Option JumpTargets) (current : Nat) (before : Draft)
    (result : Option Nat × Draft) : Prop where
  ready : ∀ node, result.2.Ready node →
    result.1 = some node ∨ before.Ready node ∧ node ≠ current
  exit : result.1 = none → targets = none → result.2.exit ≠ none

section Settles

variable {targets : Option JumpTargets} {current : Nat} {draft : Draft}
  {result : Option Nat × Draft}

theorem Settles.of_label (label : String)
    (settles : (draft.label current label).Settles targets current result) :
    draft.Settles targets current result := by
  refine ⟨?_, settles.exit⟩
  intro node ready
  rcases settles.ready node ready with arrives | ⟨before, other⟩
  · exact .inl arrives
  · exact .inr ⟨ready_of_label before, other⟩

theorem Settles.trans {next : Nat} {middle : Draft}
    (first : draft.Settles targets current (some next, middle))
    (second : middle.Settles targets next result) : draft.Settles targets current result := by
  refine ⟨?_, second.exit⟩
  intro node ready
  rcases second.ready node ready with arrives | ⟨between, other⟩
  · exact .inl arrives
  · rcases first.ready node between with same | before
    · exact absurd (Option.some.inj same).symm other
    · exact .inr before

theorem settles_refl (draft : Draft) (current : Nat) :
    draft.Settles targets current (some current, draft) := by
  refine ⟨?_, by simp⟩
  intro node ready
  by_cases here : node = current
  · exact .inl (congrArg some here.symm)
  · exact .inr ⟨ready, here⟩

theorem settles_extend (draft : Draft) (current : Nat) (action : Action) (pos : Nat) :
    draft.Settles targets current (some draft.size, (draft.extend current action pos).2) := by
  refine ⟨?_, by simp⟩
  intro node ready
  rcases ready_of_extend ready with old | rfl
  · exact .inr old
  · exact .inl rfl

theorem settles_jump {jumps : JumpTargets} (draft : Draft) (current target : Nat) (action : Action)
    (pos : Nat) :
    draft.Settles (some jumps) current (none, draft.addEdge current target action pos) :=
  ⟨fun _ ready => .inr (ready_of_addEdge ready), by simp⟩

theorem settles_addReturn (draft : Draft) (current pos : Nat) :
    draft.Settles targets current (none, draft.addReturn current pos) := by
  refine ⟨fun _ ready => .inr (ready_of_addReturn ready), ?_⟩
  intro _ _
  unfold addReturn
  split
  · rename_i exit found
    simp [addEdge, found]
  · simp [addEdge]

end Settles

section Branches

variable {targets inner : Option JumpTargets} {stmt : Stmt} {current pos : Nat}
  {draft after afterNo : Draft} {cond : Expr} {finish noEnd : Option Nat}

theorem ready_of_fork {node : Nat} (ready : (draft.fork current cond pos).Ready node) :
    (draft.Ready node ∧ node ≠ current) ∨ node = draft.size ∨ node = draft.size + 1 := by
  rcases ready_of_extend ready with ⟨once, _⟩ | second
  · rcases ready_of_extend once with before | first
    · exact .inl before
    · exact .inr (.inl first)
  · rw [size_extend] at second
    exact .inr (.inr second)

/-- One of two ways is lowered and led on to a node that exists, the other one is left open. -/
theorem Settles.secondOpen
    (settles : (draft.fork current cond pos).Settles inner draft.size (finish, after))
    (target : Nat) (description : String) :
    draft.Settles targets current
      (some (draft.size + 1), after.addBlankFrom finish target description) := by
  refine ⟨?_, by simp⟩
  intro node ready
  obtain ⟨lowered, notEnd⟩ := ready_of_addBlankFrom ready
  rcases settles.ready node lowered with arrives | ⟨forked, notFirst⟩
  · exact absurd arrives notEnd
  · rcases ready_of_fork forked with before | first | rfl
    · exact .inr before
    · exact absurd first notFirst
    · exact .inl rfl

theorem Settles.both
    (yesSettles : (draft.fork current cond pos).Settles targets draft.size (finish, after))
    (noSettles : after.Settles targets (draft.size + 1) (noEnd, afterNo)) {node : Nat}
    (ready : afterNo.Ready node) :
    (finish = some node ∨ noEnd = some node) ∨ draft.Ready node ∧ node ≠ current := by
  rcases noSettles.ready node ready with arrives | ⟨lowered, notSecond⟩
  · exact .inl (.inr arrives)
  · rcases yesSettles.ready node lowered with arrives | ⟨forked, notFirst⟩
    · exact .inl (.inl arrives)
    · rcases ready_of_fork forked with before | first | second
      · exact .inr before
      · exact absurd first notFirst
      · exact absurd second notSecond

theorem Settles.join
    (yesSettles : (draft.fork current cond pos).Settles targets draft.size (finish, after))
    (noSettles : after.Settles targets (draft.size + 1) (noEnd, afterNo)) :
    draft.Settles targets current (afterNo.join finish noEnd) := by
  unfold Draft.join
  split
  · rename_i neither
    rw [Bool.and_eq_true, Option.isNone_iff_eq_none, Option.isNone_iff_eq_none] at neither
    obtain ⟨rfl, rfl⟩ := neither
    refine ⟨?_, fun _ => noSettles.exit rfl⟩
    intro node ready
    rcases yesSettles.both noSettles ready with (isYes | isNo) | before
    · cases isYes
    · cases isNo
    · exact .inr before
  · refine ⟨?_, by simp⟩
    intro node ready
    obtain ⟨once, notNo⟩ := ready_of_addBlankFrom ready
    obtain ⟨joined, notYes⟩ := ready_of_addBlankFrom once
    rcases ready_of_addNode joined with lowered | rfl
    · rcases yesSettles.both noSettles lowered with (isYes | isNo) | before
      · exact absurd isYes notYes
      · exact absurd isNo notNo
      · exact .inr before
    · exact .inl rfl

/-- Lowering an accepted statement leaves no control behind. -/
theorem Passage.settles (passage : Passage False targets stmt draft current finish after) :
    draft.Settles targets current (finish, after) := by
  induction passage with
  | label text _ induction => exact induction.of_label text
  | blockEnd _ _ => exact settles_refl _ _
  | blockNext _ _ first rest => exact first.trans rest
  | blockStop _ first => exact first
  | action _ _ _ => exact settles_extend ..
  | branchOpen _ _ _ yes => exact yes.secondOpen _ _
  | branch _ _ _ _ _ yes no => exact yes.join no
  | @loop _ span _ _ draft _ current _ _ _ _ body =>
    apply Settles.trans (settles_extend draft current (.blank "while") span.pos)
    have entered := size_extend draft current (.blank "while") span.pos
    rw [← entered] at body
    have left : draft.size + 2 = (draft.extend current (.blank "while") span.pos).2.size + 1 := by
      rw [entered]
    rw [left]
    exact body.secondOpen _ _
  | ret _ _ => exact settles_addReturn ..
  | brk _ _ _ _ _ | cont _ _ _ _ _ => exact settles_jump ..
  | stray _ admitted => exact admitted.elim

end Branches

end Draft

namespace FlowGraph

/-- A control-flow graph as it must be: numbers are positions, edges lie between nodes and are
listed where they leave and where they arrive, two nodes are joined by one edge at most and a node
never with itself.  Nothing leads to the entry, everything can be reached from it, and only at the
exit does nothing go on.  Elsewhere one edge leaves a node, or two that assume a condition and its
opposite. -/
structure WellFormed (graph : FlowGraph) : Prop where
  nodeIds : graph.nodes.map Node.id = List.range graph.nodes.length
  edgeIds : graph.edges.map Edge.id = List.range graph.edges.length
  bounded : ∀ edge ∈ graph.edges,
    edge.source < graph.nodes.length ∧ edge.target < graph.nodes.length
  outgoing : ∀ node, (graph.outgoing node).Nodup ∧
    ∀ edge, edge ∈ graph.outgoing node ↔ edge ∈ graph.edges ∧ edge.source = node
  incoming : ∀ node, (graph.incoming node).Nodup ∧
    ∀ edge, edge ∈ graph.incoming node ↔ edge ∈ graph.edges ∧ edge.target = node
  loopless : ∀ edge ∈ graph.edges, edge.source ≠ edge.target
  distinct : graph.edges.Pairwise fun first second =>
    first.source = second.source → first.target ≠ second.target
  entry : graph.entry = 0 ∧ graph.entry < graph.nodes.length ∧ graph.incoming graph.entry = []
  reachable : ∀ node ∈ graph.nodes,
    Relation.ReflTransGen (Edge.Joins graph.edges) graph.entry node.id
  exit : graph.exits = [graph.exit]
  branching : ∀ node, Edge.Branching (graph.outgoing node)

theorem duplicateAmong?_of_distinct {before edges : List Edge}
    (loopless : ∀ edge ∈ edges, edge.source ≠ edge.target)
    (apart : ∀ other ∈ before, ∀ edge ∈ edges, other.source = edge.source →
      other.target ≠ edge.target)
    (distinct : edges.Pairwise fun first second =>
      first.source = second.source → first.target ≠ second.target) :
    duplicateAmong? before edges = none := by
  induction edges generalizing before with
  | nil => rfl
  | cons edge edges induction =>
    rw [List.forall_mem_cons] at loopless
    rw [List.pairwise_cons] at distinct
    have single : ¬(edge.source = edge.target ∨
        before.any (fun other => other.source == edge.source && other.target == edge.target)) := by
      rw [not_or, List.any_eq_true]
      refine ⟨loopless.1, ?_⟩
      rintro ⟨other, member, same⟩
      rw [Bool.and_eq_true, beq_iff_eq, beq_iff_eq] at same
      exact apart other member edge List.mem_cons_self same.1 same.2
    unfold duplicateAmong?
    rw [if_neg single]
    apply induction loopless.2 _ distinct.2
    intro other member later laterMember
    rcases List.mem_cons.mp member with rfl | earlier
    · exact distinct.1 later laterMember
    · exact apart other earlier later (List.mem_cons_of_mem _ laterMember)

variable {name : String} {program : Stmt}

theorem finished_tidy (program : Stmt) :
    Edge.Tidy (finished (lowering program).1 (lowering program).2).edges
      (finished (lowering program).1 (lowering program).2).size := by
  have start : Edge.Tidy ({} : Draft).addNode.2.edges ({} : Draft).addNode.2.size := by
    refine ⟨rfl, nofun, .nil, ?_⟩
    intro node bound
    rw [Nat.lt_one_iff.mp bound]
  exact (Draft.Arises.tidy (finished_arises program) Draft.sound_empty.addNode start).2

theorem length_nodes_lowered (name : String) (program : Stmt) :
    (lowered name program).nodes.length =
      (finished (lowering program).1 (lowering program).2).size := by
  rw [lowered_eq, ofDraft_eq]
  rfl

theorem lowered_tidy (name : String) (program : Stmt) :
    Edge.Tidy (lowered name program).edges (lowered name program).nodes.length := by
  rw [edges_lowered, length_nodes_lowered]
  exact finished_tidy program

theorem build_simple {graph : FlowGraph} (built : (build name program).1 = .ok graph) :
    graph.Simple := by
  obtain ⟨_, rfl, _⟩ := build_ok_iff.mp built
  have tidy := lowered_tidy name program
  have sound := finished_sound (lowering_lowers program)
  constructor
  · intro edge member
    rw [edges_lowered] at member
    obtain ⟨source, _, target⟩ := sound.edges edge member
    rw [length_nodes_lowered]
    exact ⟨source, target⟩
  · intro edge member
    rw [edges_lowered] at member
    exact Nat.ne_of_gt (sound.edges edge member).2.1
  · exact tidy.loopless
  · intro first isFirst second isSecond sources targets
    by_contra different
    have symmetric : Std.Symm fun first second : Edge =>
        first.source = second.source → first.target ≠ second.target :=
      ⟨fun _ _ apart same => (apart same.symm).symm⟩
    exact tidy.distinct.forall isFirst isSecond different sources targets
  · rw [length_nodes_lowered, size_finished]
    exact (lowering_lowers program).grows.size

theorem mem_reachable {graph : FlowGraph} {node : Nat} :
    node ∈ graph.reachable ↔ Relation.ReflTransGen (Edge.Joins graph.edges) graph.entry node := by
  have joins : graph.toDigraph.Joins = Edge.Joins graph.edges := by
    funext source target
    unfold Graph.Digraph.Joins toDigraph
    rw [Graph.Digraph.mem_edges_ofLists, List.mem_map]
    simp [Edge.Joins]
  unfold reachable
  rw [Graph.Digraph.mem_reachable, joins]

/-- Whatever the tree, its lowering passes the checks on duplicate edges and unreachable nodes. -/
theorem lowered_faultless (name : String) (program : Stmt) :
    (lowered name program).fault? = none := by
  have tidy := lowered_tidy name program
  unfold fault?
  rw [duplicateAmong?_of_distinct tidy.loopless (by simp) tidy.distinct]
  dsimp only
  rw [Option.map_eq_none_iff, List.find?_eq_none]
  intro node member
  have bound : node.id < (lowered name program).nodes.length := by
    have isId := List.mem_map_of_mem (f := Node.id) member
    rw [Network.numbered] at isId
    exact List.mem_range.mp isId
  have found : node.id ∈ (lowered name program).reachable :=
    mem_reachable.mpr (tidy.connected node.id bound)
  simp [found]

/-- If only the end of the program is left open, then the exit is where nothing goes on. -/
theorem exit_ofDraft {current : Nat} {before draft : Draft} {last : Option Nat}
    (lowers : before.Lowers current (last, draft))
    (settled : ∀ node, draft.Ready node → last = some node)
    (exits : last = none → draft.exit ≠ none) (name : String) :
    (last = none → draft.exit = some (ofDraft name 0 last draft).exit) ∧
      (ofDraft name 0 last draft).exit < draft.size ∧
      ∀ node < draft.size,
        (ofDraft name 0 last draft).outgoing node = [] ↔
          node = (ofDraft name 0 last draft).exit := by
  have ends : ∀ node < draft.size, draft.out node = [] →
      draft.exit = some node ∨ last = some node := by
    intro node bound empty
    by_cases isExit : draft.exit = some node
    · exact .inl isExit
    · exact .inr (settled node ⟨bound, empty, isExit⟩)
  simp only [outgoing_ofDraft]
  cases found : draft.exit with
  | none =>
    cases last with
    | none => exact absurd found (exits rfl)
    | some last =>
      have lastReady := (lowers.finish last rfl).1
      have isExit : (ofDraft name 0 (some last) draft).exit = last := by simp [ofDraft, found]
      have same : finished (some last) draft = draft := by simp [finished, found]
      rw [isExit, same]
      refine ⟨by simp, lastReady.bound, ?_⟩
      intro node bound
      constructor
      · intro empty
        rcases ends node bound empty with impossible | isLast
        · rw [found] at impossible
          cases impossible
        · exact (Option.some.inj isLast).symm
      · rintro rfl
        exact lastReady.empty
  | some exit =>
    obtain ⟨_, exitBound, exitEmpty⟩ := lowers.sound.exit exit found
    have isExit : (ofDraft name 0 last draft).exit = exit := by
      cases last <;> simp [ofDraft, found]
    have out : ∀ node, (finished last draft).out node = [] ↔
        draft.out node = [] ∧ last ≠ some node := by
      intro node
      cases last with
      | none => simp [finished]
      | some last =>
        have added : finished (some last) draft = draft.addEdge last exit (.blank "return") := by
          simp [finished, found]
        rw [added, Draft.out_addEdge]
        by_cases isLast : node = last
        · simp [isLast]
        · simp [isLast, Ne.symm isLast]
    rw [isExit]
    refine ⟨fun _ => rfl, exitBound, ?_⟩
    intro node bound
    rw [out]
    constructor
    · rintro ⟨empty, notLast⟩
      rcases ends node bound empty with same | isLast
      · rw [found] at same
        exact (Option.some.inj same).symm
      · exact absurd isLast notLast
    · rintro rfl
      refine ⟨exitEmpty, ?_⟩
      intro isLast
      exact (lowers.finish node isLast).1.notExit found

/-- In the graph of an accepted program nothing goes on at the exit and only there.  If control
never arrives at the end of the program, some return has created the exit. -/
theorem exit_lowered (name : String) {program : Stmt}
    (accepted : (program.survey false).error = none) :
    (lowered name program).exits = [(lowered name program).exit] ∧
      ((lowering program).1 = none →
        (lowering program).2.exit = some (lowered name program).exit) := by
  have settles : ({} : Draft).addNode.2.Settles none 0 (lowering program) :=
    (lowering_passage accepted).settles
  have settled : ∀ node, (lowering program).2.Ready node → (lowering program).1 = some node := by
    intro node ready
    rcases settles.ready node ready with arrives | ⟨first, other⟩
    · exact arrives
    · exact absurd (Nat.lt_one_iff.mp first.bound) other
  have lowers : ({} : Draft).addNode.2.Lowers 0 ((lowering program).1, (lowering program).2) :=
    lowering_lowers program
  obtain ⟨returns, bound, ends⟩ := exit_ofDraft lowers settled (settles.exit · rfl) name
  rw [← lowered_eq] at returns bound
  simp only [← lowered_eq] at ends
  refine ⟨?_, returns⟩
  have size : (lowered name program).nodes.length = (lowering program).2.size := by
    rw [length_nodes_lowered, size_finished]
  unfold exits
  rw [Network.numbered, size]
  calc (List.range (lowering program).2.size).filter
        (fun node => ((lowered name program).outgoing node).isEmpty)
      = (List.range (lowering program).2.size).filter (· == (lowered name program).exit) := by
        apply List.filter_congr
        intro node member
        rw [Bool.eq_iff_iff, List.isEmpty_iff, beq_iff_eq]
        exact ends node (List.mem_range.mp member)
    _ = [(lowered name program).exit] := by
        rw [List.filter_beq, List.count_eq_one_of_mem List.nodup_range (List.mem_range.mpr bound)]
        rfl

/-- The graph of a program is well formed whenever there is one.  A program is refused only because
of a construct that has no lowering: whatever the tree, its lowering has no duplicate edge and no
unreachable node.  If control never arrives at the end of an accepted program, its exit is the one
that returns lead to. -/
theorem build_wellFormed (name : String) (program : Stmt) :
    (lowered name program).fault? = none ∧
      (∀ error, (build name program).1 = .error error →
        ∃ unsupported, error = .unsupported unsupported) ∧
      ∀ graph, (build name program).1 = .ok graph →
        graph.WellFormed ∧
          ((lowering program).1 = none → (lowering program).2.exit = some graph.exit) := by
  have faultless := lowered_faultless name program
  refine ⟨faultless, ?_, ?_⟩
  · intro error refused
    unfold build at refused
    dsimp only at refused
    split at refused
    · cases refused
      exact ⟨_, rfl⟩
    · rw [faultless] at refused
      cases refused
  · intro graph built
    obtain ⟨accepted, rfl, _⟩ := build_ok_iff.mp built
    have simple := build_simple built
    have tidy := lowered_tidy name program
    obtain ⟨exit, returns⟩ := exit_lowered name accepted
    have nodup : (lowered name program).edges.Nodup :=
      tidy.distinct.imp_of_mem fun member _ apart same =>
        apart (congrArg Edge.source same) (congrArg Edge.target same)
    refine ⟨?_, returns⟩
    constructor
    · exact Network.numbered _
    · exact tidy.ids
    · exact simple.bounded
    · intro node
      refine ⟨?_, fun _ => mem_outgoing⟩
      rw [outgoing_eq]
      exact nodup.filter _
    · intro node
      refine ⟨?_, fun _ => mem_incoming⟩
      rw [incoming_eq]
      exact nodup.filter _
    · exact tidy.loopless
    · exact tidy.distinct
    · refine ⟨rfl, simple.entryNode, ?_⟩
      rw [incoming_eq, List.filter_eq_nil_iff]
      intro edge member arrives
      exact simple.entry edge member (beq_iff_eq.mp arrives)
    · intro node member
      apply tidy.connected
      have isId := List.mem_map_of_mem (f := Node.id) member
      rw [Network.numbered] at isId
      exact List.mem_range.mp isId
    · exact exit
    · exact build_branching built

/-- Loops that are left, repeated and returned from at different depths, with no way to the end. -/
def jumpsAbout : Stmt :=
  .block {} [
    .loop {} (.var 0 "x")
      (.block {} [
        .loop {} (.var 0 "y") (.branch {} (.var 0 "z") (.brk {}) (.ret {})),
        .branch {} (.var 0 "y") (.cont {}) .missing]),
    .branch {} (.var 0 "z") (.ret {}) (.block {} [.skip {}, .ret {}, .brk {}])]

theorem wellFormed_jumpsAbout : ∃ graph, (build "jumps" jumpsAbout).1 = .ok graph ∧
    graph.WellFormed ∧ (lowering jumpsAbout).1 = none ∧
    (lowering jumpsAbout).2.exit = some graph.exit := by
  obtain ⟨faultless, _, wellFormed⟩ := build_wellFormed "jumps" jumpsAbout
  have built : (build "jumps" jumpsAbout).1 = .ok (lowered "jumps" jumpsAbout) :=
    build_ok_iff.mpr ⟨by cbv, rfl, faultless⟩
  have never : (lowering jumpsAbout).1 = none := by cbv
  obtain ⟨formed, returns⟩ := wellFormed _ built
  exact ⟨_, built, formed, never, returns never⟩

end FlowGraph

end Reachability
