import Mathlib
import Reachability.Proofs.Graph.Reachable
import Reachability.Proofs.Graph.ShortestPath

/-!
# Paths and their lengths

A path is the sequence of nodes it goes through.  One that goes through a node
twice can be shortened, so no node occurs twice on a shortest path.  Whatever
nodes and edges are added to an empty graph, a search between two of its nodes
finds a shortest path along the added edges, and none only if there is none.
-/

namespace Reachability.Graph

variable {α : Type u} {step : α → α → Prop} {start target node : α} {path rest : List α}

/-- A sequence of nodes from one node to another, each of which leads to the next one. -/
structure IsPath (step : α → α → Prop) (start target : α) (path : List α) : Prop where
  starts : path.head? = some start
  ends : path.getLast? = some target
  steps : path.IsChain step

namespace IsPath

theorem single (node : α) : IsPath step node node [node] := ⟨rfl, rfl, .singleton node⟩

theorem cons (first : step node start) (path : IsPath step start target rest) :
    IsPath step node target (node :: rest) := by
  obtain ⟨others, rfl⟩ := List.head?_eq_some_iff.mp path.starts
  refine ⟨rfl, ?_, ?_⟩
  · rw [List.getLast?_cons_cons]
    exact path.ends
  · exact List.isChain_cons_cons.mpr ⟨first, path.steps⟩

theorem tail (path : IsPath step node target (node :: start :: rest)) :
    step node start ∧ IsPath step start target (start :: rest) := by
  obtain ⟨first, steps⟩ := List.isChain_cons_cons.mp path.steps
  have ends := path.ends
  rw [List.getLast?_cons_cons] at ends
  exact ⟨first, rfl, ends, steps⟩

theorem reaches (path : IsPath step start target rest) :
    Relation.ReflTransGen step start target := by
  induction rest generalizing start with
  | nil => cases path.starts
  | cons first others induction =>
    cases path.starts
    cases others with
    | nil =>
      cases path.ends
      exact .refl
    | cons second others =>
      obtain ⟨leads, later⟩ := path.tail
      exact .head leads (induction later)

theorem suffix {before after : List α} (path : IsPath step start target (before ++ node :: after)) :
    IsPath step node target (node :: after) := by
  refine ⟨rfl, ?_, ?_⟩
  · have ends := path.ends
    rwa [List.getLast?_append_of_ne_nil _ (List.cons_ne_nil _ _)] at ends
  · exact path.steps.suffix (List.suffix_append _ _)

/-- Between two visits of the same node a path can be cut short. -/
theorem exists_shorter (path : IsPath step start target rest) (repeats : ¬rest.Nodup) :
    ∃ shorter, IsPath step start target shorter ∧ shorter.length < rest.length := by
  induction rest generalizing start with
  | nil => exact absurd List.nodup_nil repeats
  | cons first others induction =>
    cases path.starts
    by_cases again : first ∈ others
    · obtain ⟨before, after, rfl⟩ := List.append_of_mem again
      have whole : IsPath step first target ((first :: before) ++ first :: after) := path
      refine ⟨first :: after, whole.suffix, ?_⟩
      simp only [List.length_cons, List.length_append]
      omega
    · have later : ¬others.Nodup := fun distinct => repeats (List.nodup_cons.mpr ⟨again, distinct⟩)
      cases others with
      | nil => exact absurd List.nodup_nil later
      | cons second others =>
        obtain ⟨leads, rest⟩ := path.tail
        obtain ⟨shorter, isPath, less⟩ := induction rest later
        exact ⟨first :: shorter, isPath.cons leads, Nat.succ_lt_succ less⟩

theorem nodup_of_shortest (path : IsPath step start target rest)
    (shortest : ∀ other, IsPath step start target other → rest.length ≤ other.length) :
    rest.Nodup := by
  by_contra repeats
  obtain ⟨shorter, isPath, less⟩ := path.exists_shorter repeats
  exact absurd (shortest shorter isPath) (Nat.not_le.mpr less)

end IsPath

theorem exists_isPath (reaches : Relation.ReflTransGen step start target) :
    ∃ path, IsPath step start target path := by
  induction reaches using Relation.ReflTransGen.head_induction_on with
  | refl => exact ⟨[target], .single target⟩
  | head first _ induction =>
    obtain ⟨path, isPath⟩ := induction
    exact ⟨_, isPath.cons first⟩

namespace Digraph

/-- What is added to a graph at once. -/
inductive Addition where
  | node (id : Nat)
  | edge (source target : Nat)
deriving DecidableEq

/-- The graph after something has been added. -/
def extended (graph : Digraph) : Addition → Digraph
  | .node id => graph.addNode id
  | .edge source target => graph.addEdge source target

/-- The graph to which nodes and edges have been added one after the other. -/
def ofAdditions (additions : List Addition) : Digraph := additions.foldl extended empty

def Leads (additions : List Addition) (source target : Nat) : Prop :=
  .edge source target ∈ additions

section Additions

variable {graph : Digraph} {additions : List Addition} {source target : Nat}

theorem Valid.extended (valid : graph.Valid) (addition : Addition) :
    (graph.extended addition).Valid := by
  cases addition with
  | node id => exact valid.addNode id
  | edge source target => exact valid.addEdge source target

theorem valid_ofAdditions (additions : List Addition) : (ofAdditions additions).Valid := by
  induction additions using List.reverseRecOn with
  | nil => simp [ofAdditions, empty, Valid]
  | append_singleton additions last induction =>
    unfold ofAdditions
    rw [List.foldl_append]
    exact induction.extended last

theorem joins_extended {addition : Addition} :
    (graph.extended addition).Joins source target ↔
      graph.Joins source target ∨ addition = .edge source target := by
  cases addition with
  | node id => simp [Digraph.extended, Joins, addNode]
  | edge first second =>
    unfold Joins
    rw [Digraph.extended, mem_edges_addEdge, Prod.mk.injEq, Addition.edge.injEq, or_comm, eq_comm,
      eq_comm (a := target)]

theorem joins_ofAdditions (additions : List Addition) :
    (ofAdditions additions).Joins = Leads additions := by
  funext source target
  apply propext
  induction additions using List.reverseRecOn with
  | nil => simp [ofAdditions, empty, Joins, Leads]
  | append_singleton additions last induction =>
    have unfolded : ofAdditions (additions ++ [last]) = (ofAdditions additions).extended last := by
      unfold ofAdditions
      rw [List.foldl_append]
      rfl
    rw [unfolded, joins_extended, induction, Leads, Leads, List.mem_append, List.mem_singleton,
      eq_comm]

end Additions

section Search

variable {graph : Digraph} {start target : Nat} {path : List Nat}

theorem exists_walk (isPath : IsPath graph.Joins start target path) :
    ∃ length, path.length = length + 1 ∧ graph.Walk start length target := by
  obtain ⟨rest, rfl⟩ := List.head?_eq_some_iff.mp isPath.starts
  have walk := Walk.start.along isPath.steps isPath.ends
  rw [Nat.zero_add] at walk
  exact ⟨rest.length, rfl, walk⟩

/-- A search for a node that cannot be reached ends without a path: a label would lead back to the
start. -/
theorem shortestPath_eq_none (valid : graph.Valid) (present : start ∈ graph.nodes)
    (bound : target < graph.order) (apart : ¬Relation.ReflTransGen graph.Joins start target) :
    graph.shortestPath start target = .ok none := by
  have known : graph.hasNode start = true := by
    simpa [hasNode] using present
  have different : start ≠ target := fun same => apart (same ▸ .refl)
  obtain ⟨explores, order⟩ := Frontier.explores_opening present
  obtain ⟨level, final, _⟩ := explores.settle valid (Nat.le_of_eq order)
  have inside : target < (graph.labelsFrom start).size := by
    rw [← final.size] at bound
    exact bound
  have unlabelled : (graph.labelsFrom start)[target]? = some none := by
    rw [Array.getElem?_eq_getElem inside]
    cases found : (graph.labelsFrom start)[target] with
    | none => rfl
    | some label =>
      have labelled : (graph.settle graph.order (Frontier.opening graph start)).label? target =
          some label := by
        apply Option.join_eq_some_iff.mpr
        apply Array.getElem?_eq_some_iff.mpr
        exact ⟨inside, found⟩
      obtain ⟨path, _, head, last, _, chain⟩ := final.followParents_eq labelled
        (Nat.lt_succ_self label.distance) []
      have isPath : IsPath graph.Joins start target path := ⟨head, last, chain⟩
      exact absurd isPath.reaches apart
  simp only [shortestPath, known, Bool.not_true, Bool.false_eq_true, if_false, if_neg different,
    unlabelled]

/-- Between a node and a number below the order, a search finds a shortest path if there is a path,
and nothing otherwise. -/
theorem shortestPath_spec (valid : graph.Valid) (present : start ∈ graph.nodes)
    (bound : target < graph.order) :
    ∃ found, graph.shortestPath start target = .ok found ∧
      (found = none ↔ ¬Relation.ReflTransGen graph.Joins start target) ∧
      ∀ path, found = some path → IsPath graph.Joins start target path ∧ path.Nodup ∧
        ∀ other, IsPath graph.Joins start target other → path.length ≤ other.length := by
  by_cases reached : Relation.ReflTransGen graph.Joins start target
  · obtain ⟨_, isPath⟩ := exists_isPath reached
    obtain ⟨_, _, walk⟩ := exists_walk isPath
    obtain ⟨path, found, head, last, chain, shortest⟩ := exists_shortestPath valid present walk
    have isPath : IsPath graph.Joins start target path := ⟨head, last, chain⟩
    have least : ∀ other, IsPath graph.Joins start target other → path.length ≤ other.length := by
      intro other otherPath
      obtain ⟨length, isLength, walk⟩ := exists_walk otherPath
      rw [isLength]
      exact shortest length walk
    refine ⟨_, found, by simp [reached], ?_⟩
    rintro _ ⟨⟩
    exact ⟨isPath, isPath.nodup_of_shortest least, least⟩
  · refine ⟨none, shortestPath_eq_none valid present bound reached, by simp [reached], ?_⟩
    intro path impossible
    cases impossible

/-- Searches in a graph follow the edges that have been added to it, in whatever order that
happened: a path is found if and only if there is one, it visits no node twice and no other path is
shorter, and the nodes that can be reached are listed. -/
theorem searches_follow_additions (additions : List Addition)
    (present : start ∈ (ofAdditions additions).nodes)
    (bound : target < (ofAdditions additions).order) :
    (∃ found, (ofAdditions additions).shortestPath start target = .ok found ∧
      (found = none ↔ ¬Relation.ReflTransGen (Leads additions) start target) ∧
      ∀ path, found = some path → IsPath (Leads additions) start target path ∧ path.Nodup ∧
        ∀ other, IsPath (Leads additions) start target other → path.length ≤ other.length) ∧
      ∀ node, node ∈ (ofAdditions additions).reachable start ↔
        Relation.ReflTransGen (Leads additions) start node := by
  rw [← joins_ofAdditions]
  exact ⟨shortestPath_spec (valid_ofAdditions additions) present bound, fun _ => mem_reachable⟩

/-- Two ways around a cycle, a node that only leads there, one without edges, and numbers in between
that are not used. -/
def detours : List Addition :=
  [.edge 4 0, .edge 0 2, .edge 2 7, .edge 7 5, .edge 2 5, .edge 5 0, .edge 2 5, .node 9]

/-- There is a shortest way around the cycle and no way out of it, not even to an unused number. -/
theorem searches_follow_detours :
    (∃ path, (ofAdditions detours).shortestPath 2 0 = .ok (some path) ∧ path.Nodup ∧
      ∀ other, IsPath (Leads detours) 2 0 other → path.length ≤ other.length) ∧
    (ofAdditions detours).shortestPath 2 3 = .ok none ∧
    ¬Relation.ReflTransGen (Leads detours) 2 3 := by
  have present : 2 ∈ (ofAdditions detours).nodes := by decide
  have toZero : (ofAdditions detours).shortestPath 2 0 = .ok (some [2, 5, 0]) := by cbv
  have toThree : (ofAdditions detours).shortestPath 2 3 = .ok none := by cbv
  obtain ⟨⟨found, isFound, _, shortest⟩, _⟩ :=
    searches_follow_additions detours present (by decide : 0 < (ofAdditions detours).order)
  obtain ⟨⟨missing, isMissing, unreached, _⟩, _⟩ :=
    searches_follow_additions detours present (by decide : 3 < (ofAdditions detours).order)
  rw [toZero] at isFound
  rw [toThree] at isMissing
  cases isFound
  cases isMissing
  obtain ⟨_, distinct, least⟩ := shortest _ rfl
  exact ⟨⟨_, toZero, distinct, least⟩, toThree, unreached.mp rfl⟩

end Search

end Digraph

end Reachability.Graph
