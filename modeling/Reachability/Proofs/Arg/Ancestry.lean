import Mathlib
import Reachability.Arg.Witness
import Reachability.Proofs.Arg.Coherence
import Reachability.Proofs.Graph.ShortestPath

/-!
# Paths from the root

Following parent links from a state collects all its ancestors: every state
enters the queue at most once, so the queue is empty when the steps are used up.
Numbers tell the states of one graph apart.  Hence a shortest path among the
numbers of ancestors is a shortest chain of links from the root.
-/

namespace Reachability.Arg

variable {σ : Type u} {arg : Arg σ}

namespace Ancestry

/-- Add a state, one of its parents and the link between them. -/
def addLink (arg : Arg σ) (key : Nat) (ancestry : Ancestry) (parent : Nat) : Ancestry :=
  let ancestry := (ancestry.addState (arg.id key) key).addState (arg.id parent) parent
  { ancestry with graph := ancestry.graph.addEdge (arg.id key) (arg.id parent) }

/-- The collected numbers are those of states of the graph. -/
structure Faithful (arg : Arg σ) (ancestry : Ancestry) : Prop where
  valid : ancestry.graph.Valid
  keys : ∀ id key, ancestry.keys.lookup id = some key → key ∈ arg.live ∧ arg.id key = id

section Adding

variable {ancestry : Ancestry} {id key other : Nat}

theorem lookup_addState (ancestry : Ancestry) (id key other : Nat) :
    (ancestry.addState id key).keys.lookup other =
      (ancestry.keys.lookup other).or (if other = id then some key else none) := by
  unfold addState
  split
  · rename_i known
    by_cases same : other = id
    · subst same
      rw [if_pos rfl, Option.or_of_isSome known]
    · rw [if_neg same, Option.or_none]
  · rw [List.lookup_append]
    by_cases same : other = id
    · simp [same]
    · simp [List.lookup_cons, beq_eq_false_iff_ne.mpr same, same]

theorem Faithful.addState (faithful : Faithful arg ancestry) (live : key ∈ arg.live) :
    Faithful arg (ancestry.addState (arg.id key) key) := by
  refine ⟨faithful.valid.addNode _, ?_⟩
  intro id found isFound
  rw [lookup_addState, Option.or_eq_some_iff] at isFound
  rcases isFound with old | ⟨_, new⟩
  · exact faithful.keys id found old
  · split at new
    · rename_i same
      cases new
      exact ⟨live, same.symm⟩
    · cases new

theorem Faithful.addLink (faithful : Faithful arg ancestry) {parent : Nat} (live : key ∈ arg.live)
    (parentLive : parent ∈ arg.live) :
    Faithful arg (ancestry.addLink arg key parent) ∧
      ∀ id, (ancestry.keys.lookup id).isSome ∨ id = arg.id parent →
        ((ancestry.addLink arg key parent).keys.lookup id).isSome := by
  have added := (faithful.addState live).addState parentLive
  refine ⟨⟨added.valid.addEdge _ _, added.keys⟩, ?_⟩
  intro id known
  have keys : (ancestry.addLink arg key parent).keys =
      ((ancestry.addState (arg.id key) key).addState (arg.id parent) parent).keys := rfl
  rw [keys, lookup_addState, lookup_addState]
  rcases known with old | rfl
  · simp [old]
  · simp

theorem mem_edges_addLink {parent : Nat} {edge : Nat × Nat} :
    edge ∈ (ancestry.addLink arg key parent).graph.edges ↔
      edge = (arg.id key, arg.id parent) ∨ edge ∈ ancestry.graph.edges :=
  Graph.Digraph.mem_edges_addEdge

theorem mem_nodes_addLink {parent node : Nat} (member : node ∈ ancestry.graph.nodes) :
    node ∈ (ancestry.addLink arg key parent).graph.nodes := by
  apply Graph.Digraph.mem_nodes_addEdge.mpr
  apply Or.inl
  apply Or.inl
  apply Graph.Digraph.mem_nodes_addNode.mpr
  exact .inl (Graph.Digraph.mem_nodes_addNode.mpr (.inl member))

end Adding

theorem Faithful.addLinks {ancestry : Ancestry} {key : Nat} {parents : List Nat}
    (faithful : Faithful arg ancestry) (live : key ∈ arg.live)
    (parentsLive : ∀ parent ∈ parents, parent ∈ arg.live) :
    Faithful arg (parents.foldl (Ancestry.addLink arg key) ancestry) ∧
      (∀ id, (ancestry.keys.lookup id).isSome ∨ (∃ parent ∈ parents, arg.id parent = id) →
        ((parents.foldl (Ancestry.addLink arg key) ancestry).keys.lookup id).isSome) ∧
      (∀ edge, edge ∈ (parents.foldl (Ancestry.addLink arg key) ancestry).graph.edges ↔
        (∃ parent ∈ parents, (arg.id key, arg.id parent) = edge) ∨ edge ∈ ancestry.graph.edges) ∧
      ∀ node ∈ ancestry.graph.nodes,
        node ∈ (parents.foldl (Ancestry.addLink arg key) ancestry).graph.nodes := by
  induction parents generalizing ancestry with
  | nil => exact ⟨faithful, by simp, by simp, by simp⟩
  | cons parent parents induction =>
    obtain ⟨after, known⟩ := faithful.addLink live (parentsLive parent List.mem_cons_self)
    obtain ⟨final, later, edges, nodes⟩ := induction after
      fun other member => parentsLive other (List.mem_cons_of_mem _ member)
    rw [List.foldl_cons]
    refine ⟨final, ?_, ?_, ?_⟩
    · intro id isKnown
      apply later
      rcases isKnown with old | ⟨other, member, same⟩
      · exact .inl (known id (.inl old))
      · rcases List.mem_cons.mp member with rfl | rest
        · exact .inl (known id (.inr same.symm))
        · exact .inr ⟨other, rest, same⟩
    · intro edge
      rw [edges, mem_edges_addLink, List.exists_mem_cons_iff, eq_comm (a := edge), or_left_comm,
        or_assoc]
    · intro node member
      exact nodes node (mem_nodes_addLink member)

end Ancestry

section Path

variable {root target : Nat}

/-- A path from the root to a state, each state of which is a parent of the next one. -/
structure PathTo (arg : Arg σ) (root target : Nat) (path : List Nat) : Prop where
  starts : path.head? = some root
  ends : path.getLast? = some target
  links : path.IsChain fun parent child => parent ∈ arg.parents child

theorem PathTo.exists_reverse {path : List Nat} (pathTo : arg.PathTo root target path) :
    ∃ keys, path.reverse = target :: keys ∧ (target :: keys).getLast? = some root ∧
      List.IsChain (fun child parent => parent ∈ arg.parents child) (target :: keys) := by
  have head : path.reverse.head? = some target := by
    rw [List.head?_reverse]
    exact pathTo.ends
  obtain ⟨keys, isReverse⟩ := List.head?_eq_some_iff.mp head
  refine ⟨keys, isReverse, ?_, ?_⟩
  · rw [← isReverse, List.getLast?_reverse]
    exact pathTo.starts
  · rw [← isReverse, List.isChain_reverse]
    exact pathTo.links

end Path

section Climbing

variable {analysis : Analysis σ} {graph : FlowGraph} {Proper : σ → Prop} {Link : σ → σ → Prop}
  {root target : Nat}

theorem Coherent.id_inj (coherent : arg.Coherent analysis graph Proper Link root) {key other : Nat}
    (live : key ∈ arg.live) (otherLive : other ∈ arg.live) (same : arg.id key = arg.id other) :
    key = other := by
  have above := first_le live
  have otherAbove := first_le otherLive
  rw [coherent.numbered key above (lt_size_of_live live),
    coherent.numbered other otherAbove (lt_size_of_live otherLive)] at same
  omega

/-- The states that have been found are closed, which means that their parents have been found, or
wait in the queue. -/
structure Climbing (arg : Arg σ) (target : Nat) (closed queue : List Nat) (ancestry : Ancestry) :
    Prop where
  faithful : ancestry.Faithful arg
  present : arg.id target ∈ ancestry.graph.nodes
  found : target ∈ closed ++ queue
  distinct : (closed ++ queue).Nodup
  live : ∀ key ∈ closed ++ queue, key ∈ arg.live
  listed : ∀ key ∈ closed ++ queue, (ancestry.keys.lookup (arg.id key)).isSome
  upward : ∀ key ∈ closed, ∀ parent ∈ arg.parents key, parent ∈ closed ++ queue
  edges : ∀ edge, edge ∈ ancestry.graph.edges ↔
    ∃ key ∈ closed, ∃ parent ∈ arg.parents key, (arg.id key, arg.id parent) = edge

namespace Climbing

variable {closed queue : List Nat} {ancestry : Ancestry} {key : Nat}

theorem step (climbing : Climbing arg target closed (key :: queue) ancestry)
    (parentsLive : ∀ parent ∈ arg.parents key, parent ∈ arg.live) :
    let fresh := ((arg.parents key).foldl addUnique []).filter fun parent =>
      !(closed ++ key :: queue).contains parent
    Climbing arg target (closed ++ [key]) (queue ++ fresh)
      ((arg.parents key).foldl (Ancestry.addLink arg key) ancestry) := by
  intro fresh
  have isFresh : ∀ parent, parent ∈ fresh ↔
      parent ∈ arg.parents key ∧ parent ∉ closed ++ key :: queue := by
    intro parent
    rw [List.mem_filter, mem_foldl_addUnique]
    simp
  have regroup : closed ++ [key] ++ (queue ++ fresh) = (closed ++ key :: queue) ++ fresh := by
    simp
  have keyLive := climbing.live key (by simp)
  obtain ⟨faithful, listed, edges, nodes⟩ :=
    climbing.faithful.addLinks keyLive parentsLive
  constructor
  · exact faithful
  · exact nodes _ climbing.present
  · rw [regroup]
    exact List.mem_append_left _ climbing.found
  · rw [regroup, List.nodup_append]
    refine ⟨climbing.distinct, (nodup_foldl_addUnique List.nodup_nil _).filter _, ?_⟩
    intro old isOld new isNew same
    exact ((isFresh new).mp isNew).2 (same ▸ isOld)
  · rw [regroup]
    intro other member
    rcases List.mem_append.mp member with old | new
    · exact climbing.live other old
    · exact parentsLive other ((isFresh other).mp new).1
  · rw [regroup]
    intro other member
    apply listed
    rcases List.mem_append.mp member with old | new
    · exact .inl (climbing.listed other old)
    · exact .inr ⟨other, ((isFresh other).mp new).1, rfl⟩
  · rw [regroup]
    intro other member parent link
    rcases List.mem_append.mp member with old | new
    · exact List.mem_append_left _ (climbing.upward other old parent link)
    · rw [List.mem_singleton] at new
      subst new
      by_cases old : parent ∈ closed ++ other :: queue
      · exact List.mem_append_left _ old
      · exact List.mem_append_right _ ((isFresh parent).mpr ⟨link, old⟩)
  · intro edge
    rw [edges, climbing.edges]
    constructor
    · rintro (⟨parent, link, same⟩ | ⟨other, member, rest⟩)
      · exact ⟨key, by simp, parent, link, same⟩
      · exact ⟨other, List.mem_append_left _ member, rest⟩
    · rintro ⟨other, member, rest⟩
      rcases List.mem_append.mp member with old | new
      · exact .inr ⟨other, old, rest⟩
      · rw [List.mem_singleton] at new
        exact .inl (new ▸ rest)

/-- Every state enters the queue once, so it gets empty before the steps are used up. -/
theorem climb (coherent : arg.Coherent analysis graph Proper Link root) {steps : Nat}
    (climbing : Climbing arg target closed queue ancestry)
    (enough : arg.states.size ≤ steps + closed.length) :
    ∃ all, Climbing arg target all [] (arg.climb steps queue (closed ++ queue) ancestry) := by
  induction steps generalizing closed queue ancestry with
  | zero =>
    have bounded : (closed ++ queue).length ≤ arg.states.size := by
      have subset : closed ++ queue ⊆ List.range arg.states.size := fun key member =>
        List.mem_range.mpr (lt_size_of_live (climbing.live key member))
      have length := (climbing.distinct.subperm subset).length_le
      rwa [List.length_range] at length
    rw [List.length_append] at bounded
    have empty : queue = [] := List.eq_nil_of_length_eq_zero (by omega)
    subst empty
    exact ⟨closed, climbing⟩
  | succ steps induction =>
    cases queue with
    | nil => exact ⟨closed, climbing⟩
    | cons key queue =>
      have keyLive := climbing.live key (by simp)
      have next := climbing.step fun parent link =>
        (coherent.parentLinked key keyLive parent link).1
      have more : arg.states.size ≤ steps + (closed ++ [key]).length := by
        rw [List.length_append, List.length_singleton]
        omega
      obtain ⟨all, final⟩ := induction next more
      refine ⟨all, ?_⟩
      have regroup : ∀ fresh, closed ++ [key] ++ (queue ++ fresh) =
          (closed ++ key :: queue) ++ fresh := by simp
      rw [regroup] at final
      exact final

theorem start (live : target ∈ arg.live) :
    Climbing arg target [] [target] (({} : Ancestry).addState (arg.id target) target) := by
  have empty : ({} : Ancestry).Faithful arg := ⟨by simp [Graph.Digraph.Valid], by simp⟩
  constructor
  · exact empty.addState live
  · exact Graph.Digraph.mem_nodes_addNode.mpr (.inr rfl)
  · simp
  · simp
  · simpa using live
  · simp [Ancestry.lookup_addState]
  · simp
  · simp [Ancestry.addState, Graph.Digraph.addNode]

section

variable (climbing : Climbing arg target closed [] ancestry)

include climbing

/-- In the end the numbers of the states lead back to the states. -/
theorem lookup_id (coherent : arg.Coherent analysis graph Proper Link root)
    (member : key ∈ closed) : ancestry.keys.lookup (arg.id key) = some key := by
  have inside : key ∈ closed ++ [] := List.mem_append_left _ member
  obtain ⟨found, isFound⟩ := Option.isSome_iff_exists.mp (climbing.listed key inside)
  obtain ⟨live, same⟩ := climbing.faithful.keys _ _ isFound
  rw [isFound, coherent.id_inj live (climbing.live key inside) same]

theorem mem_closed : target ∈ closed := by
  simpa using climbing.found

theorem parent_mem (member : key ∈ closed) {parent : Nat} (link : parent ∈ arg.parents key) :
    parent ∈ closed := by
  simpa using climbing.upward key member parent link

/-- A path of numbers comes from a chain of states. -/
theorem exists_keys (coherent : arg.Coherent analysis graph Proper Link root)
    (member : key ∈ closed) {ids : List Nat}
    (path : List.IsChain (fun source target => (source, target) ∈ ancestry.graph.edges) (arg.id key
      :: ids)) :
    ∃ keys, ids = keys.map arg.id ∧ (∀ other ∈ keys, other ∈ closed) ∧
      List.IsChain (fun child parent => parent ∈ arg.parents child) (key :: keys) := by
  induction ids generalizing key with
  | nil => exact ⟨[], rfl, by simp, .singleton key⟩
  | cons id ids induction =>
    rw [List.isChain_cons_cons] at path
    obtain ⟨other, otherMember, parent, link, same⟩ := (climbing.edges _).mp path.1
    obtain ⟨sameId, rfl⟩ := Prod.mk.inj same
    have isKey : other = key := coherent.id_inj
      (climbing.live other (List.mem_append_left _ otherMember))
      (climbing.live key (List.mem_append_left _ member)) sameId
    subst isKey
    have parentMember := climbing.parent_mem member link
    obtain ⟨keys, rfl, members, chain⟩ := induction parentMember path.2
    refine ⟨parent :: keys, rfl, ?_, List.isChain_cons_cons.mpr ⟨link, chain⟩⟩
    intro first isFirst
    rcases List.mem_cons.mp isFirst with rfl | later
    · exact parentMember
    · exact members first later

theorem chain_ids (member : key ∈ closed) {keys : List Nat}
    (chain : List.IsChain (fun child parent => parent ∈ arg.parents child) (key :: keys)) :
    List.IsChain (fun source target => (source, target) ∈ ancestry.graph.edges)
      (arg.id key :: keys.map arg.id) := by
  induction keys generalizing key with
  | nil => exact .singleton _
  | cons parent keys induction =>
    rw [List.isChain_cons_cons] at chain
    rw [List.map_cons, List.isChain_cons_cons]
    exact ⟨(climbing.edges _).mpr ⟨key, member, parent, chain.1, rfl⟩,
      induction (climbing.parent_mem member chain.1) chain.2⟩

theorem exists_walk {path : List Nat} (pathTo : arg.PathTo root target path) :
    ∃ length, path.length = length + 1 ∧
      ancestry.graph.Walk (arg.id target) length (arg.id root) := by
  obtain ⟨keys, isReverse, last, chain⟩ := pathTo.exists_reverse
  have length := congrArg List.length isReverse
  rw [List.length_reverse, List.length_cons] at length
  have lastId : (arg.id target :: keys.map arg.id).getLast? = some (arg.id root) := by
    rw [← List.map_cons, List.getLast?_map, last]
    rfl
  have walk := Graph.Digraph.Walk.start.along (climbing.chain_ids climbing.mem_closed chain) lastId
  rw [Nat.zero_add, List.length_map] at walk
  exact ⟨keys.length, length, walk⟩

theorem filterMap_lookup (coherent : arg.Coherent analysis graph Proper Link root) {keys : List Nat}
    (members : ∀ key ∈ keys, key ∈ closed) :
    (keys.map arg.id).filterMap (fun id => ancestry.keys.lookup id) = keys := by
  rw [List.filterMap_map]
  have same : ∀ key ∈ keys, ((fun id => ancestry.keys.lookup id) ∘ arg.id) key = some key :=
    fun key member => climbing.lookup_id coherent (members key member)
  rw [List.filterMap_congr same, List.filterMap_some]

end

end Climbing

end Climbing

section Path

variable {analysis : Analysis σ} {graph : FlowGraph} {Proper : σ → Prop} {Link : σ → σ → Prop}
  {root target : Nat}

section

variable (coherent : arg.Coherent analysis graph Proper Link root) (live : target ∈ arg.live)

include coherent live

theorem Coherent.exists_pathTo : ∃ path, arg.PathTo root target path := by
  have linked : Relation.ReflTransGen (fun parent child => parent ∈ arg.parents child)
      root target := by
    have connected := coherent.connected target live
    clear live
    induction connected with
    | refl => exact .refl
    | tail path link induction =>
      exact induction.tail (coherent.childLinked _ (coherent.live_of_path path) _ link).2
  obtain ⟨keys, chain, last⟩ := List.exists_isChain_cons_of_relationReflTransGen linked
  refine ⟨root :: keys, rfl, ?_, chain⟩
  rw [List.getLast?_eq_some_getLast (List.cons_ne_nil _ _), last]

theorem Coherent.witnessPath_ok :
    ∃ path, arg.witnessPath target = .ok path ∧ arg.PathTo root target path ∧
      ∀ other, arg.PathTo root target other → path.length ≤ other.length := by
  obtain ⟨closed, climbing⟩ :
      ∃ closed, Climbing arg target closed [] (arg.ancestry target) :=
    (Climbing.start live).climb coherent (Nat.le_add_right _ _)
  obtain ⟨_, connects⟩ := coherent.exists_pathTo live
  obtain ⟨_, _, walk⟩ := climbing.exists_walk connects
  obtain ⟨ids, found, head, last, path, shortest⟩ :=
    Graph.Digraph.exists_shortestPath climbing.faithful.valid climbing.present walk
  obtain ⟨rest, rfl⟩ := List.head?_eq_some_iff.mp head
  obtain ⟨keys, rfl, later, chain⟩ := climbing.exists_keys coherent climbing.mem_closed path
  have members : ∀ key ∈ target :: keys, key ∈ closed :=
    List.forall_mem_cons.mpr ⟨climbing.mem_closed, later⟩
  have lastKey : (target :: keys).getLast? = some root := by
    rw [← List.map_cons, List.getLast?_map, Option.map_eq_some_iff] at last
    obtain ⟨key, isLast, sameId⟩ := last
    have keyLive := climbing.live key
      (List.mem_append_left _ (members key (List.mem_of_getLast? isLast)))
    rw [isLast, coherent.id_inj keyLive coherent.rootLive sameId]
  refine ⟨(target :: keys).reverse, ?_, ⟨?_, ?_, ?_⟩, ?_⟩
  · have kept : arg.isRemoved target = false := (mem_live.mp live).2
    unfold witnessPath
    unfold isRemoved at kept
    rw [kept, coherent.rooted]
    dsimp only [Option.getD_some]
    rw [if_neg Bool.false_ne_true, found]
    dsimp only
    rw [← List.map_cons, ← List.map_reverse, climbing.filterMap_lookup coherent]
    exact fun key member => members key (List.mem_reverse.mp member)
  · rw [List.head?_reverse]
    exact lastKey
  · rw [List.getLast?_reverse]
    rfl
  · rw [List.isChain_reverse]
    exact chain
  · intro other pathTo
    obtain ⟨length, isLength, otherWalk⟩ := climbing.exists_walk pathTo
    have shorter := shortest length otherWalk
    rw [List.length_cons, List.length_map] at shorter
    rw [List.length_reverse, List.length_cons, isLength]
    exact shorter

theorem Coherent.isChain_children {key : Nat} {path : List Nat}
    (ends : (key :: path).getLast? = some target)
    (links : (key :: path).IsChain fun parent child => parent ∈ arg.parents child) :
    (∀ state ∈ key :: path, state ∈ arg.live) ∧
      (key :: path).IsChain fun parent child => parent ∈ arg.live ∧ arg.Child parent child := by
  induction path generalizing key with
  | nil =>
    cases ends
    exact ⟨List.forall_mem_singleton.mpr live, .singleton key⟩
  | cons next path induction =>
    rw [List.isChain_cons_cons] at links ⊢
    rw [List.getLast?_cons_cons] at ends
    obtain ⟨others, chain⟩ := induction ends links.2
    have linked := coherent.parentLinked next (others next List.mem_cons_self) key links.1
    exact ⟨List.forall_mem_cons.mpr ⟨linked.1, others⟩, linked, chain⟩

end

end Path

end Reachability.Arg
