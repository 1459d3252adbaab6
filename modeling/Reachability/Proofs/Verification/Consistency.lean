import Mathlib
import Reachability.Proofs.Verification.Launch

/-!
# Consistency of explorations

At the head of every iteration and at the end, the reached states are the
states of the graph, and the links between them form a graph that is connected
from its root and follows the edges of the control-flow graph.  In between, the
graph contains successors that have not been inserted yet.
-/

namespace Reachability

/-- The graph and the reached set of an exploration describe the same states, and the links of the
graph are in order.  Positions below `first` belong to earlier graphs of the same record. -/
structure Search.Consistent (setting : Setting (List ComponentState))
    (search : Search (List ComponentState)) : Prop where
  listed : ∀ state ∈ search.reached.states, state = search.entry setting state.key
  once : search.reached.keys.Nodup
  same : ∀ key, key ∈ search.reached.keys ↔ key ∈ search.arg.live
  childLink : ∀ parent child, search.arg.first ≤ parent → child ∈ search.arg.children parent →
    parent ∈ search.arg.live ∧ child ∈ search.arg.live ∧ parent ∈ search.arg.parents child
  parentLink : ∀ parent child, search.arg.first ≤ child → parent ∈ search.arg.parents child →
    parent ∈ search.arg.live ∧ child ∈ search.arg.live ∧ child ∈ search.arg.children parent
  distinct : ∀ key, search.arg.first ≤ key →
    (search.arg.parents key).Nodup ∧ (search.arg.children key).Nodup
  along : ∀ parent ∈ search.arg.live, ∀ child ∈ search.arg.children parent,
    ∃ edge ∈ setting.graph.edges,
      (search.arg.location setting.analysis parent).map Node.id = some edge.source ∧
      (search.arg.location setting.analysis child).map Node.id = some edge.target
  rooted : ∃ root ∈ search.arg.live, search.arg.root = some root ∧
    (search.arg.location setting.analysis root).map Node.id = some setting.graph.entry ∧
    search.arg.parents root = [] ∧
    ∀ key ∈ search.arg.live, Relation.ReflTransGen search.arg.Child root key

namespace Arg.Coherent

variable {σ : Type u} {analysis : Analysis σ} {graph : FlowGraph} {Proper : σ → Prop}
  {Link : σ → σ → Prop} {root : Nat} {arg : Arg σ}

section

variable (coherent : arg.Coherent analysis graph Proper Link root)

include coherent

theorem live_of_children {parent child : Nat} (above : arg.first ≤ parent)
    (link : child ∈ arg.children parent) :
    parent ∈ arg.live := by
  by_contra removed
  rw [(coherent.bare parent above removed).2] at link
  exact absurd link List.not_mem_nil

theorem live_of_parents {parent child : Nat} (above : arg.first ≤ child)
    (link : parent ∈ arg.parents child) :
    child ∈ arg.live := by
  by_contra removed
  rw [(coherent.bare child above removed).1] at link
  exact absurd link List.not_mem_nil

theorem nodup_links {key : Nat} (above : arg.first ≤ key) :
    (arg.parents key).Nodup ∧ (arg.children key).Nodup := by
  by_cases live : key ∈ arg.live
  · exact coherent.distinct key live
  · obtain ⟨noParents, noChildren⟩ := coherent.bare key above live
    rw [noParents, noChildren]
    exact ⟨List.nodup_nil, List.nodup_nil⟩

end

end Arg.Coherent

namespace Launch

variable {config : Config} {name : String} {program : Stmt}
  {setting : Setting (List ComponentState)} {prior : Arg (List ComponentState)}
  {start search : Search (List ComponentState)}

/-- Whatever the order of exploration, the composed analyses and the bound on iterations are, the
graph and the reached set are consistent at every loop head and when the exploration has ended. -/
theorem consistent_throughout (launch : Launch config name program setting prior start)
    (occurs : start.Occurs setting search) : search.Consistent setting := by
  obtain ⟨Proper, laws, tracked⟩ := launch.exists_tracked occurs
  have coherent := tracked.coherent
  constructor
  · exact tracked.listed
  · exact tracked.valid.distinctKeys
  · intro key
    rw [tracked.live key]
    simp
  · intro parent child above link
    have parentLive := coherent.live_of_children above link
    exact ⟨parentLive, coherent.childLinked parent parentLive child link⟩
  · intro parent child above link
    have childLive := coherent.live_of_parents above link
    obtain ⟨parentLive, childLink⟩ := coherent.parentLinked child childLive parent link
    exact ⟨parentLive, childLive, childLink⟩
  · intro key above
    exact coherent.nodup_links above
  · intro parent parentLive child link
    obtain ⟨_, edge, member, source, target, _⟩ := coherent.exists_edge parentLive link
    exact ⟨edge, member, source, target⟩
  · exact ⟨prior.states.size, coherent.rootLive, coherent.rooted, coherent.location_root,
      coherent.root_parents laws, coherent.connected⟩

/-- The loop that counts up is explored with merges at its head. -/
theorem consistent_countsUp : ∃ setting start final,
    Launch {} "countsUp" countsUp setting {} start ∧
      start.Ends setting (.finished final .exhausted) ∧ final.Consistent setting := by
  obtain ⟨setting, start, final, launch, ends⟩ := exists_launch_countsUp
  exact ⟨setting, start, final, launch, ends, consistent_throughout launch (.ended ends)⟩

end Launch

end Reachability
