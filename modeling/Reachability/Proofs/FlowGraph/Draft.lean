import Mathlib
import Reachability.FlowGraph.Build

/-!
# Growth of drafts

Lowering a statement adds nodes, and edges that leave the node where the
statement starts or one of the new nodes.  So the edges that leave any other
node are final, and the node where control arrives has none yet.
-/

namespace Reachability

namespace Draft

def size (draft : Draft) : Nat := draft.nodes.length

def out (draft : Draft) (node : Nat) : List Edge :=
  draft.edges.filter fun edge => edge.source == node

theorem source_ne_of_out {draft : Draft} {node : Nat} {edge : Edge} (empty : draft.out node = [])
    (member : edge ∈ draft.edges) : edge.source ≠ node := by
  intro leaves
  have found : edge ∈ draft.out node := List.mem_filter.mpr ⟨member, beq_iff_eq.mpr leaves⟩
  rw [empty] at found
  cases found

/-- Edges lie between nodes of the draft and never lead back to the first one, and no edge leaves
the exit. -/
structure Sound (draft : Draft) : Prop where
  edges : ∀ edge ∈ draft.edges,
    edge.source < draft.size ∧ 0 < edge.target ∧ edge.target < draft.size
  exit : ∀ exit, draft.exit = some exit → 0 < exit ∧ exit < draft.size ∧ draft.out exit = []

theorem sound_empty : ({} : Draft).Sound := ⟨by simp, by simp⟩

/-- A node where lowering can go on. -/
structure Ready (draft : Draft) (node : Nat) : Prop where
  bound : node < draft.size
  empty : draft.out node = []
  notExit : draft.exit ≠ some node

/-- What lowering from `source` may change. -/
structure Grows (source : Nat) (before after : Draft) : Prop where
  size : before.size ≤ after.size
  edges : ∃ added, after.edges = before.edges ++ added ∧
    ∀ edge ∈ added, edge.source = source ∨ before.size ≤ edge.source
  exit : ∀ exit, before.exit = some exit → after.exit = some exit
  newExit : ∀ exit, after.exit = some exit → before.exit = some exit ∨ before.size ≤ exit

namespace Grows

variable {source : Nat} {before middle after : Draft}

theorem refl (source : Nat) (draft : Draft) : Grows source draft draft :=
  ⟨Nat.le_refl _, ⟨[], by simp, by simp⟩, fun _ found => found, fun _ found => .inl found⟩

theorem trans {next : Nat} (first : Grows source before middle) (second : Grows next middle after)
    (own : next = source ∨ before.size ≤ next) : Grows source before after := by
  obtain ⟨firstAdded, firstEdges, firstSources⟩ := first.edges
  obtain ⟨secondAdded, secondEdges, secondSources⟩ := second.edges
  constructor
  · exact Nat.le_trans first.size second.size
  · refine ⟨firstAdded ++ secondAdded, ?_, ?_⟩
    · rw [secondEdges, firstEdges, List.append_assoc]
    · intro edge member
      rcases List.mem_append.mp member with early | late
      · exact firstSources edge early
      · rcases secondSources edge late with same | fresh
        · rw [same]
          exact own
        · exact .inr (Nat.le_trans first.size fresh)
  · intro exit found
    exact second.exit exit (first.exit exit found)
  · intro exit found
    rcases second.newExit exit found with early | late
    · exact first.newExit exit early
    · exact .inr (Nat.le_trans first.size late)

/-- The edges that leave any other node are final. -/
theorem out_eq (grows : Grows source before after) {node : Nat} (bound : node < before.size)
    (other : node ≠ source) : after.out node = before.out node := by
  obtain ⟨added, edges, sources⟩ := grows.edges
  have none : added.filter (fun edge => edge.source == node) = [] := by
    rw [List.filter_eq_nil_iff]
    intro edge member
    rw [beq_iff_eq]
    rintro rfl
    rcases sources edge member with same | fresh
    · exact other same
    · omega
  unfold out
  rw [edges, List.filter_append, none, List.append_nil]

theorem ready (grows : Grows source before after) {node : Nat} (ready : before.Ready node)
    (other : node ≠ source) : after.Ready node where
  bound := Nat.lt_of_lt_of_le ready.bound grows.size
  empty := (grows.out_eq ready.bound other).trans ready.empty
  notExit := by
    intro isExit
    rcases grows.newExit node isExit with early | fresh
    · exact ready.notExit early
    · exact absurd ready.bound (by omega)

end Grows

section Operations

variable {draft : Draft} {source target : Nat} {action : Action} {pos : Nat}

theorem size_label (draft : Draft) (node : Nat) (label : String) :
    (draft.label node label).size = draft.size ∧ (draft.label node label).edges = draft.edges ∧
      (draft.label node label).exit = draft.exit :=
  ⟨List.length_modify .., rfl, rfl⟩

theorem out_addEdge (node : Nat) :
    (draft.addEdge source target action pos).out node =
      if node = source then
        draft.out node ++ [{ id := draft.edges.length, source, target, action, pos }]
      else draft.out node := by
  unfold addEdge Network.addEdge out
  rw [List.filter_append, List.filter_singleton]
  by_cases here : node = source
  · simp [here]
  · have elsewhere : (source == node) = false := beq_eq_false_iff_ne.mpr fun same => here same.symm
    simp [here, elsewhere]

theorem Grows.addEdge (draft : Draft) (source target : Nat) (action : Action) (pos : Nat) :
    Grows source draft (draft.addEdge source target action pos) :=
  ⟨Nat.le_refl _, ⟨_, rfl, by simp⟩, fun _ found => found, fun _ found => .inl found⟩

theorem Sound.addEdge (sound : draft.Sound) (sourceBound : source < draft.size)
    (positive : 0 < target) (targetBound : target < draft.size)
    (notExit : draft.exit ≠ some source) : (draft.addEdge source target action pos).Sound := by
  constructor
  · intro edge member
    rcases List.mem_append.mp member with old | new
    · exact sound.edges edge old
    · rw [List.mem_singleton] at new
      subst new
      exact ⟨sourceBound, positive, targetBound⟩
  · intro exit found
    obtain ⟨exitPositive, bound, empty⟩ := sound.exit exit found
    refine ⟨exitPositive, bound, ?_⟩
    rw [out_addEdge, if_neg, empty]
    rintro rfl
    exact notExit found

theorem Grows.addNode (source : Nat) (draft : Draft) : Grows source draft draft.addNode.2 :=
  ⟨by simp [Draft.addNode, Network.addNode, Draft.size],
    ⟨[], by simp [Draft.addNode, Network.addNode], by simp⟩,
    fun _ found => found, fun _ found => .inl found⟩

theorem size_addNode (draft : Draft) : draft.addNode.2.size = draft.size + 1 := by
  simp [Draft.addNode, Network.addNode, size]

theorem Sound.addNode (sound : draft.Sound) : draft.addNode.2.Sound := by
  constructor
  · intro edge member
    obtain ⟨sourceBound, positive, targetBound⟩ := sound.edges edge member
    rw [size_addNode]
    exact ⟨Nat.lt_succ_of_lt sourceBound, positive, Nat.lt_succ_of_lt targetBound⟩
  · intro exit found
    obtain ⟨positive, bound, empty⟩ := sound.exit exit found
    rw [size_addNode]
    exact ⟨positive, Nat.lt_succ_of_lt bound, empty⟩

theorem Sound.out_eq_nil (sound : draft.Sound) {node : Nat} (outside : draft.size ≤ node) :
    draft.out node = [] := by
  unfold out
  rw [List.filter_eq_nil_iff]
  intro edge member
  rw [beq_iff_eq]
  rintro rfl
  exact absurd (sound.edges edge member).1 (by omega)

theorem Sound.ready_addNode (sound : draft.Sound) : draft.addNode.2.Ready draft.size where
  bound := by
    rw [size_addNode]
    exact Nat.lt_succ_self _
  empty := sound.out_eq_nil (Nat.le_refl _)
  notExit := by
    intro isExit
    exact absurd (sound.exit draft.size isExit).2.1 (Nat.lt_irrefl _)

end Operations

section Composite

variable {draft : Draft} {source : Nat} {action : Action} {pos : Nat} {finish : Option Nat}

theorem Grows.label (source : Nat) (draft : Draft) (node : Nat) (label : String) :
    Grows source draft (draft.label node label) := by
  obtain ⟨size, edges, exit⟩ := draft.size_label node label
  constructor
  · exact Nat.le_of_eq size.symm
  · exact ⟨[], by simp [edges], by simp⟩
  · exact fun _ found => exit ▸ found
  · exact fun _ found => .inl (exit ▸ found)

theorem Sound.label (sound : draft.Sound) (node : Nat) (label : String) :
    (draft.label node label).Sound := by
  obtain ⟨size, edges, exit⟩ := draft.size_label node label
  constructor
  · rw [size, edges]
    exact sound.edges
  · unfold out
    rw [size, edges, exit]
    exact sound.exit

theorem Ready.label {node : Nat} (ready : draft.Ready node) (other : Nat) (label : String) :
    (draft.label other label).Ready node := by
  obtain ⟨size, edges, exit⟩ := draft.size_label other label
  constructor
  · rw [size]
    exact ready.bound
  · unfold out
    rw [edges]
    exact ready.empty
  · rw [exit]
    exact ready.notExit

theorem extend_node (draft : Draft) (source : Nat) (action : Action) (pos : Nat) :
    (draft.extend source action pos).1 = draft.size := rfl

theorem size_extend (draft : Draft) (source : Nat) (action : Action) (pos : Nat) :
    (draft.extend source action pos).2.size = draft.size + 1 := size_addNode draft

theorem Grows.extend (draft : Draft) (source : Nat) (action : Action) (pos : Nat) :
    Grows source draft (draft.extend source action pos).2 :=
  (Grows.addNode source draft).trans (.addEdge ..) (.inl rfl)

theorem out_extend (node : Nat) :
    (draft.extend source action pos).2.out node =
      if node = source then
        draft.out node ++
          [{ id := draft.edges.length, source, target := draft.size, action, pos }]
      else draft.out node :=
  out_addEdge node

theorem Sound.extend (sound : draft.Sound) (bound : source < draft.size)
    (notExit : draft.exit ≠ some source) : (draft.extend source action pos).2.Sound := by
  refine sound.addNode.addEdge ?_ (Nat.zero_lt_of_lt bound) ?_ notExit
  · rw [size_addNode]
    exact Nat.lt_succ_of_lt bound
  · rw [size_addNode]
    exact Nat.lt_succ_self _

theorem Sound.ready_extend (sound : draft.Sound) (bound : source < draft.size) :
    (draft.extend source action pos).2.Ready draft.size :=
  (Grows.addEdge ..).ready sound.ready_addNode (Nat.ne_of_gt bound)

/-- Control that arrives somewhere is led on to `target`. -/
theorem Grows.addBlankFrom {before after : Draft} (grows : Grows source before after)
    (own : ∀ node, finish = some node → node = source ∨ before.size ≤ node) (target : Nat)
    (description : String) :
    Grows source before (after.addBlankFrom finish target description) := by
  cases finish with
  | none => exact grows
  | some node => exact grows.trans (.addEdge ..) (own node rfl)

theorem Sound.addBlankFrom (sound : draft.Sound)
    (ready : ∀ node, finish = some node → draft.Ready node) {target : Nat} (positive : 0 < target)
    (bound : target < draft.size) (description : String) :
    (draft.addBlankFrom finish target description).Sound := by
  cases finish with
  | none => exact sound
  | some node =>
    exact sound.addEdge (ready node rfl).bound positive bound (ready node rfl).notExit

theorem size_addBlankFrom (draft : Draft) (finish : Option Nat) (target : Nat)
    (description : String) : (draft.addBlankFrom finish target description).size = draft.size := by
  cases finish <;> rfl

theorem Ready.addBlankFrom {node : Nat} (ready : draft.Ready node) (other : finish ≠ some node)
    (target : Nat) (description : String) :
    (draft.addBlankFrom finish target description).Ready node := by
  cases finish with
  | none => exact ready
  | some source => exact (Grows.addEdge ..).ready ready fun same => other (congrArg some same.symm)

end Composite

end Draft

end Reachability
