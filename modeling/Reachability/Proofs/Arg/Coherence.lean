import Mathlib
import Reachability.Proofs.Arg.Record

/-!
# Coherence of abstract reachability graphs

The links of a graph run in both directions, only between states that have not
been removed, and lead from the root to all of them.  Creating successors,
merging a new state into a reached one and discarding a state without children
keep this.  Which states may be linked is left open: `Analysis.LinkLaws` says
what a relation must satisfy so that all links of an exploration keep it.
-/

namespace Reachability

variable {σ : Type u}

/-- The number of the control location that a state records. -/
def Analysis.place (analysis : Analysis σ) (state : σ) : Option Nat :=
  (analysis.location state).map Node.id

/-- The conditions under which `Link` holds between every state and its children.  `Proper` singles
out the states that an exploration can meet. -/
structure Analysis.LinkLaws (analysis : Analysis σ) (graph : FlowGraph) (Proper : σ → Prop)
    (Link : σ → σ → Prop) : Prop where
  initial : Proper (analysis.initial (graph.node graph.entry))
  located : ∀ {state}, Proper state → ∃ node, analysis.place state = some node
  transfer : ∀ {state edge next}, Proper state → edge ∈ graph.edges →
    next ∈ analysis.transfer state edge → Proper next
  merge : ∀ {new reached merged}, Proper new → Proper reached →
    analysis.merge new reached = some merged → Proper merged
  mergePlace : ∀ {new reached merged}, Proper new → Proper reached →
    analysis.merge new reached = some merged →
      analysis.place new = analysis.place reached ∧ analysis.place merged = analysis.place reached
  successor : ∀ {state node edge next}, Proper state → analysis.isTarget state = false →
    analysis.place state = some node → edge ∈ graph.outgoing node →
      next ∈ analysis.transfer state edge → Link state next
  mergedChild : ∀ {new reached merged parent}, Proper new → Proper reached → Proper parent →
    analysis.merge new reached = some merged → Link parent new ∨ Link parent reached →
      Link parent merged
  mergedParent : ∀ {new reached merged child}, Proper new → Proper reached → Proper child →
    analysis.merge new reached = some merged → Link reached child → Link merged child
  moves : ∀ {state next}, Link state next → analysis.place state ≠ analysis.place next
  leavesEntry : ∀ {state next}, Link state next → analysis.place next ≠ some graph.entry

/-- Whatever else all states of an exploration satisfy may be added to the laws. -/
theorem Analysis.LinkLaws.and {analysis : Analysis σ} {graph : FlowGraph} {Proper Extra : σ → Prop}
    {Link : σ → σ → Prop} (laws : analysis.LinkLaws graph Proper Link)
    (initial : Extra (analysis.initial (graph.node graph.entry)))
    (transfer : ∀ {state edge next}, Proper state → Extra state → edge ∈ graph.edges →
      next ∈ analysis.transfer state edge → Extra next)
    (merge : ∀ {new reached merged}, Proper new → Proper reached → Extra new → Extra reached →
      analysis.merge new reached = some merged → Extra merged) :
    analysis.LinkLaws graph (fun state => Proper state ∧ Extra state) Link where
  initial := ⟨laws.initial, initial⟩
  located proper := laws.located proper.1
  transfer proper member computed :=
    ⟨laws.transfer proper.1 member computed, transfer proper.1 proper.2 member computed⟩
  merge new reached merges :=
    ⟨laws.merge new.1 reached.1 merges, merge new.1 reached.1 new.2 reached.2 merges⟩
  mergePlace new reached := laws.mergePlace new.1 reached.1
  successor proper := laws.successor proper.1
  mergedChild new reached parent := laws.mergedChild new.1 reached.1 parent.1
  mergedParent new reached child := laws.mergedParent new.1 reached.1 child.1
  moves := laws.moves
  leavesEntry := laws.leavesEntry

namespace Arg

def Child (arg : Arg σ) (parent child : Nat) : Prop := child ∈ arg.children parent

/-- The links of the current graph are consistent.  Earlier graphs of the same record are left
out. -/
structure Coherent (analysis : Analysis σ) (graph : FlowGraph) (Proper : σ → Prop)
    (Link : σ → σ → Prop) (root : Nat) (arg : Arg σ) : Prop where
  numbered : ∀ key, arg.first ≤ key → key < arg.states.size → arg.id key = key - arg.first
  proper : ∀ key state, arg.first ≤ key → arg.wrapped? key = some state → Proper state
  rooted : arg.root = some root
  rootLive : root ∈ arg.live
  rootPlace : ∀ state, arg.wrapped? root = some state → analysis.place state = some graph.entry
  childLinked : ∀ parent ∈ arg.live, ∀ child ∈ arg.children parent,
    child ∈ arg.live ∧ parent ∈ arg.parents child
  parentLinked : ∀ child ∈ arg.live, ∀ parent ∈ arg.parents child,
    parent ∈ arg.live ∧ child ∈ arg.children parent
  bare : ∀ key, arg.first ≤ key → key ∉ arg.live →
    arg.parents key = [] ∧ arg.children key = []
  distinct : ∀ key ∈ arg.live, (arg.parents key).Nodup ∧ (arg.children key).Nodup
  related : ∀ parent ∈ arg.live, ∀ child ∈ arg.children parent, ∀ state next,
    arg.wrapped? parent = some state → arg.wrapped? child = some next → Link state next
  connected : ∀ key ∈ arg.live, Relation.ReflTransGen arg.Child root key

namespace Coherent

variable {analysis : Analysis σ} {graph : FlowGraph} {Proper : σ → Prop} {Link : σ → σ → Prop}
  {root : Nat} {arg : Arg σ}

theorem live_of_path (coherent : arg.Coherent analysis graph Proper Link root) {key : Nat}
    (path : Relation.ReflTransGen arg.Child root key) : key ∈ arg.live := by
  induction path with
  | refl => exact coherent.rootLive
  | tail _ link live => exact (coherent.childLinked _ live _ link).1

section

variable (coherent : arg.Coherent analysis graph Proper Link root)

include coherent

theorem child_ne (laws : analysis.LinkLaws graph Proper Link) {parent child : Nat}
    (live : parent ∈ arg.live) (link : child ∈ arg.children parent) {state next : σ}
    (parentState : arg.wrapped? parent = some state) (childState : arg.wrapped? child = some next) :
    analysis.place state ≠ analysis.place next :=
  laws.moves (coherent.related parent live child link state next parentState childState)

theorem root_parents (laws : analysis.LinkLaws graph Proper Link) : arg.parents root = [] := by
  rw [List.eq_nil_iff_forall_not_mem]
  intro parent member
  obtain ⟨parentLive, link⟩ := coherent.parentLinked root coherent.rootLive parent member
  obtain ⟨state, parentState⟩ := exists_state parentLive
  obtain ⟨next, rootState⟩ := exists_state coherent.rootLive
  exact laws.leavesEntry
    (coherent.related parent parentLive root link state next parentState rootState)
    (coherent.rootPlace next rootState)

theorem exists_parent {key : Nat} (live : key ∈ arg.live) (other : key ≠ root) :
    ∃ parent ∈ arg.live, arg.Child parent key := by
  rcases (coherent.connected key live).cases_tail with same | ⟨parent, path, link⟩
  · exact absurd same other
  · exact ⟨parent, coherent.live_of_path path, link⟩

theorem place_ne_entry (laws : analysis.LinkLaws graph Proper Link) {key : Nat}
    (live : key ∈ arg.live) (other : key ≠ root) {state : σ}
    (found : arg.wrapped? key = some state) : analysis.place state ≠ some graph.entry := by
  obtain ⟨parent, parentLive, link⟩ := coherent.exists_parent live other
  obtain ⟨parentState, parentFound⟩ := exists_state parentLive
  exact laws.leavesEntry
    (coherent.related parent parentLive key link parentState state parentFound found)

end

end Coherent

section Initial

variable (arg : Arg σ) (analysis : Analysis σ) (entry : Node)

theorem initial_eq : (arg.initial analysis entry).2 =
    (({ arg with first := arg.states.size } : Arg σ).create (analysis.initial entry)).2.withRoot
      (some arg.states.size) := rfl

theorem wrapped?_initial :
    (arg.initial analysis entry).2.wrapped? arg.states.size = some (analysis.initial entry) := by
  rw [initial_eq, wrapped?_withRoot, wrapped?_create]
  exact if_pos rfl

theorem mem_live_initial {key : Nat} :
    key ∈ (arg.initial analysis entry).2.live ↔ key = arg.states.size := by
  rw [mem_live, initial_eq, first_withRoot, first_create, isRemoved_withRoot, isRemoved_create]
  by_cases isNew : key = arg.states.size
  · simp [isNew]
  · simp only [isNew, if_false, iff_false, not_and, Bool.not_eq_false]
    intro outside
    simp [isRemoved, get?, show arg.states.size ≤ key from outside]

theorem bare_initial {key : Nat} (outside : arg.states.size ≤ key) :
    (arg.initial analysis entry).2.parents key = [] ∧
      (arg.initial analysis entry).2.children key = [] := by
  have absent : ({ arg with first := arg.states.size } : Arg σ).get? key = none :=
    get?_eq_none outside
  rw [initial_eq, parents_withRoot, children_withRoot, parents_create, children_create]
  simp [parents, children, absent]

end Initial

namespace Coherent

variable {analysis : Analysis σ} {graph : FlowGraph} {Proper : σ → Prop} {Link : σ → σ → Prop}
  {root : Nat} {arg : Arg σ}

theorem initial (laws : analysis.LinkLaws graph Proper Link) (arg : Arg σ)
    (atEntry : analysis.place (analysis.initial (graph.node graph.entry)) = some graph.entry) :
    (arg.initial analysis (graph.node graph.entry)).2.Coherent analysis graph Proper Link
      arg.states.size := by
  have live : ∀ {key}, key ∈ (arg.initial analysis (graph.node graph.entry)).2.live ↔
      key = arg.states.size := mem_live_initial arg analysis _
  have bare : ∀ {key}, key ∈ (arg.initial analysis (graph.node graph.entry)).2.live →
      (arg.initial analysis (graph.node graph.entry)).2.parents key = [] ∧
        (arg.initial analysis (graph.node graph.entry)).2.children key = [] :=
    fun keyLive => bare_initial arg analysis _ (Nat.le_of_eq (live.mp keyLive).symm)
  constructor
  · intro key above below
    rw [initial_eq, first_withRoot, first_create] at above
    rw [initial_eq, size_withRoot, size_create] at below
    have isNew : key = arg.states.size := Nat.le_antisymm (Nat.le_of_lt_succ below) above
    rw [initial_eq, id_withRoot, id_create, first_withRoot, first_create]
    rw [if_pos isNew, isNew]
  · intro key state above found
    rw [initial_eq, first_withRoot, first_create] at above
    rw [initial_eq, wrapped?_withRoot, wrapped?_create] at found
    split at found
    · cases found
      exact laws.initial
    · have absent : ({ arg with first := arg.states.size } : Arg σ).wrapped? key = none :=
        wrapped?_eq_none_iff.mpr above
      rw [absent] at found
      cases found
  · rfl
  · exact live.mpr rfl
  · intro state found
    rw [wrapped?_initial, Option.some.injEq] at found
    rw [← found]
    exact atEntry
  · intro parent parentLive child link
    rw [(bare parentLive).2] at link
    cases link
  · intro child childLive parent link
    rw [(bare childLive).1] at link
    cases link
  · intro key above _
    exact bare_initial arg analysis _ above
  · intro key keyLive
    rw [(bare keyLive).1, (bare keyLive).2]
    exact ⟨List.nodup_nil, List.nodup_nil⟩
  · intro parent parentLive child link
    rw [(bare parentLive).2] at link
    cases link
  · intro key keyLive
    rw [live.mp keyLive]

section

variable (coherent : arg.Coherent analysis graph Proper Link root)

include coherent

theorem not_mem_parents {key child : Nat} (leaf : arg.children key = []) (live : child ∈ arg.live) :
    key ∉ arg.parents child := by
  intro link
  have forth := (coherent.parentLinked child live key link).2
  rw [leaf] at forth
  cases forth

/-- Away from a discarded state, exactly the links to it disappear. -/
theorem mem_children_discard {key parent child : Nat} (live : parent ∈ arg.live)
    (different : parent ≠ key) :
    child ∈ (arg.discard key).children parent ↔ child ∈ arg.children parent ∧ child ≠ key := by
  rw [children_discard, if_neg different]
  split
  · exact mem_removeAll
  · rename_i unlinked
    refine ⟨fun link => ⟨link, ?_⟩, fun both => both.1⟩
    rintro rfl
    exact unlinked (coherent.childLinked parent live child link).2

/-- A path to another state never passes through a state without children. -/
theorem path_discard {key other : Nat} (leaf : arg.children key = [])
    (path : Relation.ReflTransGen arg.Child root other) (different : other ≠ key) :
    Relation.ReflTransGen (arg.discard key).Child root other := by
  induction path with
  | refl => exact .refl
  | tail path link induction =>
    rename_i parent child
    have parentLive := coherent.live_of_path path
    have passed : parent ≠ key := by
      rintro rfl
      rw [Child, leaf] at link
      cases link
    apply (induction passed).tail
    exact (coherent.mem_children_discard parentLive passed).mpr ⟨link, different⟩

/-- Discarding a state without children cuts off nothing else. -/
theorem discard {key : Nat} (other : key ≠ root) (leaf : arg.children key = []) :
    (arg.discard key).Coherent analysis graph Proper Link root := by
  have parents : ∀ child, child ≠ key → (arg.discard key).parents child = arg.parents child := by
    intro child different
    rw [parents_discard, if_neg different, leaf]
    simp
  have notParent : ∀ child ∈ arg.live, ∀ parent ∈ arg.parents child, parent ≠ key := by
    rintro child childLive parent link rfl
    exact coherent.not_mem_parents leaf childLive link
  constructor
  · intro position above below
    rw [first_discard] at above
    rw [id_discard, first_discard]
    exact coherent.numbered position above (by simpa using below)
  · intro position state above found
    rw [first_discard] at above
    rw [wrapped?_discard] at found
    exact coherent.proper position state above found
  · rw [root_discard]
    exact coherent.rooted
  · rw [mem_live_discard]
    exact ⟨coherent.rootLive, Ne.symm other⟩
  · intro state found
    rw [wrapped?_discard] at found
    exact coherent.rootPlace state found
  · intro parent parentLive child link
    rw [mem_live_discard] at parentLive
    rw [coherent.mem_children_discard parentLive.1 parentLive.2] at link
    obtain ⟨childLive, back⟩ := coherent.childLinked parent parentLive.1 child link.1
    rw [mem_live_discard, parents child link.2]
    exact ⟨⟨childLive, link.2⟩, back⟩
  · intro child childLive parent link
    rw [mem_live_discard] at childLive
    rw [parents child childLive.2] at link
    obtain ⟨parentLive, forth⟩ := coherent.parentLinked child childLive.1 parent link
    have different := notParent child childLive.1 parent link
    rw [mem_live_discard, coherent.mem_children_discard parentLive different]
    exact ⟨⟨parentLive, different⟩, forth, childLive.2⟩
  · intro position above gone
    rw [first_discard] at above
    rw [mem_live_discard, not_and_or, not_not] at gone
    by_cases same : position = key
    · rw [parents_discard, children_discard, if_pos same, if_pos same]
      exact ⟨rfl, rfl⟩
    · have bare := coherent.bare position above (gone.resolve_right same)
      rw [parents position same, children_discard, if_neg same, bare.1, bare.2]
      refine ⟨rfl, ?_⟩
      split <;> rfl
  · intro position positionLive
    rw [mem_live_discard] at positionLive
    have distinct := coherent.distinct position positionLive.1
    rw [parents position positionLive.2, children_discard, if_neg positionLive.2]
    refine ⟨distinct.1, ?_⟩
    split
    · exact nodup_removeAll distinct.2 key
    · exact distinct.2
  · intro parent parentLive child link state next parentState childState
    rw [mem_live_discard] at parentLive
    rw [wrapped?_discard] at parentState childState
    rw [coherent.mem_children_discard parentLive.1 parentLive.2] at link
    exact coherent.related parent parentLive.1 child link.1 state next parentState childState
  · intro position positionLive
    rw [mem_live_discard] at positionLive
    exact coherent.path_discard leaf (coherent.connected position positionLive.1) positionLive.2

end

end Coherent

/-- Create a state as a child of another one. -/
def spawn (arg : Arg σ) (parent : Nat) (wrapped : σ) : Arg σ :=
  (arg.create wrapped).2.link parent arg.states.size

section Spawn

variable {arg : Arg σ} {parent : Nat} {wrapped : σ}

theorem sameStates_spawn (arg : Arg σ) (parent : Nat) (wrapped : σ) :
    SameStates (arg.create wrapped).2 (arg.spawn parent wrapped) :=
  sameStates_link ..

theorem extension_spawn (arg : Arg σ) (parent : Nat) (wrapped : σ) :
    Extends arg (arg.spawn parent wrapped) where
  first := (sameStates_spawn ..).first
  size := by
    rw [(sameStates_spawn ..).size, size_create]
    exact Nat.le_succ _
  wrapped key bound := by
    rw [(sameStates_spawn ..).wrapped, wrapped?_create, if_neg (Nat.ne_of_lt bound)]
  id key bound := by
    rw [(sameStates_spawn ..).id, id_create, if_neg (Nat.ne_of_lt bound)]

theorem mem_live_spawn (bound : arg.first ≤ arg.states.size) {key : Nat} :
    key ∈ (arg.spawn parent wrapped).live ↔ key ∈ arg.live ∨ key = arg.states.size := by
  rw [(sameStates_spawn ..).mem_live, mem_live, mem_live, first_create, isRemoved_create]
  by_cases new : key = arg.states.size
  · simp [new, bound]
  · simp [new]

theorem children_spawn (bound : parent < arg.states.size) (key : Nat) :
    (arg.spawn parent wrapped).children key =
      if key = parent then addUnique (arg.children key) arg.states.size
      else arg.children key := by
  unfold spawn
  rw [children_link, children_create]
  rw [size_create]
  exact Nat.lt_succ_of_lt bound

theorem mem_children_spawn (bound : parent < arg.states.size) {key child : Nat} :
    child ∈ (arg.spawn parent wrapped).children key ↔
      child ∈ arg.children key ∨ key = parent ∧ child = arg.states.size := by
  rw [children_spawn bound]
  split
  · rename_i here
    simp [mem_addUnique, here]
  · rename_i elsewhere
    simp [elsewhere]

theorem wrapped?_spawn (key : Nat) : (arg.spawn parent wrapped).wrapped? key =
    if key = arg.states.size then some wrapped else arg.wrapped? key := by
  rw [(sameStates_spawn ..).wrapped, wrapped?_create]

theorem parents_spawn (key : Nat) :
    (arg.spawn parent wrapped).parents key =
      if key = arg.states.size then [parent] else arg.parents key := by
  unfold spawn
  rw [parents_link, parents_create]
  · split
    · rename_i new
      have bare : arg.parents key = [] := by
        simp [parents, get?_eq_none (Nat.le_of_eq new.symm)]
      rw [bare]
      rfl
    · rfl
  · rw [size_create]
    exact Nat.lt_succ_self _

end Spawn

namespace Coherent

variable {analysis : Analysis σ} {graph : FlowGraph} {Proper : σ → Prop} {Link : σ → σ → Prop}
  {root : Nat} {arg : Arg σ}

theorem spawn (coherent : arg.Coherent analysis graph Proper Link root) {parent : Nat}
    (live : parent ∈ arg.live) {state next : σ} (found : arg.wrapped? parent = some state)
    (proper : Proper next) (link : Link state next) :
    (arg.spawn parent next).Coherent analysis graph Proper Link root := by
  have bound := lt_size_of_live live
  have same := sameStates_spawn arg parent next
  have liveAfter : ∀ {key}, key ∈ (arg.spawn parent next).live ↔
      key ∈ arg.live ∨ key = arg.states.size :=
    mem_live_spawn (Nat.le_trans (first_le live) (Nat.le_of_lt bound))
  have notNew : ∀ {key}, key ∈ arg.live → key ≠ arg.states.size :=
    fun keyLive => Nat.ne_of_lt (lt_size_of_live keyLive)
  have bareNew : arg.children arg.states.size = [] := by
    simp [children, get?_eq_none (Nat.le_refl _)]
  constructor
  · intro key above below
    rw [same.first] at above
    rw [same.size, size_create] at below
    rw [same.id, id_create, same.first, first_create]
    split
    · rename_i new
      rw [new]
    · exact coherent.numbered key above (by omega)
  · intro key value above valueFound
    rw [same.first] at above
    rw [wrapped?_spawn] at valueFound
    split at valueFound
    · cases valueFound
      exact proper
    · exact coherent.proper key value above valueFound
  · rw [same.root]
    exact coherent.rooted
  · exact liveAfter.mpr (.inl coherent.rootLive)
  · intro value valueFound
    rw [wrapped?_spawn, if_neg (notNew coherent.rootLive)] at valueFound
    exact coherent.rootPlace value valueFound
  · intro key keyLive child member
    rw [liveAfter, parents_spawn]
    rcases (mem_children_spawn bound).mp member with old | ⟨here, new⟩
    · rcases liveAfter.mp keyLive with keyLive | isNew
      · obtain ⟨childLive, back⟩ := coherent.childLinked key keyLive child old
        exact ⟨.inl childLive, by rwa [if_neg (notNew childLive)]⟩
      · rw [isNew, bareNew] at old
        cases old
    · rw [if_pos new, here]
      exact ⟨.inr new, by simp⟩
  · intro child childLive key member
    rw [parents_spawn] at member
    rw [liveAfter, mem_children_spawn bound]
    rcases liveAfter.mp childLive with childLive | isNew
    · rw [if_neg (notNew childLive)] at member
      obtain ⟨keyLive, forth⟩ := coherent.parentLinked child childLive key member
      exact ⟨.inl keyLive, .inl forth⟩
    · rw [if_pos isNew, List.mem_singleton] at member
      rw [member]
      exact ⟨.inl live, .inr ⟨rfl, isNew⟩⟩
  · intro key above gone
    rw [same.first] at above
    rw [liveAfter, not_or] at gone
    have different : key ≠ parent := by
      rintro rfl
      exact gone.1 live
    rw [parents_spawn, children_spawn bound, if_neg gone.2, if_neg different]
    exact coherent.bare key above gone.1
  · intro key keyLive
    rw [parents_spawn, children_spawn bound]
    rcases liveAfter.mp keyLive with keyLive | isNew
    · rw [if_neg (notNew keyLive)]
      refine ⟨(coherent.distinct key keyLive).1, ?_⟩
      split
      · exact nodup_addUnique (coherent.distinct key keyLive).2 _
      · exact (coherent.distinct key keyLive).2
    · have different : key ≠ parent := fun here => notNew live (here.symm.trans isNew)
      rw [if_pos isNew, if_neg different, isNew, bareNew]
      exact ⟨List.nodup_singleton _, List.nodup_nil⟩
  · intro key keyLive child member value other valueFound otherFound
    rw [wrapped?_spawn] at valueFound otherFound
    rcases (mem_children_spawn bound).mp member with old | ⟨here, new⟩
    · rcases liveAfter.mp keyLive with keyLive | isNew
      · have childLive := (coherent.childLinked key keyLive child old).1
        rw [if_neg (notNew keyLive)] at valueFound
        rw [if_neg (notNew childLive)] at otherFound
        exact coherent.related key keyLive child old value other valueFound otherFound
      · rw [isNew, bareNew] at old
        cases old
    · rw [here, if_neg (notNew live), found, Option.some.injEq] at valueFound
      rw [if_pos new, Option.some.injEq] at otherFound
      rwa [← valueFound, ← otherFound]
  · have grows : arg.Child ≤ (arg.spawn parent next).Child :=
      fun key child old => (mem_children_spawn bound).mpr (.inl old)
    intro key keyLive
    rcases liveAfter.mp keyLive with keyLive | isNew
    · exact Relation.ReflTransGen.mono grows _ _ (coherent.connected key keyLive)
    · exact (Relation.ReflTransGen.mono grows _ _ (coherent.connected parent live)).tail
        ((mem_children_spawn bound).mpr (.inr ⟨rfl, isNew⟩))

section Merge

variable {new reached : Nat} {newState reachedState wrapped : σ} {after : Arg σ}

/-- States that are merged lie at one location, so neither is linked to the other. -/
theorem mergeable (coherent : arg.Coherent analysis graph Proper Link root)
    (laws : analysis.LinkLaws graph Proper Link) (newLive : new ∈ arg.live)
    (reachedLive : reached ∈ arg.live) (newFound : arg.wrapped? new = some newState)
    (reachedFound : arg.wrapped? reached = some reachedState)
    (merges : analysis.merge newState reachedState = some wrapped) : arg.Mergeable new reached := by
  have samePlace := laws.mergePlace (coherent.proper new newState (first_le newLive) newFound)
    (coherent.proper reached reachedState (first_le reachedLive) reachedFound) merges
  have loopless : reached ∉ arg.children reached := by
    intro link
    exact coherent.child_ne laws reachedLive link reachedFound reachedFound rfl
  constructor
  · exact lt_size_of_live newLive
  · exact lt_size_of_live reachedLive
  · rintro parent (link | link)
    · exact lt_size_of_live (coherent.parentLinked reached reachedLive parent link).1
    · exact lt_size_of_live (coherent.parentLinked new newLive parent link).1
  · intro child link
    exact lt_size_of_live (coherent.childLinked reached reachedLive child link).1
  · intro link
    exact loopless (coherent.parentLinked reached reachedLive reached link).2
  · exact loopless
  · intro link
    have forth := (coherent.parentLinked new newLive reached link).2
    exact coherent.child_ne laws reachedLive forth reachedFound newFound samePlace.1.symm

end Merge

end Coherent

/-- A successor is merged into a reached state of a coherent graph; `after` is the record with the
merged state in place of the reached one. -/
structure Merging (analysis : Analysis σ) (graph : FlowGraph) (Proper : σ → Prop)
    (Link : σ → σ → Prop) (root new reached : Nat) (newState reachedState wrapped : σ)
    (before after : Arg σ) : Prop where
  coherent : before.Coherent analysis graph Proper Link root
  laws : analysis.LinkLaws graph Proper Link
  newLive : new ∈ before.live
  reachedLive : reached ∈ before.live
  newFound : before.wrapped? new = some newState
  reachedFound : before.wrapped? reached = some reachedState
  newOther : new ≠ root
  merges : analysis.merge newState reachedState = some wrapped
  merged : before.Merged new reached wrapped after

namespace Merging

variable {analysis : Analysis σ} {graph : FlowGraph} {Proper : σ → Prop} {Link : σ → σ → Prop}
  {root new reached : Nat} {newState reachedState wrapped : σ} {before after : Arg σ}
  {key parent child : Nat}

variable
  (merging : Merging analysis graph Proper Link root new reached newState reachedState wrapped
    before after)

include merging

theorem newProper : Proper newState :=
  merging.coherent.proper new newState (first_le merging.newLive) merging.newFound

theorem reachedProper : Proper reachedState :=
  merging.coherent.proper reached reachedState (first_le merging.reachedLive)
    merging.reachedFound

theorem mergeable : before.Mergeable new reached :=
  merging.coherent.mergeable merging.laws merging.newLive merging.reachedLive merging.newFound
    merging.reachedFound merging.merges

/-- The root is not replaced, because the successor does not lie at the entry. -/
theorem reached_ne_root : reached ≠ root := by
  intro isRoot
  have found := merging.reachedFound
  rw [isRoot] at found
  have atEntry := merging.coherent.rootPlace reachedState found
  have samePlace := (merging.laws.mergePlace merging.newProper merging.reachedProper
    merging.merges).1
  rw [← samePlace] at atEntry
  exact merging.coherent.place_ne_entry merging.laws merging.newLive merging.newOther
    merging.newFound atEntry

theorem mem_live : key ∈ after.live ↔
    key ∈ before.live ∧ key ≠ reached ∨ key = before.states.size := by
  have bound := Nat.le_trans (first_le merging.newLive)
    (Nat.le_of_lt merging.mergeable.new_lt)
  exact merging.merged.mem_live bound merging.mergeable.reached_lt

theorem mem_children_new :
    child ∈ after.children before.states.size ↔ child ∈ before.children reached := by
  rw [merging.merged.mergedChildren, mem_foldl_addUnique]
  simp

theorem mem_parents_new : parent ∈ after.parents before.states.size ↔
    parent ∈ before.parents reached ∨ parent ∈ before.parents new := by
  rw [merging.merged.mergedParents, mem_foldl_addUnique]
  simp

theorem mem_children (live : parent ∈ before.live) (kept : parent ≠ reached) :
    child ∈ after.children parent ↔ child ∈ before.children parent ∧ child ≠ reached ∨
      child = before.states.size ∧
        (parent ∈ before.parents reached ∨ parent ∈ before.parents new) := by
  have old : parent ≠ before.states.size := Nat.ne_of_lt (lt_size_of_live live)
  have apart : before.states.size ≠ reached := Nat.ne_of_gt (lt_size_of_live merging.reachedLive)
  rw [merging.merged.children parent old kept]
  by_cases linked : parent ∈ before.parents reached
  · rw [if_pos linked, mem_removeAll, mem_addUnique]
    constructor
    · rintro ⟨member | new, different⟩
      · exact .inl ⟨member, different⟩
      · exact .inr ⟨new, .inl linked⟩
    · rintro (⟨member, different⟩ | ⟨new, _⟩)
      · exact ⟨.inl member, different⟩
      · exact ⟨.inr new, new ▸ apart⟩
  · have unlinked : ∀ child ∈ before.children parent, child ≠ reached := by
      rintro child member rfl
      exact linked (merging.coherent.childLinked parent live child member).2
    rw [if_neg linked]
    split
    · rename_i newParent
      rw [mem_addUnique]
      constructor
      · rintro (member | new)
        · exact .inl ⟨member, unlinked child member⟩
        · exact .inr ⟨new, .inr newParent⟩
      · rintro (⟨member, _⟩ | ⟨new, _⟩)
        · exact .inl member
        · exact .inr new
    · rename_i other
      constructor
      · exact fun member => .inl ⟨member, unlinked child member⟩
      · rintro (⟨member, _⟩ | ⟨_, parents⟩)
        · exact member
        · exact absurd parents (not_or.mpr ⟨linked, other⟩)

theorem mem_parents (live : child ∈ before.live) (kept : child ≠ reached) :
    parent ∈ after.parents child ↔ parent ∈ before.parents child ∧ parent ≠ reached ∨
      parent = before.states.size ∧ child ∈ before.children reached := by
  have old : child ≠ before.states.size := Nat.ne_of_lt (lt_size_of_live live)
  have apart : before.states.size ≠ reached := Nat.ne_of_gt (lt_size_of_live merging.reachedLive)
  rw [merging.merged.parents child old kept]
  split
  · rename_i linked
    rw [mem_removeAll, mem_addUnique]
    constructor
    · rintro ⟨member | new, different⟩
      · exact .inl ⟨member, different⟩
      · exact .inr ⟨new, linked⟩
    · rintro (⟨member, different⟩ | ⟨new, _⟩)
      · exact ⟨.inl member, different⟩
      · exact ⟨.inr new, new ▸ apart⟩
  · rename_i unlinked
    constructor
    · intro member
      refine .inl ⟨member, ?_⟩
      rintro rfl
      exact unlinked (merging.coherent.parentLinked child live parent member).2
    · rintro (⟨member, _⟩ | ⟨_, linked⟩)
      · exact member
      · exact absurd linked unlinked

/-- The children of the reached state, which the merged state takes over, stay. -/
theorem kept_child (link : child ∈ before.children reached) :
    child ∈ before.live ∧ child ≠ reached := by
  refine ⟨(merging.coherent.childLinked reached merging.reachedLive child link).1, ?_⟩
  rintro rfl
  exact merging.mergeable.loopless link

theorem kept_parent (link : parent ∈ before.parents reached ∨ parent ∈ before.parents new) :
    parent ∈ before.live ∧ parent ≠ reached := by
  constructor
  · rcases link with link | link
    · exact (merging.coherent.parentLinked reached merging.reachedLive parent link).1
    · exact (merging.coherent.parentLinked new merging.newLive parent link).1
  · rintro rfl
    exact link.elim merging.mergeable.own merging.mergeable.apart

theorem childLinked (live : parent ∈ after.live) (link : child ∈ after.children parent) :
    child ∈ after.live ∧ parent ∈ after.parents child := by
  rw [merging.mem_live]
  rcases merging.mem_live.mp live with ⟨live, kept⟩ | rfl
  · rcases (merging.mem_children live kept).mp link with ⟨link, different⟩ | ⟨rfl, linked⟩
    · obtain ⟨childLive, back⟩ := merging.coherent.childLinked parent live child link
      rw [merging.mem_parents childLive different]
      exact ⟨.inl ⟨childLive, different⟩, .inl ⟨back, kept⟩⟩
    · exact ⟨.inr rfl, merging.mem_parents_new.mpr linked⟩
  · have linked := merging.mem_children_new.mp link
    obtain ⟨childLive, different⟩ := merging.kept_child linked
    rw [merging.mem_parents childLive different]
    exact ⟨.inl ⟨childLive, different⟩, .inr ⟨rfl, linked⟩⟩

theorem parentLinked (live : child ∈ after.live) (link : parent ∈ after.parents child) :
    parent ∈ after.live ∧ child ∈ after.children parent := by
  rw [merging.mem_live]
  rcases merging.mem_live.mp live with ⟨live, kept⟩ | rfl
  · rcases (merging.mem_parents live kept).mp link with ⟨link, different⟩ | ⟨rfl, linked⟩
    · obtain ⟨parentLive, forth⟩ := merging.coherent.parentLinked child live parent link
      rw [merging.mem_children parentLive different]
      exact ⟨.inl ⟨parentLive, different⟩, .inl ⟨forth, kept⟩⟩
    · exact ⟨.inr rfl, merging.mem_children_new.mpr linked⟩
  · have linked := merging.mem_parents_new.mp link
    obtain ⟨parentLive, different⟩ := merging.kept_parent linked
    rw [merging.mem_children parentLive different]
    exact ⟨.inl ⟨parentLive, different⟩, .inr ⟨rfl, linked⟩⟩

theorem bare (above : before.first ≤ key) (gone : key ∉ after.live) :
    after.parents key = [] ∧ after.children key = [] := by
  rw [merging.mem_live, not_or, not_and_or, not_not] at gone
  by_cases removed : key = reached
  · rw [removed]
    exact merging.merged.gone.symm
  · have dead := gone.1.resolve_right removed
    have notParent : ∀ child ∈ before.live, key ∉ before.parents child :=
      fun child childLive link => dead (merging.coherent.parentLinked child childLive key link).1
    have notChild : key ∉ before.children reached :=
      fun link => dead (merging.kept_child link).1
    rw [merging.merged.parents key gone.2 removed, merging.merged.children key gone.2 removed,
      if_neg notChild, if_neg (notParent reached merging.reachedLive),
      if_neg (notParent new merging.newLive)]
    exact merging.coherent.bare key above dead

/-- A state without children is the parent of neither merged state, so it gets none. -/
theorem children_eq_nil (live : key ∈ before.live) (kept : key ≠ reached)
    (leaf : before.children key = []) : after.children key = [] := by
  rw [List.eq_nil_iff_forall_not_mem]
  intro child link
  rw [merging.mem_children live kept, leaf] at link
  rcases link with ⟨link, _⟩ | ⟨_, link | link⟩
  · cases link
  · exact merging.coherent.not_mem_parents leaf merging.reachedLive link
  · exact merging.coherent.not_mem_parents leaf merging.newLive link

theorem distinct (live : key ∈ after.live) :
    (after.parents key).Nodup ∧ (after.children key).Nodup := by
  rcases merging.mem_live.mp live with ⟨live, kept⟩ | rfl
  · have distinct := merging.coherent.distinct key live
    have old : key ≠ before.states.size := Nat.ne_of_lt (lt_size_of_live live)
    rw [merging.merged.parents key old kept, merging.merged.children key old kept]
    constructor
    · split
      · exact nodup_removeAll (nodup_addUnique distinct.1 _) _
      · exact distinct.1
    · split
      · exact nodup_removeAll (nodup_addUnique distinct.2 _) _
      · split
        · exact nodup_addUnique distinct.2 _
        · exact distinct.2
  · rw [merging.merged.mergedParents, merging.merged.mergedChildren]
    exact ⟨nodup_foldl_addUnique List.nodup_nil _, nodup_foldl_addUnique List.nodup_nil _⟩

theorem related (live : parent ∈ after.live) (link : child ∈ after.children parent)
    {value next : σ} (valueFound : after.wrapped? parent = some value)
    (nextFound : after.wrapped? child = some next) : Link value next := by
  have old : ∀ {key}, key ∈ before.live → key ≠ before.states.size :=
    fun live => Nat.ne_of_lt (lt_size_of_live live)
  rw [merging.merged.wrapped] at valueFound nextFound
  rcases merging.mem_live.mp live with ⟨live, kept⟩ | rfl
  · rw [if_neg (old live)] at valueFound
    rcases (merging.mem_children live kept).mp link with ⟨link, _⟩ | ⟨rfl, linked⟩
    · have childLive := (merging.coherent.childLinked parent live child link).1
      rw [if_neg (old childLive)] at nextFound
      exact merging.coherent.related parent live child link value next valueFound nextFound
    · rw [if_pos rfl, Option.some.injEq] at nextFound
      rw [← nextFound]
      have proper := merging.coherent.proper parent value (first_le live) valueFound
      apply merging.laws.mergedChild merging.newProper merging.reachedProper proper merging.merges
      rcases linked with link | link
      · have forth := (merging.coherent.parentLinked reached merging.reachedLive parent link).2
        exact .inr (merging.coherent.related parent live reached forth _ _ valueFound
          merging.reachedFound)
      · have forth := (merging.coherent.parentLinked new merging.newLive parent link).2
        exact .inl (merging.coherent.related parent live new forth _ _ valueFound
          merging.newFound)
  · have linked := merging.mem_children_new.mp link
    have childLive := (merging.kept_child linked).1
    rw [if_pos rfl, Option.some.injEq] at valueFound
    rw [if_neg (old childLive)] at nextFound
    rw [← valueFound]
    have proper := merging.coherent.proper child next (first_le childLive) nextFound
    apply merging.laws.mergedParent merging.newProper merging.reachedProper proper merging.merges
    exact merging.coherent.related reached merging.reachedLive child linked _ _
      merging.reachedFound nextFound

theorem path (path : Relation.ReflTransGen before.Child root key) :
    Relation.ReflTransGen after.Child root
      (if key = reached then before.states.size else key) := by
  induction path with
  | refl =>
    rw [if_neg merging.reached_ne_root.symm]
  | tail path link induction =>
    rename_i parent child
    have parentLive := merging.coherent.live_of_path path
    by_cases fromReached : parent = reached
    · rw [if_pos fromReached] at induction
      rw [fromReached] at link
      rw [if_neg (merging.kept_child link).2]
      exact induction.tail (merging.mem_children_new.mpr link)
    · rw [if_neg fromReached] at induction
      apply induction.tail
      rw [Child, merging.mem_children parentLive fromReached]
      split
      · rename_i toReached
        rw [toReached] at link
        exact .inr ⟨rfl, .inl (merging.coherent.childLinked parent parentLive reached link).2⟩
      · rename_i different
        exact .inl ⟨link, different⟩

theorem connected (live : key ∈ after.live) : Relation.ReflTransGen after.Child root key := by
  rcases merging.mem_live.mp live with ⟨live, kept⟩ | rfl
  · have path := merging.path (merging.coherent.connected key live)
    rwa [if_neg kept] at path
  · have path := merging.path (merging.coherent.connected reached merging.reachedLive)
    rwa [if_pos rfl] at path

theorem coherentAfter : after.Coherent analysis graph Proper Link root := by
  have rootOld : root ≠ before.states.size :=
    Nat.ne_of_lt (lt_size_of_live merging.coherent.rootLive)
  constructor
  · intro key above below
    rw [merging.merged.first] at above
    rw [merging.merged.size] at below
    rw [merging.merged.id, merging.merged.first]
    split
    · rename_i isNew
      rw [isNew]
    · exact merging.coherent.numbered key above (by omega)
  · intro key value above valueFound
    rw [merging.merged.first] at above
    rw [merging.merged.wrapped] at valueFound
    split at valueFound
    · cases valueFound
      exact merging.laws.merge merging.newProper merging.reachedProper merging.merges
    · exact merging.coherent.proper key value above valueFound
  · rw [merging.merged.root, merging.coherent.rooted, if_neg]
    simpa using merging.reached_ne_root.symm
  · exact merging.mem_live.mpr (.inl ⟨merging.coherent.rootLive, merging.reached_ne_root.symm⟩)
  · intro value valueFound
    rw [merging.merged.wrapped, if_neg rootOld] at valueFound
    exact merging.coherent.rootPlace value valueFound
  · exact fun parent live child link => merging.childLinked live link
  · exact fun child live parent link => merging.parentLinked live link
  · intro key above gone
    rw [merging.merged.first] at above
    exact merging.bare above gone
  · exact fun key live => merging.distinct live
  · exact fun parent live child link value next valueFound nextFound =>
      merging.related live link valueFound nextFound
  · exact fun key live => merging.connected live

end Merging

end Arg

end Reachability
