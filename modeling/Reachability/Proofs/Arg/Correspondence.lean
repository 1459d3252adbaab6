import Mathlib
import Reachability.Arg.Witness
import Reachability.Proofs.Arg.Record

/-!
# Corresponding graphs of states

Two analyses correspond if their operators agree on related states.  The graphs
that they record then have the same shape: the same numbers, links and removals
stand at the same positions, and only the wrapped states differ, which are
related.  Whatever is computed from the shape alone, such as the path to a
target, is the same for both.
-/

namespace Reachability

/-- The operators of two analyses agree on related states. -/
structure Analysis.Corresponds {σ : Type u} {τ : Type v} (Related : σ → τ → Prop)
    (analysis : Analysis σ) (other : Analysis τ) : Prop where
  initial : ∀ node, Related (analysis.initial node) (other.initial node)
  transfer : ∀ {state state'} edge, Related state state' →
    List.Forall₂ Related (analysis.transfer state edge) (other.transfer state' edge)
  merge : ∀ {new new' reached reached'}, Related new new' → Related reached reached' →
    Option.Rel Related (analysis.merge new reached) (other.merge new' reached')
  covers : ∀ {state state' reached reached'}, Related state state' → Related reached reached' →
    analysis.covers state reached = other.covers state' reached'
  isTarget : ∀ {state state'}, Related state state' →
    analysis.isTarget state = other.isTarget state'
  location : ∀ {state state'}, Related state state' →
    analysis.location state = other.location state'

/-- States of graphs that differ in what they wrap only. -/
structure ArgState.Corresponds {σ : Type u} {τ : Type v} (Related : σ → τ → Prop)
    (state : ArgState σ) (other : ArgState τ) : Prop where
  id : state.id = other.id
  wrapped : Related state.wrapped other.wrapped
  parents : state.parents = other.parents
  children : state.children = other.children
  removed : state.removed = other.removed

/-- Records with corresponding states at the same positions. -/
structure Arg.Corresponds {σ : Type u} {τ : Type v} (Related : σ → τ → Prop) (arg : Arg σ)
    (other : Arg τ) : Prop where
  first : arg.first = other.first
  root : arg.root = other.root
  size : arg.states.size = other.states.size
  states : ∀ key, Option.Rel (ArgState.Corresponds Related) (arg.get? key) (other.get? key)

namespace Arg.Corresponds

variable {σ : Type u} {τ : Type v} {Related : σ → τ → Prop} {arg : Arg σ} {other : Arg τ}

theorem mono {Weaker : σ → τ → Prop} (alike : arg.Corresponds Related other)
    (weakens : ∀ state state', Related state state' → Weaker state state') :
    arg.Corresponds Weaker other := by
  refine { alike with states := ?_ }
  intro key
  have here := alike.states key
  generalize arg.get? key = found at here ⊢
  generalize other.get? key = found' at here ⊢
  cases here with
  | none => exact .none
  | some here => exact .some { here with wrapped := weakens _ _ here.wrapped }

section

variable (alike : arg.Corresponds Related other)

include alike

theorem get?_cases (key : Nat) :
    (arg.get? key = none ∧ other.get? key = none) ∨
      ∃ state state', arg.get? key = some state ∧ other.get? key = some state' ∧
        ArgState.Corresponds Related state state' := by
  have here := alike.states key
  generalize arg.get? key = found at here ⊢
  generalize other.get? key = found' at here ⊢
  cases here with
  | none => exact .inl ⟨rfl, rfl⟩
  | some related => exact .inr ⟨_, _, rfl, rfl, related⟩

theorem view_eq {α : Type w} {view : ArgState σ → α} {view' : ArgState τ → α}
    (agree : ∀ state state', ArgState.Corresponds Related state state' → view state = view' state')
    (key : Nat) : (arg.get? key).map view = (other.get? key).map view' := by
  rcases alike.get?_cases key with ⟨missing, missing'⟩ | ⟨state, state', found, found', here⟩
  · rw [missing, missing']
    rfl
  · rw [found, found']
    exact congrArg some (agree state state' here)

theorem parents_eq (key : Nat) :
    arg.parents key = other.parents key :=
  congrArg (Option.getD · []) (alike.view_eq (fun _ _ here => here.parents) key)

theorem children_eq (key : Nat) :
    arg.children key = other.children key :=
  congrArg (Option.getD · []) (alike.view_eq (fun _ _ here => here.children) key)

theorem id_eq (key : Nat) : arg.id key = other.id key :=
  congrArg (Option.getD · 0) (alike.view_eq (fun _ _ here => here.id) key)

theorem removed_eq (key : Nat) :
    (arg.get? key).map ArgState.removed = (other.get? key).map ArgState.removed :=
  alike.view_eq (fun _ _ here => here.removed) key

end

section Operations

section

variable (alike : arg.Corresponds Related other)

include alike

theorem create {wrapped : σ} {wrapped' : τ} (related : Related wrapped wrapped') :
    (arg.create wrapped).2.Corresponds Related (other.create wrapped').2 := by
  constructor
  · exact alike.first
  · exact alike.root
  · rw [size_create, size_create, alike.size]
  · intro key
    rw [get?_create, get?_create, alike.size, alike.first]
    split
    · exact .some ⟨rfl, related, rfl, rfl, rfl⟩
    · exact alike.states key

theorem modify (key : Nat) {change : ArgState σ → ArgState σ} {change' : ArgState τ → ArgState τ}
    (agree : ∀ {state state'}, ArgState.Corresponds Related state state' → (change
      state).Corresponds Related (change' state')) :
    (arg.modify key change).Corresponds Related (other.modify key change') := by
  constructor
  · exact alike.first
  · exact alike.root
  · rw [size_modify, size_modify, alike.size]
  · intro position
    rw [get?_modify, get?_modify]
    split
    · rcases alike.get?_cases position with
        ⟨missing, missing'⟩ | ⟨state, state', found, found', here⟩
      · rw [missing, missing']
        exact .none
      · rw [found, found']
        exact .some (agree here)
    · exact alike.states position

theorem foldl {keys keys' : List Nat} (same : keys = keys') {change : Arg σ → Nat → Arg σ}
    {change' : Arg τ → Nat → Arg τ}
    (agree : ∀ {arg other} key, Corresponds Related arg other → (change arg key).Corresponds
      Related (change' other key)) :
    (keys.foldl change arg).Corresponds Related (keys'.foldl change' other) := by
  subst same
  exact List.foldl_rel alike fun key _ _ _ alike => agree key alike

theorem withRoot {root root' : Option Nat} (same : root = root') :
    (arg.withRoot root).Corresponds Related (other.withRoot root') :=
  { alike with root := same }

theorem link (parent child : Nat) :
    (arg.link parent child).Corresponds Related (other.link parent child) := by
  apply Corresponds.modify
  · apply alike.modify
    intro state state' here
    exact { here with children := by rw [here.children] }
  · intro state state' here
    exact { here with parents := by rw [here.parents] }

theorem discard (key : Nat) :
    (arg.discard key).Corresponds Related (other.discard key) := by
  have orphaned : ((arg.parents key).foldl (fun arg parent => arg.modify parent fun state =>
        { state with children := removeAll state.children key }) arg).Corresponds Related
      ((other.parents key).foldl (fun arg parent => arg.modify parent fun state =>
        { state with children := removeAll state.children key }) other) := by
    apply alike.foldl (alike.parents_eq key)
    intro arg other parent alike
    apply alike.modify
    intro state state' here
    exact { here with children := by rw [here.children] }
  apply Corresponds.modify
  · apply orphaned.foldl (orphaned.children_eq key)
    intro arg other child alike
    apply alike.modify
    intro state state' here
    exact { here with parents := by rw [here.parents] }
  · intro state state' here
    exact { here with parents := rfl, children := rfl, removed := rfl }

theorem linkMerged (new reached : Nat) {wrapped : σ} {wrapped' : τ}
    (related : Related wrapped wrapped') :
    (arg.linkMerged new reached wrapped).Corresponds Related
      (other.linkMerged new reached wrapped') := by
  unfold Arg.linkMerged
  simp only [create_key, alike.size]
  have created := alike.create related
  have adopted := created.foldl (created.parents_eq reached)
    fun parent alike => alike.link parent other.states.size
  have linked := adopted.foldl (adopted.parents_eq new)
    fun parent alike => alike.link parent other.states.size
  exact linked.foldl (linked.children_eq reached)
    fun child alike => alike.link other.states.size child

end

end Operations

variable {analysis : Analysis σ} {analysis' : Analysis τ}

section

variable (alike : arg.Corresponds Related other) (analyses : analysis.Corresponds Related analysis')

include alike analyses

theorem initial (entry : Node) :
    (arg.initial analysis entry).1 = (other.initial analysis' entry).1 ∧
      (arg.initial analysis entry).2.Corresponds Related (other.initial analysis' entry).2 := by
  have fresh : { arg with first := arg.states.size }.Corresponds Related
      { other with first := other.states.size } :=
    ⟨alike.size, alike.root, alike.size, alike.states⟩
  have created := fresh.create (analyses.initial entry)
  exact ⟨alike.size, created.first, congrArg some alike.size, created.size, created.states⟩

/-- A merge joins the states of both records, or of neither. -/
theorem merge (new reached : Nat) :
    (arg.merge analysis new reached).1 = (other.merge analysis' new reached).1 ∧
      (arg.merge analysis new reached).2.Corresponds Related
        (other.merge analysis' new reached).2 := by
  unfold Arg.merge
  rcases alike.get?_cases new with ⟨missing, missing'⟩
    | ⟨state, state', newFound, newFound', newHere⟩
  · rw [missing, missing']
    exact ⟨rfl, alike⟩
  rcases alike.get?_cases reached with
    ⟨missing, missing'⟩ | ⟨old, old', oldFound, oldFound', oldHere⟩
  · rw [newFound, newFound', missing, missing']
    exact ⟨rfl, alike⟩
  rw [newFound, newFound', oldFound, oldFound']
  have merged := analyses.merge newHere.wrapped oldHere.wrapped
  dsimp only
  generalize analysis.merge state.wrapped old.wrapped = result at merged ⊢
  generalize analysis'.merge state'.wrapped old'.wrapped = result' at merged ⊢
  cases merged with
  | none => exact ⟨rfl, alike⟩
  | some related =>
    have linked := alike.linkMerged new reached related
    refine ⟨congrArg some alike.size, (linked.withRoot ?_).discard reached⟩
    change (if (arg.linkMerged new reached _).root = some reached then some arg.states.size
        else (arg.linkMerged new reached _).root) =
      if (other.linkMerged new reached _).root = some reached then some other.states.size
        else (other.linkMerged new reached _).root
    rw [linked.root, alike.size]

theorem stop_eq (key : Nat) (reached : List Nat) :
    arg.stop analysis key reached = other.stop analysis' key reached := by
  unfold Arg.stop
  rcases alike.get?_cases key with ⟨missing, missing'⟩ | ⟨state, state', found, found', here⟩
  · rw [missing, missing']
  · rw [found, found']
    dsimp only [Analysis.stop]
    rw [List.any_filterMap, List.any_filterMap]
    apply congrArg (reached.any ·)
    funext covering
    rcases alike.get?_cases covering with ⟨missing, missing'⟩ | ⟨_, _, found, found', covers⟩
    · rw [missing, missing']
      rfl
    · rw [found, found']
      exact analyses.covers here.wrapped covers.wrapped

theorem isTarget_eq (key : Nat) :
    arg.isTarget analysis key = other.isTarget analysis' key :=
  congrArg (Option.getD · false)
    (alike.view_eq (fun _ _ here => analyses.isTarget here.wrapped) key)

theorem location_eq (key : Nat) :
    arg.location analysis key = other.location analysis' key := by
  unfold Arg.location
  rcases alike.get?_cases key with ⟨missing, missing'⟩ | ⟨state, state', found, found', here⟩
  · rw [missing, missing']
    rfl
  · rw [found, found']
    exact analyses.location here.wrapped

end

section Witness

theorem climb_eq (alike : arg.Corresponds Related other) (steps : Nat) (queue visited : List Nat)
    (ancestry : Ancestry) :
    arg.climb steps queue visited ancestry = other.climb steps queue visited ancestry := by
  induction steps generalizing queue visited ancestry with
  | zero => rfl
  | succ steps induction =>
    cases queue with
    | nil => rfl
    | cons key queue => simp only [climb, alike.parents_eq, alike.id_eq, induction]

theorem witnessPath_eq (alike : arg.Corresponds Related other) (target : Nat) :
    arg.witnessPath target = other.witnessPath target := by
  unfold witnessPath ancestry
  simp only [alike.removed_eq, alike.root, alike.size, alike.id_eq, alike.climb_eq]

theorem pathEdges_eq (alike : arg.Corresponds Related other)
    (analyses : analysis.Corresponds Related analysis') (graph : FlowGraph) (path : List Nat) :
    arg.pathEdges analysis graph path = other.pathEdges analysis' graph path := by
  unfold pathEdges
  rw [List.map_congr_left fun key _ => alike.location_eq analyses key]

end Witness

end Arg.Corresponds

end Reachability
