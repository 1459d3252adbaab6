import Mathlib
import Reachability.Arg.Basic
import Reachability.Proofs.Sequence

/-!
# Operations on the record of states

Each operation of an abstract reachability graph is described by what can be
read from the record afterwards: the wrapped states, their numbers, which of
them have been removed, and the links in both directions.
-/

namespace Reachability.Arg

variable {σ : Type u} {arg : Arg σ} {key : Nat}

def wrapped? (arg : Arg σ) (key : Nat) : Option σ := (arg.get? key).map ArgState.wrapped

/-- Whether a position has no state of its own or its state has been removed. -/
def isRemoved (arg : Arg σ) (key : Nat) : Bool := ((arg.get? key).map ArgState.removed).getD true

def links (kind : ArgState σ → List Nat) (arg : Arg σ) (key : Nat) : List Nat :=
  ((arg.get? key).map kind).getD []

theorem children_eq_links (arg : Arg σ) (key : Nat) :
    arg.children key = arg.links ArgState.children key := rfl

theorem parents_eq_links (arg : Arg σ) (key : Nat) :
    arg.parents key = arg.links ArgState.parents key := rfl

theorem mem_live : key ∈ arg.live ↔ arg.first ≤ key ∧ arg.isRemoved key = false := by
  unfold live isRemoved
  rw [List.mem_filter, List.mem_range]
  cases found : arg.get? key with
  | none => simp
  | some state =>
    have bound : key < arg.states.size := by
      unfold get? at found
      exact (Array.getElem?_eq_some_iff.mp found).1
    simp [bound]

theorem lt_size_of_live (live : key ∈ arg.live) : key < arg.states.size := by
  unfold Arg.live at live
  exact List.mem_range.mp (List.mem_filter.mp live).1

theorem wrapped?_eq_none_iff : arg.wrapped? key = none ↔ arg.states.size ≤ key := by
  simp [wrapped?, get?]

theorem exists_wrapped (bound : key < arg.states.size) :
    ∃ state, arg.wrapped? key = some state := by
  rw [← Option.ne_none_iff_exists', Ne, wrapped?_eq_none_iff]
  omega

theorem exists_state (live : key ∈ arg.live) : ∃ state, arg.wrapped? key = some state :=
  exists_wrapped (lt_size_of_live live)

theorem first_le (live : key ∈ arg.live) : arg.first ≤ key :=
  (mem_live.mp live).1

theorem get?_eq_none (outside : arg.states.size ≤ key) : arg.get? key = none := by
  simp [get?, outside]

section Create

variable (arg : Arg σ) (wrapped : σ)

@[simp] theorem create_key : (arg.create wrapped).1 = arg.states.size := rfl

@[simp] theorem first_create : (arg.create wrapped).2.first = arg.first := rfl

@[simp] theorem root_create : (arg.create wrapped).2.root = arg.root := rfl

@[simp] theorem size_create : (arg.create wrapped).2.states.size = arg.states.size + 1 := by
  simp [create]

theorem get?_create (key : Nat) :
    (arg.create wrapped).2.get? key =
      if key = arg.states.size then some { id := arg.states.size - arg.first, wrapped }
      else arg.get? key := by
  simp only [create, get?, Array.getElem?_push]

theorem wrapped?_create (key : Nat) :
    (arg.create wrapped).2.wrapped? key =
      if key = arg.states.size then some wrapped else arg.wrapped? key := by
  unfold wrapped?
  rw [get?_create]
  split <;> rfl

theorem isRemoved_create (key : Nat) :
    (arg.create wrapped).2.isRemoved key =
      if key = arg.states.size then false else arg.isRemoved key := by
  unfold isRemoved
  rw [get?_create]
  split <;> rfl

theorem id_create (key : Nat) :
    (arg.create wrapped).2.id key =
      if key = arg.states.size then arg.states.size - arg.first else arg.id key := by
  unfold id
  rw [get?_create]
  split <;> rfl

theorem links_create {kind : ArgState σ → List Nat} (bare : ∀ id, kind { id, wrapped } = [])
    (key : Nat) : (arg.create wrapped).2.links kind key = arg.links kind key := by
  unfold links
  rw [get?_create]
  split
  · rename_i new
    rw [get?_eq_none (Nat.le_of_eq new.symm)]
    exact bare _
  · rfl

@[simp] theorem children_create (key : Nat) :
    (arg.create wrapped).2.children key = arg.children key :=
  arg.links_create wrapped (fun _ => rfl) key

@[simp] theorem parents_create (key : Nat) :
    (arg.create wrapped).2.parents key = arg.parents key :=
  arg.links_create wrapped (fun _ => rfl) key

end Create

section Modify

variable (arg : Arg σ) (changed : Nat) (change : ArgState σ → ArgState σ)

@[simp] theorem size_modify : (arg.modify changed change).states.size = arg.states.size := by
  simp [modify]

theorem get?_modify (key : Nat) :
    (arg.modify changed change).get? key =
      if key = changed then (arg.get? key).map change else arg.get? key := by
  simp only [modify, get?, Array.getElem?_modify, eq_comm (a := changed)]

theorem view_modify {β : Type v} {view : ArgState σ → β}
    (kept : ∀ state, view (change state) = view state) (key : Nat) :
    ((arg.modify changed change).get? key).map view = (arg.get? key).map view := by
  rw [get?_modify]
  split
  · cases arg.get? key with
    | none => rfl
    | some state => simp [kept]
  · rfl

variable {change} {kind : ArgState σ → List Nat} (act : List Nat → List Nat)

theorem links_modify (does : ∀ state, kind (change state) = act (kind state))
    (inside : changed < arg.states.size ∨ act [] = []) (key : Nat) :
    (arg.modify changed change).links kind key =
      if key = changed then act (arg.links kind key) else arg.links kind key := by
  unfold links
  rw [get?_modify]
  split
  · rename_i same
    subst same
    cases found : arg.get? key with
    | none =>
      rcases inside with bound | empty
      · simp [get?, bound] at found
      · exact empty.symm
    | some state => exact does state
  · rfl

theorem links_modify_of_kept (kept : ∀ state, kind (change state) = kind state) (key : Nat) :
    (arg.modify changed change).links kind key = arg.links kind key := by
  rw [links_modify arg changed (fun links => links) kept (.inr rfl), ite_self]

theorem links_modifyAll (does : ∀ state, kind (change state) = act (kind state))
    (empty : act [] = [])
    (again : ∀ links, act (act links) = act links) (others : List Nat) (key : Nat) :
    (others.foldl (fun arg other => arg.modify other change) arg).links kind key =
      if key ∈ others then act (arg.links kind key) else arg.links kind key := by
  induction others generalizing arg with
  | nil => simp
  | cons other others induction =>
    rw [List.foldl_cons, induction, links_modify arg other act does (.inr empty)]
    by_cases here : key = other
    · simp [here, again]
    · simp [here]

theorem links_modifyAll_of_kept (kept : ∀ state, kind (change state) = kind state)
    (others : List Nat) (key : Nat) :
    (others.foldl (fun arg other => arg.modify other change) arg).links kind key =
      arg.links kind key := by
  rw [links_modifyAll arg (fun links => links) kept rfl (fun _ => rfl), ite_self]

end Modify

/-- Two records hold the same states, apart from their links. -/
structure SameStates (before after : Arg σ) : Prop where
  first : after.first = before.first
  root : after.root = before.root
  size : after.states.size = before.states.size
  wrapped : ∀ key, after.wrapped? key = before.wrapped? key
  id : ∀ key, after.id key = before.id key
  removed : ∀ key, after.isRemoved key = before.isRemoved key

namespace SameStates

theorem refl (arg : Arg σ) : SameStates arg arg :=
  ⟨rfl, rfl, rfl, fun _ => rfl, fun _ => rfl, fun _ => rfl⟩

theorem trans {before middle after : Arg σ} (first : SameStates before middle)
    (second : SameStates middle after) : SameStates before after where
  first := second.first.trans first.first
  root := second.root.trans first.root
  size := second.size.trans first.size
  wrapped key := (second.wrapped key).trans (first.wrapped key)
  id key := (second.id key).trans (first.id key)
  removed key := (second.removed key).trans (first.removed key)

theorem mem_live {before after : Arg σ} (same : SameStates before after) {key : Nat} :
    key ∈ after.live ↔ key ∈ before.live := by
  rw [Arg.mem_live, Arg.mem_live, same.first, same.removed]

theorem modify (arg : Arg σ) (changed : Nat) {change : ArgState σ → ArgState σ}
    (kept : ∀ state, (change state).id = state.id ∧ (change state).wrapped = state.wrapped ∧
      (change state).removed = state.removed) :
    SameStates arg (arg.modify changed change) where
  first := rfl
  root := rfl
  size := size_modify ..
  wrapped key := view_modify arg changed change (fun state => (kept state).2.1) key
  id key := by
    unfold Arg.id
    rw [view_modify arg changed change (fun state => (kept state).1) key]
  removed key := by
    unfold isRemoved
    rw [view_modify arg changed change (fun state => (kept state).2.2) key]

theorem foldl {α : Type v} {change : Arg σ → α → Arg σ}
    (kept : ∀ arg item, SameStates arg (change arg item)) (items : List α) (arg : Arg σ) :
    SameStates arg (items.foldl change arg) := by
  induction items generalizing arg with
  | nil => exact refl arg
  | cons item items induction => exact (kept arg item).trans (induction _)

end SameStates

/-- A record keeps the states of another one and may hold more.  Links and removal are left open. -/
structure Extends (before after : Arg σ) : Prop where
  first : after.first = before.first
  size : before.states.size ≤ after.states.size
  wrapped : ∀ key, key < before.states.size → after.wrapped? key = before.wrapped? key
  id : ∀ key, key < before.states.size → after.id key = before.id key

namespace Extends

theorem refl (arg : Arg σ) : Extends arg arg :=
  ⟨rfl, Nat.le_refl _, fun _ _ => rfl, fun _ _ => rfl⟩

theorem trans {before middle after : Arg σ} (first : Extends before middle)
    (second : Extends middle after) : Extends before after where
  first := second.first.trans first.first
  size := Nat.le_trans first.size second.size
  wrapped key bound := (second.wrapped key (Nat.lt_of_lt_of_le bound first.size)).trans
    (first.wrapped key bound)
  id key bound := (second.id key (Nat.lt_of_lt_of_le bound first.size)).trans (first.id key bound)

theorem wrapped_of_some {before after : Arg σ} (extension : Extends before after) {key : Nat}
    {state : σ} (found : before.wrapped? key = some state) : after.wrapped? key = some state := by
  rw [extension.wrapped key, found]
  by_contra outside
  rw [wrapped?_eq_none_iff.mpr (Nat.le_of_not_lt outside)] at found
  cases found

end Extends

section Link

variable {parent child : Nat} {added : List Nat}

theorem sameStates_link (arg : Arg σ) (parent child : Nat) :
    SameStates arg (arg.link parent child) := by
  unfold link
  refine SameStates.trans ?_ (SameStates.modify _ child ?_)
  · exact SameStates.modify arg parent fun _ => ⟨rfl, rfl, rfl⟩
  · exact fun _ => ⟨rfl, rfl, rfl⟩

theorem children_link (bound : parent < arg.states.size) (key : Nat) :
    (arg.link parent child).children key =
      if key = parent then addUnique (arg.children key) child else arg.children key := by
  unfold link
  simp only [children_eq_links]
  rw [links_modify_of_kept, links_modify _ _ (addUnique · child)]
  · exact fun _ => rfl
  · exact .inl bound
  · exact fun _ => rfl

theorem parents_link (bound : child < arg.states.size) (key : Nat) :
    (arg.link parent child).parents key =
      if key = child then addUnique (arg.parents key) parent else arg.parents key := by
  unfold link
  simp only [parents_eq_links]
  rw [links_modify _ _ (addUnique · parent), links_modify_of_kept]
  · exact fun _ => rfl
  · exact fun _ => rfl
  · exact .inl (by simpa using bound)

theorem parents_linkAll (bound : child < arg.states.size) (key : Nat) :
    (added.foldl (fun arg parent => arg.link parent child) arg).parents key =
      if key = child then added.foldl addUnique (arg.parents key) else arg.parents key := by
  induction added generalizing arg with
  | nil => simp
  | cons parent added induction =>
    rw [List.foldl_cons, induction, parents_link bound]
    · split <;> simp_all
    · rw [(sameStates_link ..).size]
      exact bound

theorem children_linkAll (bounds : ∀ parent ∈ added, parent < arg.states.size) (key : Nat) :
    (added.foldl (fun arg parent => arg.link parent child) arg).children key =
      if key ∈ added then addUnique (arg.children key) child else arg.children key := by
  induction added generalizing arg with
  | nil => simp
  | cons parent added induction =>
    rw [List.foldl_cons, induction, children_link (bounds parent (by simp))]
    · by_cases here : key = parent
      · subst here
        have listed : child ∈ addUnique (arg.children key) child := by simp
        simp [addUnique_of_mem listed]
      · simp [here]
    · intro other member
      rw [(sameStates_link ..).size]
      exact bounds other (by simp [member])

theorem children_adoptAll (bound : parent < arg.states.size) (key : Nat) :
    (added.foldl (fun arg child => arg.link parent child) arg).children key =
      if key = parent then added.foldl addUnique (arg.children key) else arg.children key := by
  induction added generalizing arg with
  | nil => simp
  | cons child added induction =>
    rw [List.foldl_cons, induction, children_link bound]
    · split <;> simp_all
    · rw [(sameStates_link ..).size]
      exact bound

theorem parents_adoptAll (bounds : ∀ child ∈ added, child < arg.states.size) (key : Nat) :
    (added.foldl (fun arg child => arg.link parent child) arg).parents key =
      if key ∈ added then addUnique (arg.parents key) parent else arg.parents key := by
  induction added generalizing arg with
  | nil => simp
  | cons child added induction =>
    rw [List.foldl_cons, induction, parents_link (bounds child (by simp))]
    · by_cases here : key = child
      · subst here
        have listed : parent ∈ addUnique (arg.parents key) parent := by simp
        simp [addUnique_of_mem listed]
      · simp [here]
    · intro other member
      rw [(sameStates_link ..).size]
      exact bounds other (by simp [member])

end Link

section Discard

variable (arg : Arg σ) (discarded key : Nat)

private theorem removeAll_removeAll (items : List Nat) (item : Nat) :
    removeAll (removeAll items item) item = removeAll items item := by
  simp [removeAll]

private theorem children_disownAll (arg : Arg σ) (others : List Nat) :
    (others.foldl (fun arg parent =>
      arg.modify parent fun state => { state with children := removeAll state.children discarded })
      arg).children key =
      if key ∈ others then removeAll (arg.children key) discarded else arg.children key :=
  links_modifyAll arg (removeAll · discarded) (fun _ => rfl) rfl (removeAll_removeAll · discarded)
    others key

theorem children_discard :
    (arg.discard discarded).children key =
      if key = discarded then []
      else if key ∈ arg.parents discarded then removeAll (arg.children key) discarded
      else arg.children key := by
  unfold discard
  rw [children_eq_links, links_modify _ _ (fun _ => []) (fun _ => rfl) (.inr rfl)]
  split
  · rfl
  · rw [links_modifyAll_of_kept]
    · exact children_disownAll discarded key arg _
    · exact fun _ => rfl

theorem parents_discard :
    (arg.discard discarded).parents key =
      if key = discarded then []
      else if key ∈ arg.children discarded then removeAll (arg.parents key) discarded
      else arg.parents key := by
  unfold discard
  rw [parents_eq_links, links_modify _ _ (fun _ => []) (fun _ => rfl) (.inr rfl)]
  split
  · rfl
  · rename_i different
    rw [links_modifyAll _ (removeAll · discarded) (fun _ => rfl) rfl
      (removeAll_removeAll · discarded),
      links_modifyAll_of_kept, children_disownAll, ← parents_eq_links]
    · by_cases own : discarded ∈ arg.parents discarded
      · simp [own, different]
      · simp [own]
    · exact fun _ => rfl

private theorem sameStates_unlinkAll :
    SameStates arg
      (((arg.parents discarded).foldl (fun arg parent => arg.modify parent fun state =>
          { state with children := removeAll state.children discarded }) arg).children
            discarded |>.foldl (fun arg child => arg.modify child fun state =>
          { state with parents := removeAll state.parents discarded })
        ((arg.parents discarded).foldl (fun arg parent => arg.modify parent fun state =>
          { state with children := removeAll state.children discarded }) arg)) := by
  refine SameStates.trans (SameStates.foldl ?_ (arg.parents discarded) arg)
    (SameStates.foldl ?_ _ _)
  · exact fun arg other => SameStates.modify arg other fun _ => ⟨rfl, rfl, rfl⟩
  · exact fun arg other => SameStates.modify arg other fun _ => ⟨rfl, rfl, rfl⟩

@[simp] theorem first_discard : (arg.discard discarded).first = arg.first :=
  (sameStates_unlinkAll arg discarded).first

@[simp] theorem root_discard : (arg.discard discarded).root = arg.root :=
  (sameStates_unlinkAll arg discarded).root

@[simp] theorem size_discard : (arg.discard discarded).states.size = arg.states.size := by
  unfold discard
  rw [size_modify]
  exact (sameStates_unlinkAll arg discarded).size

@[simp] theorem wrapped?_discard : (arg.discard discarded).wrapped? key = arg.wrapped? key := by
  unfold discard wrapped?
  rw [view_modify]
  · exact (sameStates_unlinkAll arg discarded).wrapped key
  · exact fun _ => rfl

@[simp] theorem id_discard : (arg.discard discarded).id key = arg.id key := by
  unfold discard id
  rw [view_modify]
  · exact (sameStates_unlinkAll arg discarded).id key
  · exact fun _ => rfl

theorem isRemoved_discard :
    (arg.discard discarded).isRemoved key =
      if key = discarded then true else arg.isRemoved key := by
  have same := (sameStates_unlinkAll arg discarded).removed key
  unfold discard
  unfold isRemoved at same ⊢
  rw [get?_modify]
  split
  · rw [Option.map_map]
    cases Arg.get? _ key <;> rfl
  · exact same

theorem mem_live_discard :
    key ∈ (arg.discard discarded).live ↔ key ∈ arg.live ∧ key ≠ discarded := by
  rw [mem_live, mem_live, first_discard, isRemoved_discard]
  by_cases same : key = discarded
  · simp [same]
  · simp [same]

theorem extension_discard (arg : Arg σ) (discarded : Nat) :
    Extends arg (arg.discard discarded) where
  first := first_discard ..
  size := by rw [size_discard]
  wrapped _ _ := wrapped?_discard ..
  id _ _ := id_discard ..

end Discard

section Merge

variable {analysis : Analysis σ} {new reached : Nat} {wrapped : σ}

def withRoot (arg : Arg σ) (root : Option Nat) : Arg σ := { arg with root }

section WithRoot

variable (arg : Arg σ) (root : Option Nat) (key : Nat)

@[simp] theorem first_withRoot : (arg.withRoot root).first = arg.first := rfl

@[simp] theorem root_withRoot : (arg.withRoot root).root = root := rfl

@[simp] theorem size_withRoot : (arg.withRoot root).states.size = arg.states.size := rfl

@[simp] theorem wrapped?_withRoot : (arg.withRoot root).wrapped? key = arg.wrapped? key := rfl

@[simp] theorem id_withRoot : (arg.withRoot root).id key = arg.id key := rfl

@[simp] theorem isRemoved_withRoot : (arg.withRoot root).isRemoved key = arg.isRemoved key := rfl

@[simp] theorem children_withRoot : (arg.withRoot root).children key = arg.children key := rfl

@[simp] theorem parents_withRoot : (arg.withRoot root).parents key = arg.parents key := rfl

end WithRoot

/-- The record after a merge, before the reached state is discarded. -/
def linkMerged (arg : Arg σ) (new reached : Nat) (wrapped : σ) : Arg σ :=
  let (merged, arg) := arg.create wrapped
  let arg := (arg.parents reached).foldl (fun arg parent => arg.link parent merged) arg
  let arg := (arg.parents new).foldl (fun arg parent => arg.link parent merged) arg
  (arg.children reached).foldl (fun arg child => arg.link merged child) arg

theorem sameStates_linkMerged (arg : Arg σ) (new reached : Nat) (wrapped : σ) :
    SameStates (arg.create wrapped).2 (arg.linkMerged new reached wrapped) := by
  unfold linkMerged
  refine (SameStates.foldl ?_ _ _).trans
    ((SameStates.foldl ?_ _ _).trans (SameStates.foldl ?_ _ _))
  · exact fun arg parent => sameStates_link arg parent _
  · exact fun arg parent => sameStates_link arg parent _
  · exact fun arg child => sameStates_link arg _ child

/-- The links of a merge lie inside the record, and the reached state is linked neither to itself
nor, as a parent, to the new one. -/
structure Mergeable (arg : Arg σ) (new reached : Nat) : Prop where
  new_lt : new < arg.states.size
  reached_lt : reached < arg.states.size
  parents_lt : ∀ parent, parent ∈ arg.parents reached ∨ parent ∈ arg.parents new →
    parent < arg.states.size
  children_lt : ∀ child ∈ arg.children reached, child < arg.states.size
  own : reached ∉ arg.parents reached
  loopless : reached ∉ arg.children reached
  apart : reached ∉ arg.parents new

/-- All parents are linked to the merged state first, then the merged state to the children. -/
private theorem linkMerged_eq (mergeable : arg.Mergeable new reached) (wrapped : σ) :
    arg.linkMerged new reached wrapped =
      (arg.children reached).foldl (fun arg' child => arg'.link arg.states.size child)
        ((arg.parents reached ++ arg.parents new).foldl
          (fun arg' parent => arg'.link parent arg.states.size) (arg.create wrapped).2) := by
  have newParents : ((arg.parents reached).foldl
      (fun arg' parent => arg'.link parent arg.states.size) (arg.create wrapped).2).parents new =
        arg.parents new := by
    rw [parents_linkAll (by simp), if_neg (Nat.ne_of_lt mergeable.new_lt), parents_create]
  have reachedChildren : ((arg.parents reached ++ arg.parents new).foldl
      (fun arg' parent => arg'.link parent arg.states.size) (arg.create
        wrapped).2).children reached =
        arg.children reached := by
    rw [children_linkAll, if_neg, children_create]
    · simp [mergeable.own, mergeable.apart]
    · intro parent member
      rw [size_create]
      exact Nat.lt_succ_of_lt (mergeable.parents_lt parent (List.mem_append.mp member))
  unfold linkMerged
  simp only [create_key, parents_create]
  rw [newParents, ← List.foldl_append, reachedChildren]

theorem children_linkMerged (mergeable : arg.Mergeable new reached) (wrapped : σ) (key : Nat) :
    (arg.linkMerged new reached wrapped).children key =
      if key = arg.states.size then (arg.children reached).foldl addUnique []
      else if key ∈ arg.parents reached ∨ key ∈ arg.parents new then
        addUnique (arg.children key) arg.states.size
      else arg.children key := by
  have sizes := (SameStates.foldl (fun arg' parent => sameStates_link arg' parent arg.states.size)
    (arg.parents reached ++ arg.parents new) (arg.create wrapped).2).size
  rw [linkMerged_eq mergeable, children_adoptAll, children_linkAll]
  · simp only [children_create, List.mem_append]
    by_cases merged : key = arg.states.size
    · have fresh : ¬(key ∈ arg.parents reached ∨ key ∈ arg.parents new) := by
        intro member
        exact absurd (mergeable.parents_lt key member) (by omega)
      have bare : arg.children key = [] := by
        simp [children, get?_eq_none (Nat.le_of_eq merged.symm)]
      rw [if_pos merged, if_pos merged, if_neg fresh, bare]
    · rw [if_neg merged, if_neg merged]
  · intro parent member
    rw [size_create]
    exact Nat.lt_succ_of_lt (mergeable.parents_lt parent (List.mem_append.mp member))
  · rw [sizes, size_create]
    exact Nat.lt_succ_self _

theorem parents_linkMerged (mergeable : arg.Mergeable new reached) (wrapped : σ) (key : Nat) :
    (arg.linkMerged new reached wrapped).parents key =
      if key = arg.states.size then (arg.parents reached ++ arg.parents new).foldl addUnique []
      else if key ∈ arg.children reached then addUnique (arg.parents key) arg.states.size
      else arg.parents key := by
  have sizes := (SameStates.foldl (fun arg' parent => sameStates_link arg' parent arg.states.size)
    (arg.parents reached ++ arg.parents new) (arg.create wrapped).2).size
  rw [linkMerged_eq mergeable, parents_adoptAll, parents_linkAll]
  · simp only [parents_create]
    by_cases merged : key = arg.states.size
    · have fresh : key ∉ arg.children reached := by
        intro member
        exact absurd (mergeable.children_lt key member) (by omega)
      have bare : arg.parents key = [] := by
        simp [parents, get?_eq_none (Nat.le_of_eq merged.symm)]
      rw [if_neg fresh, if_pos merged, if_pos merged, bare]
    · rw [if_neg merged, if_neg merged]
  · rw [size_create]
    exact Nat.lt_succ_self _
  · intro child member
    rw [sizes, size_create]
    exact Nat.lt_succ_of_lt (mergeable.children_lt child member)

/-- What a merge does: the merged state stands at the end of the record and takes over the links of
the reached state, which is gone, and the parents of the new one. -/
structure Merged (before : Arg σ) (new reached : Nat) (wrapped : σ) (after : Arg σ) : Prop where
  first : after.first = before.first
  root : after.root = if before.root = some reached then some before.states.size else before.root
  size : after.states.size = before.states.size + 1
  wrapped : ∀ key, after.wrapped? key =
    if key = before.states.size then some wrapped else before.wrapped? key
  id : ∀ key, after.id key =
    if key = before.states.size then before.states.size - before.first else before.id key
  removed : ∀ key, after.isRemoved key =
    if key = reached then true
    else if key = before.states.size then false else before.isRemoved key
  gone : after.children reached = [] ∧ after.parents reached = []
  mergedChildren :
    after.children before.states.size = (before.children reached).foldl addUnique []
  mergedParents : after.parents before.states.size =
    (before.parents reached ++ before.parents new).foldl addUnique []
  children : ∀ key, key ≠ before.states.size → key ≠ reached → after.children key =
    if key ∈ before.parents reached then
      removeAll (addUnique (before.children key) before.states.size) reached
    else if key ∈ before.parents new then addUnique (before.children key) before.states.size
    else before.children key
  parents : ∀ key, key ≠ before.states.size → key ≠ reached → after.parents key =
    if key ∈ before.children reached then
      removeAll (addUnique (before.parents key) before.states.size) reached
    else before.parents key

theorem merged_linkMerged (mergeable : arg.Mergeable new reached) (wrapped : σ) :
    arg.Merged new reached wrapped
      (((arg.linkMerged new reached wrapped).withRoot
        (if arg.root = some reached then some arg.states.size else arg.root)).discard reached) := by
  have same := sameStates_linkMerged arg new reached wrapped
  have apart : reached ≠ arg.states.size := Nat.ne_of_lt mergeable.reached_lt
  have reachedParents : (arg.linkMerged new reached wrapped).parents reached =
      arg.parents reached := by
    rw [parents_linkMerged mergeable, if_neg apart, if_neg mergeable.loopless]
  have reachedChildren : (arg.linkMerged new reached wrapped).children reached =
      arg.children reached := by
    rw [children_linkMerged mergeable, if_neg apart, if_neg]
    exact not_or.mpr ⟨mergeable.own, mergeable.apart⟩
  have parentless : arg.states.size ∉ arg.parents reached := by
    intro member
    exact Nat.lt_irrefl _ (mergeable.parents_lt _ (.inl member))
  have childless : arg.states.size ∉ arg.children reached := by
    intro member
    exact Nat.lt_irrefl _ (mergeable.children_lt _ member)
  constructor
  · rw [first_discard, first_withRoot, same.first, first_create]
  · rw [root_discard, root_withRoot]
  · rw [size_discard, size_withRoot, same.size, size_create]
  · intro key
    rw [wrapped?_discard, wrapped?_withRoot, same.wrapped, wrapped?_create]
  · intro key
    rw [id_discard, id_withRoot, same.id, id_create]
  · intro key
    rw [isRemoved_discard, isRemoved_withRoot, same.removed, isRemoved_create]
  · rw [children_discard, parents_discard, if_pos rfl, if_pos rfl]
    exact ⟨rfl, rfl⟩
  · rw [children_discard, if_neg apart.symm, children_withRoot, parents_withRoot, reachedParents,
      if_neg parentless, children_linkMerged mergeable, if_pos rfl]
  · rw [parents_discard, if_neg apart.symm, children_withRoot, parents_withRoot, reachedChildren,
      if_neg childless, parents_linkMerged mergeable, if_pos rfl]
  · intro key old kept
    rw [children_discard, if_neg kept, children_withRoot, parents_withRoot, reachedParents,
      children_linkMerged mergeable, if_neg old]
    by_cases parent : key ∈ arg.parents reached
    · simp [parent]
    · simp [parent]
  · intro key old kept
    rw [parents_discard, if_neg kept, children_withRoot, parents_withRoot, reachedChildren,
      parents_linkMerged mergeable, if_neg old]
    by_cases child : key ∈ arg.children reached
    · simp [child]
    · simp [child]

theorem Merged.extension {before after : Arg σ} (merged : before.Merged new reached wrapped after) :
    Extends before after where
  first := merged.first
  size := by
    rw [merged.size]
    exact Nat.le_succ _
  wrapped key bound := by rw [merged.wrapped, if_neg (Nat.ne_of_lt bound)]
  id key bound := by rw [merged.id, if_neg (Nat.ne_of_lt bound)]

theorem Merged.mem_live {before after : Arg σ} (merged : before.Merged new reached wrapped after)
    (first_le : before.first ≤ before.states.size) (reached_lt : reached < before.states.size)
    {key : Nat} :
    key ∈ after.live ↔ key ∈ before.live ∧ key ≠ reached ∨ key = before.states.size := by
  rw [Arg.mem_live, Arg.mem_live, merged.first, merged.removed]
  by_cases old : key = reached
  · have apart : key ≠ before.states.size := by omega
    simp [old, old ▸ apart]
  · by_cases new : key = before.states.size
    · simp [new, first_le, new ▸ old]
    · simp [old, new]

/-- A merge either leaves the record alone or links a new state and discards the reached one. -/
theorem merge_cases (analysis : Analysis σ) (arg : Arg σ) (new reached : Nat) :
    (arg.merge analysis new reached = (none, arg) ∧
        ∀ newState reachedState, arg.wrapped? new = some newState →
          arg.wrapped? reached = some reachedState → analysis.merge newState reachedState = none) ∨
      ∃ newState reachedState wrapped, arg.wrapped? new = some newState ∧
        arg.wrapped? reached = some reachedState ∧
        analysis.merge newState reachedState = some wrapped ∧
        arg.merge analysis new reached =
          (some arg.states.size,
            ((arg.linkMerged new reached wrapped).withRoot
              (if arg.root = some reached then some arg.states.size else arg.root)).discard
                reached) := by
  unfold merge
  split
  · rename_i newState reachedState newFound reachedFound
    have newWrapped : arg.wrapped? new = some newState.wrapped := by simp [wrapped?, newFound]
    have reachedWrapped : arg.wrapped? reached = some reachedState.wrapped := by
      simp [wrapped?, reachedFound]
    split
    · rename_i refused
      refine .inl ⟨rfl, ?_⟩
      intro first second firstFound secondFound
      rw [newWrapped, Option.some.injEq] at firstFound
      rw [reachedWrapped, Option.some.injEq] at secondFound
      rw [← firstFound, ← secondFound, refused]
    · rename_i wrapped merged
      refine .inr ⟨newState.wrapped, reachedState.wrapped, wrapped, newWrapped, reachedWrapped,
        merged, ?_⟩
      have roots := (sameStates_linkMerged arg new reached wrapped).root
      rw [root_create] at roots
      simp only [← roots]
      rfl
  · rename_i unrecorded
    refine .inl ⟨rfl, ?_⟩
    intro first second firstFound secondFound
    obtain ⟨newState, newFound, _⟩ := Option.map_eq_some_iff.mp firstFound
    obtain ⟨reachedState, reachedFound, _⟩ := Option.map_eq_some_iff.mp secondFound
    exact absurd reachedFound (unrecorded newState reachedState newFound)

end Merge

end Reachability.Arg
