import Mathlib
import Reachability.Proofs.Analysis.Rearrangement
import Reachability.Proofs.Bounds.Lattice

/-!
# Lawful analyses

An analysis is lawful on its states if coverage is reflexive and transitive there
and a merge covers the reached state.  A composition of lawful analyses is lawful
on the tuples of their states: coverage is decided slot by slot, and a merge
either leaves the reached tuple alone or yields one that covers both tuples and
is not covered by the reached one.
-/

namespace Reachability

namespace Analysis

variable {σ : Type u}

/-- Coverage is reflexive and transitive on the states of an analysis, and the state that a merge
leaves in the place of a reached one covers it. -/
structure Lawful (analysis : Analysis σ) (Own : σ → Prop) : Prop where
  refl : ∀ {state}, Own state → analysis.stop state [state] = true
  trans : ∀ {first second third}, Own first → Own second → Own third →
    analysis.stop first [second] = true → analysis.stop second [third] = true →
    analysis.stop first [third] = true
  merges : ∀ {new reached}, Own new → Own reached →
    analysis.stop reached [analysis.merged new reached] = true

@[simp] theorem stop_singleton (analysis : Analysis σ) (state reached : σ) :
    analysis.stop state [reached] = analysis.covers state reached := by
  simp [stop]

end Analysis

namespace Component

open ComponentState

/-- Each of the component analyses is lawful on the states that belong to it. -/
theorem lawful (graph : FlowGraph) (target : String) (component : Component) :
    (component.analysis graph target).Lawful (Belongs component) where
  refl belongs := by
    rw [Analysis.stop_singleton, covers_iff belongs belongs]
    cases belongs with
    | location node => exact .location rfl
    | value policy bounds => exact .bounds bounds.includes_refl
    | call callee => exact .call
  trans isFirst isSecond isThird inner outer := by
    rw [Analysis.stop_singleton] at inner outer ⊢
    rw [covers_iff isFirst isSecond] at inner
    rw [covers_iff isSecond isThird] at outer
    rw [covers_iff isFirst isThird]
    cases inner with
    | location same =>
      cases outer with
      | location others => exact .location (same.trans others)
    | bounds included =>
      cases outer with
      | bounds others => exact .bounds (Bounds.includes_trans others included)
    | call => exact outer
  merges isNew isReached := by
    rw [Analysis.stop_singleton]
    cases isNew with
    | location node | call callee =>
      cases isReached
      exact beq_self_eq_true _
    | value policy new =>
      cases isReached with
      | value _ reached =>
        simp only [analysis, merged_bounds]
        change Bounds.includes _ reached = true
        cases merges : new.mergeInto policy reached with
        | none => exact reached.includes_refl
        | some joined =>
          obtain ⟨rfl, _⟩ := Bounds.mergeInto_eq_some merges
          exact Bounds.includes_join_right new reached

end Component

namespace Analysis

variable {σ : Type u}

/-- A merge that returns the reached state does not change it, so what counts for a change is
coverage alone. -/
theorem Lawful.changes_eq {ι : Type v} {family : ι → Analysis σ} {Own : σ → Prop} {index : ι}
    (lawful : (family index).Lawful Own) {new reached : ι → σ} (own : Own (reached index)) :
    changes family new reached index =
      !(family index).covers
        ((family index).merged (new index) (reached index)) (reached index) := by
  unfold changes merged
  cases (family index).merge (new index) (reached index) with
  | some merged => rfl
  | none =>
    have covers := lawful.refl own
    rw [stop_singleton] at covers
    simp [covers]

/-- The tuples with a state for each of the analyses. -/
def TupleOf (parts : List (Analysis σ × (σ → Prop))) (tuple : List σ) : Prop :=
  List.Forall₂ (fun part state => part.2 state) parts tuple

section Slots

variable {parts : List (Analysis σ × (σ → Prop))} {tuple new reached : List σ}

def slotAnalysis (parts : List (Analysis σ × (σ → Prop))) (index : Fin parts.length) : Analysis σ :=
  (parts.get index).1

theorem map_slotAnalysis (parts : List (Analysis σ × (σ → Prop))) :
    parts.map Prod.fst = (List.finRange parts.length).map (slotAnalysis parts) := by
  apply List.ext_getElem
  · simp
  · intro index _ _
    simp [slotAnalysis]

theorem TupleOf.exists_slot (proper : TupleOf parts tuple) : ∃ slot : Fin parts.length → σ,
    tuple = (List.finRange parts.length).map slot ∧ ∀ index, (parts.get index).2 (slot index) := by
  obtain ⟨arity, own⟩ := List.forall₂_iff_get.mp proper
  refine ⟨fun index => tuple.get (index.cast arity), ?_, ?_⟩
  · apply List.ext_getElem
    · simp [arity]
    · simp
  · intro index
    exact own index index.isLt (arity ▸ index.isLt)

theorem coversTuple_eq_true {components : List (Analysis σ)} :
    coversTuple components tuple reached = true ↔
      ∀ slot ∈ components.zip (tuple.zip reached), slot.1.stop slot.2.1 [slot.2.2] = true := by
  induction components generalizing tuple reached with
  | nil => simp [coversTuple]
  | cons component components induction =>
    cases tuple with
    | nil => simp [coversTuple]
    | cons state tuple =>
      cases reached with
      | nil => simp [coversTuple]
      | cons other reached => simp [coversTuple, induction]

theorem stop_composite {components : List (Analysis σ)} {others : List (List σ)} :
    (composite components).stop tuple others = true ↔
      ∃ other ∈ others, ∀ slot ∈ components.zip (tuple.zip other),
        slot.1.stop slot.2.1 [slot.2.2] = true := by
  rw [stop, List.any_eq_true]
  exact exists_congr fun other => and_congr_right fun _ => coversTuple_eq_true

theorem covers_slots {first second : Fin parts.length → σ} :
    (composite (parts.map Prod.fst)).stop ((List.finRange parts.length).map first)
        [(List.finRange parts.length).map second] = true ↔
      ∀ index, (slotAnalysis parts index).stop (first index) [second index] = true := by
  rw [stop_singleton, map_slotAnalysis]
  change coversTuple _ _ _ = true ↔ _
  rw [coversTuple_map]
  simp

theorem merge_slots (lawful : ∀ index, (slotAnalysis parts index).Lawful (parts.get index).2)
    {new reached : Fin parts.length → σ} (own : ∀ index, (parts.get index).2 (reached index)) :
    let merged index := (slotAnalysis parts index).merged (new index) (reached index)
    (composite (parts.map Prod.fst)).merge ((List.finRange parts.length).map new)
        ((List.finRange parts.length).map reached) =
      if (∀ index, (slotAnalysis parts index).stop (new index) [merged index] = true) ∧
          ∃ index, (slotAnalysis parts index).stop (merged index) [reached index] = false then
        some ((List.finRange parts.length).map merged)
      else none := by
  intro merged
  rw [map_slotAnalysis, composite_merge_map]
  refine if_congr ?_ rfl rfl
  simp [(lawful _).changes_eq (own _), merged]

end Slots

section Laws

variable {parts : List (Analysis σ × (σ → Prop))}

theorem Lawful.composite (lawful : ∀ part ∈ parts, part.1.Lawful part.2) :
    (composite (parts.map Prod.fst)).Lawful (TupleOf parts) := by
  have lawful : ∀ index, (slotAnalysis parts index).Lawful (parts.get index).2 :=
    fun index => lawful _ (List.get_mem parts index)
  have refl : ∀ {tuple}, TupleOf parts tuple →
      (Analysis.composite (parts.map Prod.fst)).stop tuple [tuple] = true := by
    intro tuple proper
    obtain ⟨slot, rfl, own⟩ := proper.exists_slot
    exact covers_slots.mpr fun index => (lawful index).refl (own index)
  constructor
  · exact refl
  · intro first second third isFirst isSecond isThird inner outer
    obtain ⟨firstSlot, rfl, firstOwn⟩ := isFirst.exists_slot
    obtain ⟨secondSlot, rfl, secondOwn⟩ := isSecond.exists_slot
    obtain ⟨thirdSlot, rfl, thirdOwn⟩ := isThird.exists_slot
    rw [covers_slots] at inner outer ⊢
    intro index
    exact (lawful index).trans (firstOwn index) (secondOwn index) (thirdOwn index) (inner index)
      (outer index)
  · intro new reached isNew isReached
    obtain ⟨newSlot, rfl, newOwn⟩ := isNew.exists_slot
    obtain ⟨reachedSlot, same, reachedOwn⟩ := isReached.exists_slot
    unfold merged
    cases merges : (Analysis.composite (parts.map Prod.fst)).merge
        ((List.finRange parts.length).map newSlot) reached with
    | none => exact refl isReached
    | some merged =>
      subst same
      rw [merge_slots lawful reachedOwn] at merges
      split at merges
      · cases merges
        exact covers_slots.mpr fun index => (lawful index).merges (newOwn index) (reachedOwn index)
      · cases merges

theorem stop_of_merge (lawful : ∀ part ∈ parts, part.1.Lawful part.2) {new reached merged : List σ}
    (isNew : TupleOf parts new) (isReached : TupleOf parts reached)
    (merges : (composite (parts.map Prod.fst)).merge new reached = some merged) :
    merged.length = parts.length ∧
      (composite (parts.map Prod.fst)).stop new [merged] = true ∧
      (composite (parts.map Prod.fst)).stop reached [merged] = true ∧
      (composite (parts.map Prod.fst)).stop merged [reached] = false := by
  have coversReached := (Lawful.composite lawful).merges isNew isReached
  rw [Analysis.merged, merges, Option.getD_some] at coversReached
  have lawful : ∀ index, (slotAnalysis parts index).Lawful (parts.get index).2 :=
    fun index => lawful _ (List.get_mem parts index)
  obtain ⟨newSlot, rfl, newOwn⟩ := isNew.exists_slot
  obtain ⟨reachedSlot, rfl, reachedOwn⟩ := isReached.exists_slot
  rw [merge_slots lawful reachedOwn] at merges
  split at merges
  · rename_i changed
    obtain ⟨coversNew, index, uncovered⟩ := changed
    cases merges
    refine ⟨by simp, covers_slots.mpr coversNew, coversReached, ?_⟩
    rw [Bool.eq_false_iff, Ne, covers_slots]
    intro covered
    rw [covered index] at uncovered
    cases uncovered
  · cases merges

theorem merge_eq_none_iff (lawful : ∀ part ∈ parts, part.1.Lawful part.2) {new reached : List σ}
    (isNew : TupleOf parts new) (isReached : TupleOf parts reached) :
    (composite (parts.map Prod.fst)).merge new reached = none ↔
      (∃ slot ∈ (parts.map Prod.fst).zip (new.zip reached),
        slot.1.stop slot.2.1 [slot.1.merged slot.2.1 slot.2.2] = false) ∨
      ∀ slot ∈ (parts.map Prod.fst).zip (new.zip reached),
        slot.1.stop (slot.1.merged slot.2.1 slot.2.2) [slot.2.2] = true := by
  have lawful : ∀ index, (slotAnalysis parts index).Lawful (parts.get index).2 :=
    fun index => lawful _ (List.get_mem parts index)
  obtain ⟨newSlot, rfl, newOwn⟩ := isNew.exists_slot
  obtain ⟨reachedSlot, rfl, reachedOwn⟩ := isReached.exists_slot
  rw [merge_slots lawful reachedOwn, map_slotAnalysis, List.zip_map', List.zip_map']
  simp only [ite_eq_right_iff, reduceCtorEq, imp_false, not_and_or, not_forall, not_exists,
    Bool.not_eq_true, Bool.not_eq_false]
  simp

/-- A composition of lawful analyses is lawful.  A tuple is covered if one tuple covers it in every
slot. A merge leaves the reached tuple alone or yields a tuple that covers both and is not covered
by it; it leaves it alone if some merged state does not cover the new one. -/
theorem composite_lawful (parts : List (Analysis σ × (σ → Prop)))
    (lawful : ∀ part ∈ parts, part.1.Lawful part.2) :
    (composite (parts.map Prod.fst)).Lawful (TupleOf parts) ∧
    (∀ tuple others, (composite (parts.map Prod.fst)).stop tuple others = true ↔
      ∃ other ∈ others, ∀ slot ∈ (parts.map Prod.fst).zip (tuple.zip other),
        slot.1.stop slot.2.1 [slot.2.2] = true) ∧
    ∀ new reached, TupleOf parts new → TupleOf parts reached →
      (∀ merged, (composite (parts.map Prod.fst)).merge new reached = some merged →
        merged.length = parts.length ∧
          (composite (parts.map Prod.fst)).stop new [merged] = true ∧
          (composite (parts.map Prod.fst)).stop reached [merged] = true ∧
          (composite (parts.map Prod.fst)).stop merged [reached] = false) ∧
      ((composite (parts.map Prod.fst)).merge new reached = none ↔
        (∃ slot ∈ (parts.map Prod.fst).zip (new.zip reached),
          slot.1.stop slot.2.1 [slot.1.merged slot.2.1 slot.2.2] = false) ∨
        ∀ slot ∈ (parts.map Prod.fst).zip (new.zip reached),
          slot.1.stop (slot.1.merged slot.2.1 slot.2.2) [slot.2.2] = true) := by
  refine ⟨.composite lawful, fun tuple others => stop_composite, ?_⟩
  intro new reached isNew isReached
  exact ⟨fun merged => stop_of_merge lawful isNew isReached,
    merge_eq_none_iff lawful isNew isReached⟩

open ComponentState

/-- At one location bounds are joined, and the join is not covered by the reached bounds; at
different locations nothing is merged. -/
theorem composite_lawful_values :
    let located := Component.location.analysis default "error"
    let valued := (Component.value .join).analysis default "error"
    let five := Bounds.unknown.set "x" (.const 5)
    let seven := Bounds.unknown.set "x" (.const 7)
    let whole := composite [located, valued]
    (whole.stop [.location ⟨1, ""⟩, .bounds seven] [[.location ⟨1, ""⟩, .bounds .unknown]] = true ∧
      whole.stop [.location ⟨1, ""⟩, .bounds .unknown]
        [[.location ⟨1, ""⟩, .bounds seven]] = false) ∧
      whole.merge [.location ⟨1, ""⟩, .bounds five] [.location ⟨2, ""⟩, .bounds seven] = none := by
  intro located valued five seven whole
  have tupleOf : ∀ node known,
      TupleOf [(located, Belongs .location), (valued, Belongs (.value .join))]
      [.location node, .bounds known] :=
    fun node known => .cons (.location node) (.cons (.value .join known) .nil)
  obtain ⟨_, _, merges⟩ := composite_lawful
    [(located, Belongs .location), (valued, Belongs (.value .join))] (by
      intro part member
      rcases List.mem_pair.mp member with rfl | rfl
      · exact Component.lawful default "error" .location
      · exact Component.lawful default "error" (.value .join))
  constructor
  · obtain ⟨covered, _⟩ := merges _ _ (tupleOf ⟨1, ""⟩ five) (tupleOf ⟨1, ""⟩ seven)
    exact (covered [.location ⟨1, ""⟩, .bounds .unknown] (by cbv)).2.2
  · obtain ⟨_, kept⟩ := merges _ _ (tupleOf ⟨1, ""⟩ five) (tupleOf ⟨2, ""⟩ seven)
    exact kept.mpr (.inl ⟨(located, .location ⟨1, ""⟩, .location ⟨2, ""⟩), List.mem_cons_self, rfl⟩)

end Laws

end Analysis

end Reachability
