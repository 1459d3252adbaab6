import Mathlib
import Reachability.Analysis.Component
import Reachability.Proofs.Bounds.Inclusion
import Reachability.Proofs.Program.Variables

/-!
# The variables that bounds speak about

Bounds store no unbounded interval, and an action lets them speak about the
variables of the program only.  A join that changes bounds gives up at least one
of their variables, so bounds can be joined only as often as they have variables.
-/

namespace Reachability.Bounds

/-- The stored variables are among the given ones, and none of them is unbounded. -/
def Among (names : List String) (bounds : Bounds) : Prop :=
  ∀ name interval, bounds.ranges.get? name = some interval →
    name ∈ names ∧ interval.isTop = false

variable {names : List String} {bounds result new reached : Bounds} {name : String}

theorem among_unknown : unknown.Among names := by
  intro name interval found
  cases found

section

variable (among : bounds.Among names) {op : Comparison} {cond : Expr}

include among

theorem Among.set (known : name ∈ names) (interval : Interval) :
    (bounds.set name interval).Among names := by
  intro key stored found
  unfold Bounds.set at found
  split at found
  · rw [NameMap.get?_erase] at found
    split at found
    · cases found
    · exact among key stored found
  · rename_i bounded
    rw [NameMap.get?_insert] at found
    split at found
    · rename_i same
      cases found
      exact ⟨same ▸ known, Bool.eq_false_iff.mpr bounded⟩
    · exact among key stored found

theorem Among.restrict (known : name ∈ names) {other : Interval}
    (restricted : bounds.restrict name op other = some result) : result.Among names := by
  unfold Bounds.restrict at restricted
  obtain ⟨interval, _, rfl⟩ := Option.map_eq_some_iff.mp restricted
  split
  · exact among
  · exact among.set known interval

theorem Among.restrictOperand {operand other : Expr} (within : operand.Within names)
    (restricted : bounds.restrictOperand operand op other = some result) : result.Among names := by
  unfold Bounds.restrictOperand at restricted
  split at restricted
  · exact among.restrict (Expr.within_var.mp within) restricted
  · cases restricted
    exact among

theorem Among.refineComparison {left right : Expr} (leftWithin : left.Within names)
    (rightWithin : right.Within names)
    (refined : bounds.refineComparison op left right = some result) : result.Among names := by
  unfold Bounds.refineComparison at refined
  obtain ⟨first, leftRestricted, refined⟩ := Option.bind_eq_some_iff.mp refined
  obtain ⟨second, rightRestricted, refined⟩ := Option.bind_eq_some_iff.mp refined
  split at refined
  · cases refined
  · cases refined
    exact (among.restrictOperand leftWithin leftRestricted).restrictOperand rightWithin
      rightRestricted

theorem Among.keepIf {truth : Bool} (kept : bounds.keepIf cond truth = some result) :
    result.Among names := by
  unfold Bounds.keepIf at kept
  dsimp only at kept
  split at kept
  · cases kept
  · cases kept
    exact among

theorem Among.refine (within : cond.Within names) {truth : Bool}
    (refined : bounds.refine truth cond = some result) : result.Among names := by
  induction cond generalizing bounds truth result with
  | literal | nondet | foreign | missing => exact among.keepIf refined
  | var pos name => exact among.restrict (Expr.within_var.mp within) refined
  | unary pos op operand induction =>
    unfold Bounds.refine at refined
    split at refined
    · exact induction among (Expr.within_unary.mp within) refined
    · exact among.keepIf refined
  | binary pos op left right leftInduction rightInduction =>
    obtain ⟨leftWithin, rightWithin⟩ := Expr.within_binary.mp within
    unfold Bounds.refine at refined
    split at refined
    · obtain ⟨middle, first, second⟩ := Option.bind_eq_some_iff.mp refined
      exact rightInduction (leftInduction among leftWithin first) rightWithin second
    · split at refined
      · exact among.refineComparison leftWithin rightWithin refined
      · exact among.keepIf refined

theorem Among.assume (within : cond.Within names) (assumed : bounds.assume cond = some result) :
    result.Among names := by
  unfold Bounds.assume at assumed
  split at assumed
  · cases assumed
  · exact among.refine within assumed

theorem Among.after {action : Action} (within : action.Within names)
    (passes : bounds.after action = some result) : result.Among names := by
  cases action with
  | assign var value =>
    cases passes
    exact among.set within _
  | assume cond truth =>
    cases truth with
    | true => exact among.assume within passes
    | false => exact among.assume (Expr.within_unary.mpr within) passes
  | call result callee args =>
    cases passes
    split
    · exact among
    · rename_i used
      exact among.set (within used) _
  | blank description =>
    cases passes
    exact among

end

theorem get?_join {interval : Interval} : (new.join reached).ranges.get? name = some interval ↔
    new.ranges.get? name = some interval ∧ reached.ranges.get? name = some interval := by
  unfold join
  rw [NameMap.get?_filter, Option.filter_eq_some_iff, beq_iff_eq]

theorem Among.join (among : reached.Among names) : (new.join reached).Among names :=
  fun name interval found => among name interval (get?_join.mp found).2

theorem nodup_vars (bounds : Bounds) : bounds.vars.Nodup :=
  bounds.ranges.sorted.imp fun before => String.ne_of_lt before

theorem mem_vars : name ∈ bounds.vars ↔ ∃ interval, bounds.ranges.get? name = some interval := by
  simp only [vars, NameMap.keys, List.mem_map, NameMap.get?_eq_some_iff, Prod.exists,
    exists_and_right, exists_eq_right]

/-- Bounds with equally many variables are the same if one of them has all intervals of the
other. -/
@[simp] theorem equal_iff : new.equal reached = true ↔ new = reached := by
  simp only [equal, Bool.and_eq_true, beq_iff_eq, List.all_eq_true]
  constructor
  · intro same
    obtain ⟨equallyMany, shared⟩ := same
    have kept : ∀ {name interval}, new.ranges.get? name = some interval →
        reached.ranges.get? name = some interval :=
      fun found => shared _ (NameMap.get?_eq_some_iff.mp found)
    have subset : new.vars ⊆ reached.vars := by
      intro name stored
      obtain ⟨interval, found⟩ := mem_vars.mp stored
      exact mem_vars.mpr ⟨interval, kept found⟩
    have listed := (List.subperm_of_subset new.nodup_vars subset).perm_of_length_le
      (Nat.le_of_eq equallyMany.symm)
    apply congrArg Bounds.mk
    apply NameMap.ext_get?
    intro name
    apply Option.ext
    intro interval
    refine ⟨kept, ?_⟩
    intro found
    obtain ⟨other, otherFound⟩ := mem_vars.mp (listed.mem_iff.mpr (mem_vars.mpr ⟨interval, found⟩))
    have equal := kept otherFound
    rw [found] at equal
    rw [otherFound, equal]
  · rintro rfl
    exact ⟨rfl, fun entry member => NameMap.get?_eq_some_iff.mpr member⟩

theorem Among.length_vars (among : bounds.Among names) : bounds.vars.length ≤ names.length := by
  apply List.Subperm.length_le
  apply List.subperm_of_subset bounds.nodup_vars
  intro name stored
  obtain ⟨interval, found⟩ := mem_vars.mp stored
  exact (among name interval found).1

theorem includes_join (new reached : Bounds) : (new.join reached).includes new = true := by
  rw [includes_iff]
  intro name
  rcases found : (new.join reached).ranges.get? name with _ | interval
  · unfold get
    rw [found]
    exact Interval.includes_top _
  · unfold get
    rw [found, (get?_join.mp found).1]
    exact Interval.includes_self _

theorem exists_dropped (changed : new.join reached ≠ reached) :
    ∃ name interval, reached.ranges.get? name = some interval ∧
      (new.join reached).ranges.get? name = none := by
  by_contra kept
  push Not at kept
  apply changed
  have same : ∀ name, (new.join reached).ranges.get? name = reached.ranges.get? name := by
    intro name
    apply Option.ext
    intro interval
    constructor
    · exact fun found => (get?_join.mp found).2
    · intro found
      obtain ⟨other, otherFound⟩ := Option.ne_none_iff_exists'.mp (kept name interval found)
      have equal := (get?_join.mp otherFound).2
      rw [found] at equal
      rw [otherFound, equal]
  exact congrArg Bounds.mk (NameMap.ext_get? same)

theorem length_vars_join (changed : new.join reached ≠ reached) :
    (new.join reached).vars.length < reached.vars.length := by
  obtain ⟨name, interval, stored, dropped⟩ := exists_dropped changed
  have absent : name ∉ (new.join reached).vars := by
    intro kept
    obtain ⟨other, found⟩ := mem_vars.mp kept
    rw [dropped] at found
    cases found
  have subset : name :: (new.join reached).vars ⊆ reached.vars := by
    intro other member
    rcases List.mem_cons.mp member with rfl | kept
    · exact mem_vars.mpr ⟨interval, stored⟩
    · obtain ⟨shared, found⟩ := mem_vars.mp kept
      exact mem_vars.mpr ⟨shared, (get?_join.mp found).2⟩
  have distinct := List.nodup_cons.mpr ⟨absent, nodup_vars (new.join reached)⟩
  exact (List.subperm_of_subset distinct subset).length_le

/-- What a merge puts in the place of the reached bounds is a join that differs from them. -/
theorem mergeInto_eq_some {policy : MergePolicy}
    (merges : new.mergeInto policy reached = some result) :
    result = new.join reached ∧ new.join reached ≠ reached := by
  cases policy with
  | separate => cases merges
  | join =>
    simp only [mergeInto] at merges
    split at merges
    · cases merges
    · rename_i changed
      cases merges
      exact ⟨rfl, fun same => changed (equal_iff.mpr same)⟩

theorem length_vars_mergeInto {policy : MergePolicy}
    (merges : new.mergeInto policy reached = some result) :
    result.vars.length < reached.vars.length := by
  obtain ⟨rfl, changed⟩ := mergeInto_eq_some merges
  exact length_vars_join changed

/-- The reached bounds do not cover a join that changes them, because the variable that it gives up
was bounded. -/
theorem Among.not_includes_join (among : reached.Among names)
    (changed : new.join reached ≠ reached) : reached.includes (new.join reached) = false := by
  rw [Bool.eq_false_iff, Ne, includes_iff]
  intro includes
  obtain ⟨name, interval, stored, dropped⟩ := exists_dropped changed
  have wide := includes name
  unfold get at wide
  rw [stored, dropped, Option.getD_some, Option.getD_none] at wide
  have bounded := (among name interval stored).2
  rw [Interval.isTop_of_includes_top wide] at bounded
  cases bounded

end Reachability.Bounds
