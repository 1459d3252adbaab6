import Mathlib
import Reachability.Proofs.Interval.Exactness
import Reachability.Proofs.Interval.Logic

/-!
# Exactness of truth values

A condition on the members of intervals takes one truth value or both.  The
interval computed for it holds the words of these truth values and no others, so
it is known which of them occur.  That negating a comparison negates its
interval, and that swapping the operands changes nothing, follows from this
alone.
-/

namespace Reachability.Interval

def truthValues (truths : Set Bool) : Set Int :=
  {value | ∃ truth ∈ truths, (truthWord truth).toInt = value}

/-- The truth values of a condition on the members of two intervals. -/
def outcomes (cond : Int64 → Int64 → Bool) (first second : Interval) : Set Bool :=
  {truth | ∃ x ∈ first, ∃ y ∈ second, cond x y = truth}

/-- The truth values of the negations of the members of an interval. -/
def negations (interval : Interval) : Set Bool := {truth | ∃ x ∈ interval, (x == 0) = truth}

variable {first second interval other : Interval} {truths : Set Bool}

theorem IsHull.unique {values : Set Int} (hull : interval.IsHull values)
    (otherHull : other.IsHull values) : interval = other := by
  have wide := otherHull.smallest interval hull.holds
  have narrow := hull.smallest other otherHull.holds
  simp only [includes, Bool.and_eq_true, decide_eq_true_eq, Int64.le_iff_toInt_le] at wide narrow
  have low : interval.lo = other.lo := Int64.toInt_inj.mp (by omega)
  have high : interval.hi = other.hi := Int64.toInt_inj.mp (by omega)
  cases interval
  cases other
  cases low
  cases high
  rfl

section Verdicts

/-- A verdict is as small as it can be if a condition that is not said to hold always fails
somewhere, and one that is not said to fail always holds somewhere. -/
theorem isHull_verdict {always never : Bool} (inhabited : truths.Nonempty)
    (covers : ∀ truth ∈ truths, truthWord truth ∈ verdict always never)
    (refuted : always = false → false ∈ truths) (confirmed : never = false → true ∈ truths) :
    (verdict always never).IsHull (truthValues truths) := by
  obtain ⟨some, member⟩ := inhabited
  have covered := covers some member
  apply isHull_of_bounds
  · rintro value ⟨truth, occurs, rfl⟩
    exact mem_iff.mp (covers truth occurs)
  · cases always with
    | true =>
      refine ⟨some, member, ?_⟩
      rw [mem_const.mp covered]
      rfl
    | false =>
      refine ⟨false, refuted rfl, ?_⟩
      cases never <;> rfl
  · cases always with
    | true =>
      refine ⟨some, member, ?_⟩
      rw [mem_const.mp covered]
      rfl
    | false =>
      cases never with
      | true => exact ⟨false, refuted rfl, rfl⟩
      | false => exact ⟨true, confirmed rfl, rfl⟩

theorem IsHull.mem_iff_truth (hull : interval.IsHull (truthValues truths))
    (inhabited : truths.Nonempty)
    {word : Int64} : word ∈ interval ↔ ∃ truth ∈ truths, truthWord truth = word := by
  constructor
  · intro member
    have without : ∀ value : Bool, value ∉ truths → interval = const (truthWord !value) := by
      intro value absent
      have all : ∀ truth ∈ truths, truth = !value := by
        intro truth occurs
        have different : truth ≠ value := fun same => absent (same ▸ occurs)
        exact Bool.eq_not.mpr different
      obtain ⟨some, occurs⟩ := inhabited
      have isValue : (truthWord !value).toInt ∈ truthValues truths :=
        ⟨!value, all some occurs ▸ occurs, rfl⟩
      refine hull.unique (isHull_of_bounds ?_ isValue isValue)
      rintro _ ⟨truth, occurs, rfl⟩
      rw [all truth occurs]
      exact ⟨Int.le_refl _, Int.le_refl _⟩
    by_cases fails : false ∈ truths
    · by_cases holds : true ∈ truths
      · have narrow := hull.smallest either (by
          rintro _ ⟨truth, _, rfl⟩
          cases truth <;> decide)
        rcases mem_either.mp (mem_of_includes narrow member) with rfl | rfl
        · exact ⟨false, fails, rfl⟩
        · exact ⟨true, holds, rfl⟩
      · rw [without true holds, mem_const] at member
        exact ⟨false, fails, member.symm⟩
    · rw [without false fails, mem_const] at member
      obtain ⟨some, occurs⟩ := inhabited
      cases some with
      | false => exact absurd occurs fails
      | true => exact ⟨true, occurs, member.symm⟩
  · rintro ⟨truth, occurs, rfl⟩
    exact mem_iff.mpr (hull.holds _ ⟨truth, occurs, rfl⟩)

end Verdicts

section Flags

theorem exists_ne_zero (nonempty : interval.Nonempty) (possible : interval.isFalse = false) :
    ∃ x ∈ interval, x ≠ 0 := by
  rw [isFalse, Bool.and_eq_false_iff, beq_eq_false_iff_ne, beq_eq_false_iff_ne] at possible
  rcases possible with low | high
  · exact ⟨_, nonempty.lo_mem, low⟩
  · exact ⟨_, nonempty.hi_mem, high⟩

theorem zero_mem (possible : interval.isTrue = false) : 0 ∈ interval := by
  simpa [isTrue] using possible

end Flags

section Logic

variable (nonempty : first.Nonempty) (otherNonempty : second.Nonempty)

include nonempty in
theorem isHull_not : first.not.IsHull (truthValues first.negations) := by
  apply isHull_verdict
  · exact ⟨_, _, nonempty.lo_mem, rfl⟩
  · rintro _ ⟨x, member, rfl⟩
    exact mem_not member
  · intro possible
    obtain ⟨x, member, nonzero⟩ := exists_ne_zero nonempty possible
    exact ⟨x, member, beq_eq_false_iff_ne.mpr nonzero⟩
  · intro possible
    exact ⟨0, zero_mem possible, rfl⟩

include nonempty otherNonempty

theorem outcomes_nonempty (cond : Int64 → Int64 → Bool) : (outcomes cond first second).Nonempty :=
  ⟨_, _, nonempty.lo_mem, _, otherNonempty.lo_mem, rfl⟩

theorem isHull_and : (first.and second).IsHull
    (truthValues (outcomes (fun x y => x != 0 && y != 0) first second)) := by
  apply isHull_verdict (outcomes_nonempty nonempty otherNonempty _)
  · rintro _ ⟨x, inFirst, y, inSecond, rfl⟩
    exact mem_and inFirst inSecond
  · intro possible
    rw [Bool.and_eq_false_iff] at possible
    rcases possible with firstPossible | secondPossible
    · exact ⟨0, zero_mem firstPossible, _, otherNonempty.lo_mem, rfl⟩
    · exact ⟨_, nonempty.lo_mem, 0, zero_mem secondPossible, Bool.and_false _⟩
  · intro possible
    rw [Bool.or_eq_false_iff] at possible
    obtain ⟨x, inFirst, xNonzero⟩ := exists_ne_zero nonempty possible.1
    obtain ⟨y, inSecond, yNonzero⟩ := exists_ne_zero otherNonempty possible.2
    exact ⟨x, inFirst, y, inSecond, by simp [xNonzero, yNonzero]⟩

theorem isHull_or : (first.or second).IsHull
    (truthValues (outcomes (fun x y => x != 0 || y != 0) first second)) := by
  apply isHull_verdict (outcomes_nonempty nonempty otherNonempty _)
  · rintro _ ⟨x, inFirst, y, inSecond, rfl⟩
    exact mem_or inFirst inSecond
  · intro possible
    rw [Bool.or_eq_false_iff] at possible
    exact ⟨0, zero_mem possible.1, 0, zero_mem possible.2, rfl⟩
  · intro possible
    rw [Bool.and_eq_false_iff] at possible
    rcases possible with firstPossible | secondPossible
    · obtain ⟨x, inFirst, nonzero⟩ := exists_ne_zero nonempty firstPossible
      exact ⟨x, inFirst, _, otherNonempty.lo_mem, by simp [nonzero]⟩
    · obtain ⟨y, inSecond, nonzero⟩ := exists_ne_zero otherNonempty secondPossible
      exact ⟨_, nonempty.lo_mem, y, inSecond, by simp [nonzero]⟩

end Logic

section Comparisons

variable (nonempty : first.Nonempty) (otherNonempty : second.Nonempty)

include nonempty otherNonempty

theorem isHull_compareEq : (compareEq first second).IsHull
    (truthValues (outcomes Comparison.eq.holds first second)) := by
  apply isHull_verdict (outcomes_nonempty nonempty otherNonempty _)
  · rintro _ ⟨x, inFirst, y, inSecond, rfl⟩
    exact mem_compareEq inFirst inSecond
  · intro possible
    by_contra agree
    have same : ∀ x ∈ first, ∀ y ∈ second, x = y := by
      intro x inFirst y inSecond
      by_contra different
      exact agree ⟨x, inFirst, y, inSecond, beq_eq_false_iff_ne.mpr different⟩
    have low := same _ nonempty.lo_mem _ otherNonempty.lo_mem
    have high := same _ nonempty.hi_mem _ otherNonempty.lo_mem
    have cross := same _ nonempty.lo_mem _ otherNonempty.hi_mem
    simp [sameConst, isConst, low, high, ← cross] at possible
  · intro overlap
    rw [Option.isNone_eq_false_iff, Option.isSome_iff_exists] at overlap
    obtain ⟨common, found⟩ := overlap
    obtain ⟨ordered, _⟩ := range?_eq_some_iff.mp found
    have ordered' := Int64.le_iff_toInt_le.mp nonempty
    have otherOrdered := Int64.le_iff_toInt_le.mp otherNonempty
    rw [toInt_max, toInt_min] at ordered
    refine ⟨max first.lo second.lo, ?_, _, ?_, beq_iff_eq.mpr rfl⟩
    · rw [mem_iff, toInt_max]
      omega
    · rw [mem_iff, toInt_max]
      omega

/-- An order on members holds always if it holds between the inner ends, and never if it fails
between the outer ones. -/
theorem isHull_order (op : Comparison) {never : Bool}
    (opposite : never = false → op.holds first.lo second.hi = true)
    (covers : ∀ x ∈ first, ∀ y ∈ second,
      truthWord (op.holds x y) ∈ verdict (op.holds first.hi second.lo) never) :
    (verdict (op.holds first.hi second.lo) never).IsHull
      (truthValues (outcomes op.holds first second)) := by
  apply isHull_verdict (outcomes_nonempty nonempty otherNonempty _)
  · rintro _ ⟨x, inFirst, y, inSecond, rfl⟩
    exact covers x inFirst y inSecond
  · intro possible
    exact ⟨_, nonempty.hi_mem, _, otherNonempty.lo_mem, possible⟩
  · intro possible
    exact ⟨_, nonempty.lo_mem, _, otherNonempty.hi_mem, opposite possible⟩

theorem isHull_compareLt : (compareLt first second).IsHull
    (truthValues (outcomes Comparison.lt.holds first second)) :=
  isHull_order nonempty otherNonempty .lt (by simp [Comparison.holds, Int64.not_le])
    fun _ inFirst _ inSecond => mem_compareLt inFirst inSecond

theorem isHull_compareLe : (compareLe first second).IsHull
    (truthValues (outcomes Comparison.le.holds first second)) :=
  isHull_order nonempty otherNonempty .le (by simp [Comparison.holds, Int64.not_lt])
    fun _ inFirst _ inSecond => mem_compareLe inFirst inSecond

end Comparisons

section Operators

theorem IsHull.not (hull : interval.IsHull (truthValues truths)) (inhabited : truths.Nonempty) :
    interval.not.IsHull (truthValues {truth | (!truth) ∈ truths}) := by
  obtain ⟨some, occurs⟩ := inhabited
  have nonempty := nonempty_of_mem ((hull.mem_iff_truth ⟨some, occurs⟩).mpr ⟨some, occurs, rfl⟩)
  have negated : interval.negations = {truth | (!truth) ∈ truths} := by
    ext truth
    constructor
    · rintro ⟨word, member, rfl⟩
      obtain ⟨other, otherOccurs, rfl⟩ := (hull.mem_iff_truth ⟨some, occurs⟩).mp member
      cases other <;> exact otherOccurs
    · intro opposite
      refine ⟨truthWord !truth, (hull.mem_iff_truth ⟨some, occurs⟩).mpr ⟨_, opposite, rfl⟩, ?_⟩
      cases truth <;> rfl
  rw [← negated]
  exact isHull_not nonempty

theorem outcomes_negate (op : Comparison) :
    outcomes op.negate.holds first second =
      {truth | (!truth) ∈ outcomes op.holds first second} := by
  ext truth
  simp only [outcomes, Set.mem_ofPred_eq, Comparison.holds_negate, Bool.not_eq_eq_eq_not]

theorem outcomes_swap (op : Comparison) :
    outcomes op.swap.holds second first = outcomes op.holds first second := by
  ext truth
  constructor
  · rintro ⟨y, inSecond, x, inFirst, isTruth⟩
    exact ⟨x, inFirst, y, inSecond, (op.holds_swap x y).symm.trans isTruth⟩
  · rintro ⟨x, inFirst, y, inSecond, isTruth⟩
    exact ⟨y, inSecond, x, inFirst, (op.holds_swap x y).trans isTruth⟩

variable (nonempty : first.Nonempty) (otherNonempty : second.Nonempty)

include nonempty otherNonempty

theorem isHull_compare (op : Comparison) : (compare op first second).IsHull
    (truthValues (outcomes op.holds first second)) := by
  cases op with
  | eq => exact isHull_compareEq nonempty otherNonempty
  | ne =>
    have equal := isHull_compareEq nonempty otherNonempty
    have different := equal.not (outcomes_nonempty nonempty otherNonempty _)
    rwa [← outcomes_negate] at different
  | lt => exact isHull_compareLt nonempty otherNonempty
  | le => exact isHull_compareLe nonempty otherNonempty
  | gt =>
    rw [← outcomes_swap]
    exact isHull_compareLt otherNonempty nonempty
  | ge =>
    rw [← outcomes_swap]
    exact isHull_compareLe otherNonempty nonempty

theorem compare_negate (op : Comparison) :
    compare op.negate first second = (compare op first second).not := by
  have negated := (isHull_compare nonempty otherNonempty op).not
    (outcomes_nonempty nonempty otherNonempty _)
  rw [← outcomes_negate] at negated
  exact (isHull_compare nonempty otherNonempty op.negate).unique negated

theorem compare_swap (op : Comparison) :
    compare op.swap second first = compare op first second := by
  have swapped := isHull_compare otherNonempty nonempty op.swap
  rw [outcomes_swap] at swapped
  exact swapped.unique (isHull_compare nonempty otherNonempty op)

end Operators

/-- Comparisons and logical operators on intervals are exact: each has the smallest interval around
the truth values that it takes on members.  So the opposite comparison has the opposite interval,
and the swapped comparison of swapped intervals has the same one. -/
theorem truth_exact (first second : Interval) (nonempty : first.Nonempty)
    (otherNonempty : second.Nonempty) :
    (∀ op : Comparison,
      (compare op first second).IsHull (truthValues (outcomes op.holds first second))) ∧
    first.not.IsHull (truthValues first.negations) ∧
    (first.and second).IsHull
      (truthValues (outcomes (fun x y => x != 0 && y != 0) first second)) ∧
    (first.or second).IsHull
      (truthValues (outcomes (fun x y => x != 0 || y != 0) first second)) ∧
    ∀ op : Comparison, compare op.negate first second = (compare op first second).not ∧
      compare op.swap second first = compare op first second := by
  refine ⟨isHull_compare nonempty otherNonempty, isHull_not nonempty,
    isHull_and nonempty otherNonempty, isHull_or nonempty otherNonempty, ?_⟩
  intro op
  exact ⟨compare_negate nonempty otherNonempty op, compare_swap nonempty otherNonempty op⟩

/-- The greatest word is at least every member of the other interval, and so it is never less than
one. Whether a member is less than it has both answers. -/
theorem truth_exact_greatest :
    (⟨0, Int64.maxValue⟩ : Interval).Nonempty ∧
      compare .ge (const Int64.maxValue) ⟨0, Int64.maxValue⟩ = const 1 ∧
      compare .lt (const Int64.maxValue) ⟨0, Int64.maxValue⟩ = const 0 ∧
      (compare .lt ⟨0, Int64.maxValue⟩ (const Int64.maxValue)).IsHull
        (truthValues (outcomes Comparison.lt.holds ⟨0, Int64.maxValue⟩ (const Int64.maxValue))) ∧
      compare .lt ⟨0, Int64.maxValue⟩ (const Int64.maxValue) = either := by
  obtain ⟨exact, _, _, _, _⟩ :=
    truth_exact ⟨0, Int64.maxValue⟩ (const Int64.maxValue) (by decide) (by decide)
  obtain ⟨_, _, _, _, related⟩ :=
    truth_exact (const Int64.maxValue) ⟨0, Int64.maxValue⟩ (by decide) (by decide)
  have atLeast : compare .ge (const Int64.maxValue) ⟨0, Int64.maxValue⟩ = const 1 := by decide
  refine ⟨by decide, atLeast, ?_, exact .lt, by decide⟩
  rw [show Comparison.lt = Comparison.ge.negate from rfl, (related .ge).1, atLeast]
  decide

end Reachability.Interval
