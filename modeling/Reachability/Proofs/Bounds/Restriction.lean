import Mathlib
import Reachability.Proofs.Bounds.Inclusion
import Reachability.Proofs.Interval.Exactness

/-!
# The best restriction of a variable

Restricting a variable by a comparison has no result exactly if no value of the
variable compares with a value of the other side.  Otherwise the values that do
have a least and a greatest one, and these are the new bounds of the variable.
-/

namespace Reachability

/-- The members of an interval that compare with some member of another one, as integers. -/
def Interval.comparable (op : Comparison) (current other : Interval) : Set Int :=
  {value | ∃ x ∈ current, (∃ y ∈ other, op.holds x y = true) ∧ x.toInt = value}

namespace Bounds

variable {op : Comparison} {current other interval : Interval}

theorem restricted?_eq_none_iff (nonempty : current.Nonempty) (otherNonempty : other.Nonempty) :
    restricted? op current other = none ↔
      ∀ x ∈ current, ∀ y ∈ other, op.holds x y = false := by
  constructor
  · intro infeasible x inCurrent y inOther
    rw [Bool.eq_false_iff]
    intro holds
    obtain ⟨interval, found, _⟩ := exists_restricted? inCurrent inOther holds
    rw [infeasible] at found
    cases found
  · intro fails
    rw [Option.eq_none_iff_forall_ne_some]
    intro interval found
    obtain ⟨_, ends⟩ := ends_of_restricted? nonempty otherNonempty found
    obtain ⟨inCurrent, y, inOther, holds⟩ := ends _ (.inl rfl)
    rw [fails _ inCurrent y inOther] at holds
    cases holds

/-- What is left of an interval contains all values that compare, and its ends are two of them. -/
theorem isHull_restricted? (nonempty : current.Nonempty) (otherNonempty : other.Nonempty)
    (found : restricted? op current other = some interval) :
    interval.IsHull (Interval.comparable op current other) := by
  obtain ⟨_, ends⟩ := ends_of_restricted? nonempty otherNonempty found
  apply Interval.isHull_of_bounds
  · rintro value ⟨x, inCurrent, ⟨y, inOther, holds⟩, rfl⟩
    obtain ⟨same, sameFound, member⟩ := exists_restricted? inCurrent inOther holds
    rw [found, Option.some.injEq] at sameFound
    subst sameFound
    exact Interval.mem_iff.mp member
  · obtain ⟨inCurrent, compares⟩ := ends _ (.inl rfl)
    exact ⟨_, inCurrent, compares, rfl⟩
  · obtain ⟨inCurrent, compares⟩ := ends _ (.inr rfl)
    exact ⟨_, inCurrent, compares, rfl⟩

theorem restrict_eq_none_iff {bounds : Bounds} {name : String} :
    bounds.restrict name op other = none ↔ restricted? op (bounds.get name) other = none := by
  simp [restrict]

/-- Restricting a variable is as good as intervals allow.  There is no result exactly if no value of
the variable compares with a value of the other side; otherwise the variable has the smallest
interval around the values that do, and all others have the intervals they had. -/
theorem restrict_best (bounds : Bounds) (name : String) (op : Comparison) (other : Interval)
    (nonempty : bounds.Nonempty) (otherNonempty : other.Nonempty) :
    (bounds.restrict name op other = none ↔
      ¬∃ x ∈ bounds.get name, ∃ y ∈ other, op.holds x y = true) ∧
    ∀ refined, bounds.restrict name op other = some refined →
      (refined.get name).IsHull (Interval.comparable op (bounds.get name) other) ∧
      ∀ key, key ≠ name → refined.get key = bounds.get key := by
  constructor
  · rw [restrict_eq_none_iff, restricted?_eq_none_iff (nonempty name) otherNonempty]
    simp only [not_exists, not_and, Bool.not_eq_true]
  · intro refined restricts
    obtain ⟨interval, found, known⟩ := get_restrict restricts
    refine ⟨?_, ?_⟩
    · rw [known name, if_pos rfl]
      exact isHull_restricted? (nonempty name) otherNonempty found
    · intro key different
      rw [known key, if_neg different]

/-- Nothing is above the greatest word, and what differs from the least word starts one above it. -/
theorem restrict_best_ends :
    (unknown.restrict "x" .gt (.const Int64.maxValue) = none ∧
      ∀ x : Int64, Comparison.gt.holds x Int64.maxValue = false) ∧
    ∃ refined, unknown.restrict "x" .ne (.const Int64.minValue) = some refined ∧
      refined.get "x" = ⟨Int64.minValue + 1, Int64.maxValue⟩ ∧
      (refined.get "x").IsHull (Interval.comparable .ne .top (.const Int64.minValue)) := by
  obtain ⟨infeasible, _⟩ := restrict_best unknown "x" .gt (.const Int64.maxValue) nonempty_unknown
    (by decide)
  obtain ⟨_, best⟩ := restrict_best unknown "x" .ne (.const Int64.minValue) nonempty_unknown
    (by decide)
  have nothing : unknown.restrict "x" .gt (.const Int64.maxValue) = none := by decide
  refine ⟨⟨nothing, ?_⟩, ?_⟩
  · intro x
    rw [Bool.eq_false_iff]
    intro holds
    exact infeasible.mp nothing ⟨x, Interval.mem_top x, _, Interval.mem_const.mpr rfl, holds⟩
  · obtain ⟨refined, restricts, narrowed⟩ : ∃ refined,
        unknown.restrict "x" .ne (.const Int64.minValue) = some refined ∧
          refined.get "x" = ⟨Int64.minValue + 1, Int64.maxValue⟩ := ⟨_, rfl, by decide⟩
    exact ⟨refined, restricts, narrowed, (best refined restricts).1⟩

end Bounds

end Reachability
