import Mathlib
import Reachability.Execution.Eval
import Reachability.Interval.Logic
import Reachability.Proofs.Interval.Membership

/-!
# Correctness of truth values of intervals

The word of a condition on members is a member of the interval computed for
the condition.  A logical operator whose first operand decides the result is
covered whatever its second operand is, since that one is not evaluated.
-/

namespace Reachability

theorem truthWord_ne_zero_iff {value : Bool} : truthWord value ≠ 0 ↔ value = true := by
  cases value <;> decide

theorem truthWord_eq_zero_iff {value : Bool} : truthWord value = 0 ↔ value = false := by
  cases value <;> decide

namespace Interval

theorem mem_verdict {always never value : Bool}
    (ifAlways : always = true → value = true) (ifNever : never = true → value = false) :
    truthWord value ∈ verdict always never := by
  unfold verdict
  split
  · rename_i holds
    simp [ifAlways holds, truthWord]
  · split
    · rename_i fails
      simp [ifNever fails, truthWord]
    · rw [mem_either]
      cases value
      · exact .inl rfl
      · exact .inr rfl

variable {x : Int64} {first second : Interval}

theorem mem_not {interval : Interval} (member : x ∈ interval) :
    truthWord (x == 0) ∈ interval.not := by
  apply mem_verdict
  · intro isFalse
    simp [eq_zero_of_isFalse isFalse member]
  · intro isTrue
    simp [ne_zero_of_isTrue isTrue member]

theorem mem_and {y : Int64} (inFirst : x ∈ first) (inSecond : y ∈ second) :
    truthWord (x != 0 && y != 0) ∈ first.and second := by
  apply mem_verdict
  · intro always
    rw [Bool.and_eq_true] at always
    simp [ne_zero_of_isTrue always.1 inFirst, ne_zero_of_isTrue always.2 inSecond]
  · intro never
    rw [Bool.or_eq_true] at never
    rcases never with firstFalse | secondFalse
    · simp [eq_zero_of_isFalse firstFalse inFirst]
    · simp [eq_zero_of_isFalse secondFalse inSecond]

theorem zero_mem_and (inFirst : 0 ∈ first) (second : Interval) : 0 ∈ first.and second := by
  change truthWord false ∈ verdict _ _
  apply mem_verdict
  · intro always
    rw [Bool.and_eq_true] at always
    exact absurd rfl (ne_zero_of_isTrue always.1 inFirst)
  · intro _
    rfl

theorem mem_or {y : Int64} (inFirst : x ∈ first) (inSecond : y ∈ second) :
    truthWord (x != 0 || y != 0) ∈ first.or second := by
  apply mem_verdict
  · intro always
    rw [Bool.or_eq_true] at always
    rcases always with firstTrue | secondTrue
    · simp [ne_zero_of_isTrue firstTrue inFirst]
    · simp [ne_zero_of_isTrue secondTrue inSecond]
  · intro never
    rw [Bool.and_eq_true] at never
    simp [eq_zero_of_isFalse never.1 inFirst, eq_zero_of_isFalse never.2 inSecond]

theorem one_mem_or (inFirst : x ∈ first) (nonzero : x ≠ 0) (second : Interval) :
    1 ∈ first.or second := by
  change truthWord true ∈ verdict _ _
  apply mem_verdict
  · intro _
    rfl
  · intro never
    rw [Bool.and_eq_true] at never
    exact absurd (eq_zero_of_isFalse never.1 inFirst) nonzero

section

variable {y : Int64} (inFirst : x ∈ first) (inSecond : y ∈ second)

include inFirst inSecond

theorem mem_compareEq : truthWord (x == y) ∈ compareEq first second := by
  apply mem_verdict
  · intro same
    simp only [sameConst, Bool.and_eq_true, beq_iff_eq] at same
    obtain ⟨⟨firstConst, secondConst⟩, equal⟩ := same
    rw [eq_lo_of_isConst firstConst inFirst, eq_lo_of_isConst secondConst inSecond, equal]
    simp
  · intro disjoint
    rw [Option.isNone_iff_eq_none] at disjoint
    by_contra equal
    simp only [Bool.not_eq_false, beq_iff_eq] at equal
    subst equal
    obtain ⟨interval, overlap, _⟩ := exists_meet? inFirst inSecond
    rw [disjoint] at overlap
    exact absurd overlap (by simp)

theorem mem_compareLt : truthWord (decide (x < y)) ∈ compareLt first second := by
  rw [mem_iff] at inFirst inSecond
  apply mem_verdict
  · intro always
    simp only [decide_eq_true_eq, Int64.lt_iff_toInt_lt] at always ⊢
    omega
  · intro never
    simp only [decide_eq_true_eq, decide_eq_false_iff_not, ge_iff_le, Int64.le_iff_toInt_le,
      Int64.lt_iff_toInt_lt] at never ⊢
    omega

theorem mem_compareLe : truthWord (decide (x ≤ y)) ∈ compareLe first second := by
  rw [mem_iff] at inFirst inSecond
  apply mem_verdict
  · intro always
    simp only [decide_eq_true_eq, Int64.le_iff_toInt_le] at always ⊢
    omega
  · intro never
    simp only [decide_eq_true_eq, decide_eq_false_iff_not, gt_iff_lt, Int64.le_iff_toInt_le,
      Int64.lt_iff_toInt_lt] at never ⊢
    omega

end

theorem mem_compare {y : Int64} (op : Comparison) (inFirst : x ∈ first) (inSecond : y ∈ second) :
    truthWord (op.holds x y) ∈ compare op first second := by
  cases op with
  | eq => exact mem_compareEq inFirst inSecond
  | ne =>
    have negated := mem_not (mem_compareEq inFirst inSecond)
    have same : (truthWord (x == y) == 0) = (x != y) := by
      rw [Bool.eq_iff_iff, beq_iff_eq, truthWord_eq_zero_iff]
      simp
    rwa [same] at negated
  | lt => exact mem_compareLt inFirst inSecond
  | le => exact mem_compareLe inFirst inSecond
  | gt => exact mem_compareLt inSecond inFirst
  | ge => exact mem_compareLe inSecond inFirst

end Interval

namespace Comparison

theorem holds_negate (op : Comparison) (x y : Int64) : op.negate.holds x y = !op.holds x y := by
  cases op with
  | eq => rfl
  | ne => exact (Bool.not_not _).symm
  | lt | le | gt | ge =>
    simp only [negate, holds, ge_iff_le, gt_iff_lt, ← decide_not, Int64.not_lt,
      Int64.not_le]

theorem holds_swap (op : Comparison) (x y : Int64) : op.swap.holds y x = op.holds x y := by
  cases op with
  | eq => simp only [swap, holds, Bool.beq_comm]
  | ne => simp only [swap, holds, bne_comm]
  | lt | le | gt | ge => rfl

end Comparison

end Reachability
