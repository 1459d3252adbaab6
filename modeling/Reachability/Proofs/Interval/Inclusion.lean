import Mathlib
import Reachability.Proofs.Interval.Truth

/-!
# Operations on included intervals

Wider operands give wider results.  They have all the results of the narrow
ones, so the smallest interval around these lies inside theirs, and an operation
that overflows on narrow operands overflows on wide ones too.  None of this holds
of intervals without members, so inclusion is stated for those that have one.
-/

namespace Reachability

namespace Interval

/-- An interval with members lies inside another one. -/
def Inside (inner outer : Interval) : Prop :=
  inner.Nonempty ∧ outer.includes inner = true

variable {first second first' second' inner outer : Interval}

theorem inside_iff : inner.Inside outer ↔
    outer.lo.toInt ≤ inner.lo.toInt ∧ inner.lo.toInt ≤ inner.hi.toInt ∧
      inner.hi.toInt ≤ outer.hi.toInt := by
  simp only [Inside, Nonempty, includes, Bool.and_eq_true, decide_eq_true_eq,
    Int64.le_iff_toInt_le]
  tauto

theorem Inside.lo_mem (inside : inner.Inside outer) : inner.lo ∈ inner :=
  inside.1.lo_mem

theorem Inside.hi_mem (inside : inner.Inside outer) : inner.hi ∈ inner :=
  inside.1.hi_mem

theorem Inside.mem (inside : inner.Inside outer) {word : Int64} (member : word ∈ inner) :
    word ∈ outer :=
  mem_of_includes inside.2 member

theorem Inside.refl (nonempty : inner.Nonempty) : inner.Inside inner := by
  apply inside_iff.mpr
  have ordered := Int64.le_iff_toInt_le.mp nonempty
  omega

theorem Inside.trans {middle : Interval} (narrow : inner.Inside middle)
    (wide : middle.Inside outer) : inner.Inside outer := by
  rw [inside_iff] at narrow wide ⊢
  omega

theorem includes_top (interval : Interval) : top.includes interval = true := by
  rw [includes, Bool.and_eq_true]
  exact ⟨decide_eq_true interval.lo.minValue_le, decide_eq_true interval.hi.le_maxValue⟩

theorem includes_self (interval : Interval) : interval.includes interval = true := by
  rw [includes, Bool.and_eq_true]
  exact ⟨decide_eq_true (Int64.le_refl _), decide_eq_true (Int64.le_refl _)⟩

theorem isTop_of_includes_top {interval : Interval} (included : interval.includes top = true) :
    interval.isTop = true := by
  rw [includes, Bool.and_eq_true] at included
  rw [isTop, Bool.and_eq_true, beq_iff_eq, beq_iff_eq]
  exact ⟨Int64.le_antisymm (of_decide_eq_true included.1) interval.lo.minValue_le,
    Int64.le_antisymm interval.hi.le_maxValue (of_decide_eq_true included.2)⟩

theorem nonempty_top : top.Nonempty := by decide

theorem Inside.top (nonempty : inner.Nonempty) : inner.Inside top :=
  ⟨nonempty, includes_top inner⟩

theorem inside_const {word : Int64} (member : word ∈ outer) : (const word).Inside outer := by
  rw [mem_iff] at member
  apply inside_iff.mpr
  simp only [const]
  omega

theorem inside_of_bounds (nonempty : inner.Nonempty) (low : inner.lo ∈ outer)
    (high : inner.hi ∈ outer) : inner.Inside outer := by
  rw [mem_iff] at low high
  apply inside_iff.mpr
  have ordered := Int64.le_iff_toInt_le.mp nonempty
  omega

theorem Inside.eq_of_isConst (inside : inner.Inside outer) (isConst : outer.isConst = true) :
    inner = outer := by
  have low := eq_lo_of_isConst isConst (inside.mem inside.lo_mem)
  have high := eq_lo_of_isConst isConst (inside.mem inside.hi_mem)
  simp only [Interval.isConst, beq_iff_eq] at isConst
  obtain ⟨lo, hi⟩ := inner
  obtain ⟨lo', hi'⟩ := outer
  simp only at low high isConst
  rw [low, high, isConst]

theorem Inside.isFalse (inside : inner.Inside outer) (isFalse : outer.isFalse = true) :
    inner.isFalse = true := by
  have low := eq_zero_of_isFalse isFalse (inside.mem inside.lo_mem)
  have high := eq_zero_of_isFalse isFalse (inside.mem inside.hi_mem)
  simp [Interval.isFalse, low, high]

theorem Inside.isTrue (inside : inner.Inside outer) (isTrue : outer.isTrue = true) :
    inner.isTrue = true := by
  simp only [Interval.isTrue, Bool.not_eq_true', decide_eq_false_iff_not] at isTrue ⊢
  exact fun member => isTrue (inside.mem member)

theorem IsHull.inside {values values' : Set Int} (narrow : inner.IsHull values)
    (wide : outer.IsHull values') (fewer : values ⊆ values') (nonempty : inner.Nonempty) :
    inner.Inside outer :=
  ⟨nonempty, narrow.smallest outer (fun value isValue => wide.holds value (fewer isValue))⟩

theorem Encloses.inside {values values' : Set Int} (narrow : inner.Encloses values)
    (wide : outer.Encloses values') (fewer : values ⊆ values') (nonempty : inner.Nonempty) :
    inner.Inside outer := by
  by_cases overflow : ∃ value ∈ values', ¬Fits value
  · rw [wide.overflow overflow]
    exact .top nonempty
  · have fits : ∀ value ∈ values', Fits value := by simpa using overflow
    exact (narrow.hull (fun value isValue => fits value (fewer isValue))).inside (wide.hull fits)
      fewer nonempty

theorem Inside.wider (inside : inner.Inside outer) : outer.Nonempty :=
  nonempty_of_mem (inside.mem inside.lo_mem)

theorem Inside.neg (inside : inner.Inside outer) : inner.neg.Inside outer.neg := by
  apply (encloses_neg inside.1).inside (encloses_neg inside.wider)
  · rintro value ⟨x, member, isOpposite⟩
    exact ⟨x, inside.mem member, isOpposite⟩
  · exact nonempty_of_mem (mem_neg inside.lo_mem)

/-- Fewer truth values have a smaller interval around them. -/
theorem IsHull.inside_of_truths {truths truths' : Set Bool}
    (narrow : inner.IsHull (truthValues truths)) (wide : outer.IsHull (truthValues truths'))
    (fewer : truths ⊆ truths') (inhabited : truths.Nonempty) : inner.Inside outer := by
  obtain ⟨some, occurs⟩ := inhabited
  apply narrow.inside wide
  · rintro value ⟨truth, isTruth, rfl⟩
    exact ⟨truth, fewer isTruth, rfl⟩
  · exact nonempty_of_mem (mem_iff.mpr (narrow.holds _ ⟨some, occurs, rfl⟩))

theorem Inside.not (inside : inner.Inside outer) : inner.not.Inside outer.not := by
  apply (isHull_not inside.1).inside_of_truths (isHull_not inside.wider)
  · rintro truth ⟨x, member, isTruth⟩
    exact ⟨x, inside.mem member, isTruth⟩
  · exact ⟨_, _, inside.lo_mem, rfl⟩

/-- The remainders of operands that are not both single words. -/
private theorem rem_eq (excludes : ¬0 ∈ second) (inhabited : first.Nonempty)
    (nonempty : second.Nonempty) (varies : (first.isConst && second.isConst) = false) :
    let largest := max (-second.lo.toInt) second.hi.toInt - 1
    (first.rem second).lo.toInt =
        (if 0 ≤ first.lo.toInt then 0 else max first.lo.toInt (-largest)) ∧
      (first.rem second).hi.toInt =
        (if first.hi.toInt ≤ 0 then 0 else min first.hi.toInt largest) := by
  intro largest
  have value := toInt_largest excludes nonempty
  have positive : 0 ≤ largest := by
    have oneSign := oneSign_of_not_mem_zero excludes
    have ordered := Int64.le_iff_toInt_le.mp nonempty
    omega
  unfold rem
  rw [if_neg excludes, varies]
  simp only [Bool.false_eq_true, if_false]
  generalize (if second.lo = Int64.minValue then Int64.maxValue
    else max (Bound.abs second.lo) (Bound.abs second.hi) - 1) = bound at value ⊢
  have negated : (-bound).toInt = -bound.toInt := toInt_neg_of_ne (by omega)
  simp only [Int64.le_iff_toInt_le, Int64.toInt_zero]
  split
  · have ordered := Int64.le_iff_toInt_le.mp inhabited
    rw [toInt_min, value, Int64.toInt_zero]
    refine ⟨rfl, ?_⟩
    split <;> omega
  · split
    · rw [toInt_max, negated, value, Int64.toInt_zero]
      exact ⟨rfl, rfl⟩
    · rw [toInt_max, toInt_min, negated, value]
      exact ⟨rfl, rfl⟩

section Binary

variable (left : first.Inside first') (right : second.Inside second')

include left right

theorem results_subset {exact : Int → Int → Int} :
    results exact first second ⊆ results exact first' second' := by
  rintro value ⟨x, inFirst, y, inSecond, isResult⟩
  exact ⟨x, left.mem inFirst, y, right.mem inSecond, isResult⟩

theorem Inside.add : (first.add second).Inside (first'.add second') :=
  (encloses_add left.1 right.1).inside (encloses_add left.wider right.wider)
    (results_subset left right) (nonempty_of_mem (mem_add left.lo_mem right.lo_mem))

theorem Inside.sub : (first.sub second).Inside (first'.sub second') :=
  (encloses_sub left.1 right.1).inside (encloses_sub left.wider right.wider)
    (results_subset left right) (nonempty_of_mem (mem_sub left.lo_mem right.lo_mem))

theorem Inside.mul : (first.mul second).Inside (first'.mul second') :=
  (encloses_mul left.1 right.1).inside (encloses_mul left.wider right.wider)
    (results_subset left right) (nonempty_of_mem (mem_mul left.lo_mem right.lo_mem))

theorem Inside.quo : (first.quo second).Inside (first'.quo second') := by
  have nonempty := nonempty_of_mem (mem_quo left.lo_mem right.lo_mem)
  by_cases wideZero : 0 ∈ second'
  · rw [show first'.quo second' = Interval.top from if_pos wideZero]
    exact .top nonempty
  · have zero : ¬0 ∈ second := fun member => wideZero (right.mem member)
    exact (encloses_quo left.1 right.1 zero).inside
      (encloses_quo left.wider right.wider wideZero) (results_subset left right) nonempty

theorem Inside.rem : (first.rem second).Inside (first'.rem second') := by
  have nonempty := nonempty_of_mem (mem_rem left.lo_mem right.lo_mem)
  by_cases wideZero : 0 ∈ second'
  · rw [show first'.rem second' = Interval.top from if_pos wideZero]
    exact .top nonempty
  · have zero : ¬0 ∈ second := fun member => wideZero (right.mem member)
    cases constant : first.isConst && second.isConst with
    | true =>
      have single : first.rem second = const (first.lo % second.lo) := by
        unfold Interval.rem
        rw [if_neg zero, constant]
        rfl
      rw [single]
      apply inside_const
      exact mem_rem (left.mem left.lo_mem) (right.mem right.lo_mem)
    | false =>
      have wideVaries : (first'.isConst && second'.isConst) = false := by
        rw [Bool.eq_false_iff]
        intro wideConstant
        rw [Bool.and_eq_true] at wideConstant
        rw [left.eq_of_isConst wideConstant.1, right.eq_of_isConst wideConstant.2,
          wideConstant.1, wideConstant.2] at constant
        cases constant
      obtain ⟨low, high⟩ := rem_eq zero left.1 right.1 constant
      obtain ⟨wideLow, wideHigh⟩ := rem_eq wideZero left.wider right.wider wideVaries
      have oneSign := oneSign_of_not_mem_zero wideZero
      have ordered := Int64.le_iff_toInt_le.mp nonempty
      rw [inside_iff] at left right ⊢
      refine ⟨?_, ordered, ?_⟩
      · rw [low, wideLow]
        split <;> split <;> omega
      · rw [high, wideHigh]
        split <;> split <;> omega

theorem Inside.arith (op : Arithmetic) :
    (arith op first second).Inside (arith op first' second') := by
  cases op with
  | add => exact left.add right
  | sub => exact left.sub right
  | mul => exact left.mul right
  | quo => exact left.quo right
  | rem => exact left.rem right

theorem outcomes_subset {cond : Int64 → Int64 → Bool} :
    outcomes cond first second ⊆ outcomes cond first' second' := by
  rintro truth ⟨x, inFirst, y, inSecond, isTruth⟩
  exact ⟨x, left.mem inFirst, y, right.mem inSecond, isTruth⟩

theorem Inside.and : (first.and second).Inside (first'.and second') :=
  (isHull_and left.1 right.1).inside_of_truths (isHull_and left.wider right.wider)
    (outcomes_subset left right) (outcomes_nonempty left.1 right.1 _)

theorem Inside.or : (first.or second).Inside (first'.or second') :=
  (isHull_or left.1 right.1).inside_of_truths (isHull_or left.wider right.wider)
    (outcomes_subset left right) (outcomes_nonempty left.1 right.1 _)

theorem Inside.compare (op : Comparison) :
    (compare op first second).Inside (compare op first' second') :=
  (isHull_compare left.1 right.1 op).inside_of_truths (isHull_compare left.wider right.wider op)
    (outcomes_subset left right) (outcomes_nonempty left.1 right.1 _)

end Binary

end Interval

end Reachability
