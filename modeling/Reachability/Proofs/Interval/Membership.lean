import Mathlib
import Reachability.Interval.Basic

/-!
# Members of intervals

Words are compared through the integers they stand for.  An interval is known
by its members, so each operation that cuts or joins intervals is described by
the words that belong to its result.
-/

namespace Reachability

/-- Integers that a word can hold. -/
def Fits (value : Int) : Prop := -2 ^ 63 ≤ value ∧ value < 2 ^ 63

theorem fits_toInt (word : Int64) : Fits word.toInt :=
  ⟨word.le_toInt, word.toInt_lt⟩

/-- Reducing an integer to a word does not change it if it fits. -/
theorem Fits.bmod_eq {value : Int} (fits : Fits value) :
    value.bmod (2 ^ 64) = value := by
  obtain ⟨lower, upper⟩ := fits
  exact Int.bmod_eq_of_le (by omega) (by omega)

theorem fits_iff_exists_word {value : Int} :
    Fits value ↔ ∃ word : Int64, word.toInt = value := by
  constructor
  · intro fits
    refine ⟨Int64.ofInt value, ?_⟩
    rw [Int64.toInt_ofInt]
    exact fits.bmod_eq
  · rintro ⟨word, rfl⟩
    exact fits_toInt word

namespace Interval

variable {word : Int64}

theorem mem_iff {interval : Interval} :
    word ∈ interval ↔
      interval.lo.toInt ≤ word.toInt ∧ word.toInt ≤ interval.hi.toInt := by
  simp only [← Int64.le_iff_toInt_le]
  exact Iff.rfl

theorem toInt_min (first second : Int64) :
    (min first second).toInt = min first.toInt second.toInt := by
  have unfolded : min first second = if first ≤ second then first else second := rfl
  rw [unfolded]
  split <;> rename_i order <;> rw [Int64.le_iff_toInt_le] at order <;> omega

theorem toInt_max (first second : Int64) :
    (max first second).toInt = max first.toInt second.toInt := by
  have unfolded : max first second = if first ≤ second then second else first := rfl
  rw [unfolded]
  split <;> rename_i order <;> rw [Int64.le_iff_toInt_le] at order <;> omega

@[simp] theorem mem_top (word : Int64) : word ∈ top :=
  ⟨word.minValue_le, word.le_maxValue⟩

@[simp] theorem mem_const {value : Int64} : word ∈ const value ↔ word = value := by
  rw [mem_iff, ← Int64.toInt_inj]
  simp only [const]
  omega

theorem mem_either : word ∈ either ↔ word = 0 ∨ word = 1 := by
  rw [mem_iff, ← Int64.toInt_inj, ← Int64.toInt_inj]
  have zero : (0 : Int64).toInt = 0 := rfl
  have one : (1 : Int64).toInt = 1 := rfl
  simp only [either, zero, one]
  omega

theorem range?_eq_some_iff {lo hi : Int64} {interval : Interval} :
    range? lo hi = some interval ↔ lo.toInt ≤ hi.toInt ∧ interval = ⟨lo, hi⟩ := by
  simp only [range?, Int64.lt_iff_toInt_lt]
  split
  · rename_i empty
    simp only [reduceCtorEq, false_iff, not_and]
    omega
  · rename_i ordered
    simp only [Option.some.injEq]
    constructor
    · intro same
      exact ⟨by omega, same.symm⟩
    · rintro ⟨_, same⟩
      exact same.symm

theorem exists_range? {lo hi : Int64} (above : lo.toInt ≤ word.toInt)
    (below : word.toInt ≤ hi.toInt) : ∃ interval, range? lo hi = some interval ∧ word ∈ interval :=
  ⟨⟨lo, hi⟩, range?_eq_some_iff.mpr ⟨by omega, rfl⟩, mem_iff.mpr ⟨above, below⟩⟩

theorem exists_meet? {first second : Interval} (inFirst : word ∈ first) (inSecond : word ∈ second) :
    ∃ interval, meet? first second = some interval ∧ word ∈ interval := by
  rw [mem_iff] at inFirst inSecond
  apply exists_range?
  · rw [toInt_max]
    omega
  · rw [toInt_min]
    omega

theorem mem_of_includes {outer inner : Interval} (included : outer.includes inner = true)
    (member : word ∈ inner) : word ∈ outer := by
  simp only [includes, Bool.and_eq_true, decide_eq_true_eq, Int64.le_iff_toInt_le] at included
  rw [mem_iff] at member ⊢
  omega

section

variable {interval : Interval}

theorem nonempty_of_mem (member : word ∈ interval) : interval.Nonempty :=
  Int64.le_trans member.1 member.2

theorem Nonempty.lo_mem (nonempty : interval.Nonempty) :
    interval.lo ∈ interval :=
  ⟨Int64.le_refl _, nonempty⟩

theorem Nonempty.hi_mem (nonempty : interval.Nonempty) :
    interval.hi ∈ interval :=
  ⟨nonempty, Int64.le_refl _⟩

theorem eq_zero_of_isFalse (isFalse : interval.isFalse = true) (member : word ∈ interval) :
    word = 0 := by
  simp only [Interval.isFalse, Bool.and_eq_true, beq_iff_eq] at isFalse
  rw [mem_iff, isFalse.1, isFalse.2] at member
  rw [← Int64.toInt_inj]
  omega

theorem ne_zero_of_isTrue (isTrue : interval.isTrue = true) (member : word ∈ interval) :
    word ≠ 0 := by
  rintro rfl
  simp [Interval.isTrue, member] at isTrue

theorem eq_lo_of_isConst (isConst : interval.isConst = true) (member : word ∈ interval) :
    word = interval.lo := by
  simp only [Interval.isConst, beq_iff_eq] at isConst
  rw [mem_iff, ← isConst] at member
  rw [← Int64.toInt_inj]
  omega

theorem eq_top_of_isTop (isTop : interval.isTop = true) :
    interval = top := by
  simp only [Interval.isTop, Bool.and_eq_true, beq_iff_eq] at isTop
  obtain ⟨lo, hi⟩ := interval
  simp only at isTop
  rw [isTop.1, isTop.2]
  rfl

end

end Interval

end Reachability
