import Mathlib
import Reachability.Interval.Arithmetic
import Reachability.Proofs.Interval.Membership

/-!
# Correctness of interval arithmetic

A checked operation on bounds gives the exact integer result whenever a word
can hold it, and nothing otherwise.  Products and quotients lie between those of
the bounds, and remainders are limited by the dividend and the divisor.
-/

namespace Reachability

namespace Bound

/-- A checked operation has the exact result of an operation on integers whenever it fits, and no
result otherwise. -/
def Computes (checked : Int64 → Int64 → Option Int64) (exact : Int → Int → Int) : Prop :=
  ∀ x y result, checked x y = some result ↔ result.toInt = exact x.toInt y.toInt

theorem Computes.eq_none_iff {checked : Int64 → Int64 → Option Int64} {exact : Int → Int → Int}
    (computes : Computes checked exact) (x y : Int64) :
    checked x y = none ↔ ¬Fits (exact x.toInt y.toInt) := by
  rw [fits_iff_exists_word, Option.eq_none_iff_forall_ne_some]
  simp only [ne_eq, computes x y, not_exists]

private theorem computes_of_test
    {checked : Int64 → Int64 → Option Int64} {exact : Int → Int → Int}
    (wrapped : Int64 → Int64 → Int64)
    (wraps : ∀ x y, (wrapped x y).toInt = (exact x.toInt y.toInt).bmod (2 ^ 64))
    (fitting : ∀ x y, Fits (exact x.toInt y.toInt) → checked x y = some (wrapped x y))
    (overflowing : ∀ x y, ¬Fits (exact x.toInt y.toInt) → checked x y = none) :
    Computes checked exact := by
  intro x y result
  by_cases fits : Fits (exact x.toInt y.toInt)
  · rw [fitting x y fits, ← fits.bmod_eq, ← wraps, Option.some.injEq, Int64.toInt_inj]
    exact eq_comm
  · rw [overflowing x y fits]
    constructor
    · intro impossible
      exact absurd impossible (by simp)
    · intro value
      exact absurd (value ▸ fits_toInt result) fits

theorem add?_computes : Computes add? (· + ·) := by
  have test : ∀ x y : Int64,
      decide (x < x + y) = decide (0 < y) ↔ Fits (x.toInt + y.toInt) := by
    intro x y
    have xFits := fits_toInt x
    have yFits := fits_toInt y
    rw [decide_eq_decide, Int64.lt_iff_toInt_lt, Int64.lt_iff_toInt_lt, Int64.toInt_add,
      Int64.toInt_zero, Int.bmod_def]
    simp only [Fits] at xFits yFits ⊢
    omega
  apply computes_of_test (· + ·) Int64.toInt_add
  · intro x y fits
    simp [add?, (test x y).mpr fits]
  · intro x y overflow
    simp [add?, mt (test x y).mp overflow]

theorem sub?_computes : Computes sub? (· - ·) := by
  have test : ∀ x y : Int64,
      decide (x - y < x) = decide (0 < y) ↔ Fits (x.toInt - y.toInt) := by
    intro x y
    have xFits := fits_toInt x
    have yFits := fits_toInt y
    rw [decide_eq_decide, Int64.lt_iff_toInt_lt, Int64.lt_iff_toInt_lt, Int64.toInt_sub,
      Int64.toInt_zero, Int.bmod_def]
    simp only [Fits] at xFits yFits ⊢
    omega
  apply computes_of_test (· - ·) Int64.toInt_sub
  · intro x y fits
    simp [sub?, (test x y).mpr fits]
  · intro x y overflow
    simp [sub?, mt (test x y).mp overflow]

private theorem toInt_minValue : (Int64.minValue).toInt = -2 ^ 63 := rfl

private theorem toInt_negOne : (-1 : Int64).toInt = -1 := rfl

/-- Division undoes a multiplication of words only if the product did not wrap around. -/
private theorem fits_of_mul_div {x y : Int64} (nonzero : y ≠ 0)
    (divisible : ¬(x = -1 ∧ y = Int64.minValue) ∧ ¬(y = -1 ∧ x = Int64.minValue))
    (undone : x * y / y = x) : Fits (x.toInt * y.toInt) := by
  have xFits := fits_toInt x
  have yFits := fits_toInt y
  simp only [Fits] at xFits yFits ⊢
  by_cases opposite : y = -1
  · have notLeast : x.toInt ≠ -2 ^ 63 := by
      intro least
      exact divisible.2 ⟨opposite, Int64.toInt_inj.mp (least.trans toInt_minValue.symm)⟩
    rw [opposite, toInt_negOne]
    omega
  · have quotient : (x * y).toInt.tdiv y.toInt = x.toInt := by
      rw [← Int64.toInt_div_of_ne_right _ _ opposite, undone]
    have remainder := Int.mul_tdiv_add_tmod (x * y).toInt y.toInt
    have small : ((x * y).toInt.tmod y.toInt).natAbs < y.toInt.natAbs := by
      rw [Int.natAbs_tmod]
      apply Nat.mod_lt
      have : y.toInt ≠ 0 := fun zero => nonzero (Int64.toInt_inj.mp zero)
      omega
    have wraps := Int.bmod_eq_self_sub_mul_bdiv (x.toInt * y.toInt) (2 ^ 64)
    have product := fits_toInt (x * y)
    rw [← Int64.toInt_mul] at wraps
    rw [quotient, Int.mul_comm] at remainder
    simp only [Fits] at product
    omega

theorem mul?_computes : Computes mul? (· * ·) := by
  apply computes_of_test (· * ·) Int64.toInt_mul
  · intro x y fits
    unfold mul?
    split
    · rename_i zero
      rcases zero with rfl | rfl <;> simp
    · rename_i nonzero
      have inRange : ¬((x = -1 ∧ y = Int64.minValue) ∨ (y = -1 ∧ x = Int64.minValue)) := by
        simp only [Fits] at fits
        rintro (⟨rfl, rfl⟩ | ⟨rfl, rfl⟩) <;>
          · rw [toInt_negOne, toInt_minValue] at fits
            omega
      have undone : x * y / y = x := by
        have divisor : y.toInt ≠ 0 := by
          intro zero
          exact nonzero (.inr (Int64.toInt_inj.mp zero))
        rw [← Int64.toInt_inj, Int64.toInt_div, Int64.toInt_mul, fits.bmod_eq,
          Int.mul_tdiv_cancel _ divisor]
        exact (fits_toInt x).bmod_eq
      simp [inRange, undone]
  · intro x y overflow
    have factors : x ≠ 0 ∧ y ≠ 0 := by
      constructor <;> rintro rfl <;> exact overflow (by simp [Fits])
    unfold mul?
    rw [if_neg (by simpa using factors)]
    split
    · rfl
    · rename_i divisible
      rw [not_or] at divisible
      simp only [ite_eq_right_iff, reduceCtorEq, imp_false]
      intro undone
      exact overflow (fits_of_mul_div factors.2 divisible undone)

theorem quo?_computes : Computes quo? Int.tdiv := by
  apply computes_of_test (· / ·) Int64.toInt_div
  · intro x y fits
    unfold quo?
    rw [if_neg]
    rintro ⟨rfl, rfl⟩
    simp [Fits] at fits
  · intro x y overflow
    unfold quo?
    rw [if_pos]
    by_contra regular
    apply overflow
    rw [not_and_or] at regular
    rcases regular with notLeast | notOpposite
    · rw [← Int64.toInt_div_of_ne_left _ _ notLeast]
      exact fits_toInt _
    · rw [← Int64.toInt_div_of_ne_right _ _ notOpposite]
      exact fits_toInt _

end Bound

/-- `value` lies between two integers, whichever of them is the larger one. -/
def Between (first value last : Int) : Prop :=
  min first last ≤ value ∧ value ≤ max first last

theorem between_mul {lo x hi : Int} (above : lo ≤ x) (below : x ≤ hi) (y : Int) :
    Between (lo * y) (x * y) (hi * y) := by
  simp only [Between]
  rcases Int.le_total 0 y with nonneg | nonpos
  · have lower := Int.mul_le_mul_of_nonneg_right above nonneg
    have upper := Int.mul_le_mul_of_nonneg_right below nonneg
    omega
  · have lower := Int.mul_le_mul_of_nonpos_right above nonpos
    have upper := Int.mul_le_mul_of_nonpos_right below nonpos
    omega

theorem between_tdiv {lo x hi : Int} (above : lo ≤ x) (below : x ≤ hi) (y : Int) :
    Between (lo.tdiv y) (x.tdiv y) (hi.tdiv y) := by
  simp only [Between]
  rcases Int.lt_trichotomy y 0 with negative | rfl | positive
  · have flipped : 0 < -y := by omega
    have lower := Int.tdiv_le_tdiv flipped above
    have upper := Int.tdiv_le_tdiv flipped below
    simp only [Int.tdiv_neg] at lower upper
    omega
  · simp
  · have lower := Int.tdiv_le_tdiv positive above
    have upper := Int.tdiv_le_tdiv positive below
    omega

private theorem tdiv_antitone {x y z : Int} (nonneg : 0 ≤ x) (positive : 0 < y) (larger : y ≤ z) :
    0 ≤ x.tdiv z ∧ x.tdiv z ≤ x.tdiv y := by
  refine ⟨Int.tdiv_nonneg nonneg (by omega), ?_⟩
  rw [Int.tdiv_eq_ediv_of_nonneg nonneg, Int.tdiv_eq_ediv_of_nonneg nonneg]
  apply Int.le_ediv_of_mul_le positive
  calc
    x / z * y ≤ x / z * z :=
      Int.mul_le_mul_of_nonneg_left larger (Int.ediv_nonneg nonneg (by omega))
    _ ≤ x := Int.ediv_mul_le x (by omega)

private theorem between_tdiv_positive {lo y hi : Int} (positive : 0 < lo) (above : lo ≤ y)
    (below : y ≤ hi) (x : Int) : Between (x.tdiv lo) (x.tdiv y) (x.tdiv hi) := by
  simp only [Between]
  rcases Int.le_total 0 x with nonneg | nonpos
  · have lower := tdiv_antitone nonneg positive above
    have upper := tdiv_antitone nonneg (by omega : 0 < y) below
    omega
  · have flipped : 0 ≤ -x := by omega
    have lower := tdiv_antitone flipped positive above
    have upper := tdiv_antitone flipped (by omega : 0 < y) below
    simp only [Int.neg_tdiv] at lower upper
    omega

/-- Quotients by divisors of one sign lie between the quotients by the extreme divisors. -/
theorem between_tdiv_divisor {lo y hi : Int} (oneSign : 0 < lo ∨ hi < 0) (above : lo ≤ y)
    (below : y ≤ hi) (x : Int) : Between (x.tdiv lo) (x.tdiv y) (x.tdiv hi) := by
  rcases oneSign with positive | negative
  · exact between_tdiv_positive positive above below x
  · have flipped := between_tdiv_positive (by omega : 0 < -hi) (by omega : -hi ≤ -y)
      (by omega : -y ≤ -lo) x
    simp only [Between, Int.tdiv_neg] at flipped ⊢
    omega

namespace Interval

/-- An operation that lies between its values at the ends of either interval lies between its values
at the corners. -/
theorem between_corners {checked : Int64 → Int64 → Option Int64} {exact : Int → Int → Int}
    (computes : Bound.Computes checked exact) {first second : Interval} {x y a b c d : Int64}
    (aFound : checked first.lo second.lo = some a) (bFound : checked first.lo second.hi = some b)
    (cFound : checked first.hi second.lo = some c) (dFound : checked first.hi second.hi = some d)
    (alongFirst : Between (exact first.lo.toInt y.toInt) (exact x.toInt y.toInt)
      (exact first.hi.toInt y.toInt))
    (alongSecond : ∀ end' : Int64, Between (exact end'.toInt second.lo.toInt)
      (exact end'.toInt y.toInt) (exact end'.toInt second.hi.toInt)) :
    (min (min a b) (min c d)).toInt ≤ exact x.toInt y.toInt ∧
      exact x.toInt y.toInt ≤ (max (max a b) (max c d)).toInt := by
  rw [computes] at aFound bFound cFound dFound
  have fromLow := alongSecond first.lo
  have fromHigh := alongSecond first.hi
  rw [← aFound, ← bFound] at fromLow
  rw [← cFound, ← dFound] at fromHigh
  simp only [Between] at alongFirst fromLow fromHigh
  simp only [toInt_min, toInt_max]
  omega

theorem toInt_neg_of_ne {x : Int64} (notLeast : x.toInt ≠ -2 ^ 63) :
    (-x).toInt = -x.toInt := by
  have xFits := fits_toInt x
  simp only [Fits] at xFits
  have fits : Fits (-x.toInt) := by
    constructor <;> omega
  rw [Int64.toInt_neg, fits.bmod_eq]

theorem oneSign_of_not_mem_zero {interval : Interval} (excludes : ¬0 ∈ interval) :
    0 < interval.lo.toInt ∨ interval.hi.toInt < 0 := by
  rw [mem_iff, Int64.toInt_zero] at excludes
  omega

private theorem toInt_abs {x : Int64} (notLeast : x.toInt ≠ -2 ^ 63) :
    (Bound.abs x).toInt = max x.toInt (-x.toInt) := by
  unfold Bound.abs
  split <;> rename_i sign <;> rw [Int64.lt_iff_toInt_lt, Int64.toInt_zero] at sign
  · rw [toInt_neg_of_ne notLeast]
    omega
  · omega

/-- The largest absolute value of a remainder by the members of an interval without zero. -/
theorem toInt_largest {second : Interval} (excludes : ¬0 ∈ second) (nonempty : second.Nonempty) :
    (if second.lo = Int64.minValue then Int64.maxValue
      else max (Bound.abs second.lo) (Bound.abs second.hi) - 1).toInt =
      max (-second.lo.toInt) second.hi.toInt - 1 := by
  have oneSign := oneSign_of_not_mem_zero excludes
  have ordered := Int64.le_iff_toInt_le.mp nonempty
  have loFits := fits_toInt second.lo
  have hiFits := fits_toInt second.hi
  simp only [Fits] at loFits hiFits
  split
  · rename_i least
    rw [least, Int64.toInt_minValue] at oneSign ⊢
    rw [Int64.toInt_maxValue]
    omega
  · rename_i notLeast
    rw [← Int64.toInt_inj, Int64.toInt_minValue] at notLeast
    have value : (max (Bound.abs second.lo) (Bound.abs second.hi)).toInt =
        max (-second.lo.toInt) second.hi.toInt := by
      rw [toInt_max, toInt_abs notLeast, toInt_abs (by omega)]
      omega
    have fits : Fits ((max (Bound.abs second.lo) (Bound.abs second.hi)).toInt - 1) := by
      rw [value]
      constructor <;> omega
    rw [Int64.toInt_sub, Int64.toInt_one, fits.bmod_eq, value]

private theorem remainder_le {second : Interval} {y : Int64} (excludes : ¬0 ∈ second)
    (inSecond : y ∈ second) (x : Int64) :
    (x.toInt.tmod y.toInt).natAbs ≤
      (if second.lo = Int64.minValue then Int64.maxValue
        else max (Bound.abs second.lo) (Bound.abs second.hi) - 1).toInt := by
  have oneSign := oneSign_of_not_mem_zero excludes
  have smaller : (x.toInt.tmod y.toInt).natAbs < y.toInt.natAbs := by
    rw [mem_iff] at inSecond
    rw [Int.natAbs_tmod]
    exact Nat.mod_lt _ (by omega)
  rw [toInt_largest excludes (Int64.le_trans inSecond.1 inSecond.2)]
  rw [mem_iff] at inSecond
  omega

private theorem tmod_sign (x y : Int) :
    (0 ≤ x → 0 ≤ x.tmod y) ∧ (x ≤ 0 → x.tmod y ≤ 0) := by
  refine ⟨Int.tmod_nonneg y, ?_⟩
  intro nonpos
  have flipped := Int.tmod_nonneg y (by omega : 0 ≤ -x)
  rw [Int.neg_tmod] at flipped
  omega

theorem mem_rem {first second : Interval} {x y : Int64} (inFirst : x ∈ first)
    (inSecond : y ∈ second) : x % y ∈ first.rem second := by
  unfold rem
  split
  · exact mem_top _
  · rename_i excludes
    split
    · rename_i constant
      rw [Bool.and_eq_true] at constant
      rw [mem_const, eq_lo_of_isConst constant.1 inFirst, eq_lo_of_isConst constant.2 inSecond]
    · have bounded := remainder_le excludes inSecond x
      simp only
      generalize (if second.lo = Int64.minValue then Int64.maxValue
        else max (Bound.abs second.lo) (Bound.abs second.hi) - 1) = largest at bounded ⊢
      have sign := tmod_sign x.toInt y.toInt
      have smaller : (x.toInt.tmod y.toInt).natAbs ≤ x.toInt.natAbs := by
        rw [Int.natAbs_tmod]
        exact Nat.mod_le _ _
      have negated : (-largest).toInt = -largest.toInt := toInt_neg_of_ne (by omega)
      rw [mem_iff] at inFirst
      split
      · rename_i nonneg
        rw [Int64.le_iff_toInt_le, Int64.toInt_zero] at nonneg
        rw [mem_iff, Int64.toInt_mod, toInt_min, Int64.toInt_zero]
        omega
      · rename_i startsNegative
        rw [Int64.le_iff_toInt_le, Int64.toInt_zero] at startsNegative
        split
        · rename_i nonpos
          rw [Int64.le_iff_toInt_le, Int64.toInt_zero] at nonpos
          rw [mem_iff, Int64.toInt_mod, toInt_max, negated, Int64.toInt_zero]
          omega
        · rename_i endsPositive
          rw [Int64.le_iff_toInt_le, Int64.toInt_zero] at endsPositive
          rw [mem_iff, Int64.toInt_mod, toInt_min, toInt_max, negated]
          omega

end Interval

end Reachability
