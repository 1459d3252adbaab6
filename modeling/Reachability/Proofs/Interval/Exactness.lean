import Mathlib
import Reachability.Proofs.Interval.Arithmetic

/-!
# Exactness of interval arithmetic

An operation on intervals is compared with the operation on integers, which
never overflows.  Either some exact result cannot be held by a word, and the
operation gives all words, or all of them can, and the bounds of the result are
themselves exact results: there is no smaller interval around them.  In both
cases the word computed from two members is a member of the result, also where
the arithmetic of words wraps around.
-/

namespace Reachability.Interval

/-- The exact results of an operation on the members of two intervals. -/
def results (exact : Int → Int → Int) (first second : Interval) : Set Int :=
  {value | ∃ x ∈ first, ∃ y ∈ second, exact x.toInt y.toInt = value}

def opposites (interval : Interval) : Set Int := {value | ∃ x ∈ interval, -x.toInt = value}

/-- All of the given integers lie between the bounds. -/
def Holds (interval : Interval) (values : Set Int) : Prop :=
  ∀ value ∈ values, interval.lo.toInt ≤ value ∧ value ≤ interval.hi.toInt

/-- No smaller interval holds the given integers. -/
structure IsHull (interval : Interval) (values : Set Int) : Prop where
  holds : interval.Holds values
  smallest : ∀ other : Interval, other.Holds values → other.includes interval = true

/-- The interval is the smallest one around the given integers if words can hold all of them, and
unbounded otherwise. -/
structure Encloses (interval : Interval) (values : Set Int) : Prop where
  overflow : (∃ value ∈ values, ¬Fits value) → interval = top
  hull : (∀ value ∈ values, Fits value) → interval.IsHull values

variable {first second interval : Interval} {values : Set Int}

theorem fits_of_holds (holds : interval.Holds values) {value : Int} (member : value ∈ values) :
    Fits value := by
  obtain ⟨above, below⟩ := holds value member
  have lowest := (fits_toInt interval.lo).1
  have highest := (fits_toInt interval.hi).2
  constructor
  · omega
  · omega

theorem isHull_of_bounds (holds : interval.Holds values) (low : interval.lo.toInt ∈ values)
    (high : interval.hi.toInt ∈ values) : interval.IsHull values := by
  refine ⟨holds, ?_⟩
  intro other otherHolds
  rw [includes, Bool.and_eq_true, decide_eq_true_eq, decide_eq_true_eq, Int64.le_iff_toInt_le,
    Int64.le_iff_toInt_le]
  exact ⟨(otherHolds _ low).1, (otherHolds _ high).2⟩

/-- There are two ways to enclose integers: by giving up because of one that no word can hold, or by
bounds that are among them. -/
theorem encloses_of_cases
    (ways : (interval = top ∧ ∃ value ∈ values, ¬Fits value) ∨
      (interval.Holds values ∧ interval.lo.toInt ∈ values ∧ interval.hi.toInt ∈ values)) :
    interval.Encloses values := by
  rcases ways with ⟨isTop, value, member, overflows⟩ | ⟨holds, low, high⟩
  · constructor
    · intro _
      exact isTop
    · intro fits
      exact absurd (fits value member) overflows
  · constructor
    · intro overflow
      obtain ⟨value, member, overflows⟩ := overflow
      exact absurd (fits_of_holds holds member) overflows
    · intro _
      exact isHull_of_bounds holds low high

/-- Words that wrap around are members, too: the interval is unbounded then. -/
theorem Encloses.mem (encloses : interval.Encloses values) {value : Int} (isValue : value ∈ values)
    {word : Int64} (wraps : word.toInt = value.bmod (2 ^ 64)) : word ∈ interval := by
  by_cases overflow : ∃ other ∈ values, ¬Fits other
  · rw [encloses.overflow overflow]
    exact mem_top word
  · have fits : ∀ other ∈ values, Fits other := by simpa using overflow
    rw [(fits value isValue).bmod_eq] at wraps
    rw [mem_iff, wraps]
    exact (encloses.hull fits).holds value isValue

section Computed

variable {checked : Int64 → Int64 → Option Int64} {exact : Int → Int → Int}

theorem mem_results {x y : Int64} (inFirst : x ∈ first) (inSecond : y ∈ second) :
    exact x.toInt y.toInt ∈ results exact first second :=
  ⟨x, inFirst, y, inSecond, rfl⟩

section

variable (computes : Bound.Computes checked exact)

include computes

theorem computed_mem_results {x y word : Int64} (inFirst : x ∈ first) (inSecond : y ∈ second)
    (found : checked x y = some word) :
    word.toInt ∈ results exact first second := by
  rw [(computes x y word).mp found]
  exact mem_results inFirst inSecond

/-- An operation that overflows on two members has a result that no word can hold. -/
theorem exists_overflow {x y : Int64} (inFirst : x ∈ first) (inSecond : y ∈ second)
    (overflows : checked x y = none) :
    ∃ value ∈ results exact first second, ¬Fits value :=
  ⟨_, mem_results inFirst inSecond, (computes.eq_none_iff x y).mp overflows⟩

/-- Bounds computed from the pairs of members with the least and the greatest result. -/
theorem encloses_ofBounds {x y x' y' : Int64} (inFirst : x ∈ first) (inSecond : y ∈ second)
    (inFirst' : x' ∈ first) (inSecond' : y' ∈ second)
    (extreme : ∀ value ∈ results exact first second, exact x.toInt y.toInt ≤ value ∧ value ≤ exact
      x'.toInt y'.toInt) :
    (ofBounds (checked x y) (checked x' y')).Encloses (results exact first second) := by
  apply encloses_of_cases
  cases lowFound : checked x y with
  | none => exact .inl ⟨rfl, exists_overflow computes inFirst inSecond lowFound⟩
  | some low =>
    cases highFound : checked x' y' with
    | none => exact .inl ⟨rfl, exists_overflow computes inFirst' inSecond' highFound⟩
    | some high =>
      right
      refine ⟨?_, computed_mem_results computes inFirst inSecond lowFound,
        computed_mem_results computes inFirst' inSecond' highFound⟩
      rw [← (computes x y low).mp lowFound, ← (computes x' y' high).mp highFound] at extreme
      exact extreme

/-- Bounds computed from the corners, for an operation that lies between its values at the ends of
either interval. -/
theorem encloses_corners (nonempty : first.Nonempty) (otherNonempty : second.Nonempty)
    (alongFirst : ∀ x ∈ first, ∀ y : Int64, Between (exact first.lo.toInt y.toInt) (exact x.toInt
      y.toInt) (exact first.hi.toInt y.toInt))
    (alongSecond : ∀ y ∈ second, ∀ x : Int64, Between (exact x.toInt second.lo.toInt) (exact
      x.toInt y.toInt) (exact x.toInt second.hi.toInt)) :
    (corners checked first second).Encloses (results exact first second) := by
  have lo : first.lo ∈ first := nonempty.lo_mem
  have hi : first.hi ∈ first := nonempty.hi_mem
  have lo' : second.lo ∈ second := otherNonempty.lo_mem
  have hi' : second.hi ∈ second := otherNonempty.hi_mem
  apply encloses_of_cases
  unfold corners
  split
  · rename_i a b c d aFound bFound cFound dFound
    have inA := computed_mem_results computes lo lo' aFound
    have inB := computed_mem_results computes lo hi' bFound
    have inC := computed_mem_results computes hi lo' cFound
    have inD := computed_mem_results computes hi hi' dFound
    right
    refine ⟨?_, ?_, ?_⟩
    · rintro _ ⟨x, inFirst, y, inSecond, rfl⟩
      exact between_corners computes aFound bFound cFound dFound (alongFirst x inFirst y)
        (alongSecond y inSecond)
    · have least : (min (min a b) (min c d)).toInt = a.toInt ∨
          (min (min a b) (min c d)).toInt = b.toInt ∨
          (min (min a b) (min c d)).toInt = c.toInt ∨
          (min (min a b) (min c d)).toInt = d.toInt := by
        simp only [toInt_min]
        omega
      rcases least with isA | isB | isC | isD
      · exact isA ▸ inA
      · exact isB ▸ inB
      · exact isC ▸ inC
      · exact isD ▸ inD
    · have greatest : (max (max a b) (max c d)).toInt = a.toInt ∨
          (max (max a b) (max c d)).toInt = b.toInt ∨
          (max (max a b) (max c d)).toInt = c.toInt ∨
          (max (max a b) (max c d)).toInt = d.toInt := by
        simp only [toInt_max]
        omega
      rcases greatest with isA | isB | isC | isD
      · exact isA ▸ inA
      · exact isB ▸ inB
      · exact isC ▸ inC
      · exact isD ▸ inD
  · rename_i missing
    left
    refine ⟨rfl, ?_⟩
    cases aFound : checked first.lo second.lo with
    | none => exact exists_overflow computes lo lo' aFound
    | some a =>
      cases bFound : checked first.lo second.hi with
      | none => exact exists_overflow computes lo hi' bFound
      | some b =>
        cases cFound : checked first.hi second.lo with
        | none => exact exists_overflow computes hi lo' cFound
        | some c =>
          cases dFound : checked first.hi second.hi with
          | none => exact exists_overflow computes hi hi' dFound
          | some d => exact absurd dFound (missing a b c d aFound bFound cFound)

end

end Computed

theorem encloses_add (nonempty : first.Nonempty) (otherNonempty : second.Nonempty) :
    (first.add second).Encloses (results (· + ·) first second) := by
  apply encloses_ofBounds Bound.add?_computes nonempty.lo_mem otherNonempty.lo_mem nonempty.hi_mem
    otherNonempty.hi_mem
  rintro _ ⟨x, inFirst, y, inSecond, rfl⟩
  rw [mem_iff] at inFirst inSecond
  dsimp only
  omega

theorem encloses_sub (nonempty : first.Nonempty) (otherNonempty : second.Nonempty) :
    (first.sub second).Encloses (results (· - ·) first second) := by
  apply encloses_ofBounds Bound.sub?_computes nonempty.lo_mem otherNonempty.hi_mem nonempty.hi_mem
    otherNonempty.lo_mem
  rintro _ ⟨x, inFirst, y, inSecond, rfl⟩
  rw [mem_iff] at inFirst inSecond
  dsimp only
  omega

/-- Only the least word has no opposite. -/
theorem encloses_neg (nonempty : interval.Nonempty) : interval.neg.Encloses interval.opposites := by
  apply encloses_of_cases
  unfold neg
  split
  · rename_i least
    left
    refine ⟨rfl, -interval.lo.toInt, ⟨_, nonempty.lo_mem, rfl⟩, ?_⟩
    rw [least, Int64.toInt_minValue]
    simp [Fits]
  · rename_i notLeast
    have ordered := Int64.le_iff_toInt_le.mp nonempty
    have lowest := (fits_toInt interval.lo).1
    rw [← Int64.toInt_inj, Int64.toInt_minValue] at notLeast
    have low : (-interval.lo).toInt = -interval.lo.toInt := toInt_neg_of_ne notLeast
    have high : (-interval.hi).toInt = -interval.hi.toInt := toInt_neg_of_ne (by omega)
    right
    refine ⟨?_, ⟨_, nonempty.hi_mem, high.symm⟩, ⟨_, nonempty.lo_mem, low.symm⟩⟩
    rintro _ ⟨x, inside, rfl⟩
    rw [mem_iff] at inside
    simp only [low, high]
    omega

theorem encloses_mul (nonempty : first.Nonempty) (otherNonempty : second.Nonempty) :
    (first.mul second).Encloses (results (· * ·) first second) := by
  unfold mul
  split
  · rename_i zero
    have vanishes : ∀ x ∈ first, ∀ y ∈ second, x.toInt * y.toInt = 0 := by
      intro x inFirst y inSecond
      rw [Bool.or_eq_true] at zero
      rcases zero with firstZero | secondZero
      · rw [eq_zero_of_isFalse firstZero inFirst, Int64.toInt_zero, Int.zero_mul]
      · rw [eq_zero_of_isFalse secondZero inSecond, Int64.toInt_zero, Int.mul_zero]
    have isResult : (0 : Int64).toInt ∈ results (· * ·) first second :=
      ⟨_, nonempty.lo_mem, _, otherNonempty.lo_mem,
        vanishes _ nonempty.lo_mem _ otherNonempty.lo_mem⟩
    apply encloses_of_cases
    right
    refine ⟨?_, isResult, isResult⟩
    rintro _ ⟨x, inFirst, y, inSecond, rfl⟩
    simp only [vanishes x inFirst y inSecond, const, Int64.toInt_zero]
    omega
  · apply encloses_corners Bound.mul?_computes nonempty otherNonempty
    · intro x inFirst y
      rw [mem_iff] at inFirst
      exact between_mul inFirst.1 inFirst.2 _
    · intro y inSecond x
      rw [mem_iff] at inSecond
      simp only [Int.mul_comm x.toInt]
      exact between_mul inSecond.1 inSecond.2 _

theorem encloses_quo (nonempty : first.Nonempty) (otherNonempty : second.Nonempty)
    (excludes : ¬0 ∈ second) : (first.quo second).Encloses (results Int.tdiv first second) := by
  rw [show first.quo second = corners Bound.quo? first second from if_neg excludes]
  apply encloses_corners Bound.quo?_computes nonempty otherNonempty
  · intro x inFirst y
    rw [mem_iff] at inFirst
    exact between_tdiv inFirst.1 inFirst.2 _
  · intro y inSecond x
    rw [mem_iff] at inSecond
    exact between_tdiv_divisor (oneSign_of_not_mem_zero excludes) inSecond.1 inSecond.2 _

section Members

variable {x y : Int64} (inFirst : x ∈ first) (inSecond : y ∈ second)

include inFirst in
theorem mem_neg : -x ∈ first.neg :=
  (encloses_neg (nonempty_of_mem inFirst)).mem ⟨x, inFirst, rfl⟩ (Int64.toInt_neg x)

include inFirst inSecond

theorem mem_add : x + y ∈ first.add second :=
  (encloses_add (nonempty_of_mem inFirst) (nonempty_of_mem inSecond)).mem
    (mem_results inFirst inSecond) (Int64.toInt_add x y)

theorem mem_sub : x - y ∈ first.sub second :=
  (encloses_sub (nonempty_of_mem inFirst) (nonempty_of_mem inSecond)).mem
    (mem_results inFirst inSecond) (Int64.toInt_sub x y)

theorem mem_mul : x * y ∈ first.mul second :=
  (encloses_mul (nonempty_of_mem inFirst) (nonempty_of_mem inSecond)).mem
    (mem_results inFirst inSecond) (Int64.toInt_mul x y)

theorem mem_quo : x / y ∈ first.quo second := by
  by_cases zero : 0 ∈ second
  · rw [show first.quo second = top from if_pos zero]
    exact mem_top _
  · exact (encloses_quo (nonempty_of_mem inFirst) (nonempty_of_mem inSecond) zero).mem
      (mem_results inFirst inSecond) (Int64.toInt_div x y)

end Members

theorem holds_rem (first second : Interval) :
    (first.rem second).Holds (results Int.tmod first second) := by
  rintro _ ⟨x, inFirst, y, inSecond, rfl⟩
  rw [← Int64.toInt_mod]
  exact mem_iff.mp (mem_rem inFirst inSecond)

/-- Interval arithmetic is exact up to overflow.  Sums, differences, products and opposites have the
smallest interval around their exact values if words can hold all of them, and all words otherwise.
The same holds of quotients if the divisor cannot be zero; remainders have an interval that holds
them all.  The overflow tests on bounds, on which this rests, are right for all words. -/
theorem arithmetic_exact (first second : Interval) (nonempty : first.Nonempty)
    (otherNonempty : second.Nonempty) :
    (first.add second).Encloses (results (· + ·) first second) ∧
      (first.sub second).Encloses (results (· - ·) first second) ∧
      (first.mul second).Encloses (results (· * ·) first second) ∧
      first.neg.Encloses first.opposites ∧
      (0 ∈ second → first.quo second = top ∧ first.rem second = top) ∧
      (¬0 ∈ second → (first.quo second).Encloses (results Int.tdiv first second) ∧
        (first.rem second).Nonempty ∧
        (first.rem second).Holds (results Int.tmod first second)) ∧
      ∀ x y word : Int64,
        (Bound.add? x y = some word ↔ word.toInt = x.toInt + y.toInt) ∧
        (Bound.sub? x y = some word ↔ word.toInt = x.toInt - y.toInt) ∧
        (Bound.mul? x y = some word ↔ word.toInt = x.toInt * y.toInt) ∧
        (y ≠ 0 → (Bound.quo? x y = some word ↔ word.toInt = x.toInt.tdiv y.toInt)) := by
  refine ⟨encloses_add nonempty otherNonempty, encloses_sub nonempty otherNonempty,
    encloses_mul nonempty otherNonempty, encloses_neg nonempty, ?_, ?_, ?_⟩
  · intro zero
    exact ⟨if_pos zero, if_pos zero⟩
  · intro excludes
    refine ⟨encloses_quo nonempty otherNonempty excludes, ?_, holds_rem first second⟩
    exact nonempty_of_mem
      (mem_rem nonempty.lo_mem otherNonempty.lo_mem)
  · intro x y word
    exact ⟨Bound.add?_computes x y word, Bound.sub?_computes x y word,
      Bound.mul?_computes x y word, fun _ => Bound.quo?_computes x y word⟩

/-- The least word divided by minus one overflows, so these quotients are unbounded.  Divided by two
or three it does not, and both bounds are quotients. -/
theorem arithmetic_exact_least :
    (⟨Int64.minValue, 5⟩ : Interval).Nonempty ∧
      (⟨Int64.minValue, 5⟩ : Interval).quo ⟨-3, -1⟩ = top ∧
      ((⟨Int64.minValue, 5⟩ : Interval).quo ⟨2, 3⟩).IsHull
        (results Int.tdiv ⟨Int64.minValue, 5⟩ ⟨2, 3⟩) ∧
      (⟨Int64.minValue, 5⟩ : Interval).quo ⟨2, 3⟩ = ⟨-4611686018427387904, 2⟩ := by
  obtain ⟨_, _, _, _, _, negative, _⟩ :=
    arithmetic_exact ⟨Int64.minValue, 5⟩ ⟨-3, -1⟩ (by decide) (by decide)
  obtain ⟨_, _, _, _, _, positive, _⟩ :=
    arithmetic_exact ⟨Int64.minValue, 5⟩ ⟨2, 3⟩ (by decide) (by decide)
  refine ⟨by decide, ?_, ?_, by decide⟩
  · apply (negative (by decide)).1.overflow
    exact ⟨2 ^ 63, ⟨Int64.minValue, by decide, -1, by decide, by decide⟩, by simp [Fits]⟩
  · apply (positive (by decide)).1.hull
    rintro _ ⟨x, inFirst, y, inSecond, rfl⟩
    have smaller : (x.toInt.tdiv y.toInt).natAbs ≤ x.toInt.natAbs / 2 := by
      rw [Int.natAbs_tdiv]
      apply Nat.div_le_div_left _ (by decide)
      have above := (mem_iff.mp inSecond).1
      rw [show (2 : Int64).toInt = 2 from rfl] at above
      omega
    have fits := fits_toInt x
    simp only [Fits] at fits ⊢
    omega

end Reachability.Interval
