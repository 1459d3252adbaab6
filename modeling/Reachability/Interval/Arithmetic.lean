import Reachability.Interval.Basic
import Reachability.Program.Operator

/-!
# Arithmetic on intervals

Each operation computes bounds with overflow tests.  The result is the interval
of all words as soon as one of the tests fails.
-/

namespace Reachability

namespace Bound

def add? (x y : Int64) : Option Int64 :=
  let sum := x + y
  if decide (x < sum) == decide (0 < y) then some sum else none

def sub? (x y : Int64) : Option Int64 :=
  let difference := x - y
  if decide (difference < x) == decide (0 < y) then some difference else none

def mul? (x y : Int64) : Option Int64 :=
  if x = 0 ∨ y = 0 then some 0
  else if (x = -1 ∧ y = Int64.minValue) ∨ (y = -1 ∧ x = Int64.minValue) then none
  else
    let product := x * y
    if product / y = x then some product else none

def quo? (x y : Int64) : Option Int64 :=
  if x = Int64.minValue ∧ y = -1 then none else some (x / y)

def abs (x : Int64) : Int64 := if x < 0 then -x else x

end Bound

namespace Interval

/-- The interval between two computed bounds; all words if one of them overflowed. -/
def ofBounds (lo hi : Option Int64) : Interval :=
  match lo, hi with
  | some lo, some hi => ⟨lo, hi⟩
  | _, _ => top

/-- The interval of the results of an operation that takes its extreme values at the bounds. -/
def corners (op : Int64 → Int64 → Option Int64) (first second : Interval) : Interval :=
  match op first.lo second.lo, op first.lo second.hi, op first.hi second.lo,
    op first.hi second.hi with
  | some a, some b, some c, some d => ⟨min (min a b) (min c d), max (max a b) (max c d)⟩
  | _, _, _, _ => top

def add (first second : Interval) : Interval :=
  ofBounds (Bound.add? first.lo second.lo) (Bound.add? first.hi second.hi)

def sub (first second : Interval) : Interval :=
  ofBounds (Bound.sub? first.lo second.hi) (Bound.sub? first.hi second.lo)

def neg (interval : Interval) : Interval :=
  if interval.lo = Int64.minValue then top else ⟨-interval.hi, -interval.lo⟩

def mul (first second : Interval) : Interval :=
  if first.isFalse || second.isFalse then const 0 else corners Bound.mul? first second

/-- Quotients truncated towards zero.  A divisor that may be zero gives all words. -/
def quo (first second : Interval) : Interval :=
  if 0 ∈ second then top else corners Bound.quo? first second

/-- Remainders have the sign of the dividend and are smaller than the divisor in absolute value. -/
def rem (first second : Interval) : Interval :=
  if 0 ∈ second then top
  else if first.isConst && second.isConst then const (first.lo % second.lo)
  else
    let largest :=
      if second.lo = Int64.minValue then Int64.maxValue
      else max (Bound.abs second.lo) (Bound.abs second.hi) - 1
    if 0 ≤ first.lo then ⟨0, min first.hi largest⟩
    else if first.hi ≤ 0 then ⟨max first.lo (-largest), 0⟩
    else ⟨max first.lo (-largest), min first.hi largest⟩

def arith : Arithmetic → Interval → Interval → Interval
  | .add => add
  | .sub => sub
  | .mul => mul
  | .quo => quo
  | .rem => rem

end Interval

end Reachability
