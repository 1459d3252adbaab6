/-!
# Intervals of words

An interval stands for the 64-bit words between its two bounds, the bounds
included.
-/

namespace Reachability

structure Interval where
  lo : Int64
  hi : Int64
deriving DecidableEq, Repr, Inhabited

namespace Interval

def top : Interval := ⟨Int64.minValue, Int64.maxValue⟩

def const (value : Int64) : Interval := ⟨value, value⟩

def range? (lo hi : Int64) : Option Interval :=
  if hi < lo then none else some ⟨lo, hi⟩

/-- The values of a condition that may hold or not. -/
def either : Interval := ⟨0, 1⟩

def Contains (interval : Interval) (value : Int64) : Prop :=
  interval.lo ≤ value ∧ value ≤ interval.hi

instance : Membership Int64 Interval := ⟨Contains⟩

def Nonempty (interval : Interval) : Prop := interval.lo ≤ interval.hi

instance (interval : Interval) (value : Int64) : Decidable (value ∈ interval) :=
  inferInstanceAs (Decidable (_ ∧ _))

instance (interval : Interval) : Decidable interval.Nonempty :=
  inferInstanceAs (Decidable (_ ≤ _))

def isTop (interval : Interval) : Bool :=
  interval.lo == Int64.minValue && interval.hi == Int64.maxValue

def isConst (interval : Interval) : Bool := interval.lo == interval.hi

def includes (outer inner : Interval) : Bool := outer.lo ≤ inner.lo && inner.hi ≤ outer.hi

def hull (first second : Interval) : Interval :=
  ⟨min first.lo second.lo, max first.hi second.hi⟩

def meet? (first second : Interval) : Option Interval :=
  range? (max first.lo second.lo) (min first.hi second.hi)

def isTrue (interval : Interval) : Bool := !decide (0 ∈ interval)

def isFalse (interval : Interval) : Bool := interval.lo == 0 && interval.hi == 0

def closestToZero (interval : Interval) : Int64 :=
  if 0 ∈ interval then 0 else if 0 < interval.lo then interval.lo else interval.hi

def text (interval : Interval) : String :=
  if interval.isConst then toString interval.lo.toInt
  else if interval.isTop then "top"
  else "[" ++ toString interval.lo.toInt ++ ", " ++ toString interval.hi.toInt ++ "]"

end Interval

end Reachability
