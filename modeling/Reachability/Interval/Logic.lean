import Reachability.Interval.Basic
import Reachability.Program.Operator

/-!
# Truth values of intervals

Comparisons and logical operators on intervals have the result `1` if they hold
for all members, `0` if they hold for none, and both values otherwise.
-/

namespace Reachability.Interval

/-- The values of a condition, given whether it always holds and whether it never holds. -/
def verdict (always never : Bool) : Interval :=
  if always then const 1 else if never then const 0 else either

def not (interval : Interval) : Interval := verdict interval.isFalse interval.isTrue

def and (first second : Interval) : Interval :=
  verdict (first.isTrue && second.isTrue) (first.isFalse || second.isFalse)

def or (first second : Interval) : Interval :=
  verdict (first.isTrue || second.isTrue) (first.isFalse && second.isFalse)

def sameConst (first second : Interval) : Bool :=
  first.isConst && second.isConst && first.lo == second.lo

def compareEq (first second : Interval) : Interval :=
  verdict (sameConst first second) (meet? first second).isNone

def compareLt (first second : Interval) : Interval :=
  verdict (first.hi < second.lo) (first.lo ≥ second.hi)

def compareLe (first second : Interval) : Interval :=
  verdict (first.hi ≤ second.lo) (first.lo > second.hi)

def compare : Comparison → Interval → Interval → Interval
  | .eq, first, second => compareEq first second
  | .ne, first, second => not (compareEq first second)
  | .lt, first, second => compareLt first second
  | .le, first, second => compareLe first second
  | .gt, first, second => compareLt second first
  | .ge, first, second => compareLe second first

end Reachability.Interval
