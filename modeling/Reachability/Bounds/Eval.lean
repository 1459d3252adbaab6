import Reachability.Bounds.Basic
import Reachability.Interval.Arithmetic
import Reachability.Interval.Logic
import Reachability.Program.Expr

/-!
# Evaluation over bounds

`Bounds.eval` gives an interval for the values an expression may take, and
`Bounds.assume` restricts bounds to the values for which a condition may hold.
-/

namespace Reachability.Bounds

def evalUnary : Operator → Interval → Interval
  | .neg, operand => operand.neg
  | .not, operand => operand.not
  | _, _ => .top

def evalBinary : Operator → Interval → Interval → Interval
  | .arith op, left, right => Interval.arith op left right
  | .compare op, left, right => Interval.compare op left right
  | .and, left, right => Interval.and left right
  | .or, left, right => Interval.or left right
  | _, _, _ => .top

def eval (bounds : Bounds) : Expr → Interval
  | .literal _ value => .const value
  | .var _ name => bounds.get name
  | .unary _ op operand => evalUnary op (eval bounds operand)
  | .binary _ op left right => evalBinary op (eval bounds left) (eval bounds right)
  | .nondet .. | .foreign .. | .missing => .top

/-- The members of `current` that compare with some member of `other`, if there are any. -/
def restricted? (op : Comparison) (current other : Interval) : Option Interval :=
  match op with
  | .eq => current.meet? other
  | .ne =>
    if other.isConst then
      if current.lo = other.lo ∧ current.hi = other.lo then none
      else if current.lo = other.lo then some { current with lo := current.lo + 1 }
      else if current.hi = other.lo then some { current with hi := current.hi - 1 }
      else some current
    else some current
  | .lt =>
    if other.hi = Int64.minValue then none
    else Interval.range? current.lo (min current.hi (other.hi - 1))
  | .le => Interval.range? current.lo (min current.hi other.hi)
  | .gt =>
    if other.lo = Int64.maxValue then none
    else Interval.range? (max current.lo (other.lo + 1)) current.hi
  | .ge => Interval.range? (max current.lo other.lo) current.hi

def restrict (bounds : Bounds) (name : String) (op : Comparison) (other : Interval) :
    Option Bounds :=
  (restricted? op (bounds.get name) other).map fun interval =>
    if interval = bounds.get name then bounds else bounds.set name interval

def restrictOperand (bounds : Bounds) (operand : Expr) (op : Comparison) (other : Expr) :
    Option Bounds :=
  match operand with
  | .var _ name => bounds.restrict name op (bounds.eval other)
  | _ => some bounds

def refineComparison (bounds : Bounds) (op : Comparison) (left right : Expr) : Option Bounds := do
  let bounds ← bounds.restrictOperand left op right
  let bounds ← bounds.restrictOperand right op.swap left
  if (Interval.compare op (bounds.eval left) (bounds.eval right)).isFalse then none else some bounds

def keepIf (bounds : Bounds) (cond : Expr) (truth : Bool) : Option Bounds :=
  let value := bounds.eval cond
  if (truth && value.isFalse) || (!truth && value.isTrue) then none else some bounds

def refine (bounds : Bounds) (truth : Bool) : Expr → Option Bounds
  | .unary pos op operand =>
    if op = .not then refine bounds (!truth) operand
    else bounds.keepIf (.unary pos op operand) truth
  | .binary pos op left right =>
    if (op = .and ∧ truth = true) ∨ (op = .or ∧ truth = false) then
      (refine bounds truth left).bind fun bounds => refine bounds truth right
    else match op.comparison? with
      | some op => bounds.refineComparison (if truth then op else op.negate) left right
      | none => bounds.keepIf (.binary pos op left right) truth
  | .var _ name => bounds.restrict name (if truth then .ne else .eq) (.const 0)
  | other => bounds.keepIf other truth

def assume (bounds : Bounds) (cond : Expr) : Option Bounds :=
  if (bounds.eval cond).isFalse then none else bounds.refine true cond

end Reachability.Bounds
