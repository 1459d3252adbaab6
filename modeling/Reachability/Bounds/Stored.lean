import Reachability.Bounds.Eval

/-!
# Stored bounds

Stored bounds have an address, which tells whether a restriction has returned the
bounds that it was given or a copy.
-/

namespace Reachability

structure Stored where
  address : Nat
  known : Bounds

/-- Computations that may have no result and that count the addresses in use. -/
abbrev Storing := StateT Nat Option

namespace Stored

def copyWith (stored : Stored) (name : String) (interval : Interval) : Storing Stored :=
  fun free => some (⟨free, stored.known.set name interval⟩, free + 1)

/-- Restrict a variable to the values that compare with some value of `other`.  Bounds in which
nothing changes are not copied. -/
def restrict (stored : Stored) (name : String) (op : Comparison) (other : Interval) :
    Storing Stored := do
  let interval ← Bounds.restricted? op (stored.known.get name) other
  if interval = stored.known.get name then return stored else stored.copyWith name interval

def restrictOperand (stored : Stored) (operand : Expr) (op : Comparison) (other : Expr) :
    Storing Stored :=
  match operand with
  | .var _ name => stored.restrict name op (stored.known.eval other)
  | _ => return stored

def refineComparison (stored : Stored) (op : Comparison) (left right : Expr) : Storing Stored := do
  let stored ← stored.restrictOperand left op right
  let stored ← stored.restrictOperand right op.swap left
  if (Interval.compare op (stored.known.eval left) (stored.known.eval right)).isFalse then failure
  else return stored

def keepIf (stored : Stored) (cond : Expr) (truth : Bool) : Storing Stored :=
  let value := stored.known.eval cond
  if (truth && value.isFalse) || (!truth && value.isTrue) then failure else return stored

def refine (stored : Stored) (truth : Bool) : Expr → Storing Stored
  | .unary pos op operand =>
    if op = .not then refine stored (!truth) operand
    else stored.keepIf (.unary pos op operand) truth
  | .binary pos op left right =>
    if (op = .and ∧ truth = true) ∨ (op = .or ∧ truth = false) then do
      let stored ← refine stored truth left
      refine stored truth right
    else match op.comparison? with
      | some op => stored.refineComparison (if truth then op else op.negate) left right
      | none => stored.keepIf (.binary pos op left right) truth
  | .var _ name => stored.restrict name (if truth then .ne else .eq) (.const 0)
  | other => stored.keepIf other truth

def assume (stored : Stored) (cond : Expr) : Storing Stored :=
  if (stored.known.eval cond).isFalse then failure else stored.refine true cond

end Stored

end Reachability
