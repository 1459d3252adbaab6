import Reachability.NameMap
import Reachability.Program.Expr

/-!
# Concrete evaluation

Variables hold 64-bit words and arithmetic wraps around.  Each nondeterministic
expression draws the next value from the environment.
-/

namespace Reachability

/-- The values of the variables; a variable without entry is zero. -/
abbrev Env := NameMap Int64

def Env.value (env : Env) (name : String) : Int64 := (env.get? name).getD 0

inductive EvalError where
  | divisionByZero
  | unknownOperator (op : Operator)
  | notEvaluable (expr : Expr)
deriving DecidableEq, Repr

def EvalError.message : EvalError → String
  | divisionByZero => "division by zero"
  | unknownOperator op => "unknown binary operator " ++ op.text
  | notEvaluable expr => "cannot evaluate " ++ expr.shown

def truthWord (value : Bool) : Int64 := if value then 1 else 0

def Arithmetic.apply : Arithmetic → Int64 → Int64 → Except EvalError Int64
  | add, x, y => .ok (x + y)
  | sub, x, y => .ok (x - y)
  | mul, x, y => .ok (x * y)
  | quo, x, y => if y = 0 then .error .divisionByZero else .ok (x / y)
  | rem, x, y => if y = 0 then .error .divisionByZero else .ok (x % y)

def Operator.apply : Operator → Int64 → Int64 → Except EvalError Int64
  | arith op, x, y => op.apply x y
  | compare op, x, y => .ok (truthWord (op.holds x y))
  | op, _, _ => .error (.unknownOperator op)

/-- The value of an expression, and the number of values drawn after it.  `draw n` is the `n`-th
nondeterministic value, and `next` counts those drawn before. -/
def Expr.eval (draw : Nat → Int64) (env : Env) : Expr → Nat → Except EvalError (Int64 × Nat)
  | literal _ value, next => .ok (value, next)
  | var _ name, next => .ok (env.value name, next)
  | nondet _ _, next => .ok (draw next, next + 1)
  | unary pos op operand, next => do
      let (x, next) ← eval draw env operand next
      match op with
      | .neg => .ok (-x, next)
      | .not => .ok (truthWord (x == 0), next)
      | _ => .error (.notEvaluable (unary pos op operand))
  | binary _ op left right, next => do
      let (x, next) ← eval draw env left next
      match op with
      | .and =>
        if x = 0 then .ok (0, next)
        else
          let (y, next) ← eval draw env right next
          .ok (truthWord (y != 0), next)
      | .or =>
        if x ≠ 0 then .ok (1, next)
        else
          let (y, next) ← eval draw env right next
          .ok (truthWord (y != 0), next)
      | op =>
        let (y, next) ← eval draw env right next
        let value ← op.apply x y
        .ok (value, next)
  | foreign kind text, _ => .error (.notEvaluable (foreign kind text))
  | missing, _ => .error (.notEvaluable missing)

/-- The value of an expression in which nondeterministic values are zero. -/
def Expr.value (env : Env) (expr : Expr) : Except EvalError Int64 :=
  (expr.eval (fun _ => 0) env 0).map Prod.fst

end Reachability
