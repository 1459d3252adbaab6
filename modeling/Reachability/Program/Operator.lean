/-!
# Operators

Arithmetic and comparison operators have types of their own because the analyses
treat each family uniformly.
-/

namespace Reachability

inductive Arithmetic where
  | add | sub | mul | quo | rem
deriving DecidableEq, Repr

inductive Comparison where
  | eq | ne | lt | le | gt | ge
deriving DecidableEq, Repr

namespace Comparison

def negate : Comparison → Comparison
  | eq => ne
  | ne => eq
  | lt => ge
  | le => gt
  | gt => le
  | ge => lt

def swap : Comparison → Comparison
  | eq => eq
  | ne => ne
  | lt => gt
  | le => ge
  | gt => lt
  | ge => le

def holds : Comparison → Int64 → Int64 → Bool
  | eq, x, y => x == y
  | ne, x, y => x != y
  | lt, x, y => x < y
  | le, x, y => x ≤ y
  | gt, x, y => x > y
  | ge, x, y => x ≥ y

end Comparison

/-- Operators of expressions.  `unknown` stands for an operator without meaning. -/
inductive Operator where
  | arith (op : Arithmetic)
  | compare (op : Comparison)
  | and | or | not | neg
  | unknown
deriving DecidableEq, Repr

def Arithmetic.text : Arithmetic → String
  | add => "+"
  | sub => "-"
  | mul => "*"
  | quo => "/"
  | rem => "%"

def Comparison.text : Comparison → String
  | eq => "=="
  | ne => "!="
  | lt => "<"
  | le => "<="
  | gt => ">"
  | ge => ">="

namespace Operator

def text : Operator → String
  | arith op => op.text
  | compare op => op.text
  | and => "&&"
  | or => "||"
  | not => "!"
  | neg => "-"
  | unknown => "?"

def isUnary : Operator → Bool
  | not | neg => true
  | _ => false

def comparison? : Operator → Option Comparison
  | compare op => some op
  | _ => none

end Operator

structure NotComparison where
  op : Operator
deriving DecidableEq, Repr

def NotComparison.message (error : NotComparison) : String :=
  "not a comparison: " ++ error.op.text

def Operator.asComparison (op : Operator) : Except NotComparison Comparison :=
  match op.comparison? with
  | some comparison => .ok comparison
  | none => .error ⟨op⟩

end Reachability
