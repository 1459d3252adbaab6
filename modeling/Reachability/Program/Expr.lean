import Reachability.Program.Operator
import Reachability.Sequence

/-!
# Expressions

A tree may come from any producer, so it can hold operands that are missing and
expressions of an unknown kind.
-/

namespace Reachability

/-- Integer expressions; conditions are expressions, non-zero meaning true.  The first field of a
constructor is the source position, zero if there is none. -/
inductive Expr where
  | literal (pos : Nat) (value : Int64)
  | var (pos : Nat) (name : String)
  | nondet (pos : Nat) (source : String)
  | unary (pos : Nat) (op : Operator) (operand : Expr)
  | binary (pos : Nat) (op : Operator) (left right : Expr)
  | foreign (kind text : String)
  | missing
deriving DecidableEq, Repr, Inhabited

namespace Expr

def pos : Expr → Nat
  | literal pos _ | var pos _ | nondet pos _ | unary pos _ _ | binary pos _ _ _ => pos
  | foreign _ _ | missing => 0

def ofBool (value : Bool) : Expr := literal 0 (if value then 1 else 0)

def negation (cond : Expr) : Expr := unary cond.pos .not cond

def isMissing : Expr → Bool
  | missing => true
  | _ => false

def isBinary : Expr → Bool
  | binary .. => true
  | _ => false

def parenthesize (operand : Expr) (text : String) : String :=
  if operand.isBinary then "(" ++ text ++ ")" else text

def text? : Expr → Option String
  | literal _ value => some (toString value.toInt)
  | var _ name => some name
  | nondet _ source => some ((if source = "" then "nondet" else source) ++ "()")
  | unary _ op operand =>
    operand.text?.map fun text => op.text ++ parenthesize operand text
  | binary _ op left right =>
    left.text?.bind fun first => right.text?.map fun second =>
      parenthesize left first ++ " " ++ op.text ++ " " ++ parenthesize right second
  | foreign _ text => some text
  | missing => none

def parts : Expr → List Expr
  | unary pos op operand => unary pos op operand :: operand.parts
  | binary pos op left right => binary pos op left right :: (left.parts ++ right.parts)
  | missing => []
  | other => [other]

end Expr

def Expr.vars (expr : Expr) : List String :=
  expr.parts.foldl (fun names part =>
    match part with
    | .var _ name => addUnique names name
    | _ => names) []

/-- A part that is not there is noted as absent, and one whose own text cannot be written as broken.
`verb` is the style the part was asked for. -/
def noted (verb : String) (absent : Bool) (text : Option String) (style : String → String) :
    String :=
  match text with
  | some text => style text
  | none =>
    if absent then "%!" ++ verb ++ "(<nil>)"
    else "%!" ++ verb ++ "(PANIC=String method: runtime error: invalid memory address " ++
      "or nil pointer dereference)"

/-- The text of an expression inside a message, with a note in place of what cannot be written. -/
def Expr.shown (expr : Expr) : String := noted "s" expr.isMissing expr.text? id

end Reachability
