import Reachability.Log
import Reachability.Program.Stmt
import Reachability.Text.Quoted

/-!
# Well-formed statement trees

The survey of a tree finds the first construct that has no lowering and notes the
statements that cannot be reached; those are not examined.
-/

namespace Reachability

inductive Defect where
  | missingStatement
  | unknownStatement (kind : String)
  | assignmentWithoutVariable
  | callWithoutCallee
  | breakOutsideLoop
  | continueOutsideLoop
  | missingExpression
  | missingOperand
  | notUnary (op : Operator)
  | notBinary (op : Operator)
  | unknownExpression (kind : String)
deriving DecidableEq, Repr

def Defect.reason : Defect → String
  | missingStatement => "missing statement"
  | unknownStatement kind => "unknown statement kind " ++ kind
  | assignmentWithoutVariable => "assignment without variable"
  | callWithoutCallee => "call without callee"
  | breakOutsideLoop => "break outside of a loop"
  | continueOutsideLoop => "continue outside of a loop"
  | missingExpression => "missing expression"
  | missingOperand => "missing operand"
  | notUnary op => "operator " ++ op.text ++ " is not unary"
  | notBinary op => "operator " ++ op.text ++ " is not binary"
  | unknownExpression kind => "unknown expression kind " ++ kind

structure Unsupported where
  stmt : Stmt
  defect : Defect
deriving Repr

/-- The error message, which quotes the statement.  There is none if the statement has no text. -/
def Unsupported.message? (error : Unsupported) : Option String :=
  let start := "unsupported construct: " ++ error.defect.reason
  if error.stmt.isMissing then some start
  else error.stmt.text?.map fun text => start ++ " in " ++ Text.quote text

def Expr.partDefect? : Expr → Option Defect
  | unary _ op operand =>
    if !op.isUnary then some (.notUnary op)
    else if operand.isMissing then some .missingOperand
    else none
  | binary _ op left right =>
    if op.isUnary then some (.notBinary op)
    else if left.isMissing || right.isMissing then some .missingOperand
    else none
  | foreign kind _ => some (.unknownExpression kind)
  | missing => some .missingExpression
  | literal .. | var .. | nondet .. => none

def Expr.defect? (expr : Expr) : Option Defect :=
  if expr.isMissing then some .missingExpression else expr.parts.findSome? Expr.partDefect?

structure DeadCode where
  count : Nat
  after : Stmt
deriving Repr

def DeadCode.message (dead : DeadCode) : LogMessage :=
  .ofText .debug (toString dead.count ++ " unreachable statement(s) after " ++
    noted "q" false dead.after.text? Text.quote ++ " are not lowered\n")

structure Survey where
  dead : List DeadCode := []
  error : Option Unsupported := none
deriving Repr

namespace Survey

def ok : Survey := {}

def ofDefect (stmt : Stmt) (defect : Option Defect) : Survey :=
  { error := defect.map fun defect => { stmt, defect } }

def andThen (first : Survey) (second : Survey) : Survey :=
  if first.error.isSome then first else { dead := first.dead ++ second.dead, error := second.error }

end Survey

namespace Stmt

mutual

def fallsThrough : Stmt → Bool
  | block _ body => allFallThrough body
  | branch _ _ yes no => no.isMissing || fallsThrough yes || fallsThrough no
  | ret _ | brk _ | cont _ => false
  | _ => true

def allFallThrough : List Stmt → Bool
  | [] => true
  | first :: rest => fallsThrough first && allFallThrough rest

end

mutual

def survey (inLoop : Bool) : Stmt → Survey
  | block _ body => surveyAll inLoop body
  | assign span var value =>
    .ofDefect (assign span var value)
      (if var = "" then some .assignmentWithoutVariable else value.defect?)
  | branch span cond yes no =>
    (Survey.ofDefect (branch span cond yes no) cond.defect?).andThen
      ((survey inLoop yes).andThen (if no.isMissing then .ok else survey inLoop no))
  | loop span cond body =>
    (Survey.ofDefect (loop span cond body) cond.defect?).andThen (survey true body)
  | call span result callee args =>
    .ofDefect (call span result callee args)
      (if callee = "" then some .callWithoutCallee else args.findSome? Expr.defect?)
  | assume span cond => .ofDefect (assume span cond) cond.defect?
  | brk span => .ofDefect (brk span) (if inLoop then none else some .breakOutsideLoop)
  | cont span => .ofDefect (cont span) (if inLoop then none else some .continueOutsideLoop)
  | ret _ | skip _ => .ok
  | foreign span kind text => .ofDefect (foreign span kind text) (some (.unknownStatement kind))
  | missing => .ofDefect missing (some .missingStatement)

def surveyAll (inLoop : Bool) : List Stmt → Survey
  | [] => .ok
  | first :: rest =>
    (survey inLoop first).andThen
      (if fallsThrough first then surveyAll inLoop rest
      else if rest.isEmpty then .ok
      else { dead := [{ count := rest.length, after := first }] })

end

end Stmt

end Reachability
