import Reachability.Program.Stmt
import Reachability.Source.Scopes
import Reachability.Source.Tree
import Reachability.Text.Digits

/-!
# Lowering

The statements of a function become a statement tree of the analysed language.
What has no counterpart is refused.
-/

namespace Reachability.Source

inductive Refusal where
  | stepOfNonVariable
  | valueAsStatement
  | labelledJump (keyword : String)
  | jump (keyword : String)
  | statement (kind : String)
  | assignedCount (values targets : Nat)
  | assignedNonVariable
  | assignmentOperator (op : String)
  | declarationOfOther
  | declaredCount (names values : Nat)
  | calledNonName
  | spreadCall
  | assumeArguments (name : String)
  | continueBeforePost
  | literal (kind : LiteralKind)
  | integer (text : String)
  | unaryOperator (op : String)
  | binaryOperator (op : String)
  | nestedCall
  | expression (kind : String)
deriving DecidableEq, Repr

def Refusal.reason : Refusal → String
  | stepOfNonVariable => "increment of a non-variable"
  | valueAsStatement => "expression statement that is not a call"
  | labelledJump keyword => "labeled " ++ keyword
  | jump keyword => keyword ++ " statement"
  | statement kind => "statement *dst." ++ kind
  | assignedCount values targets =>
    "assignment of " ++ toString values ++ " values to " ++ toString targets ++ " variables"
  | assignedNonVariable => "assignment to a non-variable"
  | assignmentOperator op => "assignment operator " ++ op
  | declarationOfOther => "declaration that is not a var"
  | declaredCount names values =>
    "declaration of " ++ toString names ++ " variables with " ++ toString values ++ " values"
  | calledNonName => "call of a non-identifier"
  | spreadCall => "variadic call"
  | assumeArguments name => name ++ " must be called with one argument"
  | continueBeforePost => "continue in a loop with a post statement"
  | literal kind => kind.text ++ " literal"
  | integer text => "integer literal " ++ text
  | unaryOperator op => "unary operator " ++ op
  | binaryOperator op => "binary operator " ++ op
  | nestedCall => "call in an expression"
  | expression kind => "expression *dst." ++ kind

structure LoweringError where
  refusal : Refusal
  pos : Nat
deriving DecidableEq, Repr

/-- How functions are lowered: the functions with a meaning of their own, none if empty, and the
labels of places. -/
structure Lowering where
  nondetPrefix : String := ""
  assumeFunction : String := ""
  labels : List (Nat × String) := []

namespace Lowering

variable (lowering : Lowering)

def isNondet (name : String) : Bool :=
  lowering.nondetPrefix ≠ "" && name.startsWith lowering.nondetPrefix

def isAssume (name : String) : Bool :=
  lowering.assumeFunction ≠ "" && name = lowering.assumeFunction

def spanAt (pos : Nat) : Span := { pos, label := (lowering.labels.lookup pos).getD "" }

end Lowering

def binaryOperator? : String → Option Operator
  | "+" => some (.arith .add)
  | "-" => some (.arith .sub)
  | "*" => some (.arith .mul)
  | "/" => some (.arith .quo)
  | "%" => some (.arith .rem)
  | "==" => some (.compare .eq)
  | "!=" => some (.compare .ne)
  | "<" => some (.compare .lt)
  | "<=" => some (.compare .le)
  | ">" => some (.compare .gt)
  | ">=" => some (.compare .ge)
  | "&&" => some .and
  | "||" => some .or
  | _ => none

def updateOperator? : String → Option Operator
  | "+=" => some (.arith .add)
  | "-=" => some (.arith .sub)
  | "*=" => some (.arith .mul)
  | "/=" => some (.arith .quo)
  | "%=" => some (.arith .rem)
  | _ => none

def negatedLiteral? : SourceExpr → Option Int64
  | .literal _ .int text => Text.Digits.int64? ("-" ++ text)
  | _ => none

namespace Lowering

variable (lowering : Lowering)

def expr (scopes : Scopes) : SourceExpr → Except LoweringError Expr
  | .paren _ inner => expr scopes inner
  | .literal pos kind text =>
    if kind = .int then
      match Text.Digits.int64? text with
      | some value => .ok (.literal pos value)
      | none => .error ⟨.integer text, pos⟩
    else .error ⟨.literal kind, pos⟩
  | .name pos name =>
    if name = "true" then .ok (.literal pos 1)
    else if name = "false" then .ok (.literal pos 0)
    else .ok (.var pos (scopes.resolve name))
  | .unary pos op operand =>
    match if op = "-" then negatedLiteral? operand else none with
    | some value => .ok (.literal pos value)
    | none => do
        let value ← expr scopes operand
        match op with
        | "+" => return value
        | "-" => return .unary pos .neg value
        | "!" => return .unary pos .not value
        | op => throw ⟨.unaryOperator op, pos⟩
  | .binary op left right =>
    match binaryOperator? op with
    | some operator => do
        let first ← expr scopes left
        let second ← expr scopes right
        return .binary left.pos operator first second
    | none => .error ⟨.binaryOperator op, left.pos⟩
  | .call (.name pos name) [] _ =>
    if lowering.isNondet name then .ok (.nondet pos name) else .error ⟨.nestedCall, pos⟩
  | .call fn _ _ => .error ⟨.nestedCall, fn.pos⟩
  | .channel pos _ _ => .error ⟨.expression "ChanType", pos⟩
  | .other pos kind _ => .error ⟨.expression kind, pos⟩

abbrev Result := Except LoweringError (List Stmt × Scopes)

/-- What comes second is lowered in the scopes behind what comes first. -/
def inTurn (first : Result) (second : Scopes → Result) : Result := do
  let (first, between) ← first
  let (second, behind) ← second between
  return (first ++ second, behind)

/-- The variable that receives a value and the scopes behind it: a new variable if it is declared,
none for the blank name. -/
def receiver (scopes : Scopes) (name : String) (declared : Bool) : String × Scopes :=
  if name = "_" || name = "" then ("", scopes)
  else if declared then (scopes.nextName name, scopes.declare name)
  else (scopes.resolve name, scopes)

def call (scopes : Scopes) (pos : Nat) (name : String) (declared : Bool) (fn : SourceExpr)
    (args : List SourceExpr) (spread : Bool) : Result :=
  match fn with
  | .name _ called =>
    if spread then .error ⟨.spreadCall, pos⟩
    else do
      let args ← args.mapM (lowering.expr scopes)
      let (result, scopes) := receiver scopes name declared
      let span := lowering.spanAt pos
      if lowering.isAssume called then
        match args with
        | [cond] =>
          if result = "" then return ([.assume span cond], scopes)
          else throw ⟨.assumeArguments called, pos⟩
        | _ => throw ⟨.assumeArguments called, pos⟩
      else if lowering.isNondet called && result = "" then return ([.skip span], scopes)
      else return ([.call span result called args], scopes)
  | _ => .error ⟨.calledNonName, pos⟩

/-- The variable is declared behind the value.  The value for the blank name is dropped. -/
def assignment (scopes : Scopes) (pos : Nat) (name : String) (declared : Bool)
    (value : SourceExpr) : Result :=
  let plain : Result := do
    let value ← lowering.expr scopes value
    let (result, scopes) := receiver scopes name declared
    return (if result = "" then [] else [.assign (lowering.spanAt pos) result value], scopes)
  match value with
  | .call (.name fnPos called) args spread =>
    if lowering.isNondet called then plain
    else lowering.call scopes pos name declared (.name fnPos called) args spread
  | _ => plain

def declarations (pos : Nat) : Scopes → List (String × SourceExpr) → Result
  | scopes, [] => .ok ([], scopes)
  | scopes, (name, value) :: rest =>
    inTurn (lowering.assignment scopes pos name true value) (declarations pos · rest)

def zeroDeclarations (pos : Nat) : Scopes → List String → List Stmt × Scopes
  | scopes, [] => ([], scopes)
  | scopes, name :: rest =>
    let (result, scopes) := receiver scopes name true
    let first := if result = "" then [] else [.assign (lowering.spanAt pos) result (.literal 0 0)]
    let (more, scopes) := zeroDeclarations pos scopes rest
    (first ++ more, scopes)

def varSpecs (pos : Nat) : Scopes → List VarSpec → Result
  | scopes, [] => .ok ([], scopes)
  | scopes, spec :: rest =>
    inTurn
      (if spec.values.isEmpty then .ok (lowering.zeroDeclarations pos scopes spec.names)
      else if spec.values.length = spec.names.length then
        lowering.declarations pos scopes (spec.names.zip spec.values)
      else .error ⟨.declaredCount spec.names.length spec.values.length, pos⟩)
      (varSpecs pos · rest)

def update (scopes : Scopes) (pos : Nat) (op : Operator) (varPos : Nat) (name : String)
    (value : Expr) : Stmt :=
  let var := scopes.resolve name
  .assign (lowering.spanAt pos) var (.binary pos op (.var varPos var) value)

def alternative : List SourceStmt → List Stmt → Stmt
  | [], _ => .missing
  | [.block _ _], [block] => block
  | _, lowered => .block {} lowered

mutual

def stmt (scopes : Scopes) : SourceStmt → Result
  | .block pos body => do
      let (body, inside) ← stmts scopes.enter body
      return ([.block (lowering.spanAt pos) body], inside.leave)
  | .empty => .ok ([], scopes)
  | .assign op [left] [right] =>
    match left with
    | .name pos name =>
      if op = "=" || op = ":=" then lowering.assignment scopes pos name (op = ":=") right
      else
        match updateOperator? op with
        | some operator => do
            let value ← lowering.expr scopes right
            return ([lowering.update scopes pos operator pos name value], scopes)
        | none => .error ⟨.assignmentOperator op, pos⟩
    | left => .error ⟨.assignedNonVariable, left.pos⟩
  | .assign op left right =>
    .error ⟨.assignedCount right.length left.length, (SourceStmt.assign op left right).pos⟩
  | .step op operand =>
    match operand with
    | .name pos name =>
      let operator : Operator := .arith (if op = "--" then .sub else .add)
      .ok ([lowering.update scopes pos operator pos name (.literal 0 1)], scopes)
    | operand => .error ⟨.stepOfNonVariable, operand.pos⟩
  | .vars pos specs => lowering.varSpecs pos scopes specs
  | .decl pos _ => .error ⟨.declarationOfOther, pos⟩
  | .expr value =>
    match value with
    | .call fn args spread => lowering.call scopes value.pos "" false fn args spread
    | value => .error ⟨.valueAsStatement, value.pos⟩
  | .branch pos init cond bodyPos body orElse => do
      let (first, inside) ← stmts scopes.enter init
      let cond ← lowering.expr inside cond
      let (yes, inside) ← stmts inside.enter body
      let (no, inside) ← stmts inside.leave orElse
      let branch := .branch (lowering.spanAt pos) cond (.block (lowering.spanAt bodyPos) yes)
        (alternative orElse no)
      return (first ++ [branch], inside.leave)
  | .loop pos init cond post bodyPos body => do
      let (first, inside) ← stmts scopes.enter init
      let cond ← (
        match cond with
        | some cond => lowering.expr inside cond
        | none => .ok (.ofBool true))
      let (rounds, inside) ← stmts inside.enter body
      if !post.isEmpty && SourceStmt.continuesAll body then throw ⟨.continueBeforePost, pos⟩
      let (last, inside) ← stmts inside.leave post
      let loop := .loop (lowering.spanAt pos) cond
        (.block (lowering.spanAt bodyPos) (rounds ++ last))
      return (first ++ [loop], inside.leave)
  | .jump pos keyword label =>
    if label.isSome then .error ⟨.labelledJump keyword, pos⟩
    else if keyword = "break" then .ok ([.brk (lowering.spanAt pos)], scopes)
    else if keyword = "continue" then .ok ([.cont (lowering.spanAt pos)], scopes)
    else .error ⟨.jump keyword, pos⟩
  | .ret pos results => do
      let _ ← results.mapM (lowering.expr scopes)
      return ([.ret (lowering.spanAt pos)], scopes)
  | .other pos kind _ => .error ⟨.statement kind, pos⟩

def stmts (scopes : Scopes) : List SourceStmt → Result
  | [] => .ok ([], scopes)
  | first :: rest => inTurn (stmt scopes first) (stmts · rest)

end

/-- The body of a function in the lowered program.  Parameters and results are declared around
it. -/
def body (params : List String) (pos : Nat) (body : List SourceStmt) :
    Except LoweringError Stmt := do
  let declare (scopes : Scopes) (name : String) := (receiver scopes name true).2
  let scopes := params.foldl declare { blocks := [[]] }
  let (body, _) ← lowering.stmts scopes.enter body
  return .block (lowering.spanAt pos) body

end Lowering

end Reachability.Source
