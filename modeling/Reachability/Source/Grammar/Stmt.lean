import Reachability.Source.Grammar.Expr

/-!
# Statements

`Grammar.next` puts the rules together.
-/

namespace Reachability.Source

open Reader

def isConstraint : SourceExpr → Bool
  | .channel .. => true
  | .binary _ left right => isConstraint left || isConstraint right
  | .unary _ op _ => op = "~"
  | .paren _ inner => isConstraint inner
  | .other _ kind _ =>
    ["ArrayType", "StructType", "FuncType", "InterfaceType", "MapType"].contains kind
  | _ => false

/-- A type parameter with its constraint, if the expression can be one.  With `forced` a constraint
may look like an ordinary expression. -/
def asTypeParam (forced : Bool) : SourceExpr → Option Param
  | .name pos name => some ⟨some (pos, name), none⟩
  | .binary "*" (.name pos name) right =>
    if forced || isConstraint right then
      some ⟨some (pos, name), some (.other right.pos "StarExpr" [right])⟩
    else none
  | .binary "|" left right =>
    match asTypeParam (forced || isConstraint right) left with
    | some ⟨name, some type⟩ => some ⟨name, some (.binary "|" type right)⟩
    | _ => none
  | .call (.name pos name) [arg] false =>
    if forced || isConstraint arg then some ⟨some (pos, name), some arg⟩ else none
  | _ => none

def assignments : List String := [
  ":=", "=", "+=", "-=", "*=", "/=", "%=", "&=", "|=", "^=", "<<=", ">>=", "&^="]

inductive Simple where
  | plain (stmt : SourceStmt)
  | ranged (left : List SourceExpr) (range : SourceExpr)

def conditionOf : SourceStmt → Option SourceExpr
  | .expr value => some value
  | _ => none

def isTypeSwitch : SourceStmt → Bool
  | .expr (.other _ "TypeAssertExpr" [_]) => true
  | .assign ":=" [_] [.other _ "TypeAssertExpr" [_]] => true
  | _ => false

def isWrongTypeSwitch : SourceStmt → Bool
  | .assign "=" [_] [.other _ "TypeAssertExpr" [_]] => true
  | _ => false

namespace Grammar

variable (inner : Grammar)

def group (item : Reader α) : Reader (List α) := do
  if ← accept "(" then
    let items ← many (return !(← sees ")")) item
    expect ")"
    semicolon
    return items
  else return [← item]

def values : Reader (List SourceExpr) := do
  if ← accept "=" then inner.exprList false else return []

def varSpec : Reader VarSpec := do
  let names ← commaList name
  let type ← (do
    if ← sees "=" then return .none else return some (← inner.type))
  let values ← inner.values
  semicolon
  return { names := names.map Prod.snd, type, values }

def constSpec : Reader (List SourceExpr) := do
  let _ ← commaList name
  let parts ← (do
    if ← seesAny [";", ")"] then return []
    else
      let type ← inner.type?
      return type.toList ++ (← inner.values))
  semicolon
  return parts

def genericRest (params : List Param) : Reader (List SourceExpr) := do
  expect "]"
  match Param.constraints params with
  | some types => do
      let _ ← accept "="
      return types ++ [← inner.type]
  | .none => failure

/-- A declared type whose name is followed by an opening bracket: an array type, or a generic
type. -/
def bracketedTypeSpec (pos : Nat) : Reader (List SourceExpr) := do
  match ← peek with
  | some (.name _) =>
    let (start, text) ← name
    let first := SourceExpr.name start text
    let value ← (do
      if ← sees "[" then return first
      else
        joined (extend (inner.suffix false) first) (inner.unaryHere false) 5)
    match asTypeParam (← sees ",") value with
    | some ⟨some first, some type⟩ =>
      generic (return ⟨some first, some (← inner.alternatives type)⟩)
    | some ⟨some first, .none⟩ =>
      if ← sees "]" then return [← inner.arrayType pos (some value)]
      else generic (inner.namedParam true first)
    | _ => return [← inner.arrayType pos (some value)]
  | _ => return [← inner.arrayType pos .none]
where
  generic (first : Reader Param) : Reader (List SourceExpr) := do
    let first ← first
    if ← accept "," then
      inner.genericRest (first :: (← listBefore "]" (inner.param true)))
    else inner.genericRest [first]

def typeSpec : Reader (List SourceExpr) := do
  let _ ← name
  let pos ← pos
  let parts ← (do
    if ← accept "[" then inner.bracketedTypeSpec pos
    else
      let _ ← accept "="
      return [← inner.type])
  semicolon
  return parts

def stmts : Reader (List SourceStmt) :=
  many (return !(← seesAny ["case", "default", "\x7d"])) inner.stmt

def block : Reader (Nat × List SourceStmt) := do
  let pos ← pos
  expect "\x7b"
  let body ← inner.stmts
  expect "\x7d"
  return (pos, body)

/-- A statement that starts with expressions.  The header of a loop may run over a range. -/
def simple (header ranging : Bool) : Reader Simple := do
  let left ← inner.exprList header
  match ← peek with
  | some (.symbol op) =>
    if assignments.contains op then
      skip
      if ranging && (op = ":=" || op = "=") && (← accept "range") then
        return .ranged left (← inner.exprHere header)
      else return .plain (.assign op left (← inner.exprList header))
    else
      match left with
      | [value] =>
        if op = "<-" then
          skip
          return .plain (.other value.pos "SendStmt" [value, ← inner.exprHere header])
        else if op = "++" || op = "--" then
          skip
          return .plain (.step op value)
        else return .plain (.expr value)
      | _ => failure
  | _ =>
    match left with
    | [value] => return .plain (.expr value)
    | _ => failure

def headerStmt : Reader SourceStmt := do
  match ← inner.simple true false with
  | .plain stmt => return stmt
  | .ranged .. => failure

def simpleOrLabelled : Reader SourceStmt := do
  match ← inner.simple false false with
  | .plain (.expr (.name pos text)) =>
    if ← accept ":" then return .other pos "LabeledStmt" (← inner.stmt).exprs
    else
      semicolon
      return .expr (.name pos text)
  | .plain stmt =>
    semicolon
    return stmt
  | .ranged .. => failure

def deferred (keyword kind : String) : Reader SourceStmt := do
  let pos ← pos
  expect keyword
  let call ← inner.exprHere false
  semicolon
  if call.isCall then return .other pos kind [call] else failure

def returnStmt : Reader SourceStmt := do
  let pos ← pos
  expect "return"
  let results ← if ← seesAny [";", "\x7d"] then pure [] else inner.exprList false
  semicolon
  return .ret pos results

def jumpStmt (keyword : String) : Reader SourceStmt := do
  let pos ← pos
  expect keyword
  let label ← (do
    match ← peek with
    | some (.name text) =>
      if keyword = "fallthrough" then return .none
      else
        skip
        return some text
    | _ => return .none)
  semicolon
  return .jump pos keyword label

def ifHeader : Reader (List SourceStmt × SourceExpr) := do
  let first ← unlessSees ";" inner.headerStmt
  if ← sees "\x7b" then
    match first with
    | [.expr cond] => return ([], cond)
    | _ => failure
  else
    expect ";"
    match ← inner.headerStmt with
    | .expr cond => return (first, cond)
    | _ => failure

def ifStmt : Reader SourceStmt := do
  let pos ← pos
  expect "if"
  let (init, cond) ← inner.ifHeader
  let (bodyPos, body) ← inner.block
  if ← accept "else" then
    if ← sees "if" then return .branch pos init cond bodyPos body [← inner.stmt]
    else
      let (elsePos, alternative) ← inner.block
      semicolon
      return .branch pos init cond bodyPos body [.block elsePos alternative]
  else
    semicolon
    return .branch pos init cond bodyPos body []

def switchHeader : Reader (List SourceStmt × List SourceStmt) := do
  if ← sees "\x7b" then return ([], [])
  let first ← unlessSees ";" inner.headerStmt
  if ← accept ";" then
    let last ← unlessSees "\x7b" inner.headerStmt
    return (first, last)
  else return ([], first)

def caseClause : Reader (List SourceExpr) := do
  let values ← if ← accept "case" then inner.exprList false else (do expect "default"; return [])
  expect ":"
  return values ++ SourceStmt.exprsAll (← inner.stmts)

def switchStmt : Reader SourceStmt := do
  let pos ← pos
  expect "switch"
  let (init, last) ← inner.switchHeader
  expect "\x7b"
  let cases ← many (seesAny ["case", "default"]) inner.caseClause
  expect "\x7d"
  semicolon
  let parts := SourceStmt.exprsAll (init ++ last) ++ cases.flatten
  if last.any isWrongTypeSwitch then failure
  else if last.any isTypeSwitch then return .other pos "TypeSwitchStmt" parts
  else if last.all fun stmt => (conditionOf stmt).isSome then return .other pos "SwitchStmt" parts
  else failure

def commClause : Reader (List SourceExpr) := do
  let comm ← (do
    if ← accept "case" then
      let left ← inner.exprList false
      if left.length = 1 && (← accept "<-") then return left ++ [← inner.exprHere false]
      else if ← seesAny ["=", ":="] then
        skip
        if left.length > 2 then failure
        return left ++ [← inner.exprHere false]
      else if left.length = 1 then return left
      else failure
    else
      expect "default"
      return [])
  expect ":"
  return comm ++ SourceStmt.exprsAll (← inner.stmts)

def selectStmt : Reader SourceStmt := do
  let pos ← pos
  expect "select"
  expect "\x7b"
  let cases ← many (seesAny ["case", "default"]) inner.commClause
  expect "\x7d"
  semicolon
  return .other pos "SelectStmt" cases.flatten

def rangeLoop (pos : Nat) (left : List SourceExpr) (range : SourceExpr) : Reader SourceStmt := do
  let (_, body) ← inner.block
  semicolon
  if left.length > 2 then failure
  return .other pos "RangeStmt" (left ++ [range] ++ SourceStmt.exprsAll body)

def loopBody (pos : Nat) (init : List SourceStmt) (cond : List SourceStmt)
    (post : List SourceStmt) : Reader SourceStmt := do
  let (bodyPos, body) ← inner.block
  semicolon
  match cond with
  | [] => return .loop pos init .none post bodyPos body
  | [.expr cond] => return .loop pos init (some cond) post bodyPos body
  | _ => failure

def forStmt : Reader SourceStmt := do
  let pos ← pos
  expect "for"
  if ← sees "\x7b" then inner.loopBody pos [] [] []
  else if ← accept "range" then
    let range ← inner.exprHere true
    inner.rangeLoop pos [] range
  else
    let first ← (do
      if ← sees ";" then return .none else return some (← inner.simple true true))
    match first with
    | some (.ranged left range) => inner.rangeLoop pos left range
    | .none => clauses pos []
    | some (.plain stmt) =>
      if ← sees ";" then clauses pos [stmt] else inner.loopBody pos [] [stmt] []
where
  clauses (pos : Nat) (init : List SourceStmt) : Reader SourceStmt := do
    expect ";"
    let cond ← unlessSees ";" inner.headerStmt
    expect ";"
    let post ← unlessSees "\x7b" inner.headerStmt
    inner.loopBody pos init cond post

def declStmt (keyword : String) : Reader SourceStmt := do
  let pos ← pos
  expect keyword
  match keyword with
  | "var" => return .vars pos (← group inner.varSpec)
  | "const" => return .decl pos (← group inner.constSpec).flatten
  | _ => return .decl pos (← group inner.typeSpec).flatten

def startsExpr : List String := [
  "func", "(", "[", "struct", "map", "chan", "interface", "+", "-", "*", "&", "^", "<-", "!"]

def stmtHere : Reader SourceStmt := do
  match ← peek with
  | .none => failure
  | some (.name _) | some (.literal _ _) => inner.simpleOrLabelled
  | some (.symbol text) =>
    match text with
    | "const" | "type" | "var" => inner.declStmt text
    | "go" => inner.deferred "go" "GoStmt"
    | "defer" => inner.deferred "defer" "DeferStmt"
    | "return" => inner.returnStmt
    | "break" | "continue" | "goto" | "fallthrough" => jumpStmt text
    | "\x7b" =>
      let (pos, body) ← inner.block
      semicolon
      return .block pos body
    | "if" => inner.ifStmt
    | "switch" => inner.switchStmt
    | "select" => inner.selectStmt
    | "for" => inner.forStmt
    | ";" =>
      skip
      return .empty
    | "\x7d" => return .empty
    | _ => if startsExpr.contains text then inner.simpleOrLabelled else failure

def next : Grammar :=
  { expr := inner.exprHere
    unary := inner.unaryHere
    type? := inner.typeHere?
    elements := inner.elementsHere
    stmt := inner.stmtHere }

end Grammar

end Reachability.Source
