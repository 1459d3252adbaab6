import Reachability.Source.Grammar.Type

/-!
# Expressions

Types are expressions too, since only their use tells them apart.
-/

namespace Reachability.Source

open Reader

/-- The precedence of a binary operator, from one for the loosest to five; zero for other
symbols. -/
def precedence (op : String) : Nat :=
  if op = "||" then 1
  else if op = "&&" then 2
  else if ["==", "!=", "<", "<=", ">", ">="].contains op then 3
  else if ["+", "-", "|", "^"].contains op then 4
  else if ["*", "/", "%", "<<", ">>", "&", "&^"].contains op then 5
  else 0

/-- Whether a type can stand before the elements of a composite value.  In a header the brace behind
a name starts the body instead. -/
def startsComposite (header : Bool) : SourceExpr → Bool
  | .name _ _ => !header
  | .other _ kind _ =>
    if ["SelectorExpr", "IndexExpr", "IndexListExpr"].contains kind then !header
    else ["ArrayType", "StructType", "MapType"].contains kind
  | _ => false

/-- An arrow in front of a channel type belongs to the first channel, whose own arrow passes on to
the channels that it carries. -/
def receiving (pos : Nat) : SourceExpr → Option SourceExpr
  | .channel _ .both value => some (.channel pos .receive value)
  | .channel _ .send value =>
    (receiving value.pos value).map fun value => .channel pos .receive value
  | _ => none

namespace Grammar

variable (inner : Grammar)

def element : Reader SourceExpr := do
  let key ← value
  if ← accept ":" then return .other key.pos "KeyValueExpr" [key, ← value] else return key
where
  value : Reader SourceExpr := do
    if ← sees "\x7b" then
      let pos ← pos
      return .other pos "CompositeLit" (← inner.elements)
    else inner.bracketed

def elementsHere : Reader (List SourceExpr) := do
  expect "\x7b"
  let elements ← listBefore "\x7d" inner.element
  expect "\x7d"
  return elements

def functionOrType : Reader SourceExpr := do
  let pos ← pos
  let type ← inner.functionType
  if ← accept "\x7b" then
    let body ← many (return !(← seesAny ["case", "default", "\x7d"])) inner.stmt
    expect "\x7d"
    return .other pos "FuncLit" (type :: SourceStmt.exprsAll body)
  else return type

def operand : Reader SourceExpr := do
  let pos ← pos
  match ← peek with
  | some (.name text) => do
      skip
      return .name pos text
  | some (.literal kind text) => do
      skip
      return .literal pos kind text
  | some (.symbol "(") => do
      skip
      let inside ← inner.bracketed
      expect ")"
      return .paren pos inside
  | some (.symbol "func") => inner.functionOrType
  | _ => required inner.typeHere?

def arguments : Reader (List SourceExpr × Bool) := do
  expect "("
  let args ← listBefore ")" (do
    let arg ← inner.bracketed
    let spread ← accept "..."
    return (arg, spread))
  expect ")"
  if args.dropLast.any Prod.snd then failure
  return (args.map Prod.fst, (args.getLast?.map Prod.snd).getD false)

/-- The parts of a slice behind its first part: there are one or two colons, and with two of them
the parts after both are there. -/
def sliceParts : Reader (List SourceExpr) := do
  expect ":"
  if ← accept ":" then failure
  let second ← unlessSees "]" inner.bracketed
  if ← accept ":" then
    if second.isEmpty then failure
    return second ++ [← inner.bracketed]
  else return second

def subscript (base : SourceExpr) : Reader SourceExpr := do
  expect "["
  let result ← (do
    if ← sees ":" then return .other base.pos "SliceExpr" (base :: (← inner.sliceParts))
    else
      let index ← inner.bracketed
      if ← sees ":" then return .other base.pos "SliceExpr" (base :: index :: (← inner.sliceParts))
      else if ← accept "," then
        return instanceOf base (index :: (← listBefore "]" inner.type))
      else return instanceOf base [index])
  expect "]"
  return result

/-- A selected field, or an assertion of a type.  The type that a switch asks for is written as a
keyword. -/
def selection (base : SourceExpr) : Reader SourceExpr := do
  expect "."
  if ← accept "(" then
    let type ← (do
      if ← accept "type" then return [] else return [← inner.type])
    expect ")"
    return .other base.pos "TypeAssertExpr" (base :: type)
  else
    let _ ← name
    return .other base.pos "SelectorExpr" [base]

def suffix (header : Bool) (base : SourceExpr) : Reader (Option SourceExpr) := do
  match ← peek with
  | some (.symbol ".") => return some (← inner.selection base)
  | some (.symbol "[") => return some (← inner.subscript base)
  | some (.symbol "(") => do
      let (args, spread) ← inner.arguments
      return some (.call base args spread)
  | some (.symbol "\x7b") =>
    if startsComposite header base then
      return some (.other base.pos "CompositeLit" (base :: (← inner.elementsHere)))
    else if startsComposite header base.unparenthesized then failure
    else return .none
  | _ => return .none

def primary (header : Bool) : Reader SourceExpr := do
  extend (inner.suffix header) (← inner.operand)

def unaryHere (header : Bool) : Reader SourceExpr := do
  let pos ← pos
  match ← peek with
  | some (.symbol "*") => do
      skip
      return .other pos "StarExpr" [← inner.unary header]
  | some (.symbol "<-") => do
      skip
      let operand ← inner.unary header
      match operand with
      | .channel .. =>
        match receiving pos operand with
        | some type => return type
        | .none => failure
      | operand => return .unary pos "<-" operand
  | some (.symbol op) =>
    if ["+", "-", "!", "^", "&", "~"].contains op then
      skip
      return .unary pos op (← inner.unary header)
    else inner.primary header
  | _ => inner.primary header

end Grammar

/-- Operands joined by binary operators of the tightest `levels` precedences, from left to right.
The first operand has a reader of its own. -/
def joined (first operand : Reader SourceExpr) : Nat → Reader SourceExpr
  | 0 => first
  | levels + 1 => do
      let left ← joined first operand levels
      extend (fun left => do
        match ← peek with
        | some (.symbol op) =>
          if precedence op = 5 - levels then
            skip
            return some (.binary op left (← joined operand operand levels))
          else return none
        | _ => return none) left

namespace Grammar

variable (inner : Grammar)

def exprHere (header : Bool) : Reader SourceExpr :=
  joined (inner.unaryHere header) (inner.unaryHere header) 5

def exprList (header : Bool) : Reader (List SourceExpr) := commaList (inner.exprHere header)

end Grammar

end Reachability.Source
