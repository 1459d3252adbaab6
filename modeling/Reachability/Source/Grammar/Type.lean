import Reachability.Source.Grammar.Basic

/-!
# Types

Types, the parameters of functions and the constraints of interfaces.
-/

namespace Reachability.Source

open Reader

structure Param where
  name : Option (Nat × String)
  type : Option SourceExpr

namespace Param

/-- Either no parameter has both a name and a type, and then what looks like a name is a type; or
all have names, and the last one has a type. -/
def collect (params : List Param) : Option (List String × List SourceExpr) :=
  if params.any fun param => param.name.isSome && param.type.isSome then
    if (params.all fun param => param.name.isSome)
        && ((params.getLast?.bind Param.type).isSome) then
      some (params.filterMap fun param => param.name.map Prod.snd, params.filterMap Param.type)
    else none
  else
    some ([], params.filterMap fun param =>
      match param.name with
      | some (pos, name) => some (.name pos name)
      | none => param.type)

def constraints (params : List Param) : Option (List SourceExpr) :=
  (collect params).bind fun (names, types) => if names.isEmpty then none else some types

end Param

def instanceOf (base : SourceExpr) (args : List SourceExpr) : SourceExpr :=
  .other base.pos (if args.length = 1 then "IndexExpr" else "IndexListExpr") (base :: args)

def qualifiedName (first : Nat × String) : Reader SourceExpr := do
  if ← accept "." then
    let _ ← name
    return .other first.1 "SelectorExpr" [.name first.1 first.2]
  else return .name first.1 first.2

namespace Grammar

variable (inner : Grammar)

def typeArgs (base : SourceExpr) : Reader SourceExpr := do
  if ← accept "[" then
    let args ← listBefore "]" inner.type
    expect "]"
    if args.isEmpty then failure else return instanceOf base args
  else return base

def namedType (first : Nat × String) : Reader SourceExpr := do
  inner.typeArgs (← qualifiedName first)

def arrayType (pos : Nat) (length : Option SourceExpr) : Reader SourceExpr := do
  let length ← (
    match length with
    | some length => return [length]
    | .none => do
        if ← accept "..." then return [] else unlessSees "]" inner.bracketed)
  expect "]"
  return .other pos "ArrayType" (length ++ [← inner.type])

/-- What follows a name before an opening bracket: the type of an array, or the arguments of a
generic type of that name. -/
def arrayOrInstance (first : Nat × String) : Reader Param := do
  let pos ← pos
  expect "["
  let args ← if ← sees "]" then pure [] else commaListTrailing
  let trailing ← accept ","
  expect "]"
  match args with
  | [] => return ⟨first, some (.other pos "ArrayType" [← inner.type])⟩
  | [length] =>
    match ← inner.type? with
    | some element =>
      if trailing then failure
      else return ⟨first, some (.other pos "ArrayType" [length, element])⟩
    | .none => return ⟨.none, some (instanceOf (.name first.1 first.2) args)⟩
  | args => return ⟨.none, some (instanceOf (.name first.1 first.2) args)⟩
where
  commaListTrailing : Reader (List SourceExpr) := do
    let first ← inner.bracketed
    let more ← many continues (do skip; inner.bracketed)
    return first :: more
  continues : Reader Bool := fun words =>
    match words with
    | ⟨_, .symbol ","⟩ :: ⟨_, .symbol "]"⟩ :: _ => some (false, words)
    | ⟨_, .symbol ","⟩ :: _ => some (true, words)
    | _ => some (false, words)

def term : Reader SourceExpr := do
  let pos ← pos
  if ← accept "~" then return .unary pos "~" (← inner.type) else inner.type

def alternatives (first : SourceExpr) : Reader SourceExpr :=
  extend (fun left => do
    if ← accept "|" then return some (.binary "|" left (← inner.term)) else return .none) first

def constraint : Reader SourceExpr := do
  inner.alternatives (← inner.term)

def variadic : Reader SourceExpr := do
  let pos ← pos
  expect "..."
  return .other pos "Ellipsis" [← inner.type]

/-- A parameter whose name has been read.  In lists of type parameters a constraint stands for the
type. -/
def namedParam (constrained : Bool) (first : Nat × String) : Reader Param := do
  if ← sees "..." then return ⟨first, some (← inner.variadic)⟩
  else if constrained && (← sees "~") then return ⟨first, some (← inner.constraint)⟩
  else if constrained && (← sees "|") then
    return ⟨.none, some (← inner.alternatives (.name first.1 first.2))⟩
  else
    let param ← (do
      if ← sees "[" then inner.arrayOrInstance first
      else if ← sees "." then return ⟨.none, some (← inner.namedType first)⟩
      else return ⟨first, ← inner.type?⟩)
    match param.type with
    | some type =>
      if constrained then return { param with type := some (← inner.alternatives type) }
      else return param
    | .none => return param

def param (constrained : Bool) : Reader Param := do
  match ← peek with
  | some (.name _) => inner.namedParam constrained (← name)
  | some (.symbol "...") => return ⟨.none, some (← inner.variadic)⟩
  | some (.symbol "~") =>
    if constrained then return ⟨.none, some (← inner.constraint)⟩ else failure
  | _ =>
    let type ← inner.type
    return ⟨.none, some (← if constrained then inner.alternatives type else pure type)⟩

def params : Reader (List String × List SourceExpr) := do
  expect "("
  let params ← listBefore ")" (inner.param false)
  expect ")"
  match Param.collect params with
  | some collected => return collected
  | .none => failure

def typeParams : Reader (Option (List SourceExpr)) := do
  if ← accept "[" then
    let params ← listBefore "]" (inner.param true)
    expect "]"
    match Param.constraints params with
    | some types => return some types
    | .none => failure
  else return .none

def signature : Reader (List String × List SourceExpr) := do
  let (names, types) ← inner.params
  if ← sees "(" then
    let (results, resultTypes) ← inner.params
    return (names ++ results, types ++ resultTypes)
  else return (names, types ++ (← inner.type?).toList)

def functionType : Reader SourceExpr := do
  let pos ← pos
  expect "func"
  let (_, types) ← inner.signature
  return .other pos "FuncType" types

def field : Reader SourceExpr := do
  let pos ← pos
  let type ← (do
    if ← accept "*" then return .other pos "StarExpr" [← inner.namedType (← name)]
    else
      let first ← name
      match ← peek with
      | some (.literal .string _) => return .name first.1 first.2
      | some (.symbol ".") => inner.namedType first
      | some (.symbol ";") | some (.symbol "\x7d") => return .name first.1 first.2
      | some (.symbol "[") => required (return (← inner.arrayOrInstance first).type)
      | _ =>
        let _ ← many (sees ",") (do skip; name)
        inner.type)
  if let some (.literal .string _) ← peek then skip
  semicolon
  return type

def structType : Reader SourceExpr := do
  let pos ← pos
  expect "struct"
  expect "\x7b"
  let startsField : Reader Bool := do
    match ← peek with
    | some (.name _) | some (.symbol "*") => return true
    | _ => return false
  let types ← many startsField inner.field
  expect "\x7d"
  return .other pos "StructType" types

def namedElement : Reader SourceExpr := do
  let first ← name
  if ← sees "(" then
    let (_, types) ← inner.signature
    return .other first.1 "FuncType" types
  else if ← accept "[" then
    let arg ← inner.bracketed
    let more ← (do
      if ← accept "," then listBefore "]" inner.type else pure [])
    expect "]"
    inner.alternatives (instanceOf (.name first.1 first.2) (arg :: more))
  else inner.alternatives (← inner.namedType first)

def interfaceType : Reader SourceExpr := do
  let pos ← pos
  expect "interface"
  expect "\x7b"
  let element : Reader SourceExpr := do
    let type ← (do
      match ← peek with
      | some (.name _) => inner.namedElement
      | _ => inner.constraint)
    semicolon
    return type
  let types ← many (return !(← sees "\x7d")) element
  expect "\x7d"
  return .other pos "InterfaceType" types

def mapType : Reader SourceExpr := do
  let pos ← pos
  expect "map"
  expect "["
  let key ← inner.type
  expect "]"
  return .other pos "MapType" [key, ← inner.type]

def channelType : Reader SourceExpr := do
  let pos ← pos
  if ← accept "<-" then
    expect "chan"
    return .channel pos .receive (← inner.type)
  else
    expect "chan"
    let direction := if ← accept "<-" then Direction.send else .both
    return .channel pos direction (← inner.type)

def typeHere? : Reader (Option SourceExpr) := do
  let pos ← pos
  match ← peek with
  | some (.name _) => return some (← inner.namedType (← name))
  | some (.symbol "[") => do
      skip
      return some (← inner.arrayType pos .none)
  | some (.symbol "struct") => return some (← inner.structType)
  | some (.symbol "*") => do
      skip
      return some (.other pos "StarExpr" [← inner.type])
  | some (.symbol "func") => return some (← inner.functionType)
  | some (.symbol "interface") => return some (← inner.interfaceType)
  | some (.symbol "map") => return some (← inner.mapType)
  | some (.symbol "chan") | some (.symbol "<-") => return some (← inner.channelType)
  | some (.symbol "(") => do
      skip
      let type ← inner.type
      expect ")"
      return some (.paren pos type)
  | _ => return .none

end Grammar

end Reachability.Source
