import Reachability.Source.Grammar.Stmt
import Reachability.Source.Lexeme

/-!
# Source files

`SourceFile.ofText?` reads the functions that a source text declares.  There
is no result if the text does not follow the grammar.
-/

namespace Reachability.Source

open Reader

namespace Grammar

variable (inner : Grammar)

def importSpec : Reader Unit := do
  match ← peek with
  | some (.name _) | some (.symbol ".") => skip
  | _ => pure ()
  match ← peek with
  | some (.literal .string _) =>
    skip
    semicolon
  | _ => failure

def function : Reader FunctionDecl := do
  let pos ← pos
  expect "func"
  let receiver ← (do
    if ← sees "(" then return some (← inner.params) else return .none)
  let (_, called) ← name
  let typeParams ← inner.typeParams
  if receiver.isSome && typeParams.isSome then failure
  let (params, types) ← inner.signature
  let body ← (do
    if ← sees "\x7b" then
      let body ← inner.block
      semicolon
      return some body
    else
      semicolon
      if ← sees "\x7b" then failure else return .none)
  return {
    pos, name := called, receiver := receiver.map Prod.fst, params
    types := (receiver.map Prod.snd).getD [] ++ typeParams.getD [] ++ types
    body }

def fileDecl : Reader (Option FunctionDecl) := do
  match ← peek with
  | some (.symbol "func") => return some (← inner.function)
  | some (.symbol "const") | some (.symbol "var") | some (.symbol "type") =>
    let _ ← inner.stmt
    return .none
  | _ => failure

def file : Reader (List FunctionDecl) := do
  expect "package"
  let _ ← name
  expect ";"
  let _ ← many (sees "import") (do skip; group importSpec)
  let decls ← many (return (← peek).isSome) inner.fileDecl
  return decls.filterMap id

end Grammar

structure SourceFile where
  name : String
  text : String
  lexemes : List Lexeme
  functions : List FunctionDecl

/-- Read a source text.  Its parts cannot be nested deeper than it has words. -/
def SourceFile.ofText? (name text : String) : Option SourceFile := do
  let lexemes ← Source.lexemes text
  let words := Lexeme.words false lexemes
  let grammar := Grammar.deep Grammar.next (words.length + 1)
  let (functions, _) ← grammar.file words
  return { name, text, lexemes, functions }

end Reachability.Source
