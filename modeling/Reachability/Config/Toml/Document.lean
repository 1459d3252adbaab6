import Reachability.Config.Toml.Value

/-!
# TOML documents

`Document.tables` collects headers and entries into tables and refuses keys that
are defined twice, unless the first definition was implicit or an array.
-/

namespace Reachability.Toml

open Text.CharReader
open Text (CharReader)

inductive Line where
  | header (name : Key)
  | arrayHeader (name : Key)
  | entry (name : Key) (value : Value)

def lineEnd : CharReader Unit := do
  blanks
  if ← comment then return ()
  else if ← seesChar isLineEnd then drop 1
  else if ← atEnd then return ()
  else failure

def line (depth : Nat) : CharReader (Option Line) := do
  filling
  if ← atEnd then return none
  else if ← accept "[[" then
    let name ← key
    expect "]]"
    lineEnd
    return some (.arrayHeader name)
  else if ← accept "[" then
    let name ← key
    expect "]"
    lineEnd
    return some (.header name)
  else
    let name ← key
    expect "="
    let value ← value depth
    lineEnd
    return some (.entry name value)

def lines (text : String) : Option (List Line) :=
  (many (line (text.length + 1))).readAll text

inductive Node where
  | value (value : Value)
  | table (entries : List (String × Node))
  | tables (tables : List (List (String × Node)))
deriving Inhabited

abbrev Table := List (String × Node)

def Table.put (table : Table) (name : String) (node : Node) : Table :=
  if table.any fun entry => entry.1 == name then
    table.map fun entry => if entry.1 == name then (name, node) else entry
  else table ++ [(name, node)]

/-- Change the table at a key; of several tables in an array the last one is meant. -/
def Table.modifyAt (change : Table → Option Table) : Key → Table → Option Table
  | [], table => change table
  | name :: rest, table => do
      match ← table.lookup name with
      | .table inner => return Table.put table name (.table (← modifyAt change rest inner))
      | .tables inner =>
        let last ← inner.getLast?
        return Table.put table name (.tables (inner.dropLast ++ [← modifyAt change rest last]))
      | .value _ => none

/-- The tables so far, the keys of tables only named on the way to something else, and the keys
whose last value was an array. -/
structure Document where
  root : Table := []
  implicit : List Key := []
  arrays : List Key := []

namespace Document

def define (document : Document) (context : Key) (name : String) (node : Node) :
    Option Document := do
  let path := context ++ [name]
  let isArray := document.arrays.contains path
  let isImplicit := document.implicit.contains path
  let insert (table : Table) : Option Table :=
    if (table.lookup name).isNone || isArray then some (Table.put table name node)
    else if isImplicit then some table
    else none
  let known (table : Table) : Option Table :=
    if (table.lookup name).isSome then some table else none
  let exists? := (Table.modifyAt known context document.root).isSome
  let root ← Table.modifyAt insert context document.root
  return { document with
    root
    implicit := if exists? then document.implicit.filter (· != path) else document.implicit }

def nameImplicitly (document : Document) (path : Key) : Document :=
  { document with implicit := path :: document.implicit.filter (· != path) }

def noteArray (document : Document) (path : Key) (isArray : Bool) : Document :=
  let others := document.arrays.filter (· != path)
  { document with arrays := if isArray then path :: others else others }

def openOuter (document : Document) (context : Key) : Key → Option Document
  | [] | [_] => some document
  | name :: rest => do
      let path := context ++ [name]
      let missing (table : Table) : Option Table :=
        if (table.lookup name).isNone then some table else none
      if (Table.modifyAt missing context document.root).isSome then
        let root ← Table.modifyAt (fun table => some (Table.put table name (.table []))) context
          document.root
        openOuter ({ document with root }.nameImplicitly path) path rest
      else
        let _ ← Table.modifyAt some path document.root
        openOuter document path rest

def openTable (document : Document) (path : Key) : Option Document := do
  let document ← document.openOuter [] path
  document.define path.dropLast (path.getLast?.getD "") (.table [])

def openArrayTable (document : Document) (path : Key) : Option Document := do
  let document ← document.openOuter [] path
  let name := path.getLast?.getD ""
  let append (table : Table) : Option Table :=
    match table.lookup name with
    | none => some (Table.put table name (.tables [[]]))
    | some (.tables tables) => some (Table.put table name (.tables (tables ++ [[]])))
    | some _ => none
  return { document with root := ← Table.modifyAt append path.dropLast document.root }

def openDotted (document : Document) (context : Key) : Key → Option (Document × Key)
  | [] | [_] => some (document, context)
  | name :: rest => do
      let path := context ++ [name]
      let document ← (document.nameImplicitly path).openTable path
      openDotted document path rest

def defineInside (inArray : Bool) (path : Key) :
    Nat → Document → Value → Option Document
  | 0, _, _ => none
  | depth + 1, document, value =>
    match value with
    | .array items =>
      items.foldlM (fun document item => defineInside true path depth document item)
        (document.noteArray path true)
    | .table entries => do
        let document := document.nameImplicitly path
        let document ← if inArray then document.openArrayTable path else document.openTable path
        entries.foldlM (fun document (name, value) => do
          let (document, context) ← document.openDotted path name
          let last := name.getLast?.getD ""
          let document ← defineInside false (context ++ [last]) depth document value
          let document ← document.define context last (.value value)
          return document.noteArray (context ++ [last]) (isArray value)) document
    | _ => some document
where
  isArray : Value → Bool
    | .array _ => true
    | _ => false

def addEntry (document : Document) (depth : Nat) (context name : Key) (value : Value) :
    Option Document := do
  let (document, context) ← document.openDotted context name
  let last := name.getLast?.getD ""
  let document ← defineInside false (context ++ [last]) depth document value
  let document ← document.define context last (.value value)
  return document.noteArray (context ++ [last]) (defineInside.isArray value)

/-- Add lines to a document; `context` is the key of the last header. -/
def addLines (depth : Nat) (document : Document) (context : Key) : List Line → Option Document
  | [] => some document
  | .header name :: rest => do
      let document ← document.openTable name
      addLines depth (document.noteArray name false) name rest
  | .arrayHeader name :: rest => do
      let document ← document.openArrayTable name
      addLines depth (document.noteArray name false) name rest
  | .entry name value :: rest => do
      addLines depth (← document.addEntry depth context name value) context rest

end Document

def tables (text : String) : Option Table := do
  let document ← Document.addLines (text.length + 1) {} [] (← lines text)
  return document.root

end Reachability.Toml
