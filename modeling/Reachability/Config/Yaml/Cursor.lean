/-!
# Places in a YAML text

The rest of a text with the line and the column of its first character, which
decide how the parts of a document are nested.
-/

namespace Reachability.Yaml

def isBreak (char : Char) : Bool :=
  char = '\n' || char = '\r' || char = '\x85' || char = '\u2028' || char = '\u2029'

def isBlank (char : Char) : Bool := char = ' ' || char = '\t'

structure Cursor where
  rest : List Char
  index : Nat := 0
  line : Nat := 0
  column : Nat := 0
deriving Repr

namespace Cursor

def char? (cursor : Cursor) (distance : Nat) : Option Char := cursor.rest[distance]?

def atEnd (cursor : Cursor) : Bool := cursor.rest.isEmpty

def sees (cursor : Cursor) (distance : Nat) (test : Char → Bool) : Bool :=
  ((cursor.char? distance).map test).getD false

def endsWord (cursor : Cursor) (distance : Nat) : Bool :=
  ((cursor.char? distance).map fun char => isBlank char || isBreak char).getD true

def endsLine (cursor : Cursor) : Bool := (cursor.rest.head?.map isBreak).getD true

def skip (cursor : Cursor) (count : Nat) : Cursor :=
  { cursor with
    rest := cursor.rest.drop count
    index := cursor.index + count
    column := cursor.column + count }

def takeWhile (cursor : Cursor) (test : Char → Bool) : List Char × Cursor :=
  let taken := cursor.rest.takeWhile test
  (taken, cursor.skip taken.length)

def takeBreak (cursor : Cursor) : List Char × Cursor :=
  let next (count : Nat) : Cursor :=
    { rest := cursor.rest.drop count, index := cursor.index + count, line := cursor.line + 1 }
  match cursor.rest with
  | '\r' :: '\n' :: _ => (['\n'], next 2)
  | char :: _ =>
    if char = '\u2028' || char = '\u2029' then ([char], next 1)
    else if isBreak char then (['\n'], next 1)
    else ([], cursor)
  | [] => ([], cursor)

def atMarker (cursor : Cursor) : Bool :=
  cursor.column = 0
    && (['-', '-', '-'].isPrefixOf cursor.rest || ['.', '.', '.'].isPrefixOf cursor.rest)
    && cursor.endsWord 3

end Cursor

end Reachability.Yaml
