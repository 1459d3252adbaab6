import Reachability.Source.Token
import Reachability.Text.Blank

/-!
# Places and labels

A place is shown as its line and its column, which counts bytes.  A comment of
the form `// label: name` before a statement labels the control point there.
-/

namespace Reachability.Source

def lineColumn : Nat → Nat → Nat → List Char → Nat × Nat
  | line, column, _, [] => (line, column)
  | line, column, bytes, char :: rest =>
    if bytes < char.utf8Size then (line, column + bytes)
    else if char = '\n' then lineColumn (line + 1) 1 (bytes - 1) rest
    else lineColumn line (column + char.utf8Size) (bytes - char.utf8Size) rest

def placeText (text : String) (pos : Nat) : String :=
  if pos = 0 then "-"
  else
    let (line, column) := lineColumn 1 1 (pos - 1) text.toList
    toString line ++ ":" ++ toString column

private def isLabelBlank (char : Char) : Bool :=
  char = ' ' || char = '\t' || char = '\n' || char = '\x0c' || char = '\r'

def labelOf? (comment : String) : Option String :=
  let chars := Text.trimBlanks (comment.toList.filter (· ≠ '\r'))
  if "//".toList.isPrefixOf chars then
    let text := (chars.drop 2).dropWhile isLabelBlank
    if "label:".toList.isPrefixOf text then
      let text := (text.drop 6).dropWhile isLabelBlank
      let name := text.takeWhile fun char => char.isAlphanum || char = '_'
      if name.isEmpty || (name.head?.map Char.isDigit).getD false
          || !(text.drop name.length).all isLabelBlank then none
      else some (String.ofList name)
    else none
  else none

/-- What stands between two words: the comments, the ends of lines, and lines without any
character. -/
inductive Gap where
  | comment (text : String)
  | lineEnd
  | emptyLine
deriving DecidableEq, Repr

/-- A comment on the line of the word before it belongs to that word, and so does one with an empty
line behind it only. -/
def belongsBehind (before after : List Gap) : Bool :=
  before.contains .lineEnd && (!after.contains .emptyLine || before.contains .emptyLine)

/-- The label that the comments in a gap give to the word behind it: the last one counts. -/
def gapLabel? : List Gap → List Gap → Option String
  | _, [] => none
  | before, item :: after =>
    let later := gapLabel? (before ++ [item]) after
    match item with
    | .comment text =>
      if later.isNone && belongsBehind before after then labelOf? text else later
    | _ => later

/-- `gap` is what has been seen since the last word, and `last` is the place of the last end of a
line. -/
def labelsFrom (gap : List Gap) (last : Option Nat) : List Lexeme → List (Nat × String)
  | [] => []
  | .word found :: rest =>
    let labels := labelsFrom [] none rest
    match gapLabel? [] gap with
    | some label => (found.pos, label) :: labels
    | none => labels
  | .comment _ text :: rest => labelsFrom (gap ++ [.comment text]) none rest
  | .lineEnd pos :: rest =>
    let ends := if last = some (pos - 1) then [Gap.lineEnd, .emptyLine] else [.lineEnd]
    labelsFrom (gap ++ ends) (some pos) rest

def labels (lexemes : List Lexeme) : List (Nat × String) := labelsFrom [] none lexemes

end Reachability.Source
