import Reachability.Config.Yaml.Cursor
import Reachability.Text.Digits

/-!
# Scalars of YAML

Line breaks inside a scalar are folded: a single one becomes a blank, and of
several all but the first one are kept.
-/

namespace Reachability.Yaml

/-- What separates two words of a scalar: blanks on one line, or line breaks, the first one
apart. -/
inductive Separator where
  | blanks (chars : List Char)
  | breaks (first more : List Char)

def Separator.folded : Separator → List Char
  | blanks chars => chars
  | breaks first more =>
    if first.head? = some '\n' then if more.isEmpty then [' '] else more else first ++ more

def Separator.hasBreak : Separator → Bool
  | breaks .. => true
  | blanks _ => false

/-- Extend a separator by the blanks and line breaks at a place.  Tabs in front of the given column
of a later line are refused. -/
def takeSeparator (column : Nat) : Nat → Separator → Cursor → Option (Separator × Cursor)
  | 0, _, _ => none
  | fuel + 1, separator, cursor =>
    match cursor.rest with
    | [] => some (separator, cursor)
    | char :: _ =>
      if isBlank char then
        match separator with
        | .blanks chars => takeSeparator column fuel (.blanks (chars ++ [char])) (cursor.skip 1)
        | .breaks .. =>
          if char = '\t' && cursor.column < column then none
          else takeSeparator column fuel separator (cursor.skip 1)
      else if isBreak char then
        let (found, cursor) := cursor.takeBreak
        match separator with
        | .blanks _ => takeSeparator column fuel (.breaks found []) cursor
        | .breaks first more => takeSeparator column fuel (.breaks first (more ++ found)) cursor
      else some (separator, cursor)

/-! ## Plain scalars -/

def plainWordLength (bracketed : Bool) : List Char → Nat
  | [] => 0
  | char :: rest =>
    if isBlank char || isBreak char then 0
    else if char = ':' &&
        ((rest.head?.map fun next => isBlank next || isBreak next).getD true) then 0
    else if bracketed && [',', '?', '[', ']', '\x7b', '\x7d'].contains char then 0
    else 1 + plainWordLength bracketed rest

/-- The words of a plain scalar, and whether a line break follows it.  Unless it is bracketed, the
later lines start behind the column. -/
def plainScalar (bracketed : Bool) (column : Nat) :
    Nat → List Char → Separator → Cursor → Option (List Char × Bool × Cursor)
  | 0, _, _, _ => none
  | fuel + 1, text, separator, cursor =>
    if cursor.atMarker || cursor.sees 0 (· = '#') then some (text, separator.hasBreak, cursor)
    else
      let length := plainWordLength bracketed cursor.rest
      let text := if length = 0 then text else text ++ separator.folded ++ cursor.rest.take length
      let separator := if length = 0 then separator else .blanks []
      let cursor := cursor.skip length
      if cursor.sees 0 fun char => isBlank char || isBreak char then do
        let (separator, cursor) ←
          takeSeparator column (cursor.rest.length + 1) separator cursor
        if !bracketed && cursor.column < column then some (text, separator.hasBreak, cursor)
        else plainScalar bracketed column fuel text separator cursor
      else some (text, separator.hasBreak, cursor)

/-! ## Quoted scalars -/

def escapes : List (Char × Char) := [
  ('0', '\x00'), ('a', '\x07'), ('b', '\x08'), ('t', '\t'), ('\t', '\t'), ('n', '\n'),
  ('v', '\x0b'), ('f', '\x0c'), ('r', '\r'), ('e', '\x1b'), (' ', ' '), ('"', '"'), ('\'', '\''),
  ('\\', '\\'), ('/', '/'), ('N', '\x85'), ('_', '\xa0'), ('L', '\u2028'), ('P', '\u2029')]

def escaped (chars : List Char) : Option (Char × Nat) := do
  let mark ← chars.head?
  match [('x', 2), ('u', 4), ('U', 8)].lookup mark with
  | some count =>
    let digits := (chars.drop 1).take count
    if digits.length < count || digits.contains '_' then none
    else
      let value ← Text.Digits.value? 16 0 digits
      if value.isValidChar then some (Char.ofNat value, count + 1) else none
  | none => return (← escapes.lookup mark, 1)

/-- The text up to the next blank, line break or closing quote.  A backslash at the end of a line
takes the line break away. -/
def quotedWord (quote : Char) : Nat → List Char → Cursor → Option (List Char × Bool × Cursor)
  | 0, _, _ => none
  | fuel + 1, text, cursor =>
    match cursor.rest with
    | [] => some (text, false, cursor)
    | char :: rest =>
      if isBlank char || isBreak char then some (text, false, cursor)
      else if char = quote then
        if quote = '\'' && rest.head? = some '\'' then
          quotedWord quote fuel (text ++ ['\'']) (cursor.skip 2)
        else some (text, false, cursor)
      else if quote = '"' && char = '\\' then
        if (rest.head?.map isBreak).getD false then
          some (text, true, (cursor.skip 1).takeBreak.2)
        else do
          let (meant, length) ← escaped rest
          quotedWord quote fuel (text ++ [meant]) (cursor.skip (length + 1))
      else quotedWord quote fuel (text ++ [char]) (cursor.skip 1)

def quotedScalar (quote : Char) : Nat → List Char → Cursor → Option (List Char × Cursor)
  | 0, _, _ => none
  | fuel + 1, text, cursor =>
    if cursor.atMarker || cursor.atEnd then none
    else do
      let (text, joined, cursor) ← quotedWord quote (cursor.rest.length + 1) text cursor
      if cursor.sees 0 (· = quote) then some (text, cursor.skip 1)
      else
        let start := if joined then Separator.breaks [] [] else .blanks []
        let (separator, cursor) ← takeSeparator 0 (cursor.rest.length + 1) start cursor
        quotedScalar quote fuel (text ++ separator.folded) cursor

/-! ## Block scalars -/

/-- What happens to the line breaks at the end of a block scalar. -/
inductive Chomping where
  | strip | clip | keep
deriving DecidableEq

/-- Skip empty lines and the indentation of the next line, which is found out if it is zero: it is
the largest one seen, and at least `least`. -/
def blockBreaks (indent least : Nat) :
    Nat → Nat → List Char → Cursor → Option (Nat × List Char × Cursor)
  | 0, _, _, _ => none
  | fuel + 1, widest, breaks, cursor =>
    let within (cursor : Cursor) : Bool := indent = 0 || cursor.column < indent
    let blanks := (cursor.rest.takeWhile (· = ' ')).length
    let cursor := cursor.skip (if indent = 0 then blanks else min blanks (indent - cursor.column))
    let widest := max widest cursor.column
    if within cursor && cursor.sees 0 (· = '\t') then none
    else if cursor.sees 0 isBreak then
      let (found, cursor) := cursor.takeBreak
      blockBreaks indent least fuel widest (breaks ++ found) cursor
    else some (if indent = 0 then max widest least else indent, breaks, cursor)

/-- `last` is the break behind the last line, `breaks` are those of the empty lines after it. -/
def blockLines (literal : Bool) (indent : Nat) :
    Nat → List Char → List Char → List Char → Bool → Cursor →
      Option (List Char × List Char × List Char × Cursor)
  | 0, _, _, _, _, _ => none
  | fuel + 1, text, last, breaks, wasBlank, cursor =>
    if cursor.column = indent && !cursor.atEnd then do
      let isBlankLine := cursor.sees 0 isBlank
      let fold := !literal && !wasBlank && !isBlankLine && last.head? = some '\n'
      let between := if fold then if breaks.isEmpty then [' '] else [] else last
      let (line, cursor) := cursor.takeWhile fun char => !isBreak char
      let (last, cursor) := cursor.takeBreak
      let text := text ++ between ++ breaks ++ line
      let (_, breaks, cursor) ← blockBreaks indent 1 (cursor.rest.length + 1) 0 [] cursor
      blockLines literal indent fuel text last breaks isBlankLine cursor
    else some (text, last, breaks, cursor)

/-- How a block scalar ends, and its indentation, zero if it is to be found out. -/
def blockHeader (cursor : Cursor) : Option (Chomping × Nat × Cursor) :=
  let chomping? : Option Char → Option Chomping
    | some '+' => some .keep
    | some '-' => some .strip
    | _ => none
  let increment? (char : Option Char) : Option Nat :=
    (char.bind Text.Digits.digit?).filter (· < 10)
  match chomping? (cursor.char? 0), increment? (cursor.char? 0) with
  | some chomping, _ =>
    match increment? (cursor.char? 1) with
    | some 0 => none
    | some increment => some (chomping, increment, cursor.skip 2)
    | none => some (chomping, 0, cursor.skip 1)
  | none, some 0 => none
  | none, some increment =>
    match chomping? (cursor.char? 1) with
    | some chomping => some (chomping, increment, cursor.skip 2)
    | none => some (.clip, increment, cursor.skip 1)
  | none, none => some (.clip, 0, cursor)

def blockScalar (literal : Bool) (outer : Int) (cursor : Cursor) : Option (List Char × Cursor) := do
  let (chomping, increment, cursor) ← blockHeader cursor
  let (_, cursor) := cursor.takeWhile isBlank
  let cursor := if cursor.sees 0 (· = '#') then (cursor.takeWhile fun char => !isBreak char).2
    else cursor
  if !cursor.endsLine then none
  else
    let (_, cursor) := cursor.takeBreak
    let least := (max (outer + 1) 1).toNat
    let indent := if increment = 0 then 0 else (max outer 0).toNat + increment
    let (indent, breaks, cursor) ← blockBreaks indent least (cursor.rest.length + 1) 0 [] cursor
    let (text, last, breaks, cursor) ←
      blockLines literal indent (cursor.rest.length + 1) [] [] breaks false cursor
    let ending := match chomping with
      | .strip => []
      | .clip => last
      | .keep => last ++ breaks
    return (text ++ ending, cursor)

end Reachability.Yaml
