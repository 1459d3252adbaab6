import Reachability.Config.Yaml.Scalar

/-!
# Tokens of YAML

The starts and ends of block collections follow from columns.  That something is
a key is only known at the colon behind it; its token is then put in front of it.
-/

namespace Reachability.Yaml

inductive Token where
  | documentStart | documentEnd | streamEnd | versionDirective | tagDirective
  | blockSequenceStart | blockMappingStart | blockEnd
  | flowSequenceStart | flowSequenceEnd | flowMappingStart | flowMappingEnd
  | blockEntry | flowEntry | key | value
  | reference (name : String)
  | anchor (name : String)
  | tag (name : String)
  | scalar (plain : Bool) (text : String)
  /-- The place where the text stops being readable. -/
  | broken
deriving DecidableEq, Repr

structure KeyStart where
  required : Bool
  count : Nat
  place : Cursor

/-- The tokens found so far, the depth of brackets, the columns of the block collections around, and
where keys may have started, by depth. -/
structure Scan where
  cursor : Cursor
  depth : Nat := 0
  indent : Int := -1
  indents : List Int := []
  keyAllowed : Bool := true
  keys : List (Option KeyStart) := [none]
  tokens : List Token := []

namespace Scan

def push (scan : Scan) (token : Token) : Scan := { scan with tokens := scan.tokens ++ [token] }

def take (scan : Scan) (count : Nat) (token : Token) : Scan :=
  { scan.push token with cursor := scan.cursor.skip count }

def unroll (column : Int) : List Int → Scan → Scan
  | [], scan => scan
  | outer :: rest, scan =>
    if scan.depth = 0 && column < scan.indent then
      unroll column rest { scan.push .blockEnd with indent := outer, indents := rest }
    else scan

def unrollTo (scan : Scan) (column : Int) : Scan := unroll column scan.indents scan

/-- Start a block collection at a column, unless one at that column is open; its token goes in front
of the tokens after the first `count`. -/
def roll (scan : Scan) (column : Nat) (count : Nat) (token : Token) : Scan :=
  if scan.depth = 0 && scan.indent < column then
    { scan with
      indent := column
      indents := scan.indent :: scan.indents
      tokens := scan.tokens.take count ++ token :: scan.tokens.drop count }
  else scan

def removeKey (scan : Scan) : Option Scan :=
  match scan.keys with
  | some start :: rest => if start.required then none else some { scan with keys := none :: rest }
  | _ => some scan

def saveKey (scan : Scan) : Option Scan :=
  if scan.keyAllowed then do
    let scan ← scan.removeKey
    let start : KeyStart :=
      { required := scan.depth = 0 && scan.indent = (scan.cursor.column : Int)
        count := scan.tokens.length
        place := scan.cursor }
    return { scan with keys := some start :: scan.keys.drop 1 }
  else some scan

def allowKey (scan : Scan) (allowed : Bool) : Scan := { scan with keyAllowed := allowed }

/-- Skip blanks, comments and line breaks.  Tabs do not count as blanks where a key may start,
unless they stand between two comments. -/
def skipBlanks : Nat → (commented : Bool) → Scan → Scan
  | 0, _, scan => scan
  | fuel + 1, commented, scan =>
    let between := commented &&
      (scan.cursor.rest.dropWhile fun char => isBlank char || isBreak char).head? = some '#'
    let cursor := if scan.cursor.column = 0 && scan.cursor.sees 0 (· = '\ufeff') then
      scan.cursor.skip 1 else scan.cursor
    let tabs := scan.depth > 0 || !scan.keyAllowed || between
    let (_, cursor) := cursor.takeWhile fun char => char = ' ' || (tabs && char = '\t')
    let comment := cursor.sees 0 (· = '#')
    let cursor := if comment then (cursor.takeWhile fun char => !isBreak char).2 else cursor
    if cursor.sees 0 isBreak then
      skipBlanks fuel (comment || between)
        { scan with cursor := cursor.takeBreak.2, keyAllowed := scan.keyAllowed || scan.depth = 0 }
    else { scan with cursor }

/-- Whether a key that may have started can still end: it is on one line and not too long. -/
def KeyStart.alive (start : KeyStart) (cursor : Cursor) : Bool :=
  start.place.line = cursor.line && cursor.index ≤ start.place.index + 1024

def fetchValue (scan : Scan) : Option Scan := do
  match scan.keys with
  | some start :: rest =>
    if KeyStart.alive start scan.cursor then
      let tokens := scan.tokens.take start.count ++ .key :: scan.tokens.drop start.count
      let scan := { scan with keys := none :: rest, tokens }
      let scan := scan.roll start.place.column start.count .blockMappingStart
      return (scan.allowKey false).take 1 .value
    else if start.required then none
    else complex { scan with keys := none :: rest }
  | _ => complex scan
where
  complex (scan : Scan) : Option Scan :=
    if scan.depth = 0 then
      if scan.keyAllowed then
        let scan := scan.roll scan.cursor.column scan.tokens.length .blockMappingStart
        some ((scan.allowKey true).take 1 .value)
      else none
    else some ((scan.allowKey false).take 1 .value)

def fetchEntry (scan : Scan) : Option Scan := do
  if scan.depth = 0 && !scan.keyAllowed then none
  let scan := scan.roll scan.cursor.column scan.tokens.length .blockSequenceStart
  let scan ← scan.removeKey
  return (scan.allowKey true).take 1 .blockEntry

def fetchKey (scan : Scan) : Option Scan := do
  if scan.depth = 0 && !scan.keyAllowed then none
  let scan := scan.roll scan.cursor.column scan.tokens.length .blockMappingStart
  let scan ← scan.removeKey
  return (scan.allowKey (scan.depth = 0)).take 1 .key

def fetchFlowStart (scan : Scan) (token : Token) : Option Scan := do
  let scan ← scan.saveKey
  let scan := { scan with depth := scan.depth + 1, keys := none :: scan.keys }
  return (scan.allowKey true).take 1 token

def fetchFlowEnd (scan : Scan) (token : Token) : Option Scan := do
  let scan ← scan.removeKey
  let scan := if scan.depth = 0 then scan
    else { scan with depth := scan.depth - 1, keys := scan.keys.drop 1 }
  return (scan.allowKey false).take 1 token

def fetchFlowEntry (scan : Scan) : Option Scan := do
  let scan ← scan.removeKey
  return (scan.allowKey true).take 1 .flowEntry

def isNameChar (char : Char) : Bool := char.isAlphanum || char = '_' || char = '-'

def fetchName (scan : Scan) (token : String → Token) : Option Scan := do
  let scan ← scan.saveKey
  let (name, cursor) := (scan.cursor.skip 1).takeWhile isNameChar
  let ended := cursor.endsWord 0 || cursor.sees 0 fun char => "?:,]\x7d%@\x60".contains char
  if name.isEmpty || !ended then none
  else return { (scan.allowKey false).push (token (String.ofList name)) with cursor }

def isTagChar (char : Char) : Bool := isNameChar char || ";/?:@&=+$.!~*'()%".contains char

def fetchTag (scan : Scan) : Option Scan := do
  let scan ← scan.saveKey
  let scan := scan.allowKey false
  if scan.cursor.sees 1 (· = '<') then
    let (name, cursor) := (scan.cursor.skip 2).takeWhile fun char =>
      isTagChar char || ",[]".contains char
    let name := String.ofList name
    let short := if name.startsWith "tag:yaml.org,2002:" then
      "!!" ++ (name.drop 18).toString else name
    if name = "" || !cursor.sees 0 (· = '>') || !cursor.endsWord 1 then none
    else return { scan.push (.tag short) with cursor := cursor.skip 1 }
  else
    let (name, cursor) := (scan.cursor.skip 1).takeWhile isTagChar
    let (handle, suffix) := name.span isNameChar
    let known := match suffix with
      | '!' :: rest => handle.isEmpty && !rest.isEmpty
      | _ => true
    if !known || !cursor.endsWord 0 then none
    else return { scan.push (.tag ("!" ++ String.ofList name)) with cursor }

def fetchBlockScalar (scan : Scan) (literal : Bool) : Option Scan := do
  let scan ← scan.removeKey
  let (text, cursor) ← blockScalar literal scan.indent (scan.cursor.skip 1)
  return { (scan.allowKey true).push (.scalar false (String.ofList text)) with cursor }

def fetchQuoted (scan : Scan) (quote : Char) : Option Scan := do
  let scan ← scan.saveKey
  let (text, cursor) ← quotedScalar quote (scan.cursor.rest.length + 1) [] (scan.cursor.skip 1)
  return { (scan.allowKey false).push (.scalar false (String.ofList text)) with cursor }

def fetchPlain (scan : Scan) : Option Scan := do
  let scan ← scan.saveKey
  let (text, broken, cursor) ← plainScalar (scan.depth > 0) (scan.indent + 1).toNat
    (scan.cursor.rest.length + 1) [] (.blanks []) scan.cursor
  return { (scan.allowKey broken).push (.scalar true (String.ofList text)) with cursor }

def closeAll (scan : Scan) : Option Scan := do
  let scan ← (scan.unrollTo (-1)).removeKey
  return scan.allowKey false

def fetchDirective (scan : Scan) : Option Scan := do
  let scan ← scan.closeAll
  let (line, cursor) := scan.cursor.takeWhile fun char => !isBreak char && char ≠ '#'
  match ((String.ofList line).splitOn " ").filter (· ≠ "") with
  | ["%YAML", "1.1"] => return { scan.push .versionDirective with cursor }
  | ["%TAG", handle, _] =>
    if handle.startsWith "!" && handle.endsWith "!" then
      return { scan.push .tagDirective with cursor }
    else none
  | _ => none

def fetch (scan : Scan) : Option Scan := do
  let scan := skipBlanks (scan.cursor.rest.length + 1) false scan
  let scan := scan.unrollTo scan.cursor.column
  let cursor := scan.cursor
  match cursor.rest with
  | [] => return (← scan.closeAll).push .streamEnd
  | char :: _ =>
    if cursor.column = 0 && char = '%' then scan.fetchDirective
    else if cursor.atMarker then
      return (← scan.closeAll).take 3 (if char = '-' then .documentStart else .documentEnd)
    else
      match char with
      | '[' => scan.fetchFlowStart .flowSequenceStart
      | '\x7b' => scan.fetchFlowStart .flowMappingStart
      | ']' => scan.fetchFlowEnd .flowSequenceEnd
      | '\x7d' => scan.fetchFlowEnd .flowMappingEnd
      | ',' => scan.fetchFlowEntry
      | '*' => scan.fetchName .reference
      | '&' => scan.fetchName .anchor
      | '!' => scan.fetchTag
      | '\'' => scan.fetchQuoted '\''
      | '"' => scan.fetchQuoted '"'
      | char =>
        if char = '-' && cursor.endsWord 1 then scan.fetchEntry
        else if char = '?' && (scan.depth > 0 || cursor.endsWord 1) then scan.fetchKey
        else if char = ':' && (scan.depth > 0 || cursor.endsWord 1) then scan.fetchValue
        else if char = '|' && scan.depth = 0 then scan.fetchBlockScalar true
        else if char = '>' && scan.depth = 0 then scan.fetchBlockScalar false
        else if isBlank char || ['#', '|', '>', '%', '@', '\x60'].contains char then none
        else scan.fetchPlain

def run : Nat → Scan → List Token
  | 0, scan => scan.tokens ++ [.broken]
  | fuel + 1, scan =>
    match scan.fetch with
    | none => scan.tokens ++ [.broken]
    | some scan =>
      if scan.tokens.getLast? = some .streamEnd then scan.tokens else run fuel scan

end Scan

def isAllowed (char : Char) : Bool :=
  let code := char.toNat
  isBreak char || char = '\t' || (32 ≤ code && code ≤ 126) ||
    (160 ≤ code && code ≠ 65534 && code ≠ 65535)

def tokens (text : String) : List Token :=
  let chars := match text.toList with
    | '\ufeff' :: rest => rest
    | chars => chars
  if chars.all isAllowed then Scan.run (chars.length + 2) { cursor := { rest := chars } }
  else [.broken]

end Reachability.Yaml
