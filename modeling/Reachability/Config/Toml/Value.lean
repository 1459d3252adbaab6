import Reachability.Text.Digits
import Reachability.Text.Reader

/-!
# Values of TOML

Texts, integers, truth values, arrays and tables are read; floating-point
numbers and dates are only checked, since no setting has such a value.
-/

namespace Reachability.Toml

open Text.CharReader
open Text (CharReader)

abbrev Key := List String

/-- Values as they are written; the keys of an inline table may be dotted. -/
inductive Value where
  | text (text : String)
  | integer (value : Int64)
  | boolean (value : Bool)
  | other
  | array (items : List Value)
  | table (entries : List (Key × Value))
deriving Inhabited

def isWhite (char : Char) : Bool := char = ' ' || char = '\t'

def isLineEnd (char : Char) : Bool := char = '\n' || char = '\r'

def isControl (char : Char) : Bool :=
  (char.toNat < 32 && !isWhite char && !isLineEnd char) || char.toNat = 127

def blanks : CharReader Unit := do
  let _ ← takeWhile isWhite

def comment : CharReader Bool := do
  if ← accept "#" then
    if (← takeWhile fun char => !isLineEnd char).any isControl then failure
    return true
  else return false

/-! ## Texts -/

def codePoint (digits : List Char) : Option Char := do
  let value ← Text.Digits.value? 16 0 digits
  if digits.contains '_' || !(Nat.isValidChar value) then none else some (Char.ofNat value)

def unescape : List Char → Option (List Char)
  | [] => some []
  | '\\' :: 'u' :: a :: b :: c :: d :: rest => do
      return (← codePoint [a, b, c, d]) :: (← unescape rest)
  | '\\' :: 'U' :: a :: b :: c :: d :: e :: f :: g :: h :: rest => do
      return (← codePoint [a, b, c, d, e, f, g, h]) :: (← unescape rest)
  | '\\' :: char :: rest => do
      let meant ← [('b', '\x08'), ('t', '\t'), ('n', '\n'), ('f', '\x0c'), ('r', '\r'), ('"', '"'),
        ('\\', '\\')].lookup char
      return meant :: (← unescape rest)
  | '\\' :: [] => none
  | char :: rest => return char :: (← unescape rest)

def lineBody (quote : Char) (escapes : Bool) : List Char → Option (List Char × List Char)
  | [] => none
  | char :: rest =>
    if char = quote then some ([], rest)
    else if isControl char || isLineEnd char then none
    else if escapes && char = '\\' then
      match rest with
      | [] => none
      | next :: rest =>
        (lineBody quote escapes rest).map fun (taken, rest) => (char :: next :: taken, rest)
    else (lineBody quote escapes rest).map fun (taken, rest) => (char :: taken, rest)

/-- The characters of a text on several lines.  Up to two quotes may stand before the closing
ones. -/
def linesBody (quote : Char) (escapes : Bool) (taken : List Char) :
    List Char → Option (List Char × List Char)
  | [] => none
  | first :: second :: third :: rest =>
    if first = quote && second = quote && third = quote then
      if rest.head? = some quote then
        if [quote, quote].isPrefixOf taken then none
        else linesBody quote escapes (first :: taken) (second :: third :: rest)
      else some (taken.reverse, rest)
    else if isControl first || (first = '\r' && second ≠ '\n') then none
    else if escapes && first = '\\' then
      if isControl second then none
      else linesBody quote escapes (second :: first :: taken) (third :: rest)
    else linesBody quote escapes (first :: taken) (second :: third :: rest)
  | _ => none

def dropFirstBreak : List Char → List Char
  | '\n' :: rest => rest
  | '\r' :: '\n' :: rest => rest
  | chars => chars

private def isFill (char : Char) : Bool := isWhite char || char = '\r'

private def trimEnd (test : Char → Bool) (chars : List Char) : List Char :=
  (chars.reverse.dropWhile test).reverse

/-- A backslash at the end of a line joins it to the next one without the blanks between them. -/
def joinLines (joining : Bool) : List (List Char) → List Char
  | [] => []
  | line :: rest =>
    let trimmed := trimEnd isFill line
    let slashes := (trimmed.reverse.takeWhile (· = '\\')).length
    if slashes = 0 then
      trimEnd (· = '\r') line ++ (if joining || rest.isEmpty then [] else ['\n']) ++
        joinLines joining rest
    else if slashes % 2 = 0 then line ++ ['\n'] ++ joinLines false rest
    else
      let start := if joining then trimmed.dropWhile isFill else trimmed
      match rest with
      | [] => start.dropLast
      | next :: rest => start.dropLast ++ joinLines true (next.dropWhile isFill :: rest)
termination_by lines => lines.length

def basicText : CharReader String := do
  match unescape (← (lineBody '"' true : CharReader _)) with
  | some chars => return String.ofList chars
  | none => failure

def literalText : CharReader String := do
  return String.ofList (← (lineBody '\'' false : CharReader _))

def basicLines : CharReader String := do
  let raw ← (linesBody '"' true [] : CharReader _)
  let lines := ((String.ofList raw).splitOn "\n").map String.toList
  match unescape (dropFirstBreak (joinLines false lines)) with
  | some chars => return String.ofList chars
  | none => failure

def literalLines : CharReader String := do
  return String.ofList (dropFirstBreak (← (linesBody '\'' false [] : CharReader _)))

/-! ## Numbers and dates -/

def underscoresOk (chars : List Char) : Bool :=
  let run := chars.foldl (fun (ok, digit) char =>
    (ok && (char ≠ '_' || digit), Text.Digits.isDigitOf 16 char)) (true, false)
  run.1 && run.2

def hasLeadingZero : List Char → Bool
  | '0' :: next :: _ => Text.Digits.isDigitOf 10 next
  | '-' :: '0' :: _ :: _ | '+' :: '0' :: _ :: _ => true
  | _ => false

def integer? (chars : List Char) : Option Value :=
  if underscoresOk chars && !hasLeadingZero chars then
    (Text.Digits.int64? (String.ofList chars)).map .integer
  else none

private def floatLimit : Nat := Nat.pow 2 1024 - Nat.pow 2 970

private def isDecimal (char : Char) : Bool := Text.Digits.isDigitOf 10 char

def floatFits (whole fraction : List Char) (exponent : Int) : Bool :=
  match Text.Digits.value? 10 0 (whole ++ fraction) with
  | none => false
  | some 0 => true
  | some value =>
    let shift := exponent - fraction.length
    let size := shift + (toString value).length
    if size < 300 then true
    else if size > 320 then false
    else if 0 ≤ shift then value * Nat.pow 10 shift.toNat < floatLimit
    else value < floatLimit * Nat.pow 10 (-shift).toNat

def isFloat (chars : List Char) : Bool :=
  let parts := (chars.splitBy fun _ next => !(['.', 'e', 'E'].contains next)).map fun part =>
    part.dropWhile fun char => ['.', 'e', 'E'].contains char
  let parts := parts.filter fun part => !part.isEmpty
  let digits := chars.filter (· ≠ '_')
  let unsigned :=
    if digits.head? = some '-' || digits.head? = some '+' then digits.drop 1 else digits
  let (whole, rest) := unsigned.span isDecimal
  let (fraction, rest) := match rest with
    | '.' :: rest => rest.span isDecimal
    | rest => ([], rest)
  let power := match rest with
    | mark :: rest => if mark = 'e' || mark = 'E' then rest else ['?']
    | [] => ['0']
  let exponent := Text.Digits.value? 10 0 (match power with
    | sign :: rest => if sign = '-' || sign = '+' then rest else power
    | [] => ['?'])
  let pointOk := match unsigned.dropWhile (· ≠ '.') with
    | '.' :: next :: _ => isDecimal next
    | '.' :: [] => false
    | _ => true
  parts.all underscoresOk && !(parts.head?.map hasLeadingZero).getD false && pointOk
    && !whole.isEmpty && power ≠ ['-'] && power ≠ ['+']
    && match exponent with
      | some value =>
        floatFits whole fraction (if power.head? = some '-' then -(value : Int) else value)
      | none => false

private def twoDigits (limit : Nat) : CharReader Nat := do
  let tens ← next
  let ones ← next
  match Text.Digits.value? 10 0 [tens, ones] with
  | some value => if tens = '_' || ones = '_' || limit ≤ value then failure else return value
  | none => failure

private def daysIn (year month : Nat) : Nat :=
  if month = 2 then
    if year % 4 = 0 && (year % 100 ≠ 0 || year % 400 = 0) then 29 else 28
  else if [4, 6, 9, 11].contains month then 30
  else 31

private def dateReader : CharReader Unit := do
  let year := (← twoDigits 100) * 100 + (← twoDigits 100)
  expect "-"
  let month ← twoDigits 13
  expect "-"
  let day ← twoDigits 32
  if month = 0 || day = 0 || daysIn year month < day then failure

private def timeReader : CharReader Unit := do
  let hours ← takeWhile isDecimal
  match Text.Digits.value? 10 0 hours with
  | some hour => if hours.isEmpty || 2 < hours.length || 24 ≤ hour then failure
  | none => failure
  expect ":"
  let _ ← twoDigits 60
  expect ":"
  let _ ← twoDigits 60
  if ← accept "." then
    if (← takeWhile isDecimal).isEmpty then failure

private def zoneReader : CharReader Unit := do
  if ← accept "Z" then return ()
  else if (← accept "+") || (← accept "-") then
    let _ ← twoDigits 25
    expect ":"
    let _ ← twoDigits 61
  else return ()

private def dateTimeReader : CharReader Unit := do
  if (← (fun chars => some (chars[2]? == some ':' || chars[1]? == some ':', chars) :
      CharReader Bool))
  then timeReader
  else
    dateReader
    if ← accept "T" then
      timeReader
      zoneReader

def isDateTime (chars : List Char) : Bool :=
  let normal := chars.map fun char =>
    if char = 't' || char = ' ' then 'T' else if char = 'z' then 'Z' else char
  (dateTimeReader.readAll (String.ofList normal)).isSome

def numberRest (start : List Char) : CharReader Value := do
  let digits ← takeWhile isDecimal
  let start := start ++ digits
  if (← seesChar fun char => char = '-' || char = ':') && start.all isDecimal then
    let more ← takeWhile fun char => isDecimal char || "-:Tt .Zz+".contains char
    if isDateTime (trimEnd (· = ' ') (start ++ more)) then return .other else failure
  else
    let more ← takeWhile fun char => isDecimal char || char = '_'
    let start := start ++ more
    if ← seesChar fun char => ['.', 'e', 'E'].contains char then
      let more ← takeWhile fun char => isDecimal char || "_.-+eE".contains char
      if isFloat (start ++ more) then return .other else failure
    else
      match integer? start with
      | some value => return value
      | none => failure

def basedNumber (mark : String) (base : Nat) : CharReader Value := do
  let digits ← takeWhile fun char => Text.Digits.isDigitOf base char || char = '_'
  match digits.head? with
  | some first => if first = '_' then failure
  | none => failure
  match integer? (mark.toList ++ digits) with
  | some value => return value
  | none => failure

def number : CharReader Value := do
  if ← accept "0x" then basedNumber "0x" 16
  else if ← accept "0o" then basedNumber "0o" 8
  else if ← accept "0b" then basedNumber "0b" 2
  else if ← seesChar fun char => char = '-' || char = '+' then
    let sign ← next
    if (← accept "inf") || (← accept "nan") then return .other
    else if !(← seesChar isDecimal) then failure
    else if (← sees "0b") || (← sees "0o") || (← sees "0x") then failure
    else numberRest [sign]
  else numberRest []

/-! ## Keys and values -/

def isBareChar (char : Char) : Bool := char.isAlphanum || char = '_' || char = '-'

def keyPart : CharReader String := do
  blanks
  if ← accept "\"" then basicText
  else if ← accept "'" then literalText
  else
    let name ← takeWhile isBareChar
    if name.isEmpty then failure else return String.ofList name

def key : CharReader Key := do
  let first ← keyPart
  blanks
  let rest ← many (do
    if ← accept "." then
      let part ← keyPart
      blanks
      return some part
    else return none)
  return first :: rest

def filling : CharReader Unit := do
  let _ ← many (do
    if ← comment then return some ()
    else if ← seesChar fun char => isWhite char || isLineEnd char then
      drop 1
      return some ()
    else return none)

def value : Nat → CharReader Value
  | 0 => failure
  | depth + 1 => do
      blanks
      if ← accept "\"\"\"" then return .text (← basicLines)
      else if ← accept "'''" then return .text (← literalLines)
      else if ← accept "\"" then return .text (← basicText)
      else if ← accept "'" then return .text (← literalText)
      else if ← accept "[" then
        filling
        let items ← many (do
          if ← accept "]" then return none
          else
            let item ← value depth
            filling
            if ← accept "," then filling
            else if !(← sees "]") then failure
            return some item)
        return .array items
      else if ← accept "\x7b" then
        blanks
        let entries ← many (do
          if ← accept "\x7d" then return none
          else
            let name ← key
            expect "="
            let entry ← value depth
            blanks
            if ← accept "," then
              blanks
              if ← sees "\x7d" then failure
            else if !(← sees "\x7d") then failure
            return some (name, entry))
        return .table entries
      else if ← seesChar fun char => isDecimal char || char = '-' || char = '+' then number
      else
        let word ← takeWhile Char.isAlpha
        match String.ofList word with
        | "true" => return .boolean true
        | "false" => return .boolean false
        | "inf" | "nan" => return .other
        | _ => failure

end Reachability.Toml
