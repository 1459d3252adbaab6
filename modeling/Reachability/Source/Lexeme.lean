import Reachability.Source.Token
import Reachability.Text.Digits
import Reachability.Text.Letter

/-!
# Reading lexemes

Every function here returns the characters it has read, so that places are
counted in one function only.
-/

namespace Reachability.Source

open Text.Digits

def upTo (mark : List Char) : List Char → Option (List Char × List Char)
  | [] => none
  | char :: rest =>
    if mark.isPrefixOf (char :: rest) then some (mark, (char :: rest).drop mark.length)
    else (upTo mark rest).map fun (taken, rest) => (char :: taken, rest)

def digitsOf (base : Nat) : Nat → Nat → List Char → Option (List Char × Nat × List Char)
  | 0, total, chars => some ([], total, chars)
  | _ + 1, _, [] => none
  | count + 1, total, char :: rest =>
    match digit? char with
    | some value =>
      if value < base then
        (digitsOf base count (total * base + value) rest).map fun (taken, total, rest) =>
          (char :: taken, total, rest)
      else none
    | none => none

/-- A code point has as many digits as its mark asks for, passes no limit and does not stand for
half a character. -/
def codePoint (base count limit : Nat) (chars : List Char) : Option (List Char × List Char) :=
  (digitsOf base count 0 chars).bind fun (taken, value, rest) =>
    if value > limit || (0xd800 ≤ value && value < 0xe000) then none else some (taken, rest)

def escape (quote : Char) : List Char → Option (List Char × List Char)
  | [] => none
  | 'x' :: rest => (codePoint 16 2 255 rest).map fun (taken, rest) => ('x' :: taken, rest)
  | 'u' :: rest => (codePoint 16 4 0x10ffff rest).map fun (taken, rest) => ('u' :: taken, rest)
  | 'U' :: rest => (codePoint 16 8 0x10ffff rest).map fun (taken, rest) => ('U' :: taken, rest)
  | char :: rest =>
    if "abfnrtv\\".contains char || char = quote then some ([char], rest)
    else codePoint 8 3 255 (char :: rest)

def quotedChar (quote : Char) : List Char → Option (List Char × List Char)
  | [] | '\n' :: _ => none
  | '\\' :: rest => (escape quote rest).map fun (taken, rest) => ('\\' :: taken, rest)
  | char :: rest => if char = quote then none else some ([char], rest)

def stringBody : Nat → List Char → Option (List Char × List Char)
  | _, '"' :: rest => some (['"'], rest)
  | 0, _ => none
  | fuel + 1, chars => do
      let (first, rest) ← quotedChar '"' chars
      let (more, rest) ← stringBody fuel rest
      return (first ++ more, rest)

def charBody (chars : List Char) : Option (List Char × List Char) := do
  match ← quotedChar '\'' chars with
  | (taken, '\'' :: rest) => return (taken ++ ['\''], rest)
  | _ => none

def digitRun (hex : Bool) (chars : List Char) : List Char × List Char :=
  chars.span fun char => isDigitOf (if hex then 16 else 10) char || char = '_'

def baseMark : List Char → List Char × List Char
  | '0' :: mark :: rest =>
    if ['x', 'o', 'b'].contains mark.toLower then (['0', mark], rest) else ([], '0' :: mark :: rest)
  | chars => ([], chars)

def exponent : List Char → List Char × List Char
  | mark :: rest =>
    if ['e', 'p'].contains mark.toLower then
      match rest with
      | sign :: more =>
        if sign = '+' || sign = '-' then
          let (digits, rest) := digitRun false more
          (mark :: sign :: digits, rest)
        else
          let (digits, rest) := digitRun false rest
          (mark :: digits, rest)
      | [] => ([mark], [])
    else ([], mark :: rest)
  | [] => ([], [])

def validNumber (mark whole fraction power : List Char) (kind : LiteralKind) : Bool :=
  let base := (mark.getLast?.map Char.toLower).getD ' '
  let hasDigit (chars : List Char) := chars.any fun char => char != '_' && (digit? char).isSome
  let powerMark := (power.head?.map Char.toLower).getD ' '
  (hasDigit whole || hasDigit (fraction.drop 1))
    && (fraction.isEmpty || (base != 'o' && base != 'b'))
    && (power.isEmpty || hasDigit (power.drop 1))
    && (powerMark != 'e' || mark.isEmpty)
    && (powerMark != 'p' || base = 'x')
    && (fraction.isEmpty || base != 'x' || !power.isEmpty)
    && (kind != .int || (value? (based (mark ++ whole)).1 0 whole).isSome)
    && wellSeparated (mark ++ whole ++ fraction ++ power)

def number (chars : List Char) : Option (LiteralKind × List Char × List Char) :=
  let (mark, rest) := baseMark chars
  let hex := mark.getLast? == some 'x' || mark.getLast? == some 'X'
  let (whole, rest) := digitRun hex rest
  let (fraction, rest) :=
    match rest with
    | '.' :: more =>
      let (digits, rest) := digitRun hex more
      ('.' :: digits, rest)
    | rest => ([], rest)
  let (power, rest) := exponent rest
  let taken := mark ++ whole ++ fraction ++ power
  match rest with
  | 'i' :: rest =>
    if validNumber mark whole fraction power .imaginary then
      some (.imaginary, taken ++ ['i'], rest)
    else none
  | rest =>
    let kind := if fraction.isEmpty && power.isEmpty then LiteralKind.int else .float
    if validNumber mark whole fraction power kind then some (kind, taken, rest) else none

def operator? (chars : List Char) : Option String :=
  operators.find? fun operator => operator.toList.isPrefixOf chars

/-- A piece of a text: what it is, its characters, and the text behind it. -/
structure Piece where
  kind : Option (Nat → Lexeme)
  taken : List Char
  rest : List Char

private def wordPiece (token : Token) (taken rest : List Char) : Piece :=
  { kind := some fun pos => .word ⟨pos, token⟩, taken, rest }

private def commentPiece (taken rest : List Char) : Piece :=
  { kind := some fun pos => .comment pos (String.ofList taken), taken, rest }

def piece? : List Char → Option Piece
  | [] => none
  | '\n' :: rest => some { kind := some .lineEnd, taken := ['\n'], rest }
  | '/' :: '/' :: rest =>
    let (taken, rest) := rest.span (· ≠ '\n')
    some (commentPiece ('/' :: '/' :: taken) rest)
  | '/' :: '*' :: rest =>
    (upTo ['*', '/'] rest).map fun (taken, rest) => commentPiece ('/' :: '*' :: taken) rest
  | '"' :: rest =>
    (stringBody rest.length rest).map fun (taken, rest) =>
      wordPiece (.literal .string (String.ofList ('"' :: taken))) ('"' :: taken) rest
  | '\'' :: rest =>
    (charBody rest).map fun (taken, rest) =>
      wordPiece (.literal .char (String.ofList ('\'' :: taken))) ('\'' :: taken) rest
  | '\x60' :: rest =>
    (upTo ['\x60'] rest).map fun (taken, rest) =>
      wordPiece (.literal .string (String.ofList ('\x60' :: taken))) ('\x60' :: taken) rest
  | char :: rest =>
    if char = ' ' || char = '\t' || char = '\r' then some { kind := none, taken := [char], rest }
    else if Text.isNameStart char then
      let (taken, rest) := (char :: rest).span Text.isNameChar
      some (wordPiece (.ofWord (String.ofList taken)) taken rest)
    else if isDigitOf 10 char || (char = '.' && (rest.head?.map (isDigitOf 10)).getD false) then
      (number (char :: rest)).map fun (kind, taken, rest) =>
        wordPiece (.literal kind (String.ofList taken)) taken rest
    else
      (operator? (char :: rest)).map fun operator =>
        wordPiece (.symbol operator) operator.toList ((char :: rest).drop operator.length)

def byteSize (chars : List Char) : Nat := (String.ofList chars).utf8ByteSize

def lexemesFrom (pos : Nat) (chars : List Char) : Option (List Lexeme) :=
  if chars.isEmpty then some []
  else
    match piece? chars with
    | none => none
    | some piece =>
      if piece.rest.length < chars.length then
        (lexemesFrom (pos + byteSize piece.taken) piece.rest).map fun lexemes =>
          match piece.kind with
          | some lexeme => lexeme pos :: lexemes
          | none => lexemes
      else none
termination_by chars.length

/-- The lexemes of a source text.  A byte order mark may stand at its start and nowhere else, and
there is no zero character. -/
def lexemes (text : String) : Option (List Lexeme) :=
  let (pos, chars) :=
    match text.toList with
    | '\ufeff' :: rest => (4, rest)
    | chars => (1, chars)
  if chars.any fun char => char = '\ufeff' || char = '\x00' then none else lexemesFrom pos chars

end Reachability.Source
