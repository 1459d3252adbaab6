import Reachability.Text.Digits

/-!
# Placeholders

A percent sign in a pattern for messages starts a placeholder for a value.
There are no values here, so every placeholder becomes a note.
-/

namespace Reachability.Text

/-- What follows, the notes so far, whether the number of a value was read last, and whether one was
read at all. -/
structure Placeholder where
  rest : List Char
  notes : String := ""
  indexed : Bool := false
  numbered : Bool := false

namespace Placeholder

def afterNumber (chars : List Char) : List Char :=
  let (digits, rest) := chars.span (Digits.isDigitOf 10)
  if (Digits.value? 10 0 digits.dropLast).getD 0 > 1000000 then [] else rest

def isIndex (chars : List Char) : Bool :=
  !chars.isEmpty && chars.all (Digits.isDigitOf 10) &&
    (Digits.value? 10 0 chars.dropLast).getD 0 ≤ 1000000

def takeIndex (placeholder : Placeholder) : Placeholder :=
  match placeholder.rest with
  | '[' :: rest =>
    let inner := rest.takeWhile (· ≠ ']')
    if rest.length < 2 || inner.length = rest.length then
      { placeholder with rest, indexed := false, numbered := true }
    else
      { placeholder with
        rest := rest.drop (inner.length + 1)
        indexed := isIndex inner
        numbered := true }
  | _ => { placeholder with indexed := false }

def takeSize (placeholder : Placeholder) (missing : String) : Placeholder :=
  match placeholder.rest with
  | '*' :: rest =>
    { placeholder with
      rest, notes := placeholder.notes ++ "%!(" ++ missing ++ ")", indexed := false }
  | rest => { placeholder with rest := afterNumber rest }

def takePrecision (placeholder : Placeholder) : Placeholder :=
  match placeholder.rest with
  | '.' :: rest => ({ placeholder with rest }.takeIndex).takeSize "BADPREC"
  | _ => placeholder

def read (chars : List Char) : Placeholder :=
  let start : Placeholder := { rest := chars.dropWhile fun char => "#0+- ".contains char }
  let sized := (start.takeIndex.takeSize "BADWIDTH").takePrecision
  if sized.indexed then sized else sized.takeIndex

def finish (placeholder : Placeholder) : String × List Char :=
  match placeholder.rest with
  | [] => (placeholder.notes ++ "%!(NOVERB)", [])
  | '%' :: rest => (placeholder.notes ++ "%", rest)
  | kind :: rest =>
    let reason := if placeholder.numbered then "(BADINDEX)" else "(MISSING)"
    (placeholder.notes ++ "%!" ++ String.singleton kind ++ reason, rest)

def printChars : Nat → List Char → String
  | _, [] => ""
  | 0, _ => ""
  | fuel + 1, '%' :: rest =>
    let (note, rest) := (read rest).finish
    note ++ printChars fuel rest
  | fuel + 1, char :: rest => String.singleton char ++ printChars fuel rest

end Placeholder

def withoutValues (pattern : String) : String :=
  Placeholder.printChars pattern.length pattern.toList

end Reachability.Text
