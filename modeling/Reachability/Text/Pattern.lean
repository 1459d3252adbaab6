/-!
# Character classes

The classes of characters that names, numbers and escapes are made of, as far
as they concern ASCII.
-/

namespace Reachability.Text

def isLetter (char : Char) : Bool :=
  ('a' ≤ char && char ≤ 'z') || ('A' ≤ char && char ≤ 'Z')

def isDigit (char : Char) : Bool := '0' ≤ char && char ≤ '9'

def isOctalDigit (char : Char) : Bool := '0' ≤ char && char ≤ '7'

def hexValue? (char : Char) : Option Nat :=
  if isDigit char then some (char.toNat - '0'.toNat)
  else if 'a' ≤ char && char ≤ 'f' then some (char.toNat - 'a'.toNat + 10)
  else if 'A' ≤ char && char ≤ 'F' then some (char.toNat - 'A'.toNat + 10)
  else none

def isHexDigit (char : Char) : Bool := (hexValue? char).isSome

def digitsValue (base : Nat) (digits : List Char) : Nat :=
  digits.foldl (fun value digit => value * base + (hexValue? digit).getD 0) 0

end Reachability.Text
