/-!
# Integers as they are written

An integer may start with a sign and with a mark of its base, and underscores
may separate its digits.
-/

namespace Reachability.Text.Digits

def digit? (char : Char) : Option Nat :=
  if '0' ≤ char && char ≤ '9' then some (char.toNat - '0'.toNat)
  else if 'a' ≤ char && char ≤ 'z' then some (char.toNat - 'a'.toNat + 10)
  else if 'A' ≤ char && char ≤ 'Z' then some (char.toNat - 'A'.toNat + 10)
  else none

def isDigitOf (base : Nat) (char : Char) : Bool :=
  match digit? char with
  | some value => value < base
  | none => false

inductive Before where
  | digit | underscore | other
deriving DecidableEq, Repr

/-- Whether every underscore stands between two digits.  Letters are digits of hexadecimal
numbers. -/
def separated (hex : Bool) : Before → List Char → Bool
  | before, [] => before != .underscore
  | before, '_' :: rest => before == .digit && separated hex .underscore rest
  | before, char :: rest =>
    if isDigitOf (if hex then 16 else 10) char then separated hex .digit rest
    else before != .underscore && separated hex .other rest

/-- Whether underscores only separate digits in a number without sign.  The mark of a base counts as
a digit. -/
def wellSeparated : List Char → Bool
  | '0' :: mark :: rest =>
    let letter := mark.toLower
    if letter = 'x' || letter = 'o' || letter = 'b' then separated (letter = 'x') .digit rest
    else separated false .other ('0' :: mark :: rest)
  | chars => separated false .other chars

/-- The value of a sequence of digits, continued from a first value; underscores are passed over. -/
def value? (base : Nat) : Nat → List Char → Option Nat
  | total, [] => some total
  | total, '_' :: rest => value? base total rest
  | total, char :: rest =>
    match digit? char with
    | some value => if value < base then value? base (total * base + value) rest else none
    | none => none

def based : List Char → Nat × List Char
  | '0' :: mark :: first :: rest =>
    match mark.toLower with
    | 'b' => (2, first :: rest)
    | 'o' => (8, first :: rest)
    | 'x' => (16, first :: rest)
    | _ => (8, mark :: first :: rest)
  | '0' :: rest => (8, rest)
  | chars => (10, chars)

def nat? (chars : List Char) : Option Nat :=
  let (base, digits) := based chars
  if chars.isEmpty || !wellSeparated chars then none else value? base 0 digits

def int? : List Char → Option Int
  | '-' :: rest => (nat? rest).map fun value => -(value : Int)
  | '+' :: rest => (nat? rest).map fun value => (value : Int)
  | chars => (nat? chars).map fun value => (value : Int)

def int64? (text : String) : Option Int64 :=
  (int? text.toList).bind fun value =>
    if Int64.minValue.toInt ≤ value ∧ value ≤ Int64.maxValue.toInt then some (Int64.ofInt value)
    else none

end Reachability.Text.Digits
