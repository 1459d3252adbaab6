import Reachability.Config.Binary
import Reachability.Text.Pattern

/-!
# Durations

A duration is a sequence of numbers with units, such as `1h30m` or `1.5s`.
Fractions are scaled and multiplied by their units in 53-bit arithmetic.
-/

namespace Reachability.Duration

def units : List (String × Nat) :=
  [("ns", 1), ("us", 1000), ("µs", 1000), ("μs", 1000), ("ms", 1000000), ("s", 1000000000),
    ("m", 60000000000), ("h", 3600000000000)]

def limit : Nat := Nat.pow 2 63

/-- The digits of a fraction that count, which are those that keep its numerator within the limit,
and the power of ten that they are divided by, which is rounded at each digit. -/
def fractionOf (digits : List Char) : Nat × Binary :=
  let (value, scale, _) := digits.foldl (fun (value, scale, full) digit =>
    if full then (value, scale, true)
    else
      let next := value * 10 + (Text.hexValue? digit).getD 0
      if (limit - 1) / 10 < value ∨ limit < next then (value, scale, true)
      else (next, scale.mul (.ofQuotient 10 1), false))
    ((0, .ofQuotient 1 1, false) : Nat × Binary × Bool)
  (value, scale)

def nanoseconds? (whole fraction : List Char) (unit : Nat) : Option Nat :=
  let value := Text.digitsValue 10 whole
  if limit < value ∨ limit / unit < value then none
  else
    let (numerator, scale) := fractionOf fraction
    let part :=
      if numerator = 0 then 0
      else
        ((Binary.ofQuotient numerator 1).mul ((Binary.ofQuotient unit 1).div scale)).floor
    let total := value * unit + part
    if limit < total then none else some total

def isUnitChar (char : Char) : Bool := char ≠ '.' && !Text.isDigit char

def sum? (total : Nat) (text : List Char) (steps : Nat) : Option Nat :=
  match steps, text with
  | _, [] => some total
  | 0, _ => none
  | steps + 1, text =>
    let whole := text.takeWhile Text.isDigit
    let rest := text.dropWhile Text.isDigit
    let (fraction, rest) := match rest with
      | '.' :: rest => (rest.takeWhile Text.isDigit, rest.dropWhile Text.isDigit)
      | rest => ([], rest)
    if whole.isEmpty && fraction.isEmpty then none
    else do
      let unit ← units.lookup (String.ofList (rest.takeWhile isUnitChar))
      let part ← nanoseconds? whole fraction unit
      let total := (total + part) % (2 * limit)
      if limit < total then none else sum? total (rest.dropWhile isUnitChar) steps

def ofText? (text : String) : Option Int :=
  let (negative, chars) := match text.toList with
    | '-' :: rest => (true, rest)
    | '+' :: rest => (false, rest)
    | chars => (false, chars)
  if chars = ['0'] then some 0
  else if chars = [] then none
  else do
    let total ← sum? 0 chars chars.length
    if negative then some (-total)
    else if total = limit then none
    else some total

end Reachability.Duration
