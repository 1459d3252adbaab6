/-!
# Binary floating-point numbers

Positive numbers with 53 significant bits and an unbounded exponent, rounded to
nearest.
-/

namespace Reachability

/-- A number with at most 53 significant bits: `mantissa * 2 ^ exponent`. -/
structure Binary where
  mantissa : Nat
  exponent : Int
deriving DecidableEq, Repr

def roundQuotient (num den : Nat) : Nat :=
  let quotient := num / den
  let twice := 2 * (num % den)
  if den < twice ∨ (twice = den ∧ quotient % 2 = 1) then quotient + 1 else quotient

/-- The number with 53 significant bits nearest to a positive quotient. -/
def Binary.ofQuotient (num den : Nat) : Binary :=
  let size : Int := (num.log2 : Int) - den.log2
  let scaled (exponent : Int) : Nat × Nat :=
    if 0 ≤ exponent then (num, den * Nat.pow 2 exponent.toNat)
    else (num * Nat.pow 2 (-exponent).toNat, den)
  let low := size - 53
  let (n, d) := scaled low
  let exponent := if n / d < Nat.pow 2 53 then low else low + 1
  let (n, d) := scaled exponent
  ⟨roundQuotient n d, exponent⟩

def Binary.ofScaled (num den : Nat) (exponent : Int) : Binary :=
  if 0 ≤ exponent then .ofQuotient (num * Nat.pow 2 exponent.toNat) den
  else .ofQuotient num (den * Nat.pow 2 (-exponent).toNat)

def Binary.mul (first second : Binary) : Binary :=
  .ofScaled (first.mantissa * second.mantissa) 1 (first.exponent + second.exponent)

def Binary.div (first second : Binary) : Binary :=
  .ofScaled first.mantissa second.mantissa (first.exponent - second.exponent)

def Binary.floor (number : Binary) : Nat :=
  if 0 ≤ number.exponent then number.mantissa * Nat.pow 2 number.exponent.toNat
  else number.mantissa / Nat.pow 2 (-number.exponent).toNat

end Reachability
