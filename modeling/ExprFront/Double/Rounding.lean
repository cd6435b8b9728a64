import ExprFront.Double

/-!
Rounding to double precision: the nearest number, and of two equally near ones the even.
-/

namespace ExprFront.Double

/-- A quotient rounded to the nearest number; a half goes to the even neighbour. -/
def roundDiv (num den : Nat) : Nat :=
  let quotient := num / den
  let twice := 2 * (num % den)
  if den < twice ∨ twice = den ∧ quotient % 2 = 1 then quotient + 1 else quotient

/-- The exponent of the greatest power of two that a positive ratio reaches. -/
def log2Ratio (num den : Nat) : Int :=
  let guess : Int := (num.log2 : Int) - den.log2
  if den * Nat.pow 2 guess.toNat ≤ num * Nat.pow 2 (-guess).toNat then guess else guess - 1

/-- The nearest number to a ratio. Rounding up to `2 ^ 53` moves on to the next exponent, and past
the greatest exponent lies infinity. -/
def ofRatio (negative : Bool) (num den : Nat) : Double :=
  let exponent := max leastExponent (log2Ratio num den - 52)
  let significand :=
    if 0 ≤ exponent then roundDiv num (den * Nat.pow 2 exponent.toNat)
    else roundDiv (num * Nat.pow 2 (-exponent).toNat) den
  let (significand, exponent) :=
    if significand = Nat.pow 2 53 then (Nat.pow 2 52, exponent + 1) else (significand, exponent)
  if greatestExponent < exponent then infinity negative
  else finite negative significand exponent

/-- The nearest number to `digits * 10 ^ exponent`. Numbers from `10 ^ 309` on are infinite and
those below `10 ^ -324` zero, so no great power is formed for them. -/
def ofDecimal (negative : Bool) (digits : Nat) (exponent : Int) : Double :=
  if digits = 0 ∨ exponent + digits.log2 + 1 ≤ -324 then zero negative
  else if 309 ≤ exponent then infinity negative
  else if 0 ≤ exponent then ofRatio negative (digits * Nat.pow 10 exponent.toNat) 1
  else ofRatio negative digits (Nat.pow 10 (-exponent).toNat)

end ExprFront.Double
