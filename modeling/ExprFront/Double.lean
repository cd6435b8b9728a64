/-!
Double-precision numbers: a sign, a significand of 53 bits and a power of two.
-/

namespace ExprFront

/-- A double-precision number. A finite one is `significand * 2 ^ exponent` with its sign, where
the significand is below `2 ^ 53` and, unless the exponent is the least, at least `2 ^ 52`. -/
inductive Double where
  | nan
  | infinity (negative : Bool)
  | finite (negative : Bool) (significand : Nat) (exponent : Int)
  deriving DecidableEq

namespace Double

def leastExponent : Int := -1074

def greatestExponent : Int := 971

def zero (negative : Bool) : Double :=
  finite negative 0 leastExponent

/-- Whether the sign is set. A number that is none has no sign. -/
def isNegative : Double → Bool
  | nan => false
  | infinity negative => negative
  | finite negative _ _ => negative

/-- The 64 bits of the interchange format, as a number: the sign, eleven bits of exponent, and the
significand without its leading bit. That bit, where it is set, adds one to the exponent. -/
def bits : Double → Nat
  | nan => 0x7ff8000000000000
  | infinity negative => negative.toNat * Nat.pow 2 63 + 0x7ff * Nat.pow 2 52
  | finite negative significand exponent =>
      negative.toNat * Nat.pow 2 63 + (exponent - leastExponent).toNat * Nat.pow 2 52 + significand

end Double

end ExprFront
