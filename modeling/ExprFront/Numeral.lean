import ExprFront.Double.Rounding

/-!
Numerals: the texts that stand for double-precision numbers.

    numeral  := ["+" | "-"] (word | decimal)
    word     := "inf" | "infinity" | "nan", in letters of either case
    decimal  := (digits ["." [digits]] | "." digits) [("e" | "E") ["+" | "-"] digits]
-/

namespace ExprFront

/-- What a numeral says, before any rounding. -/
inductive Numeral where
  | nan
  | infinity (negative : Bool)
  | decimal (negative : Bool) (digits : Nat) (exponent : Int)
  deriving DecidableEq

namespace Numeral

/-- A sign at the front of a text, and what follows it. -/
def splitSign : List Char → Bool × List Char
  | '-' :: cs => (true, cs)
  | '+' :: cs => (false, cs)
  | cs => (false, cs)

def ofDigits (cs : List Char) : Nat :=
  cs.foldl (fun n c => 10 * n + (c.toNat - '0'.toNat)) 0

/-- The digits after a point, and what follows them. -/
def splitFraction : List Char → List Char × List Char
  | '.' :: cs => (cs.takeWhile Char.isDigit, cs.dropWhile Char.isDigit)
  | cs => ([], cs)

/-- An exponent: nothing, or a letter and a whole number. -/
def exponent? : List Char → Option Int
  | [] => some 0
  | c :: cs =>
      let (negative, digits) := splitSign cs
      if (c = 'e' ∨ c = 'E') ∧ digits ≠ [] ∧ digits.all Char.isDigit then
        some (if negative then -(ofDigits digits : Int) else ofDigits digits)
      else none

def unsigned? (negative : Bool) (cs : List Char) : Option Numeral :=
  let word := String.ofList (cs.map Char.toLower)
  if word = "nan" then some nan
  else if word = "inf" ∨ word = "infinity" then some (infinity negative)
  else
    let whole := cs.takeWhile Char.isDigit
    let (fraction, rest) := splitFraction (cs.dropWhile Char.isDigit)
    if whole = [] ∧ fraction = [] then none
    else
      (exponent? rest).map fun exponent =>
        decimal negative (ofDigits (whole ++ fraction)) (exponent - fraction.length)

def ofText? (cs : List Char) : Option Numeral :=
  let (negative, cs) := splitSign cs
  unsigned? negative cs

def value : Numeral → Double
  | nan => .nan
  | infinity negative => .infinity negative
  | decimal negative digits exponent => .ofDecimal negative digits exponent

end Numeral

end ExprFront
