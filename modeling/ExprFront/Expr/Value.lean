import ExprFront.Numeral
import ExprFront.Expr

/-!
The values of literals.
-/

namespace ExprFront

/-- The double-precision value of a number whose text is a numeral. Other expressions have none. -/
def Expr.value? : Expr → Option Double
  | .number text _ => (Numeral.ofText? text.toList).map Numeral.value
  | _ => none

end ExprFront
