import ExprFront.Expr
import ExprFront.Phrase

/-!
The grammar of expressions:

    expression := term (("+" | "-") term)*
    term       := factor (("*" | "/") factor)*
    factor     := integer | float | identifier
                | identifier "(" [expression ("," expression)*] ")"
                | ("+" | "-") factor
                | "(" expression ")"

A call, a sign and a parenthesis each open a level, and what they hold is read with one level
fewer to open. The number of levels left is what the recursion is on.
-/

namespace ExprFront

namespace Expr

/-- The operation of an operator token, if it is one of those asked for. -/
def operation? (ops : List BinaryOp) (t : Token) : Option BinaryOp :=
  if t.kind = .operator then (BinaryOp.ofSymbol? t.text).filter (· ∈ ops) else none

/-- Operands with operations between them, which group to the left. -/
def chain (ops : List BinaryOp) (operand : Phrase Expr) : Phrase Expr := do
  let first ← operand
  Phrase.iterate
    (fun left => Phrase.after? (operation? ops) fun op => binary op left <$> operand)
    (fun _ => Phrase.after?_advances _ _) first

/-- Factors joined by products, and these joined by sums. -/
def sum (factor : Phrase Expr) : Phrase Expr :=
  chain BinaryOp.sums (chain BinaryOp.products factor)

/-- Opens a level at a token, where one is left. -/
def deeper (opener : Token) (inner : Option (Phrase Expr)) (body : Phrase Expr → Phrase Expr) :
    Phrase Expr :=
  match inner with
  | none => Phrase.failAt opener .shallowerExpression
  | some factor => body factor

/-- A factor, where `inner` reads the factors one level further in; there is none where no level
is left. -/
def factorWith (inner : Option (Phrase Expr)) : Phrase Expr := do
  let t ← Phrase.any .expression
  match t.kind with
  | .integer => return number t.text false
  | .float => return number t.text true
  | .identifier =>
      if ← Phrase.nextIs .punctuation "(" then
        deeper t inner fun factor => call t.text <$> Phrase.parenthesised fun _ => sum factor
      else
        return var t.text
  | .operator =>
      match UnaryOp.ofSymbol? t.text with
      | none => Phrase.failAt t .expression
      | some op => deeper t inner fun factor => unary op <$> factor
  | .punctuation =>
      if t.text = "(" then
        deeper t inner fun factor => do
          let e ← sum factor
          Phrase.expect .punctuation ")"
          return e
      else
        Phrase.failAt t .expression
  | _ => Phrase.failAt t .expression

/-- A factor with at most this many levels open at once. -/
def factor : Nat → Phrase Expr
  | 0 => factorWith none
  | levels + 1 => factorWith (some (factor levels))

/-- An expression with at most this many levels open at once. -/
def phrase (levels : Nat) : Phrase Expr :=
  sum (factor levels)

theorem chain_consumes (ops : List BinaryOp) {operand : Phrase Expr} (h : operand.Consumes) :
    (chain ops operand).Consumes :=
  h.bind _

theorem factorWith_consumes (inner : Option (Phrase Expr)) : (factorWith inner).Consumes :=
  (Phrase.any_consumes _).bind _

theorem factor_consumes (levels : Nat) : (factor levels).Consumes := by
  cases levels <;> exact factorWith_consumes _

theorem phrase_consumes (levels : Nat) : (phrase levels).Consumes :=
  chain_consumes _ (chain_consumes _ (factor_consumes levels))

end Expr

end ExprFront
