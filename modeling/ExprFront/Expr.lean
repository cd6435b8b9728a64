/-!
Expressions: literals, variables, signs, the four binary operations and calls.
-/

namespace ExprFront

inductive UnaryOp where
  | plus
  | minus
  deriving DecidableEq

inductive BinaryOp where
  | add
  | subtract
  | multiply
  | divide
  deriving DecidableEq

namespace UnaryOp

def symbol : UnaryOp → String
  | plus => "+"
  | minus => "-"

def ofSymbol? (text : String) : Option UnaryOp :=
  [plus, minus].find? (·.symbol = text)

theorem ofSymbol?_symbol (op : UnaryOp) : ofSymbol? op.symbol = some op := by
  cases op <;> decide

theorem symbol_of_ofSymbol? {text : String} {op : UnaryOp} (h : ofSymbol? text = some op) :
    op.symbol = text := by
  simpa using List.find?_some h

end UnaryOp

namespace BinaryOp

def symbol : BinaryOp → String
  | add => "+"
  | subtract => "-"
  | multiply => "*"
  | divide => "/"

def ofSymbol? (text : String) : Option BinaryOp :=
  [add, subtract, multiply, divide].find? (·.symbol = text)

theorem ofSymbol?_symbol (op : BinaryOp) : ofSymbol? op.symbol = some op := by
  cases op <;> decide

theorem symbol_of_ofSymbol? {text : String} {op : BinaryOp} (h : ofSymbol? text = some op) :
    op.symbol = text := by
  simpa using List.find?_some h

def sums : List BinaryOp := [add, subtract]

def products : List BinaryOp := [multiply, divide]

end BinaryOp

/-- An expression. A number is kept as it was written; parentheses leave no trace of their own. -/
inductive Expr where
  | number (text : String) (isFloat : Bool)
  | var (name : String)
  | unary (op : UnaryOp) (operand : Expr)
  | binary (op : BinaryOp) (left right : Expr)
  | call (function : String) (args : List Expr)

namespace Expr

mutual

def beq : Expr → Expr → Bool
  | number s f, number t g => s == t && f == g
  | var a, var b => a == b
  | unary op a, unary op' b => op == op' && a.beq b
  | binary op a b, binary op' c d => op == op' && a.beq c && b.beq d
  | call f as, call g bs => f == g && beqList as bs
  | _, _ => false

def beqList : List Expr → List Expr → Bool
  | [], [] => true
  | a :: as, b :: bs => a.beq b && beqList as bs
  | _, _ => false

end

mutual

theorem beq_iff : ∀ a b : Expr, a.beq b = true ↔ a = b
  | number s f, b => by cases b <;> simp [beq]
  | var a, b => by cases b <;> simp [beq]
  | unary op a, b => by
      cases b with
      | unary op' b => simp [beq, beq_iff a b]
      | _ => simp [beq]
  | binary op a a', b => by
      cases b with
      | binary op' b b' => simp [beq, beq_iff a b, beq_iff a' b', and_assoc]
      | _ => simp [beq]
  | call f as, b => by
      cases b with
      | call g bs => simp [beq, beqList_iff as bs]
      | _ => simp [beq]

theorem beqList_iff : ∀ as bs : List Expr, beqList as bs = true ↔ as = bs
  | [], bs => by cases bs <;> simp [beqList]
  | a :: as, bs => by
      cases bs with
      | nil => simp [beqList]
      | cons b bs => simp [beqList, beq_iff a b, beqList_iff as bs]

end

instance : DecidableEq Expr := fun a b => decidable_of_iff _ (beq_iff a b)

end Expr

end ExprFront
