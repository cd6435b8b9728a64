import ExprFront.Program
import ExprFront.Text.Separated

/-!
The written form of programs. Every operation stands in parentheses of its own, so the text shows
the tree whatever binds tighter.
-/

namespace ExprFront

mutual

def Expr.render : Expr → String
  | .number text _ => text
  | .var name => name
  | .unary op operand => "(" ++ op.symbol ++ operand.render ++ ")"
  | .binary op left right => "(" ++ left.render ++ " " ++ op.symbol ++ " " ++ right.render ++ ")"
  | .call function args => function ++ "(" ++ Text.commaSeparated (Expr.renderList args) ++ ")"

def Expr.renderList : List Expr → List String
  | [] => []
  | e :: es => e.render :: Expr.renderList es

end

mutual

/-- A statement on one line; the body of a definition follows its header, a space before each
statement. -/
def Statement.render : Statement → String
  | .assignment target value => target ++ " = " ++ value.render
  | .definition name params body =>
      "def " ++ name ++ "(" ++ Text.commaSeparated params ++ "):" ++ Statement.renderBody body
  | .returning value => "return " ++ value.render
  | .expression value => value.render

def Statement.renderBody : List Statement → String
  | [] => ""
  | s :: ss => " " ++ s.render ++ Statement.renderBody ss

end

/-- A program, each statement on a line that it ends. -/
def Program.render (p : Program) : String :=
  String.join (p.statements.map fun s => s.render ++ "\n")

theorem Expr.renderList_eq_map (es : List Expr) : Expr.renderList es = es.map Expr.render := by
  induction es with
  | nil => rfl
  | cons e es ih => simp [Expr.renderList, ih]

theorem Statement.renderBody_eq_join (ss : List Statement) :
    Statement.renderBody ss = String.join (ss.map fun s => " " ++ s.render) := by
  induction ss with
  | nil => rfl
  | cons s ss ih => simp [Statement.renderBody, ih]

end ExprFront
