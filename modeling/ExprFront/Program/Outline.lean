import ExprFront.Outline
import ExprFront.Program
import ExprFront.Text.Quoted

/-!
The outlines of programs: one group for each node, with its kind and its parts by name.
-/

namespace ExprFront

open Outline

def UnaryOp.outline : UnaryOp → Outline
  | plus => leaf "Plus"
  | minus => leaf "Minus"

def BinaryOp.outline : BinaryOp → Outline
  | add => leaf "Add"
  | subtract => leaf "Subtract"
  | multiply => leaf "Multiply"
  | divide => leaf "Divide"

def Outline.ofText (text : String) : Outline :=
  leaf (Text.quoted text)

def Outline.ofBool (b : Bool) : Outline :=
  leaf (if b then "true" else "false")

mutual

def Expr.outline : Expr → Outline
  | .number text isFloat =>
      group (.record "NumberLiteral")
        [field "value" (.ofText text), field "is_float" (.ofBool isFloat)]
  | .var name => group (.record "Variable") [field "name" (.ofText name)]
  | .unary op operand =>
      group (.record "UnaryOp") [field "op" op.outline, field "operand" operand.outline]
  | .binary op left right =>
      group (.record "BinaryOp")
        [field "op" op.outline, field "left" left.outline, field "right" right.outline]
  | .call function args =>
      group (.record "Call")
        [field "function" (.ofText function), field "args" (group .list (Expr.outlineList args))]

def Expr.outlineList : List Expr → List Outline
  | [] => []
  | e :: es => e.outline :: Expr.outlineList es

end

mutual

def Statement.outline : Statement → Outline
  | .assignment target value =>
      group (.record "Assignment") [field "target" (.ofText target), field "value" value.outline]
  | .definition name params body =>
      group (.record "FunctionDef")
        [field "name" (.ofText name), field "params" (group .list (params.map .ofText)),
          field "body" (group .list (Statement.outlineList body))]
  | .returning value => group (.record "Return") [field "value" value.outline]
  | .expression value => group (.tuple "Expression") [value.outline]

def Statement.outlineList : List Statement → List Outline
  | [] => []
  | s :: ss => s.outline :: Statement.outlineList ss

end

def Program.outline (p : Program) : Outline :=
  group (.record "Program") [field "statements" (group .list (Statement.outlineList p.statements))]

end ExprFront
