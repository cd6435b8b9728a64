import ExprFront.Program
import ExprFront.Proofs.Lexical

/-!
Well-formed programs: those whose names and numbers are texts of tokens, and whose statements
stand where a source could have them.
-/

namespace ExprFront

def Expr.numberKind (isFloat : Bool) : Token.Kind :=
  if isFloat then .float else .integer

mutual

/-- Names and numbers are texts of their tokens, at any depth. -/
def Expr.Spelled : Expr → Prop
  | .number text isFloat => (Expr.numberKind isFloat).Admits text
  | .var name => Token.Kind.identifier.Admits name
  | .unary _ operand => operand.Spelled
  | .binary _ left right => left.Spelled ∧ right.Spelled
  | .call function args => Token.Kind.identifier.Admits function ∧ Expr.SpelledList args

def Expr.SpelledList : List Expr → Prop
  | [] => True
  | e :: es => e.Spelled ∧ Expr.SpelledList es

end

mutual

def Statement.Spelled : Statement → Prop
  | .assignment target value => Token.Kind.identifier.Admits target ∧ value.Spelled
  | .definition name params body =>
      Token.Kind.identifier.Admits name ∧
        (∀ param ∈ params, Token.Kind.identifier.Admits param) ∧ Statement.SpelledList body
  | .returning value => value.Spelled
  | .expression value => value.Spelled

def Statement.SpelledList : List Statement → Prop
  | [] => True
  | s :: ss => s.Spelled ∧ Statement.SpelledList ss

end

def Statement.IsReturn : Statement → Prop
  | .returning _ => True
  | _ => False

theorem Statement.IsReturn.eq_returning {s : Statement} (h : s.IsReturn) :
    ∃ value, s = .returning value := by
  cases s with
  | returning value => exact ⟨value, rfl⟩
  | assignment target value => exact absurd h id
  | definition name params body => exact absurd h id
  | expression value => exact absurd h id

/-- A statement as it may stand outside of bodies: the body of a definition holds nothing but
returns, and they stand nowhere else. -/
def Statement.Placed : Statement → Prop
  | .definition _ _ body => ∀ s ∈ body, s.IsReturn
  | .returning _ => False
  | _ => True

def Statement.Distinct : Statement → Prop
  | .definition _ params _ => params.Nodup
  | _ => True

structure Program.WellFormed (p : Program) : Prop where
  spelled : Statement.SpelledList p.statements
  placed : ∀ s ∈ p.statements, s.Placed
  distinct : ∀ s ∈ p.statements, s.Distinct

end ExprFront
