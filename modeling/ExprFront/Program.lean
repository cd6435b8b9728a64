import ExprFront.Expr

/-!
Programs: lists of assignments, function definitions and expressions.
-/

namespace ExprFront

/-- A statement. A source has `returning` only in the body of a definition, and nothing else there;
a tree built by hand may have any statement anywhere. -/
inductive Statement where
  | assignment (target : String) (value : Expr)
  | definition (name : String) (params : List String) (body : List Statement)
  | returning (value : Expr)
  | expression (value : Expr)

namespace Statement

mutual

def beq : Statement → Statement → Bool
  | assignment x v, assignment y w => x == y && v == w
  | definition f ps b, definition g qs c => f == g && ps == qs && beqList b c
  | returning v, returning w => v == w
  | expression v, expression w => v == w
  | _, _ => false

def beqList : List Statement → List Statement → Bool
  | [], [] => true
  | s :: ss, t :: ts => s.beq t && beqList ss ts
  | _, _ => false

end

mutual

theorem beq_iff : ∀ s t : Statement, s.beq t = true ↔ s = t
  | assignment x v, t => by cases t <;> simp [beq]
  | definition f ps b, t => by
      cases t with
      | definition g qs c => simp [beq, beqList_iff b c, and_assoc]
      | _ => simp [beq]
  | returning v, t => by cases t <;> simp [beq]
  | expression v, t => by cases t <;> simp [beq]

theorem beqList_iff : ∀ ss ts : List Statement, beqList ss ts = true ↔ ss = ts
  | [], ts => by cases ts <;> simp [beqList]
  | s :: ss, ts => by
      cases ts with
      | nil => simp [beqList]
      | cons t ts => simp [beqList, beq_iff s t, beqList_iff ss ts]

end

instance : DecidableEq Statement := fun s t => decidable_of_iff _ (beq_iff s t)

end Statement

structure Program where
  statements : List Statement
  deriving DecidableEq

end ExprFront
