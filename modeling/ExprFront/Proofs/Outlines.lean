import ExprFront.Program.Outline
import ExprFront.Proofs.Layouts
import ExprFront.Proofs.Quoted

/-!
The outlines of programs tell the programs. Every node is a group with the name of its kind, and its
texts are quoted, so that the names in a program cannot pass for parts of the tree.
-/

namespace ExprFront

open Outline

/-! Texts and operations. -/

theorem Outline.tells_ofText (text other : String) :
    Tells (ofText text) (ofText other) (text = other) :=
  tells_leaf Text.selfDelimiting_quoted text other

theorem Outline.opens_ofText (text : String) : Opens (ofText text) := by
  intro layout depth rest more heq
  rw [ofText, textAt_leaf, Text.quoted, String.toList_ofList] at heq
  exact absurd (List.head_eq_of_cons_eq heq) (by decide)

theorem Outline.tells_ofBool (b c : Bool) : Tells (ofBool b) (ofBool c) (b = c) := by
  cases b <;> cases c <;> exact (tells_words (by decide) (by decide)).imp (by decide)

theorem UnaryOp.tells_outline (op op' : UnaryOp) : Tells op.outline op'.outline (op = op') := by
  cases op <;> cases op' <;> exact (tells_words (by decide) (by decide)).imp (by decide)

theorem BinaryOp.tells_outline (op op' : BinaryOp) : Tells op.outline op'.outline (op = op') := by
  cases op <;> cases op' <;> exact (tells_words (by decide) (by decide)).imp (by decide)

/-! Expressions. -/

namespace Expr

theorem opens_outline (e : Expr) : Opens e.outline := by
  cases e <;> exact (Named.record (by decide)).opens _

theorem outlineList_eq_map (es : List Expr) : outlineList es = es.map outline := by
  induction es with
  | nil => rfl
  | cons e es ih => rw [outlineList, List.map_cons, ih]

mutual

/-- What is written for an expression, in either layout and whatever follows, tells the
expression. -/
theorem tells_outline : ∀ e e' : Expr, Tells e.outline e'.outline (e = e')
  | number text isFloat, e' => by
      cases e' with
      | number text' isFloat' =>
          have hparts := TellEach.cons ((tells_ofText text text').field "value")
            (.cons ((tells_ofBool isFloat isFloat').field "is_float") .nil)
          apply (hparts.group (.record "NumberLiteral")).imp
          rintro ⟨rfl, rfl, -⟩
          rfl
      | var _ | unary _ _ | binary _ _ _ | call _ _ =>
          exact tells_of_bracket_ne (.record (by decide)) (.record (by decide)) (by decide) _
  | var name, e' => by
      cases e' with
      | var name' =>
          have hparts := TellEach.cons ((tells_ofText name name').field "name") .nil
          apply (hparts.group (.record "Variable")).imp
          rintro ⟨rfl, -⟩
          rfl
      | number _ _ | unary _ _ | binary _ _ _ | call _ _ =>
          exact tells_of_bracket_ne (.record (by decide)) (.record (by decide)) (by decide) _
  | unary op operand, e' => by
      cases e' with
      | unary op' operand' =>
          have hparts := TellEach.cons ((op.tells_outline op').field "op")
            (.cons ((tells_outline operand operand').field "operand") .nil)
          apply (hparts.group (.record "UnaryOp")).imp
          rintro ⟨rfl, rfl, -⟩
          rfl
      | number _ _ | var _ | binary _ _ _ | call _ _ =>
          exact tells_of_bracket_ne (.record (by decide)) (.record (by decide)) (by decide) _
  | binary op left right, e' => by
      cases e' with
      | binary op' left' right' =>
          have hparts := TellEach.cons ((op.tells_outline op').field "op")
            (.cons ((tells_outline left left').field "left")
              (.cons ((tells_outline right right').field "right") .nil))
          apply (hparts.group (.record "BinaryOp")).imp
          rintro ⟨rfl, rfl, rfl, -⟩
          rfl
      | number _ _ | var _ | unary _ _ | call _ _ =>
          exact tells_of_bracket_ne (.record (by decide)) (.record (by decide)) (by decide) _
  | call function args, e' => by
      cases e' with
      | call function' args' =>
          have hargs := tells_list opens_outline (tells_outlineList args) args'
          have hparts := TellEach.cons ((tells_ofText function function').field "function")
            (.cons (hargs.field "args") .nil)
          simp only [outline, outlineList_eq_map]
          apply (hparts.group (.record "Call")).imp
          rintro ⟨rfl, rfl, -⟩
          rfl
      | number _ _ | var _ | unary _ _ | binary _ _ _ =>
          exact tells_of_bracket_ne (.record (by decide)) (.record (by decide)) (by decide) _

theorem tells_outlineList : ∀ (es : List Expr), ∀ e ∈ es, ∀ e' : Expr,
    Tells e.outline e'.outline (e = e')
  | [] => List.forall_mem_nil _
  | e :: es => List.forall_mem_cons.mpr ⟨tells_outline e, tells_outlineList es⟩

end

end Expr

/-! Statements. -/

namespace Statement

theorem opens_outline (s : Statement) : Opens s.outline := by
  cases s with
  | assignment _ _ | definition _ _ _ | returning _ =>
      exact (Named.record (by decide)).opens _
  | expression _ => exact (Named.tuple (by decide)).opens _

theorem outlineList_eq_map (ss : List Statement) : outlineList ss = ss.map outline := by
  induction ss with
  | nil => rfl
  | cons s ss ih => rw [outlineList, List.map_cons, ih]

mutual

theorem tells_outline : ∀ s s' : Statement, Tells s.outline s'.outline (s = s')
  | assignment target value, s' => by
      cases s' with
      | assignment target' value' =>
          have hparts := TellEach.cons ((tells_ofText target target').field "target")
            (.cons ((value.tells_outline value').field "value") .nil)
          apply (hparts.group (.record "Assignment")).imp
          rintro ⟨rfl, rfl, -⟩
          rfl
      | definition _ _ _ | returning _ =>
          exact tells_of_bracket_ne (.record (by decide)) (.record (by decide)) (by decide) _
      | expression _ =>
          exact tells_of_bracket_ne (.record (by decide)) (.tuple (by decide)) (by decide) _
  | definition name params body, s' => by
      cases s' with
      | definition name' params' body' =>
          have hparams : Tells (group .list (params.map ofText)) (group .list (params'.map ofText))
              (params = params') :=
            tells_list opens_ofText (fun param _ => tells_ofText param) params'
          have hbody := tells_list opens_outline (tells_outlineList body) body'
          have hparts := TellEach.cons ((tells_ofText name name').field "name")
            (.cons (hparams.field "params") (.cons (hbody.field "body") .nil))
          simp only [outline, outlineList_eq_map]
          apply (hparts.group (.record "FunctionDef")).imp
          rintro ⟨rfl, rfl, rfl, -⟩
          rfl
      | assignment _ _ | returning _ =>
          exact tells_of_bracket_ne (.record (by decide)) (.record (by decide)) (by decide) _
      | expression _ =>
          exact tells_of_bracket_ne (.record (by decide)) (.tuple (by decide)) (by decide) _
  | returning value, s' => by
      cases s' with
      | returning value' =>
          have hparts := TellEach.cons ((value.tells_outline value').field "value") .nil
          apply (hparts.group (.record "Return")).imp
          rintro ⟨rfl, -⟩
          rfl
      | assignment _ _ | definition _ _ _ =>
          exact tells_of_bracket_ne (.record (by decide)) (.record (by decide)) (by decide) _
      | expression _ =>
          exact tells_of_bracket_ne (.record (by decide)) (.tuple (by decide)) (by decide) _
  | expression value, s' => by
      cases s' with
      | expression value' =>
          have hparts := TellEach.cons (value.tells_outline value') .nil
          apply (hparts.group (.tuple "Expression")).imp
          rintro ⟨rfl, -⟩
          rfl
      | assignment _ _ | definition _ _ _ | returning _ =>
          exact tells_of_bracket_ne (.tuple (by decide)) (.record (by decide)) (by decide) _

theorem tells_outlineList : ∀ (ss : List Statement), ∀ s ∈ ss, ∀ s' : Statement,
    Tells s.outline s'.outline (s = s')
  | [] => List.forall_mem_nil _
  | s :: ss => List.forall_mem_cons.mpr ⟨tells_outline s, tells_outlineList ss⟩

end

end Statement

/-! Programs. -/

namespace Program

theorem tells_outline (p q : Program) : Tells p.outline q.outline (p = q) := by
  have hstatements := tells_list Statement.opens_outline
    (Statement.tells_outlineList p.statements) q.statements
  have hparts := TellEach.cons (hstatements.field "statements") .nil
  simp only [outline, Statement.outlineList_eq_map]
  apply (hparts.group (.record "Program")).imp
  rintro ⟨h, -⟩
  exact congrArg mk h

/-- In either layout the outlines of two programs have the same text only if the programs are the
same. What the names and numbers are, and where the statements stand, makes no difference. -/
theorem render_outline_eq_iff (p q : Program) (layout : Layout) :
    p.outline.render layout = q.outline.render layout ↔ p = q := by
  constructor
  · intro h
    have htext := congrArg String.toList h
    rw [toList_render, toList_render] at htext
    exact (tells_outline p q (congrArg (· ++ []) htext)).1
  · rintro rfl
    rfl

end Program

end ExprFront
