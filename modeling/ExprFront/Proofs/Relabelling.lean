import ExprFront.Program.Phrase

/-!
Other labels: names and literals exchanged for others, and tokens put in other places, while kinds,
keywords and signs stay. What exchanges labels in tokens exchanges them in trees and errors too.
-/

namespace ExprFront

/-- Labels to put in the place of others. Different names stay different. -/
structure Relabelling where
  name : String → String
  literal : String → String
  place : Position → Position
  name_injective : Function.Injective name

namespace Relabelling

variable (m : Relabelling)

def text (text : String) : Token.Kind → String
  | .identifier => m.name text
  | .integer | .float | .string => m.literal text
  | .keyword | .operator | .punctuation => text

def token (t : Token) : Token :=
  ⟨t.kind, m.text t.text t.kind, m.place t.position⟩

mutual

def expr : Expr → Expr
  | .number text isFloat => .number (m.literal text) isFloat
  | .var name => .var (m.name name)
  | .unary op operand => .unary op (expr operand)
  | .binary op left right => .binary op (expr left) (expr right)
  | .call function args => .call (m.name function) (exprs args)

def exprs : List Expr → List Expr
  | [] => []
  | e :: es => expr e :: exprs es

end

mutual

def statement : Statement → Statement
  | .assignment target value => .assignment (m.name target) (m.expr value)
  | .definition name params body =>
      .definition (m.name name) (params.map m.name) (statements body)
  | .returning value => .returning (m.expr value)
  | .expression value => .expression (m.expr value)

def statements : List Statement → List Statement
  | [] => []
  | s :: ss => statement s :: statements ss

end

def program (p : Program) : Program :=
  ⟨m.statements p.statements⟩

def error (x : ParseError) : ParseError :=
  ⟨x.found.map m.token, x.expected⟩

def outcome {α : Type} (value : α → α) : Except ParseError α → Except ParseError α
  | .ok a => .ok (value a)
  | .error x => .error (m.error x)

theorem exprs_eq_map (es : List Expr) : m.exprs es = es.map m.expr := by
  induction es with
  | nil => rfl
  | cons e es ih => rw [exprs, List.map_cons, ih]

theorem statements_eq_map (ss : List Statement) : m.statements ss = ss.map m.statement := by
  induction ss with
  | nil => rfl
  | cons s ss ih => rw [statements, List.map_cons, ih]

/-! Tests on tokens. -/

@[simp] theorem token_kind (t : Token) : (m.token t).kind = t.kind := rfl

theorem token_text_of_identifier {t : Token} (h : t.kind = .identifier) :
    (m.token t).text = m.name t.text := by
  rw [token, h]
  rfl

theorem token_is {kind : Token.Kind} (hkind : ∀ text, m.text text kind = text) (t : Token)
    (text : String) : (m.token t).is kind text = t.is kind text := by
  by_cases h : t.kind = kind
  · simp [Token.is, token, h, hkind]
  · simp [Token.is, h]

theorem any_token_is {kind : Token.Kind} (hkind : ∀ text, m.text text kind = text)
    (t? : Option Token) (text : String) :
    (t?.map m.token).any (·.is kind text) = t?.any (·.is kind text) := by
  cases t? with
  | none => rfl
  | some t => exact m.token_is hkind t text

theorem any_keyword (t? : Option Token) (text : String) :
    (t?.map m.token).any (·.is .keyword text) = t?.any (·.is .keyword text) :=
  m.any_token_is (fun _ => rfl) t? text

theorem any_operator (t? : Option Token) (text : String) :
    (t?.map m.token).any (·.is .operator text) = t?.any (·.is .operator text) :=
  m.any_token_is (fun _ => rfl) t? text

theorem any_punctuation (t? : Option Token) (text : String) :
    (t?.map m.token).any (·.is .punctuation text) = t?.any (·.is .punctuation text) :=
  m.any_token_is (fun _ => rfl) t? text

theorem operation?_token (ops : List BinaryOp) (t : Token) :
    Expr.operation? ops (m.token t) = Expr.operation? ops t := by
  by_cases h : t.kind = .operator
  · simp [Expr.operation?, token, h, text]
  · simp [Expr.operation?, h]

theorem bind_operation?_token (ops : List BinaryOp) (t? : Option Token) :
    (t?.map m.token).bind (Expr.operation? ops) = t?.bind (Expr.operation? ops) := by
  cases t? with
  | none => rfl
  | some t => exact m.operation?_token ops t

end Relabelling

end ExprFront
