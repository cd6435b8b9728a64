import ExprFront.Expr.Phrase
import ExprFront.Program

/-!
Reading as a machine that takes the tokens one by one. What the reader of phrases keeps in its calls
is here part of a state, so that a reading can be cut off after any token and gone on with.
-/

namespace ExprFront.Machine

/-- What an expression under way is part of. All but a left operand hold a level open. Earlier
arguments stand last first. -/
inductive Frame where
  | left (operand : Expr) (op : BinaryOp)
  | sign (op : UnaryOp)
  | parens
  | argument (function : String) (earlier : List Expr)

/-- What the value under way is the value of. Earlier statements of a body stand last first. -/
inductive Owner where
  | expression
  | assignment (target : String)
  | returning (name : String) (params : List String) (body : List Statement)

/-- What the tokens so far leave due in the statement under way. Frames stand innermost first and
parameters last first. -/
inductive Stage where
  | start
  | named (t : Token)
  | factor (frames : List Frame) (owner : Owner)
  | name (t : Token) (frames : List Frame) (owner : Owner)
  | opened (function : String) (frames : List Frame) (owner : Owner)
  | operand (e : Expr) (frames : List Frame) (owner : Owner)
  | functionName
  | openParameters (name : String)
  | firstParameter (name : String)
  | parameter (name : String) (params : List String)
  | moreParameters (name : String) (params : List String)
  | colon (name : String) (params : List String)
  | body (name : String) (params : List String) (body : List Statement)

/-- The statements that are complete, last first, and the stage of the one under way. -/
structure State where
  done : List Statement
  stage : Stage

def Frame.level : Frame → Nat
  | left _ _ => 0
  | _ => 1

/-- The levels that frames hold open. -/
def levels : List Frame → Nat
  | [] => 0
  | frame :: frames => levels frames + frame.level

def Owner.statement (e : Expr) : Owner → Statement
  | expression => .expression e
  | assignment target => .assignment target e
  | returning _ _ _ => .returning e

/-- Completes the signs and the given operations that end with an operand. -/
def settle (ops : List BinaryOp) : Expr → List Frame → Expr × List Frame
  | e, .sign op :: frames => settle ops (.unary op e) frames
  | e, .left operand op :: frames =>
      if op ∈ ops then settle ops (.binary op operand e) frames
      else (e, .left operand op :: frames)
  | e, frames => (e, frames)

def operations : List BinaryOp := BinaryOp.products ++ BinaryOp.sums

section

variable (limit : Nat) (done : List Statement)

/-- Opens a level at a token, where the limit allows one more. -/
def enter (opener : Token) (frames : List Frame) (stage : Stage) : Except ParseError State :=
  if levels frames < limit then .ok ⟨done, stage⟩ else .error ⟨opener, .shallowerExpression⟩

def onFactor (frames : List Frame) (owner : Owner) : Option Token → Except ParseError State
  | none => .error ⟨none, .expression⟩
  | some t =>
      match t.kind with
      | .integer => .ok ⟨done, .operand (.number t.text false) frames owner⟩
      | .float => .ok ⟨done, .operand (.number t.text true) frames owner⟩
      | .identifier => .ok ⟨done, .name t frames owner⟩
      | .operator =>
          match UnaryOp.ofSymbol? t.text with
          | none => .error ⟨t, .expression⟩
          | some op => enter limit done t frames (.factor (.sign op :: frames) owner)
      | .punctuation =>
          if t.text = "(" then enter limit done t frames (.factor (.parens :: frames) owner)
          else .error ⟨t, .expression⟩
      | _ => .error ⟨t, .expression⟩

def onStart : Option Token → Except ParseError State
  | none => .ok ⟨done, .start⟩
  | some t =>
      if t.is .keyword "def" then .ok ⟨done, .functionName⟩
      else if t.kind = .identifier then .ok ⟨done, .named t⟩
      else onFactor limit done [] .expression t

def onBody (name : String) (params : List String) (body : List Statement) (t? : Option Token) :
    Except ParseError State :=
  if t?.any (·.is .keyword "return") then .ok ⟨done, .factor [] (.returning name params body)⟩
  else onStart limit (.definition name params body.reverse :: done) t?

def onValue (e : Expr) (frames : List Frame) (owner : Owner) (t? : Option Token) :
    Except ParseError State :=
  match frames with
  | .parens :: frames =>
      if t?.any (·.is .punctuation ")") then .ok ⟨done, .operand e frames owner⟩
      else .error ⟨t?, .symbol ")"⟩
  | .argument function earlier :: frames =>
      if t?.any (·.is .punctuation ",") then
        .ok ⟨done, .factor (.argument function (e :: earlier) :: frames) owner⟩
      else if t?.any (·.is .punctuation ")") then
        .ok ⟨done, .operand (.call function (e :: earlier).reverse) frames owner⟩
      else .error ⟨t?, .symbol ")"⟩
  | _ =>
      match owner with
      | .returning name params body => onBody limit done name params (.returning e :: body) t?
      | _ => onStart limit (owner.statement e :: done) t?

/-- Goes on after a factor: a product binds tighter than what is left of a sum. -/
def onOperand (e : Expr) (frames : List Frame) (owner : Owner) (t? : Option Token) :
    Except ParseError State :=
  match t?.bind (Expr.operation? BinaryOp.products) with
  | some op =>
      let (left, frames) := settle BinaryOp.products e frames
      .ok ⟨done, .factor (.left left op :: frames) owner⟩
  | none =>
      let (left, frames) := settle operations e frames
      match t?.bind (Expr.operation? BinaryOp.sums) with
      | some op => .ok ⟨done, .factor (.left left op :: frames) owner⟩
      | none => onValue limit done left frames owner t?

def onName (t : Token) (frames : List Frame) (owner : Owner) (t? : Option Token) :
    Except ParseError State :=
  if t?.any (·.is .punctuation "(") then enter limit done t frames (.opened t.text frames owner)
  else onOperand limit done (.var t.text) frames owner t?

def onParameter (name : String) (params : List String) : Option Token → Except ParseError State
  | none => .error ⟨none, .parameterName⟩
  | some t =>
      if t.kind = .identifier then
        if t.text ∈ params then .error ⟨t, .freshParameterName⟩
        else .ok ⟨done, .moreParameters name (t.text :: params)⟩
      else .error ⟨t, .parameterName⟩

end

/-- The state after the next token, or after the end of the input. -/
def step (limit : Nat) (s : State) (t? : Option Token) : Except ParseError State :=
  match s.stage with
  | .start => onStart limit s.done t?
  | .named t =>
      if t?.any (·.is .operator "=") then .ok ⟨s.done, .factor [] (.assignment t.text)⟩
      else onName limit s.done t [] .expression t?
  | .factor frames owner => onFactor limit s.done frames owner t?
  | .name t frames owner => onName limit s.done t frames owner t?
  | .opened function frames owner =>
      if t?.any (·.is .punctuation ")") then
        .ok ⟨s.done, .operand (.call function []) frames owner⟩
      else onFactor limit s.done (.argument function [] :: frames) owner t?
  | .operand e frames owner => onOperand limit s.done e frames owner t?
  | .functionName =>
      match t? with
      | none => .error ⟨none, .functionName⟩
      | some t =>
          if t.kind = .identifier then .ok ⟨s.done, .openParameters t.text⟩
          else .error ⟨t, .functionName⟩
  | .openParameters name =>
      if t?.any (·.is .punctuation "(") then .ok ⟨s.done, .firstParameter name⟩
      else .error ⟨t?, .symbol "("⟩
  | .firstParameter name =>
      if t?.any (·.is .punctuation ")") then .ok ⟨s.done, .colon name []⟩
      else onParameter s.done name [] t?
  | .parameter name params => onParameter s.done name params t?
  | .moreParameters name params =>
      if t?.any (·.is .punctuation ",") then .ok ⟨s.done, .parameter name params⟩
      else if t?.any (·.is .punctuation ")") then .ok ⟨s.done, .colon name params⟩
      else .error ⟨t?, .symbol ")"⟩
  | .colon name params =>
      if t?.any (·.is .punctuation ":") then .ok ⟨s.done, .body name params.reverse []⟩
      else .error ⟨t?, .symbol ":"⟩
  | .body name params body => onBody limit s.done name params body t?

/-- Takes the tokens one by one and then the end of the input, which no statement under way may
come to before it is complete. -/
def run (limit : Nat) (s : State) : List Token → Except ParseError Program
  | [] => (step limit s none).map fun s => ⟨s.done.reverse⟩
  | t :: ts => (step limit s t).bind fun s => run limit s ts

variable (limit : Nat) (done : List Statement)

theorem step_factor_some (t : Token) (frames : List Frame) (owner : Owner) :
    step limit ⟨done, .factor frames owner⟩ (some t) =
      match t.kind with
      | .integer => .ok ⟨done, .operand (.number t.text false) frames owner⟩
      | .float => .ok ⟨done, .operand (.number t.text true) frames owner⟩
      | .identifier => .ok ⟨done, .name t frames owner⟩
      | .operator =>
          match UnaryOp.ofSymbol? t.text with
          | none => .error ⟨t, .expression⟩
          | some op => enter limit done t frames (.factor (.sign op :: frames) owner)
      | .punctuation =>
          if t.text = "(" then enter limit done t frames (.factor (.parens :: frames) owner)
          else .error ⟨t, .expression⟩
      | _ => .error ⟨t, .expression⟩ := rfl

theorem step_named (t : Token) (t? : Option Token) :
    step limit ⟨done, .named t⟩ t? =
      if t?.any (·.is .operator "=") then .ok ⟨done, .factor [] (.assignment t.text)⟩
      else step limit ⟨done, .name t [] .expression⟩ t? := rfl

theorem step_name (t : Token) (frames : List Frame) (owner : Owner) (t? : Option Token) :
    step limit ⟨done, .name t frames owner⟩ t? =
      if t?.any (·.is .punctuation "(") then
        enter limit done t frames (.opened t.text frames owner)
      else step limit ⟨done, .operand (.var t.text) frames owner⟩ t? := rfl

theorem step_opened (function : String) (frames : List Frame) (owner : Owner)
    (t? : Option Token) :
    step limit ⟨done, .opened function frames owner⟩ t? =
      if t?.any (·.is .punctuation ")") then
        .ok ⟨done, .operand (.call function []) frames owner⟩
      else step limit ⟨done, .factor (.argument function [] :: frames) owner⟩ t? := rfl

theorem step_functionName_some (t : Token) :
    step limit ⟨done, .functionName⟩ (some t) =
      if t.kind = .identifier then .ok ⟨done, .openParameters t.text⟩
      else .error ⟨t, .functionName⟩ := rfl

theorem step_openParameters (name : String) (t? : Option Token) :
    step limit ⟨done, .openParameters name⟩ t? =
      if t?.any (·.is .punctuation "(") then .ok ⟨done, .firstParameter name⟩
      else .error ⟨t?, .symbol "("⟩ := rfl

theorem step_firstParameter (name : String) (t? : Option Token) :
    step limit ⟨done, .firstParameter name⟩ t? =
      if t?.any (·.is .punctuation ")") then .ok ⟨done, .colon name []⟩
      else step limit ⟨done, .parameter name []⟩ t? := rfl

theorem step_parameter_some (name : String) (params : List String) (t : Token) :
    step limit ⟨done, .parameter name params⟩ (some t) =
      if t.kind = .identifier then
        if t.text ∈ params then .error ⟨t, .freshParameterName⟩
        else .ok ⟨done, .moreParameters name (t.text :: params)⟩
      else .error ⟨t, .parameterName⟩ := rfl

theorem step_moreParameters (name : String) (params : List String) (t? : Option Token) :
    step limit ⟨done, .moreParameters name params⟩ t? =
      if t?.any (·.is .punctuation ",") then .ok ⟨done, .parameter name params⟩
      else if t?.any (·.is .punctuation ")") then .ok ⟨done, .colon name params⟩
      else .error ⟨t?, .symbol ")"⟩ := rfl

theorem step_colon (name : String) (params : List String) (t? : Option Token) :
    step limit ⟨done, .colon name params⟩ t? =
      if t?.any (·.is .punctuation ":") then .ok ⟨done, .body name params.reverse []⟩
      else .error ⟨t?, .symbol ":"⟩ := rfl

theorem step_body (name : String) (params : List String) (body : List Statement)
    (t? : Option Token) :
    step limit ⟨done, .body name params body⟩ t? =
      if t?.any (·.is .keyword "return") then
        .ok ⟨done, .factor [] (.returning name params body)⟩
      else step limit ⟨.definition name params body.reverse :: done, .start⟩ t? := rfl

end ExprFront.Machine
