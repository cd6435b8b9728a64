import ExprFront.Proofs.Counter.Descent

/-!
Reading by an index into a token list that stays as it is. The index goes to the next token or
stays, and nothing says that a reading ends: the loops and the functions that call each other are
least solutions of their equations, and one that went on for ever would come to nothing.
-/

namespace ExprFront

/-- The loops of the grammar. -/
inductive Loop where
  | statements
  | parameters
  | returns
  | sums
  | products
  | arguments
  deriving DecidableEq

/-- A round of a loop that goes on to another: the index of the token at which it began, and that
of the token at which the next one begins. -/
structure Round where
  loop : Loop
  first : Nat
  next : Nat
  deriving DecidableEq

/-- How far a reading has come: the index of the token ahead, how many levels are open, and all
rounds so far that went on to another. -/
structure Walker where
  place : Nat
  depth : Nat
  rounds : List Round
  deriving DecidableEq

namespace Walker

def start : Walker := ⟨0, 0, []⟩

def leave (w : Walker) : Walker := { w with depth := w.depth - 1 }

end Walker

/-- A way to read a value that moves a walker, also where it fails. There is no outcome where it
goes on for ever. -/
abbrev Walk (α : Type) : Type :=
  ExceptT ParseError (StateT Walker Option) α

namespace Walk

variable {α : Type} (ts : List Token)

/-! Single tokens. -/

def here : Walk Nat :=
  return (← get).place

def peek : Walk (Option Token) :=
  return ts[(← get).place]?

def lookahead (n : Nat) : Walk (Option Token) :=
  return ts[(← get).place + n]?

def atEnd : Walk Bool :=
  return ts.length ≤ (← get).place

def advance : Walk Unit :=
  modify fun w => if w.place < ts.length then { w with place := w.place + 1 } else w

def check (kind : Token.Kind) (text : String) : Walk Bool :=
  return (← peek ts).any (·.is kind text)

/-- The value of the next token, which is passed, or nothing, and then the token stays. -/
def eat (value? : Token → Option α) : Walk (Option α) := do
  match (← peek ts).bind value? with
  | none => return none
  | some a =>
      advance ts
      return some a

/-- The value of the next token, which is passed, where it has one. -/
def take (value? : Token → Option α) (expected : Expected) : Walk α := do
  let found ← peek ts
  match ← eat ts value? with
  | none => throw ⟨found, expected⟩
  | some a => return a

def sign? (kind : Token.Kind) (text : String) (t : Token) : Option Unit :=
  if t.is kind text then some () else none

def name? (t : Token) : Option String :=
  if t.kind = .identifier then some t.text else none

def expect (kind : Token.Kind) (text : String) : Walk Unit :=
  take ts (sign? kind text) (.symbol text)

def identifier (expected : Expected) : Walk String :=
  take ts name? expected

/-! Levels and rounds. -/

/-- Opens a level at a token. Whoever opens it closes it. -/
def enter (limit : Nat) (opener : Token) : Walk Unit := do
  if limit ≤ (← get).depth then throw ⟨opener, .shallowerExpression⟩
  else modify fun w => { w with depth := w.depth + 1 }

/-- Notes that a loop goes on to another round here. -/
def goOn (loop : Loop) (first : Nat) : Walk Unit :=
  modify fun w => { w with rounds := w.rounds ++ [⟨loop, first, w.place⟩] }

/-- A list in parentheses, whose items are read from the first one on and stand last first. -/
def parenthesised (items : Walk (List α)) : Walk (List α) := do
  expect ts .punctuation "("
  let reversed ← if ← check ts .punctuation ")" then pure [] else items
  expect ts .punctuation ")"
  return reversed.reverse

end Walk

/-- The tokens that are read, and how many levels may be open at once. -/
structure Reader where
  tokens : List Token
  limit : Nat

namespace Reader

open Walk

/-! Expressions. -/

mutual

def read (r : Reader) : Nonterminal → Walk Expr
  | .expression => r |>.chain .sums BinaryOp.sums .term
  | .term => r |>.chain .products BinaryOp.products .factor
  | .factor => r |>.factor
  | .call function => r |>.call function
partial_fixpoint

def chain (r : Reader) (loop : Loop) (ops : List BinaryOp) (operand : Nonterminal) :
    Walk Expr := do
  let left ← r |>.read operand
  r |>.operations loop ops operand left
partial_fixpoint

/-- The operations after an operand that is already read. -/
def operations (r : Reader) (loop : Loop) (ops : List BinaryOp) (operand : Nonterminal)
    (left : Expr) : Walk Expr := do
  let first ← here
  match ← eat r.tokens (Expr.operation? ops) with
  | none => return left
  | some op =>
      let right ← r |>.read operand
      goOn loop first
      r |>.operations loop ops operand (.binary op left right)
partial_fixpoint

def factor (r : Reader) : Walk Expr := do
  match ← peek r.tokens with
  | none => throw ⟨none, .expression⟩
  | some t =>
      match t.kind with
      | .integer =>
          advance r.tokens
          return .number t.text false
      | .float =>
          advance r.tokens
          return .number t.text true
      | .identifier =>
          advance r.tokens
          if ← check r.tokens .punctuation "(" then
            enter r.limit t
            -- What the level holds may fail, and the level is closed all the same. A function
            -- for this would hide the call from the recursion, so it is written out each time.
            fun w => do
              let (outcome, w) ← r |>.read (.call t.text) w
              return (outcome, w.leave)
          else
            return .var t.text
      | .operator =>
          match UnaryOp.ofSymbol? t.text with
          | none => throw ⟨t, .expression⟩
          | some op =>
              advance r.tokens
              enter r.limit t
              let operand ← fun w => do
                let (outcome, w) ← r |>.read .factor w
                return (outcome, w.leave)
              return .unary op operand
      | .punctuation =>
          if t.text = "(" then
            advance r.tokens
            enter r.limit t
            let e ← fun w => do
              let (outcome, w) ← r |>.read .expression w
              return (outcome, w.leave)
            expect r.tokens .punctuation ")"
            return e
          else
            throw ⟨t, .expression⟩
      | _ => throw ⟨t, .expression⟩
partial_fixpoint

def call (r : Reader) (function : String) : Walk Expr := do
  expect r.tokens .punctuation "("
  let args ← if ← check r.tokens .punctuation ")" then pure [] else r |>.arguments []
  expect r.tokens .punctuation ")"
  return .call function args.reverse
partial_fixpoint

/-- The arguments from the next one on, with those before it; they stand last first. -/
def arguments (r : Reader) (done : List Expr) : Walk (List Expr) := do
  let first ← here
  let e ← r |>.read .expression
  match ← eat r.tokens (sign? .punctuation ",") with
  | none => return e :: done
  | some () =>
      goOn .arguments first
      r |>.arguments (e :: done)
partial_fixpoint

end

/-! Statements. -/

def parameter (r : Reader) (earlier : List String) : Walk String := do
  let found ← peek r.tokens
  let name ← identifier r.tokens .parameterName
  if name ∈ earlier then throw ⟨found, .freshParameterName⟩ else return name

/-- The parameters from the next one on, with those before it; they stand last first. -/
def parameters (r : Reader) (done : List String) : Walk (List String) := do
  let first ← here
  let name ← r |>.parameter done
  match ← eat r.tokens (sign? .punctuation ",") with
  | none => return name :: done
  | some () =>
      goOn .parameters first
      r |>.parameters (name :: done)
partial_fixpoint

def returning (r : Reader) : Walk Statement := do
  expect r.tokens .keyword "return"
  let value ← r |>.read .expression
  return .returning value

def bodyEnds (r : Reader) : Walk Bool :=
  return !(← check r.tokens .keyword "return")

/-- The `return` statements after those given, which stand last first. -/
def returns (r : Reader) (done : List Statement) : Walk (List Statement) := do
  let first ← here
  if ← r |>.bodyEnds then return done
  else
    let s ← r |>.returning
    goOn .returns first
    r |>.returns (s :: done)
partial_fixpoint

def definition (r : Reader) : Walk Statement := do
  expect r.tokens .keyword "def"
  let name ← identifier r.tokens .functionName
  let params ← parenthesised r.tokens (r.parameters [])
  expect r.tokens .punctuation ":"
  let body ← r |>.returns []
  return .definition name params body.reverse

def assignment (r : Reader) : Walk Statement := do
  let target ← identifier r.tokens (.described "assignment target")
  expect r.tokens .operator "="
  let value ← r |>.read .expression
  return .assignment target value

def statement (r : Reader) : Walk Statement := do
  let token ← peek r.tokens
  let next ← lookahead r.tokens 1
  if token.any (·.is .keyword "def") then r |>.definition
  else if token.any (·.kind = .identifier) ∧ next.any (·.is .operator "=") then
    r |>.assignment
  else
    let e ← r |>.read .expression
    return .expression e

/-- The statements after those given, which stand last first. -/
def statements (r : Reader) (done : List Statement) : Walk (List Statement) := do
  let first ← here
  if ← atEnd r.tokens then return done
  else
    let s ← r |>.statement
    goOn .statements first
    r |>.statements (s :: done)
partial_fixpoint

def program (r : Reader) : Walk Program := do
  let reversed ← r |>.statements []
  return ⟨reversed.reverse⟩

end Reader

end ExprFront
