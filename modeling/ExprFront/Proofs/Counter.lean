import ExprFront.Program.Phrase

/-!
Reading with a counter of the levels that are open. A phrase is told how many levels are left;
here one counter goes through the whole reading, up where a level is opened and down after what
the level holds, whether that was read or not. Each level is noted as it is opened. The limit may
be left out, and then no level is refused.
-/

namespace ExprFront

/-- A level when it is opened: the token that opens it, and how many levels are open with it. -/
structure Opening where
  opener : Token
  level : Nat
  deriving DecidableEq

/-- How far a reading has come: the tokens ahead, the levels open, and all levels opened so far. -/
structure Cursor where
  ahead : List Token
  depth : Nat
  opened : List Opening

/-- One level further in, noted with the token that opens it. -/
def Cursor.enter (c : Cursor) (opener : Token) : Cursor :=
  ⟨c.ahead, c.depth + 1, c.opened ++ [⟨opener, c.depth + 1⟩]⟩

/-- A way to read a value that moves a cursor, also where it fails. -/
def Counted (α : Type) : Type :=
  Cursor → Except ParseError α × Cursor

namespace Counted

variable {α β : Type}

instance : Monad Counted where
  pure a := fun c => (.ok a, c)
  bind q f := fun c =>
    match q c with
    | (.error e, c) => (.error e, c)
    | (.ok a, c) => f a c

/-- A phrase that opens no level. -/
def ofPhrase (p : Phrase α) : Counted α := fun c =>
  match p.read c.ahead with
  | .error e => (.error e, c)
  | .ok (a, rest) => (.ok a, { c with ahead := rest })

def enter (limit : Option Nat) (opener : Token) : Counted Unit := fun c =>
  if limit.any (· ≤ c.depth) then (.error ⟨opener, .shallowerExpression⟩, c)
  else (.ok (), c.enter opener)

/-- What a level holds, and then the level is closed. -/
def closing (body : Counted α) : Counted α := fun c =>
  ((body c).1, { (body c).2 with depth := (body c).2.depth - 1 })

def within (limit : Option Nat) (opener : Token) (body : Counted α) : Counted α := do
  enter limit opener
  closing body

def rounds (round : α → Counted (Option α)) : Nat → α → Counted α
  | 0, a => pure a
  | n + 1, a => do
      match ← round a with
      | none => return a
      | some b => rounds round n b

/-- Goes from one value to the next for as long as a round gives one. A round that does takes a
token, so that there are no more rounds than tokens, and one that ends the loop. -/
def iterate (round : α → Counted (Option α)) (a : α) : Counted α := fun c =>
  rounds round (c.ahead.length + 1) a c

def after? (sign? : Token → Option β) (next : β → Counted α) : Counted (Option α) := do
  match ← ofPhrase (Phrase.take? sign?) with
  | none => return none
  | some b => return some (← next b)

def another (finished : Phrase Bool) (item : Counted α) : Counted (Option α) := do
  if ← ofPhrase finished then return none else return some (← item)

/-- Items with commas between them, given last first. -/
def itemsReversed (item : Counted α) : Counted (List α) := do
  let first ← item
  iterate
    (fun done => after? (fun t => if t.is .punctuation "," then some () else none)
      fun _ => (· :: done) <$> item) [first]

def parenthesised (item : Counted α) : Counted (List α) := do
  ofPhrase (Phrase.expect .punctuation "(")
  let reversed ←
    if ← ofPhrase (Phrase.nextIs .punctuation ")") then pure [] else itemsReversed item
  ofPhrase (Phrase.expect .punctuation ")")
  return reversed.reverse

def chain (ops : List BinaryOp) (operand : Counted Expr) : Counted Expr := do
  let first ← operand
  iterate (fun left => after? (Expr.operation? ops) fun op => .binary op left <$> operand) first

def sum (factor : Counted Expr) : Counted Expr :=
  chain BinaryOp.sums (chain BinaryOp.products factor)

def factorWith (limit : Option Nat) (factor : Counted Expr) : Counted Expr := do
  let t ← ofPhrase (Phrase.any .expression)
  match t.kind with
  | .integer => return .number t.text false
  | .float => return .number t.text true
  | .identifier =>
      if ← ofPhrase (Phrase.nextIs .punctuation "(") then
        within limit t (.call t.text <$> parenthesised (sum factor))
      else
        return .var t.text
  | .operator =>
      match UnaryOp.ofSymbol? t.text with
      | none => ofPhrase (Phrase.failAt t .expression)
      | some op => within limit t (.unary op <$> factor)
  | .punctuation =>
      if t.text = "(" then do
        let e ← within limit t (sum factor)
        ofPhrase (Phrase.expect .punctuation ")")
        return e
      else
        ofPhrase (Phrase.failAt t .expression)
  | _ => ofPhrase (Phrase.failAt t .expression)

/-- A factor where at most this many tokens are ahead. -/
def factor (limit : Option Nat) : Nat → Counted Expr
  | 0 => fun c => (.error ⟨none, .expression⟩, c)
  | n + 1 => factorWith limit (factor limit n)

def expression (limit : Option Nat) : Counted Expr := fun c =>
  sum (factor limit c.ahead.length) c

def returning (limit : Option Nat) : Counted Statement := do
  ofPhrase (Phrase.expect .keyword "return")
  .returning <$> expression limit

def body (limit : Option Nat) : Counted (List Statement) := do
  let reversed ← iterate
    (fun done => another (not <$> Phrase.nextIs .keyword "return")
      ((· :: done) <$> returning limit)) []
  return reversed.reverse

def definition (limit : Option Nat) : Counted Statement := do
  ofPhrase (Phrase.expect .keyword "def")
  let name ← ofPhrase (Phrase.identifier .functionName)
  let params ← ofPhrase (Phrase.parenthesised Statement.parameter)
  ofPhrase (Phrase.expect .punctuation ":")
  .definition name params <$> body limit

def assignment (target : String) (limit : Option Nat) : Counted Statement := do
  ofPhrase (Phrase.skip 2)
  .assignment target <$> expression limit

def statement (limit : Option Nat) : Counted Statement := fun c =>
  if c.ahead.head?.any (·.is .keyword "def") then definition limit c
  else
    match Statement.target? c.ahead with
    | some target => assignment target limit c
    | none => (Statement.expression <$> expression limit : Counted Statement) c

def program (limit : Option Nat) : Counted Program := do
  let reversed ← iterate
    (fun done => another Phrase.atEnd ((· :: done) <$> statement limit)) []
  return ⟨reversed.reverse⟩

def ofTokens (limit : Option Nat) (ts : List Token) : Except ParseError Program × Cursor :=
  program limit ⟨ts, 0, []⟩

end Counted

end ExprFront
