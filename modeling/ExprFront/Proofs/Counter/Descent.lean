import ExprFront.Proofs.Counter.Reading

/-!
The descent through an expression, for any way to go about it: the grammar says which phrases are
read and in which order, and what happens where a level is opened, or where the reading of a factor
begins and ends, is left open. The counted reading is one descent. What two descents have to agree
on is shown for the four things they do, and then holds of all that the grammar makes of these.
-/

namespace ExprFront

/-- What is read by a function of its own. A call is read from its parenthesis on. -/
inductive Nonterminal where
  | factor
  | call (function : String)
  | term
  | expression

/-- The phrase of a nonterminal, with at most this many levels open at once. -/
def Nonterminal.phrase (levels : Nat) : Nonterminal → Phrase Expr
  | factor => Expr.factor levels
  | call function => .call function <$> Phrase.parenthesised fun _ => Expr.phrase levels
  | term => Expr.chain BinaryOp.products (Expr.factor levels)
  | expression => Expr.phrase levels

/-- What a descent does in its own way: read a phrase that opens no level, open a level at a token
around what it holds, and call what reads a factor. -/
structure Descent (m : Type → Type) where
  phrase : {α : Type} → Phrase α → m α
  level : Token → m Expr → m Expr
  factor : m Expr → m Expr

namespace Descent

variable {m m' : Type → Type} [Monad m] [Monad m'] {α β : Type}

/-! The grammar. -/

def tokensAhead : Phrase Nat :=
  Phrase.ahead fun ts => pure ts.length

/-- Fails as a factor does where no token is ahead. -/
def endOfInput : Phrase Expr where
  read _ := .error ⟨none, .expression⟩
  suffix h := by cases h

def rounds (round : α → m (Option α)) : Nat → α → m α
  | 0, a => pure a
  | n + 1, a => do
      match ← round a with
      | none => return a
      | some b => rounds round n b

variable (d : Descent m)

def iterate (round : α → m (Option α)) (a : α) : m α := do
  let ahead ← d.phrase tokensAhead
  rounds round (ahead + 1) a

def after? (sign? : Token → Option β) (next : β → m α) : m (Option α) := do
  match ← d.phrase (Phrase.take? sign?) with
  | none => return none
  | some b => return some (← next b)

def itemsReversed (item : m α) : m (List α) := do
  let first ← item
  d.iterate
    (fun done => d.after? (fun t => if t.is .punctuation "," then some () else none)
      fun _ => (· :: done) <$> item) [first]

def parenthesised (item : m α) : m (List α) := do
  d.phrase (Phrase.expect .punctuation "(")
  let reversed ←
    if ← d.phrase (Phrase.nextIs .punctuation ")") then pure [] else d.itemsReversed item
  d.phrase (Phrase.expect .punctuation ")")
  return reversed.reverse

def chain (ops : List BinaryOp) (operand : m Expr) : m Expr := do
  let first ← operand
  d.iterate (fun left => d.after? (Expr.operation? ops) fun op => .binary op left <$> operand) first

/-- A nonterminal, from what reads its factors. -/
def read (factor : m Expr) : Nonterminal → m Expr
  | .factor => factor
  | .call function =>
      .call function <$> d.parenthesised (d.chain BinaryOp.sums (d.chain BinaryOp.products factor))
  | .term => d.chain BinaryOp.products factor
  | .expression => d.chain BinaryOp.sums (d.chain BinaryOp.products factor)

def factorWith (factor : m Expr) : m Expr := do
  let t ← d.phrase (Phrase.any .expression)
  match t.kind with
  | .integer => return .number t.text false
  | .float => return .number t.text true
  | .identifier =>
      if ← d.phrase (Phrase.nextIs .punctuation "(") then
        d.level t (d.read factor (.call t.text))
      else
        return .var t.text
  | .operator =>
      match UnaryOp.ofSymbol? t.text with
      | none => d.phrase (Phrase.failAt t .expression)
      | some op => d.level t (.unary op <$> factor)
  | .punctuation =>
      if t.text = "(" then do
        let e ← d.level t (d.read factor .expression)
        d.phrase (Phrase.expect .punctuation ")")
        return e
      else
        d.phrase (Phrase.failAt t .expression)
  | _ => d.phrase (Phrase.failAt t .expression)

/-- A factor where at most this many tokens are ahead. -/
def nested : Nat → m Expr
  | 0 => d.factor (d.phrase endOfInput)
  | n + 1 => d.factor (d.factorWith (nested n))

def run (part : Nonterminal) : m Expr := do
  d.read (d.nested (← d.phrase tokensAhead)) part

/-! The counted reading. -/

/-- Opens levels with the counter. -/
def counted (limit : Option Nat) : Descent Counted where
  phrase := Counted.ofPhrase
  level := Counted.within limit
  factor := id

theorem rounds_eq_counted (round : α → Counted (Option α)) (n : Nat) (a : α) :
    rounds round n a = Counted.rounds round n a := by
  induction n generalizing a with
  | zero => rfl
  | succ n ih =>
      rw [rounds, Counted.rounds]
      congr 1
      funext b?
      cases b? with
      | none => rfl
      | some b => exact ih b

variable (limit : Option Nat)

theorem counted_iterate (round : α → Counted (Option α)) (a : α) :
    (counted limit).iterate round a = Counted.iterate round a := by
  funext c
  exact congrFun (rounds_eq_counted round (c.ahead.length + 1) a) c

theorem counted_parenthesised (item : Counted α) :
    (counted limit).parenthesised item = Counted.parenthesised item := by
  simp only [parenthesised, itemsReversed, counted_iterate]
  rfl

theorem counted_chain (ops : List BinaryOp) (operand : Counted Expr) :
    (counted limit).chain ops operand = Counted.chain ops operand := by
  simp only [chain, counted_iterate]
  rfl

theorem counted_factorWith (factor : Counted Expr) :
    (counted limit).factorWith factor = Counted.factorWith limit factor := by
  simp only [factorWith, read, counted_parenthesised, counted_chain]
  rfl

theorem counted_nested (n : Nat) : (counted limit).nested n = Counted.factor limit n := by
  induction n with
  | zero => rfl
  | succ n ih =>
      rw [nested, ih, counted_factorWith]
      rfl

theorem counted_expression : (counted limit).run .expression = Counted.expression limit := by
  funext c
  change (counted limit).read ((counted limit).nested c.ahead.length) .expression c = _
  simp only [read, counted_chain, counted_nested]
  rfl

/-- With as many levels left as the limit has over the depth, a nonterminal is read as its phrase
is, and the counter is given back. -/
theorem counted_reads {n left depth : Nat} (h : depth + left = n) (bound : Nat)
    (part : Nonterminal) :
    Counted.Reads depth bound
      ((counted (some n)).read ((counted (some n)).nested bound) part) (part.phrase left) := by
  have hfactor := Counted.Reads.factor h bound
  rw [counted_nested]
  cases part with
  | factor => exact hfactor
  | call function =>
      simp only [read, counted_parenthesised, counted_chain]
      exact hfactor.sum.parenthesised.map _
  | term =>
      simp only [read, counted_chain]
      exact hfactor.chain _
  | expression =>
      simp only [read, counted_chain]
      exact hfactor.sum

/-! Two descents. -/

/-- A relation between what two descents do. It is one relation in a call that reads a factor and
another around it, and a level goes from the first to the second. -/
structure Relates (rel : Bool → {α : Type} → m α → m' α → Prop) (d : Descent m)
    (d' : Descent m') : Prop where
  pure {α : Type} (inFactor : Bool) (a : α) : rel inFactor (Pure.pure a) (Pure.pure a)
  bind {α β : Type} {inFactor : Bool} {q : m α} {q' : m' α} {f : α → m β} {f' : α → m' β} :
    rel inFactor q q' → (∀ a, rel inFactor (f a) (f' a)) → rel inFactor (q >>= f) (q' >>= f')
  map {α β : Type} {inFactor : Bool} {q : m α} {q' : m' α} (f : α → β) :
    rel inFactor q q' → rel inFactor (f <$> q) (f <$> q')
  phrase {α : Type} (inFactor : Bool) (p : Phrase α) : rel inFactor (d.phrase p) (d'.phrase p)
  level {q : m Expr} {q' : m' Expr} (opener : Token) :
    rel false q q' → rel true (d.level opener q) (d'.level opener q')
  factor {q : m Expr} {q' : m' Expr} : rel true q q' → rel false (d.factor q) (d'.factor q')

namespace Relates

variable {rel : Bool → {α : Type} → m α → m' α → Prop} {d : Descent m} {d' : Descent m'}
  {inFactor : Bool} (h : Relates rel d d')

include h

theorem rounds {round : α → m (Option α)} {round' : α → m' (Option α)}
    (hround : ∀ a, rel inFactor (round a) (round' a)) (n : Nat) (a : α) :
    rel inFactor (rounds round n a) (rounds round' n a) := by
  induction n generalizing a with
  | zero => exact h.pure _ a
  | succ n ih =>
      apply h.bind (hround a)
      intro b?
      cases b? with
      | none => exact h.pure _ a
      | some b => exact ih b

theorem iterate {round : α → m (Option α)} {round' : α → m' (Option α)}
    (hround : ∀ a, rel inFactor (round a) (round' a)) (a : α) :
    rel inFactor (d.iterate round a) (d'.iterate round' a) :=
  h.bind (h.phrase _ _) fun ahead => h.rounds hround (ahead + 1) a

theorem after? (sign? : Token → Option β) {next : β → m α} {next' : β → m' α}
    (hnext : ∀ b, rel inFactor (next b) (next' b)) :
    rel inFactor (d.after? sign? next) (d'.after? sign? next') := by
  apply h.bind (h.phrase _ _)
  intro sign
  cases sign with
  | none => exact h.pure _ none
  | some b => exact h.bind (hnext b) fun a => h.pure _ (some a)

theorem itemsReversed {item : m α} {item' : m' α} (hitem : rel inFactor item item') :
    rel inFactor (d.itemsReversed item) (d'.itemsReversed item') := by
  apply h.bind hitem
  intro first
  exact h.iterate (fun done => h.after? _ fun _ => h.map (· :: done) hitem) [first]

theorem parenthesised {item : m α} {item' : m' α} (hitem : rel inFactor item item') :
    rel inFactor (d.parenthesised item) (d'.parenthesised item') := by
  have hclose : ∀ reversed : List α, rel inFactor
      (d.phrase (Phrase.expect .punctuation ")") >>= fun _ => Pure.pure reversed.reverse)
      (d'.phrase (Phrase.expect .punctuation ")") >>= fun _ => Pure.pure reversed.reverse) :=
    fun reversed => h.bind (h.phrase _ _) fun _ => h.pure _ _
  apply h.bind (h.phrase _ _)
  intro _
  apply h.bind (h.phrase _ _)
  intro isEmpty
  cases isEmpty with
  | true => exact h.bind (h.pure _ []) hclose
  | false => exact h.bind (h.itemsReversed hitem) hclose

theorem chain (ops : List BinaryOp) {operand : m Expr} {operand' : m' Expr}
    (hoperand : rel inFactor operand operand') :
    rel inFactor (d.chain ops operand) (d'.chain ops operand') := by
  apply h.bind hoperand
  intro first
  exact h.iterate (fun left => h.after? _ fun op => h.map (.binary op left) hoperand) first

theorem read {factor : m Expr} {factor' : m' Expr} (hfactor : rel inFactor factor factor')
    (part : Nonterminal) : rel inFactor (d.read factor part) (d'.read factor' part) := by
  cases part with
  | factor => exact hfactor
  | call function => exact h.map _ (h.parenthesised (h.chain _ (h.chain _ hfactor)))
  | term => exact h.chain _ hfactor
  | expression => exact h.chain _ (h.chain _ hfactor)

theorem factorWith {factor : m Expr} {factor' : m' Expr} (hfactor : rel false factor factor') :
    rel true (d.factorWith factor) (d'.factorWith factor') := by
  apply h.bind (h.phrase _ _)
  intro t
  cases t.kind with
  | integer => exact h.pure _ _
  | float => exact h.pure _ _
  | identifier =>
      apply h.bind (h.phrase _ _)
      intro isCall
      cases isCall with
      | true => exact h.level t (h.read hfactor (.call t.text))
      | false => exact h.pure _ _
  | operator =>
      cases UnaryOp.ofSymbol? t.text with
      | none => exact h.phrase _ _
      | some op => exact h.level t (h.map _ hfactor)
  | punctuation =>
      by_cases htext : t.text = "("
      · simp only [htext, if_true]
        apply h.bind (h.level t (h.read hfactor .expression))
        intro e
        exact h.bind (h.phrase _ _) fun _ => h.pure _ e
      · simp only [htext, if_false]
        exact h.phrase _ _
  | keyword => exact h.phrase _ _
  | string => exact h.phrase _ _

theorem nested (n : Nat) : rel false (d.nested n) (d'.nested n) := by
  induction n with
  | zero => exact h.factor (h.phrase _ _)
  | succ n ih => exact h.factor (h.factorWith ih)

theorem run (part : Nonterminal) : rel false (d.run part) (d'.run part) :=
  h.bind (h.phrase _ _) fun ahead => h.read (h.nested ahead) part

end Relates

end Descent

end ExprFront
