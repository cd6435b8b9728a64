import ExprFront.Proofs.Continuation

/-!
The phrases of the language with a continuation. Each loop is named after its first item, so that
it can be entered anywhere.
-/

namespace ExprFront

namespace Phrase

variable {α γ : Type}

theorem nextItem_advances (item : List α → Phrase α) (done : List α) :
    (after? (fun t => if t.is .punctuation "," then some () else none)
      fun _ => (· :: done) <$> item done).Advances :=
  after?_advances _ _

/-- The items after those given, which stand last first. -/
def itemsFrom (item : List α → Phrase α) (done : List α) : Phrase (List α) :=
  iterate
    (fun done => after? (fun t => if t.is .punctuation "," then some () else none)
      fun _ => (· :: done) <$> item done)
    (nextItem_advances item) done

theorem itemsReversed_eq (item : List α → Phrase α) :
    itemsReversed item = item [] >>= fun a => itemsFrom item [a] := rfl

@[simp] theorem andThen_itemsFrom_nil (item : List α → Phrase α) (done : List α)
    (next : List α → List Token → Except ParseError γ) :
    (itemsFrom item done).andThen next [] = next done [] := by
  rw [itemsFrom, andThen_iterate, andThen_after?_nil]

theorem andThen_itemsFrom_cons (item : List α → Phrase α) (done : List α)
    (next : List α → List Token → Except ParseError γ) (t : Token) (ts : List Token) :
    (itemsFrom item done).andThen next (t :: ts) =
      if t.is .punctuation "," then
        (item done).andThen (fun a => (itemsFrom item (a :: done)).andThen next) ts
      else next done (t :: ts) := by
  rw [itemsFrom, andThen_iterate, andThen_after?_cons]
  cases t.is .punctuation "," with
  | true =>
      simp only [if_true, andThen_map]
      rfl
  | false => rfl

/-- What stands after the opening parenthesis of a list. -/
def listed (item : List α → Phrase α) : Phrase (List α) := do
  let reversed ← if ← nextIs .punctuation ")" then pure [] else itemsReversed item
  expect .punctuation ")"
  return reversed.reverse

theorem parenthesised_eq (item : List α → Phrase α) :
    parenthesised item = expect .punctuation "(" >>= fun _ => listed item := rfl

theorem andThen_listed (item : List α → Phrase α)
    (next : List α → List Token → Except ParseError γ) (ts : List Token) :
    (listed item).andThen next ts =
      if ts.head?.any (·.is .punctuation ")") then next [] ts.tail
      else
        (itemsReversed item).andThen
          (fun done => (expect .punctuation ")").andThen fun _ => next done.reverse) ts := by
  cases ts with
  | nil => simp [listed]
  | cons t ts =>
      cases h : t.is .punctuation ")" with
      | true => simp [listed, h]
      | false => simp [listed, h]

end Phrase

open Phrase

namespace Expr

variable {γ : Type} {next : Expr → List Token → Except ParseError γ}

theorem nextOperation_advances (ops : List BinaryOp) (operand : Phrase Expr) (left : Expr) :
    (Phrase.after? (operation? ops) fun op => binary op left <$> operand).Advances :=
  Phrase.after?_advances _ _

/-- The operations after an operand that is already read. -/
def joinFrom (ops : List BinaryOp) (operand : Phrase Expr) (left : Expr) : Phrase Expr :=
  Phrase.iterate
    (fun left => Phrase.after? (operation? ops) fun op => binary op left <$> operand)
    (nextOperation_advances ops operand) left

theorem chain_eq (ops : List BinaryOp) (operand : Phrase Expr) :
    chain ops operand = operand >>= joinFrom ops operand := rfl

@[simp] theorem andThen_joinFrom_nil (ops : List BinaryOp) (operand : Phrase Expr) (left : Expr) :
    (joinFrom ops operand left).andThen next [] = next left [] := by
  rw [joinFrom, andThen_iterate, andThen_after?_nil]

theorem andThen_joinFrom_cons (ops : List BinaryOp) (operand : Phrase Expr) (left : Expr)
    (t : Token) (ts : List Token) :
    (joinFrom ops operand left).andThen next (t :: ts) =
      match operation? ops t with
      | none => next left (t :: ts)
      | some op =>
          operand.andThen
            (fun right => (joinFrom ops operand (binary op left right)).andThen next) ts := by
  rw [joinFrom, andThen_iterate, andThen_after?_cons]
  cases operation? ops t with
  | none => rfl
  | some op =>
      simp only [andThen_map]
      rfl

@[simp] theorem andThen_factorWith_nil (inner : Option (Phrase Expr)) :
    (factorWith inner).andThen next [] = .error ⟨none, .expression⟩ := by
  simp [factorWith]

theorem andThen_factorWith_cons (inner : Option (Phrase Expr)) (t : Token) (ts : List Token) :
    (factorWith inner).andThen next (t :: ts) =
      match t.kind with
      | .integer => next (number t.text false) ts
      | .float => next (number t.text true) ts
      | .identifier =>
          if ts.head?.any (·.is .punctuation "(") then
            (deeper t inner fun factor =>
              call t.text <$> parenthesised fun _ => sum factor).andThen next ts
          else next (var t.text) ts
      | .operator =>
          match UnaryOp.ofSymbol? t.text with
          | none => .error ⟨t, .expression⟩
          | some op => (deeper t inner fun factor => unary op <$> factor).andThen next ts
      | .punctuation =>
          if t.text = "(" then
            (deeper t inner fun factor => do
              let e ← sum factor
              expect .punctuation ")"
              return e).andThen next ts
          else .error ⟨t, .expression⟩
      | _ => .error ⟨t, .expression⟩ := by
  rw [factorWith, andThen_bind, andThen_any_cons]
  cases t.kind with
  | identifier =>
      simp only [andThen_bind, andThen_nextIs]
      cases ts.head?.any (·.is .punctuation "(") with
      | true => rfl
      | false => rfl
  | operator =>
      cases UnaryOp.ofSymbol? t.text with
      | none => rfl
      | some op => rfl
  | punctuation =>
      by_cases h : t.text = "("
      · simp only [h, if_true]
      · simp only [h, if_false, andThen_failAt]
  | keyword => rfl
  | integer => rfl
  | float => rfl
  | string => rfl

end Expr

namespace Statement

variable {γ : Type}

theorem nextReturn_advances (levels : Nat) (done : List Statement) :
    (Phrase.another (not <$> Phrase.nextIs .keyword "return")
      ((· :: done) <$> returnPhrase levels)).Advances :=
  Phrase.another_advances _ ((returnPhrase_consumes levels).map _)

/-- The `return` statements after those given, which stand last first. -/
def returnsFrom (levels : Nat) (done : List Statement) : Phrase (List Statement) :=
  Phrase.iterate
    (fun done => Phrase.another (not <$> Phrase.nextIs .keyword "return")
      ((· :: done) <$> returnPhrase levels))
    (nextReturn_advances levels) done

theorem body_eq (levels : Nat) : body levels = List.reverse <$> returnsFrom levels [] := rfl

@[simp] theorem andThen_returnsFrom_nil (levels : Nat) (done : List Statement)
    (next : List Statement → List Token → Except ParseError γ) :
    (returnsFrom levels done).andThen next [] = next done [] := by
  rw [returnsFrom, andThen_iterate, andThen_another]
  simp

theorem andThen_returnsFrom_cons (levels : Nat) (done : List Statement)
    (next : List Statement → List Token → Except ParseError γ) (t : Token) (ts : List Token) :
    (returnsFrom levels done).andThen next (t :: ts) =
      if t.is .keyword "return" then
        (Expr.phrase levels).andThen
          (fun value => (returnsFrom levels (returning value :: done)).andThen next) ts
      else next done (t :: ts) := by
  rw [returnsFrom, andThen_iterate, andThen_another]
  cases h : t.is .keyword "return" with
  | true =>
      simp only [returnPhrase, andThen_map, andThen_nextIs, List.head?_cons, Option.any_some, h,
        andThen_bind, andThen_expect_cons, if_true]
      rfl
  | false => simp [h]

end Statement

namespace Program

variable {γ : Type}

theorem nextStatement_advances (levels : Nat) (done : List Statement) :
    (Phrase.another Phrase.atEnd ((· :: done) <$> Statement.phrase levels)).Advances :=
  Phrase.another_advances _ ((Statement.phrase_consumes levels).map _)

/-- The statements after those given, which stand last first. -/
def statementsFrom (levels : Nat) (done : List Statement) : Phrase (List Statement) :=
  Phrase.iterate
    (fun done => Phrase.another Phrase.atEnd ((· :: done) <$> Statement.phrase levels))
    (nextStatement_advances levels) done

theorem phrase_eq (levels : Nat) :
    phrase levels = statementsFrom levels [] >>= fun done => pure ⟨done.reverse⟩ := rfl

@[simp] theorem andThen_statementsFrom_nil (levels : Nat) (done : List Statement)
    (next : List Statement → List Token → Except ParseError γ) :
    (statementsFrom levels done).andThen next [] = next done [] := by
  rw [statementsFrom, andThen_iterate, andThen_another]
  rfl

theorem andThen_statementsFrom_cons (levels : Nat) (done : List Statement)
    (next : List Statement → List Token → Except ParseError γ) (t : Token) (ts : List Token) :
    (statementsFrom levels done).andThen next (t :: ts) =
      (Statement.phrase levels).andThen
        (fun s => (statementsFrom levels (s :: done)).andThen next) (t :: ts) := by
  rw [statementsFrom, andThen_iterate, andThen_another, andThen_atEnd]
  simp only [List.isEmpty_cons, andThen_map]
  rfl

theorem ofTokensWithin_eq (levels : Nat) (ts : List Token) :
    ofTokensWithin levels ts =
      (statementsFrom levels []).andThen (fun done _ => .ok ⟨done.reverse⟩) ts := by
  rw [ofTokensWithin, read_eq_andThen, phrase_eq, andThen_bind]
  simp only [andThen_pure]
  rw [andThen, andThen]
  cases (statementsFrom levels []).read ts with
  | error e => rfl
  | ok r => rfl

end Program

end ExprFront
