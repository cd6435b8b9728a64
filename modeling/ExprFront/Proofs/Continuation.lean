import ExprFront.Program.Phrase

/-!
Phrases with a continuation. `andThen` hands what a phrase reads, and the tokens it leaves, to the
rest of the reading; the equations below run a phrase from its front, one token at a time.
-/

namespace ExprFront

instance outcomeDecidableEq {ε α : Type} [DecidableEq ε] [DecidableEq α] :
    DecidableEq (Except ε α)
  | .ok a, .ok b => decidable_of_iff (a = b) (Except.ok.injEq a b).to_iff.symm
  | .error x, .error y => decidable_of_iff (x = y) (Except.error.injEq x y).to_iff.symm
  | .ok _, .error _ => isFalse nofun
  | .error _, .ok _ => isFalse nofun

namespace Phrase

variable {α β γ : Type}

def andThen (p : Phrase α) (next : α → List Token → Except ParseError γ) (ts : List Token) :
    Except ParseError γ :=
  match p.read ts with
  | .error e => .error e
  | .ok (a, rest) => next a rest

theorem andThen_of_ok {p : Phrase α} {ts rest : List Token} {a : α}
    (h : p.read ts = .ok (a, rest)) (next : α → List Token → Except ParseError γ) :
    p.andThen next ts = next a rest := by
  rw [andThen, h]

theorem read_eq_andThen (p : Phrase α) (ts : List Token) :
    p.read ts = p.andThen (fun a rest => .ok (a, rest)) ts := by
  rw [andThen]
  cases h : p.read ts with
  | error e => rfl
  | ok r => rfl

theorem andThen_congr {p : Phrase α} {ts : List Token}
    {next next' : α → List Token → Except ParseError γ}
    (h : ∀ a rest, p.read ts = .ok (a, rest) → next a rest = next' a rest) :
    p.andThen next ts = p.andThen next' ts := by
  rw [andThen, andThen]
  cases hp : p.read ts with
  | error e => rfl
  | ok r => exact h r.1 r.2 hp

@[simp] theorem andThen_pure (a : α) (next : α → List Token → Except ParseError γ) :
    (pure a : Phrase α).andThen next = next a := rfl

@[simp] theorem andThen_bind (p : Phrase α) (f : α → Phrase β)
    (next : β → List Token → Except ParseError γ) :
    (p >>= f).andThen next = p.andThen fun a => (f a).andThen next := by
  funext ts
  simp only [andThen, read_bind]
  cases p.read ts with
  | error e => rfl
  | ok r => rfl

@[simp] theorem andThen_map (p : Phrase α) (f : α → β)
    (next : β → List Token → Except ParseError γ) :
    (f <$> p).andThen next = p.andThen fun a => next (f a) :=
  andThen_bind p (fun a => pure (f a)) next

@[simp] theorem andThen_failAt (found : Token) (expected : Expected)
    (next : α → List Token → Except ParseError γ) (ts : List Token) :
    (failAt found expected).andThen next ts = .error ⟨found, expected⟩ := rfl

@[simp] theorem andThen_ahead (choose : List Token → Phrase α)
    (next : α → List Token → Except ParseError γ) (ts : List Token) :
    (ahead choose).andThen next ts = (choose ts).andThen next ts := rfl

@[simp] theorem andThen_skip (n : Nat) (next : Unit → List Token → Except ParseError γ)
    (ts : List Token) : (skip n).andThen next ts = next () (ts.drop n) := rfl

/-! Single tokens. -/

theorem andThen_take_cons (value? : Token → Option α) (expected : Expected)
    (next : α → List Token → Except ParseError γ) (t : Token) (ts : List Token) :
    (take value? expected).andThen next (t :: ts) =
      match value? t with
      | none => .error ⟨t, expected⟩
      | some a => next a ts := by
  simp only [andThen, take]
  cases value? t with
  | none => rfl
  | some a => rfl

@[simp] theorem andThen_any_nil (expected : Expected)
    (next : Token → List Token → Except ParseError γ) :
    (any expected).andThen next [] = .error ⟨none, expected⟩ := rfl

@[simp] theorem andThen_any_cons (expected : Expected)
    (next : Token → List Token → Except ParseError γ) (t : Token) (ts : List Token) :
    (any expected).andThen next (t :: ts) = next t ts := rfl

@[simp] theorem andThen_expect_nil (kind : Token.Kind) (text : String)
    (next : Unit → List Token → Except ParseError γ) :
    (expect kind text).andThen next [] = .error ⟨none, .symbol text⟩ := rfl

@[simp] theorem andThen_expect_cons (kind : Token.Kind) (text : String)
    (next : Unit → List Token → Except ParseError γ) (t : Token) (ts : List Token) :
    (expect kind text).andThen next (t :: ts) =
      if t.is kind text then next () ts else .error ⟨t, .symbol text⟩ := by
  rw [expect, andThen_take_cons]
  cases t.is kind text with
  | true => rfl
  | false => rfl

@[simp] theorem andThen_identifier_cons (expected : Expected)
    (next : String → List Token → Except ParseError γ) (t : Token) (ts : List Token) :
    (identifier expected).andThen next (t :: ts) =
      if t.kind = .identifier then next t.text ts else .error ⟨t, expected⟩ := by
  rw [identifier, andThen_take_cons]
  by_cases h : t.kind = .identifier
  · simp only [h, if_true]
  · simp only [h, if_false]

@[simp] theorem andThen_nextIs (kind : Token.Kind) (text : String)
    (next : Bool → List Token → Except ParseError γ) (ts : List Token) :
    (nextIs kind text).andThen next ts = next (ts.head?.any (·.is kind text)) ts := rfl

@[simp] theorem andThen_atEnd (next : Bool → List Token → Except ParseError γ)
    (ts : List Token) : atEnd.andThen next ts = next ts.isEmpty ts := rfl

/-! Loops. -/

theorem andThen_iterate (round : α → Phrase (Option α)) (advances : ∀ a, (round a).Advances)
    (a : α) (next : α → List Token → Except ParseError γ) (ts : List Token) :
    (iterate round advances a).andThen next ts =
      (round a).andThen
        (fun b? rest =>
          match b? with
          | none => next a rest
          | some b => (iterate round advances b).andThen next rest) ts := by
  simp only [andThen, iterate]
  rw [readRounds]
  cases (round a).read ts with
  | error e => rfl
  | ok r =>
      obtain ⟨b?, rest⟩ := r
      cases b? with
      | none => rfl
      | some b => rfl

@[simp] theorem andThen_after?_nil (sign? : Token → Option β) (follow : β → Phrase α)
    (next : Option α → List Token → Except ParseError γ) :
    (after? sign? follow).andThen next [] = next none [] := rfl

theorem andThen_after?_cons (sign? : Token → Option β) (follow : β → Phrase α)
    (next : Option α → List Token → Except ParseError γ) (t : Token) (ts : List Token) :
    (after? sign? follow).andThen next (t :: ts) =
      match sign? t with
      | none => next none (t :: ts)
      | some b => (follow b).andThen (fun a => next (some a)) ts := by
  rw [after?, andThen_bind]
  cases h : sign? t with
  | none =>
      have hread : (take? sign?).read (t :: ts) = .ok (none, t :: ts) := by
        simp only [take?, h]
      rw [andThen_of_ok hread, andThen_pure]
  | some b =>
      have hread : (take? sign?).read (t :: ts) = .ok (some b, ts) := by
        simp only [take?, h]
      rw [andThen_of_ok hread]
      simp only [andThen_bind, andThen_pure]

theorem andThen_another (finished : Phrase Bool) (item : Phrase α)
    (next : Option α → List Token → Except ParseError γ) (ts : List Token) :
    (another finished item).andThen next ts =
      finished.andThen
        (fun isFinished rest =>
          if isFinished then next none rest
          else item.andThen (fun a => next (some a)) rest) ts := by
  rw [another, andThen_bind]
  apply andThen_congr
  intro isFinished rest _
  cases isFinished with
  | true => rfl
  | false => simp

end Phrase

end ExprFront
