import ExprFront.Error

/-!
Phrases: ways to read something off the front of a token list. A phrase fails or leaves a suffix of
the list, so that reading never goes back; a loop ends since each of its rounds takes a token.
-/

namespace ExprFront

/-- A way to read a value off the front of a token list. -/
structure Phrase (α : Type) where
  read : List Token → Except ParseError (α × List Token)
  suffix : ∀ {ts : List Token} {a : α} {rest : List Token},
    read ts = .ok (a, rest) → rest <:+ ts

namespace Phrase

variable {α β : Type}

instance : Monad Phrase where
  pure a :=
    { read := fun ts => .ok (a, ts)
      suffix := fun h => by cases h; exact List.suffix_rfl }
  bind p f :=
    { read := fun ts =>
        match p.read ts with
        | .error e => .error e
        | .ok (a, rest) => (f a).read rest
      suffix := fun {ts b rest} h => by
        cases hp : p.read ts with
        | error e => simp [hp] at h
        | ok r =>
            simp only [hp] at h
            exact ((f r.1).suffix h).trans (p.suffix hp) }

@[simp] theorem read_pure (a : α) (ts : List Token) :
    (pure a : Phrase α).read ts = .ok (a, ts) := rfl

theorem read_bind (p : Phrase α) (f : α → Phrase β) (ts : List Token) :
    (p >>= f).read ts =
      match p.read ts with
      | .error e => .error e
      | .ok (a, rest) => (f a).read rest := rfl

theorem read_bind_eq_ok {p : Phrase α} {f : α → Phrase β} {ts rest : List Token} {b : β} :
    (p >>= f).read ts = .ok (b, rest) ↔
      ∃ a mid, p.read ts = .ok (a, mid) ∧ (f a).read mid = .ok (b, rest) := by
  rw [read_bind]
  cases hp : p.read ts with
  | error e => simp
  | ok r =>
      obtain ⟨a, mid⟩ := r
      exact ⟨fun h => ⟨a, mid, rfl, h⟩, fun ⟨_, _, hr, h⟩ => by cases hr; exact h⟩

/-! Reading single tokens. -/

/-- Refuses the token that was found. -/
def failAt (found : Token) (expected : Expected) : Phrase α where
  read _ := .error ⟨found, expected⟩
  suffix h := by cases h

/-- The value of the next token, where it has one. -/
def take (value? : Token → Option α) (expected : Expected) : Phrase α where
  read ts :=
    match ts with
    | [] => .error ⟨none, expected⟩
    | t :: rest =>
        match value? t with
        | none => .error ⟨t, expected⟩
        | some a => .ok (a, rest)
  suffix {ts a rest} h := by
    cases ts with
    | nil => cases h
    | cons t ts =>
        cases hv : value? t with
        | none => simp [hv] at h
        | some b =>
            simp only [hv, Except.ok.injEq, Prod.mk.injEq] at h
            exact h.2 ▸ List.suffix_cons t ts

/-- The value of the next token, or nothing, and then the token stays. -/
def take? (value? : Token → Option α) : Phrase (Option α) where
  read ts :=
    match ts with
    | [] => .ok (none, [])
    | t :: rest =>
        match value? t with
        | none => .ok (none, t :: rest)
        | some a => .ok (some a, rest)
  suffix {ts a rest} h := by
    cases ts with
    | nil => cases h; exact List.suffix_rfl
    | cons t ts =>
        cases hv : value? t with
        | none =>
            simp only [hv, Except.ok.injEq, Prod.mk.injEq] at h
            exact h.2 ▸ List.suffix_rfl
        | some b =>
            simp only [hv, Except.ok.injEq, Prod.mk.injEq] at h
            exact h.2 ▸ List.suffix_cons t ts

/-- Chooses how to go on by the tokens ahead. -/
def ahead (choose : List Token → Phrase α) : Phrase α where
  read ts := (choose ts).read ts
  suffix h := (choose _).suffix h

def skip (n : Nat) : Phrase Unit where
  read ts := .ok ((), ts.drop n)
  suffix h := by cases h; exact List.drop_suffix _ _

def any (expected : Expected) : Phrase Token :=
  take some expected

/-- A token of a kind and text, which the message names by its text. -/
def expect (kind : Token.Kind) (text : String) : Phrase Unit :=
  take (fun t => if t.is kind text then some () else none) (.symbol text)

def identifier (expected : Expected) : Phrase String :=
  take (fun t => if t.kind = .identifier then some t.text else none) expected

def nextIs (kind : Token.Kind) (text : String) : Phrase Bool :=
  ahead fun ts => pure (ts.head?.any (·.is kind text))

def atEnd : Phrase Bool :=
  ahead fun ts => pure ts.isEmpty

/-! Progress. -/

/-- A phrase that takes a token whenever it reads something. -/
def Consumes (p : Phrase α) : Prop :=
  ∀ ts a rest, p.read ts = .ok (a, rest) → rest.length < ts.length

theorem length_le (p : Phrase α) {ts : List Token} {a : α} {rest : List Token}
    (h : p.read ts = .ok (a, rest)) : rest.length ≤ ts.length :=
  (p.suffix h).length_le

theorem Consumes.bind {p : Phrase α} (hp : p.Consumes) (f : α → Phrase β) :
    (p >>= f).Consumes := by
  intro ts b rest h
  obtain ⟨a, mid, ha, hb⟩ := read_bind_eq_ok.mp h
  have := hp _ _ _ ha
  have := (f a).length_le hb
  omega

theorem Consumes.bind_right (p : Phrase α) {f : α → Phrase β} (hf : ∀ a, (f a).Consumes) :
    (p >>= f).Consumes := by
  intro ts b rest h
  obtain ⟨a, mid, ha, hb⟩ := read_bind_eq_ok.mp h
  have := p.length_le ha
  have := hf a _ _ _ hb
  omega

theorem Consumes.map {p : Phrase α} (hp : p.Consumes) (f : α → β) : (f <$> p).Consumes :=
  hp.bind _

theorem Consumes.ahead {choose : List Token → Phrase α} (h : ∀ ts, (choose ts).Consumes) :
    (Phrase.ahead choose).Consumes :=
  fun ts a rest hr => h ts ts a rest hr

theorem take_consumes (value? : Token → Option α) (expected : Expected) :
    (take value? expected).Consumes := by
  intro ts a rest h
  cases ts with
  | nil => cases h
  | cons t ts =>
      cases hv : value? t with
      | none => simp [take, hv] at h
      | some b =>
          simp only [take, hv, Except.ok.injEq, Prod.mk.injEq] at h
          simp [← h.2]

theorem any_consumes (expected : Expected) : (any expected).Consumes :=
  take_consumes _ _

theorem expect_consumes (kind : Token.Kind) (text : String) : (expect kind text).Consumes :=
  take_consumes _ _

theorem identifier_consumes (expected : Expected) : (identifier expected).Consumes :=
  take_consumes _ _

/-! Repetition. -/

/-- A round of a loop: it takes a token whenever it gives a value to go on with. -/
def Advances (p : Phrase (Option α)) : Prop :=
  ∀ ts a rest, p.read ts = .ok (some a, rest) → rest.length < ts.length

theorem take?_advances (value? : Token → Option α) : (take? value?).Advances := by
  intro ts a rest h
  cases ts with
  | nil => cases h
  | cons t ts =>
      cases hv : value? t with
      | none => simp [take?, hv] at h
      | some b =>
          simp only [take?, hv, Except.ok.injEq, Prod.mk.injEq] at h
          simp [← h.2]

/-- Reads rounds from a value for as long as they give another. -/
def readRounds (round : α → Phrase (Option α)) (advances : ∀ a, (round a).Advances) (a : α)
    (ts : List Token) : Except ParseError (α × List Token) :=
  match _h : (round a).read ts with
  | .error e => .error e
  | .ok (none, rest) => .ok (a, rest)
  | .ok (some b, rest) => readRounds round advances b rest
termination_by ts.length
decreasing_by exact advances a _ _ _ _h

theorem readRounds_suffix {round : α → Phrase (Option α)} {advances : ∀ a, (round a).Advances}
    {a b : α} {ts rest : List Token} (h : readRounds round advances a ts = .ok (b, rest)) :
    rest <:+ ts := by
  fun_induction readRounds round advances a ts with
  | case1 => cases h
  | case2 _ _ _ hr =>
      cases h
      exact Phrase.suffix _ hr
  | case3 _ _ _ _ hr ih => exact (ih h).trans (Phrase.suffix _ hr)

/-- Goes from one value to the next for as long as a round gives one. -/
def iterate (round : α → Phrase (Option α)) (advances : ∀ a, (round a).Advances) (a : α) :
    Phrase α where
  read := readRounds round advances a
  suffix := readRounds_suffix

/-- What follows a sign, where a sign is next. -/
def after? (sign? : Token → Option β) (next : β → Phrase α) : Phrase (Option α) := do
  match ← take? sign? with
  | none => return none
  | some b => return some (← next b)

theorem after?_advances (sign? : Token → Option β) (next : β → Phrase α) :
    (after? sign? next).Advances := by
  intro ts a rest h
  obtain ⟨sign, mid, hs, h⟩ := read_bind_eq_ok.mp h
  cases sign with
  | none => simp at h
  | some b =>
      obtain ⟨c, last, hc, h⟩ := read_bind_eq_ok.mp h
      have := take?_advances sign? _ _ _ hs
      have := (next b).length_le hc
      simp only [read_pure, Except.ok.injEq, Prod.mk.injEq] at h
      rw [← h.2]
      omega

/-- One more item, unless the list is finished. -/
def another (finished : Phrase Bool) (item : Phrase α) : Phrase (Option α) := do
  if ← finished then return none else return some (← item)

theorem another_advances (finished : Phrase Bool) {item : Phrase α} (h : item.Consumes) :
    (another finished item).Advances := by
  intro ts a rest hr
  obtain ⟨isFinished, mid, ho, hr⟩ := read_bind_eq_ok.mp hr
  cases isFinished with
  | true => simp at hr
  | false =>
      obtain ⟨c, last, hc, hr⟩ := read_bind_eq_ok.mp hr
      have := finished.length_le ho
      have := h _ _ _ hc
      simp only [read_pure, Except.ok.injEq, Prod.mk.injEq] at hr
      rw [← hr.2]
      omega

/-! Lists. -/

/-- Items with commas between them, given last first. Each may depend on those before it. -/
def itemsReversed (item : List α → Phrase α) : Phrase (List α) := do
  let first ← item []
  iterate
    (fun done => after? (fun t => if t.is .punctuation "," then some () else none)
      fun _ => (· :: done) <$> item done)
    (fun _ => after?_advances _ _) [first]

/-- A list in parentheses, empty or of items with commas between them. -/
def parenthesised (item : List α → Phrase α) : Phrase (List α) := do
  expect .punctuation "("
  let reversed ← if ← nextIs .punctuation ")" then pure [] else itemsReversed item
  expect .punctuation ")"
  return reversed.reverse

end Phrase

end ExprFront
