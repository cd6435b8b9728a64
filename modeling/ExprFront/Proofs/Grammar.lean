import ExprFront.Program.Phrase

/-!
The grammar as a relation between tokens and trees, apart from any way to read it. A construct
relates the tokens from which it begins, its value, and the tokens that it leaves; `n` bounds the
levels (parentheses, signs and calls) that are open at once anywhere inside.

The grammar alone is ambiguous: `x (1)` is a call or two statements. Read greedily, a construct
ends only where the next token cannot belong to it.
-/

namespace ExprFront.Grammar

/-- There is a next token, and it passes the test. -/
def Next (test : Token → Prop) (ts : List Token) : Prop :=
  ∃ t ∈ ts.head?, test t

def Sign (op : BinaryOp) (t : Token) : Prop :=
  t.kind = .operator ∧ t.text = op.symbol

def SignOf (ops : List BinaryOp) (t : Token) : Prop :=
  ∃ op ∈ ops, Sign op t

def StartsAssignment (ts : List Token) : Prop :=
  ∃ t u us, ts = t :: u :: us ∧ t.kind = .identifier ∧ u.is .operator "="

/-- Operands joined from the left by the operations between them. -/
def joined (first : Expr) (others : List (BinaryOp × Expr)) : Expr :=
  others.foldl (fun left other => .binary other.1 left other.2) first

variable (greedy : Prop)

mutual

inductive Factor : Nat → List Token → Expr → List Token → Prop
  | integer : t.kind = .integer → Factor n (t :: rest) (.number t.text false) rest
  | float : t.kind = .float → Factor n (t :: rest) (.number t.text true) rest
  | var : t.kind = .identifier → (greedy → ¬ Next (·.is .punctuation "(") rest) →
      Factor n (t :: rest) (.var t.text) rest
  | call : t.kind = .identifier → u.is .punctuation "(" → Arguments n us es (v :: rest) →
      v.is .punctuation ")" → Factor (n + 1) (t :: u :: us) (.call t.text es) rest
  | unary : t.kind = .operator → t.text = op.symbol → Factor n us e rest →
      Factor (n + 1) (t :: us) (.unary op e) rest
  | parens : t.is .punctuation "(" → Expression n us e (v :: rest) → v.is .punctuation ")" →
      Factor (n + 1) (t :: us) e rest

inductive Products : Nat → List Token → List (BinaryOp × Expr) → List Token → Prop
  | nil : (greedy → ¬ Next (SignOf BinaryOp.products) rest) → Products n rest [] rest
  | cons : op ∈ BinaryOp.products → Sign op t → Factor n us e mid → Products n mid others rest →
      Products n (t :: us) ((op, e) :: others) rest

inductive Term : Nat → List Token → Expr → List Token → Prop
  | mk : Factor n ts first mid → Products n mid others rest → Term n ts (joined first others) rest

inductive Sums : Nat → List Token → List (BinaryOp × Expr) → List Token → Prop
  | nil : (greedy → ¬ Next (SignOf BinaryOp.sums) rest) → Sums n rest [] rest
  | cons : op ∈ BinaryOp.sums → Sign op t → Term n us e mid → Sums n mid others rest →
      Sums n (t :: us) ((op, e) :: others) rest

inductive Expression : Nat → List Token → Expr → List Token → Prop
  | mk : Term n ts first mid → Sums n mid others rest → Expression n ts (joined first others) rest

inductive Arguments : Nat → List Token → List Expr → List Token → Prop
  | none : Arguments n rest [] rest
  | some : Expression n ts e mid → MoreArguments n mid es rest → Arguments n ts (e :: es) rest

inductive MoreArguments : Nat → List Token → List Expr → List Token → Prop
  | nil : MoreArguments n rest [] rest
  | cons : t.is .punctuation "," → Expression n us e mid → MoreArguments n mid es rest →
      MoreArguments n (t :: us) (e :: es) rest

end

inductive MoreParameters : List Token → List String → List Token → Prop
  | nil : MoreParameters rest [] rest
  | cons : t.is .punctuation "," → u.kind = .identifier → MoreParameters us names rest →
      MoreParameters (t :: u :: us) (u.text :: names) rest

inductive Parameters : List Token → List String → List Token → Prop
  | none : Parameters rest [] rest
  | some {t us names rest} : t.kind = .identifier → MoreParameters us names rest →
      Parameters (t :: us) (t.text :: names) rest

inductive Returns : Nat → List Token → List Statement → List Token → Prop
  | nil : (greedy → ¬ Next (·.is .keyword "return") rest) → Returns n rest [] rest
  | cons : t.is .keyword "return" → Expression greedy n us e mid → Returns n mid body rest →
      Returns n (t :: us) (.returning e :: body) rest

inductive Stmt : Nat → List Token → Statement → List Token → Prop
  | definition : t.is .keyword "def" → name.kind = .identifier → u.is .punctuation "(" →
      Parameters us params (v :: w :: mid) → params.Nodup → v.is .punctuation ")" →
      w.is .punctuation ":" → Returns greedy n mid body rest →
      Stmt n (t :: name :: u :: us) (.definition name.text params body) rest
  | assignment {n target t us e rest} : target.kind = .identifier → t.is .operator "=" →
      Expression greedy n us e rest → Stmt n (target :: t :: us) (.assignment target.text e) rest
  | expression : (greedy → ¬ StartsAssignment ts) → Expression greedy n ts e rest →
      Stmt n ts (.expression e) rest

/-- The tokens are those of the statements, to the end. -/
inductive Prog : Nat → List Token → List Statement → Prop
  | nil : Prog n [] []
  | cons {n ts s mid ss} : Stmt greedy n ts s mid → Prog n mid ss → Prog n ts (s :: ss)

variable {greedy}

@[simp] theorem joined_nil (first : Expr) : joined first [] = first := rfl

@[simp] theorem joined_cons (first : Expr) (op : BinaryOp) (e : Expr)
    (others : List (BinaryOp × Expr)) :
    joined first ((op, e) :: others) = joined (.binary op first e) others := rfl

@[simp] theorem not_next_nil (test : Token → Prop) : ¬ Next test [] := by
  simp [Next]

@[simp] theorem next_cons (test : Token → Prop) (t : Token) (ts : List Token) :
    Next test (t :: ts) ↔ test t := by
  simp [Next]

theorem next_is_iff (kind : Token.Kind) (text : String) (ts : List Token) :
    Next (·.is kind text) ts ↔ ts.head?.any (·.is kind text) = true := by
  cases ts with
  | nil => simp
  | cons t ts => simp

/-- How a factor, and with it a term or an expression, can begin. -/
def StartsFactor (t : Token) : Prop :=
  t.kind = .integer ∨ t.kind = .float ∨ t.kind = .identifier ∨
    (t.kind = .operator ∧ ∃ op : UnaryOp, t.text = op.symbol) ∨ t.is .punctuation "("

theorem Factor.starts (h : Factor greedy n ts e rest) : Next StartsFactor ts := by
  cases h with
  | integer hkind => exact (next_cons _ _ _).mpr (.inl hkind)
  | float hkind => exact (next_cons _ _ _).mpr (.inr (.inl hkind))
  | var hkind _ => exact (next_cons _ _ _).mpr (.inr (.inr (.inl hkind)))
  | call hkind _ _ _ => exact (next_cons _ _ _).mpr (.inr (.inr (.inl hkind)))
  | unary hkind htext _ =>
      exact (next_cons _ _ _).mpr (.inr (.inr (.inr (.inl ⟨hkind, _, htext⟩))))
  | parens ht _ _ => exact (next_cons _ _ _).mpr (.inr (.inr (.inr (.inr ht))))

theorem Term.starts (h : Term greedy n ts e rest) : Next StartsFactor ts := by
  cases h with
  | mk hfirst _ => exact hfirst.starts

theorem Expression.starts (h : Expression greedy n ts e rest) : Next StartsFactor ts := by
  cases h with
  | mk hfirst _ => exact hfirst.starts

theorem StartsFactor.not_close {t : Token} (h : StartsFactor t) : ¬ t.is .punctuation ")" := by
  rw [Token.is_iff]
  intro hclose
  obtain ⟨hkind, htext⟩ := hclose
  rcases h with h | h | h | ⟨h, _⟩ | h
  · simp [hkind] at h
  · simp [hkind] at h
  · simp [hkind] at h
  · simp [hkind] at h
  · simp [Token.is_iff, htext] at h

theorem StartsFactor.not_keyword {t : Token} (h : StartsFactor t) : t.kind ≠ .keyword := by
  intro hkind
  rcases h with h | h | h | ⟨h, _⟩ | h
  · simp [hkind] at h
  · simp [hkind] at h
  · simp [hkind] at h
  · simp [hkind] at h
  · simp [Token.is_iff, hkind] at h

theorem Expression.not_close (h : Expression greedy n ts e rest) :
    ¬ Next (·.is .punctuation ")") ts := by
  obtain ⟨t, ht, hstart⟩ := h.starts
  intro hnext
  obtain ⟨u, hu, hclose⟩ := hnext
  rw [ht] at hu
  cases hu
  exact hstart.not_close hclose

end ExprFront.Grammar
