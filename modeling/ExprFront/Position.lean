/-!
Places in a text, and how reading characters moves them.
-/

namespace ExprFront

/-- A place in a text by line and column, both counted from one. Columns count characters. -/
@[ext] structure Position where
  line : Nat
  column : Nat
  deriving DecidableEq

namespace Position

def start : Position := ⟨1, 1⟩

/-- The place after one character; only a newline begins a new line. -/
def step (p : Position) (c : Char) : Position :=
  if c = '\n' then ⟨p.line + 1, 1⟩ else ⟨p.line, p.column + 1⟩

def advance (p : Position) (text : List Char) : Position :=
  text.foldl step p

@[simp] theorem advance_nil (p : Position) : p.advance [] = p := rfl

@[simp] theorem advance_cons (p : Position) (c : Char) (text : List Char) :
    p.advance (c :: text) = (p.step c).advance text := rfl

theorem advance_append (p : Position) (a b : List Char) :
    p.advance (a ++ b) = (p.advance a).advance b :=
  List.foldl_append

/-- Positions are ordered as a reader meets them: by line, and within a line by column. -/
instance : Ord Position where
  compare a b := (compare a.line b.line).then (compare a.column b.column)

instance : LT Position := ltOfOrd

instance : LE Position := leOfOrd

theorem lt_iff {a b : Position} :
    a < b ↔ a.line < b.line ∨ a.line = b.line ∧ a.column < b.column := by
  change (compare a.line b.line).then (compare a.column b.column) = .lt ↔ _
  simp [Ordering.then_eq_lt, Nat.compare_eq_lt]

def render (p : Position) : String :=
  toString p.line ++ ":" ++ toString p.column

end Position

end ExprFront
