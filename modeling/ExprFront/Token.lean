import ExprFront.Position

/-!
Tokens: the words, literals and signs of the language, each with the place it was read at.
-/

namespace ExprFront

namespace Token

inductive Kind where
  | keyword
  | identifier
  | integer
  | float
  | string
  | operator
  | punctuation
  deriving DecidableEq

/-- The word for a kind in messages and listings. -/
def Kind.name : Kind → String
  | keyword => "keyword"
  | identifier => "identifier"
  | integer => "integer"
  | float => "float"
  | string => "string"
  | operator => "operator"
  | punctuation => "punctuation"

def keywords : List String :=
  ["and", "as", "assert", "async", "await", "break", "class", "continue", "def", "del", "elif",
    "else", "except", "False", "finally", "for", "from", "global", "if", "import", "in", "is",
    "lambda", "None", "nonlocal", "not", "or", "pass", "raise", "return", "True", "try", "while",
    "with", "yield"]

/-- The operators. One that begins another comes after it, so that the first operator found at the
front of a text is the longest. -/
def operators : List String :=
  ["==", "!=", "&&", "||", "+", "-", "*", "/", ">", "<", "="]

def punctuation : List Char :=
  [';', ',', '(', ')', '[', ']', '\x7b', '\x7d', ':']

end Token

/-- A token: its kind, its text exactly as it was written, and the place of its first character.
A string token's text includes the quotes. -/
structure Token where
  kind : Token.Kind
  text : String
  position : Position
  deriving DecidableEq

namespace Token

/-- Whether a token is of a kind and has a text, wherever it stands. -/
def is (t : Token) (kind : Kind) (text : String) : Bool :=
  t.kind = kind && t.text = text

theorem is_iff {t : Token} {kind : Kind} {text : String} :
    t.is kind text = true ↔ t.kind = kind ∧ t.text = text := by
  simp [is]

end Token

end ExprFront
