import ExprFront.Error
import ExprFront.Outline

/-!
The outlines of places, tokens and errors.
-/

namespace ExprFront

open Outline

/-- The fields by which a place is named wherever it is part of a group. -/
def Position.fields (p : Position) : List Outline :=
  [field "line" (leaf (toString p.line)), field "column" (leaf (toString p.column))]

def Position.outline (p : Position) : Outline :=
  group (.record "Position") p.fields

def Token.Kind.outline : Token.Kind → Outline
  | keyword => leaf "Keyword"
  | identifier => leaf "Identifier"
  | integer => leaf "IntegerLiteral"
  | float => leaf "FloatLiteral"
  | string => leaf "StringLiteral"
  | operator => leaf "Operator"
  | punctuation => leaf "Punctuation"

def Token.outline (t : Token) : Outline :=
  group (.record "Token")
    ([field "kind" t.kind.outline, field "text" (leaf (Text.quoted t.text))] ++ t.position.fields)

def LexError.outline (e : LexError) : Outline :=
  group (.record "LexError")
    (e.position.fields ++ [field "character" (leaf (Text.quotedChar e.character))])

def ParseError.outline (e : ParseError) : Outline :=
  let found := e.found.elim (leaf "EndOfInput") fun t => group (.tuple "Token") [t.outline]
  group (.record "ParseError")
    [field "found" found, field "expected" (leaf (Text.quoted e.expected.text))]

def Error.outline : Error → Outline
  | lex e => group (.tuple "Lex") [e.outline]
  | parse e => group (.tuple "Parse") [e.outline]

end ExprFront
