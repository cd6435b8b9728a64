import ExprFront.Text.Quoted
import ExprFront.Token

/-!
Token listings: a line for each token, with its kind, its quoted text and its place in columns.
-/

namespace ExprFront

/-- A text with blanks after it up to a width. -/
def Text.padRight (width : Nat) (text : String) : String :=
  text ++ String.ofList (List.replicate (width - text.length) ' ')

/-- The line of a token. Quoting leaves no newline in the text, so it is one line. -/
def Token.line (t : Token) : String :=
  Text.padRight 12 t.kind.name ++ " " ++ Text.padRight 16 (Text.quoted t.text) ++ " " ++
    t.position.render ++ "\n"

def Token.listing (ts : List Token) : String :=
  String.join (ts.map Token.line)

end ExprFront
