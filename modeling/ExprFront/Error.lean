import ExprFront.Text.Quoted
import ExprFront.Token

/-!
What can go wrong between a source and a program, and how it is said.
-/

namespace ExprFront

/-- No lexical rule takes the character at a place. -/
structure LexError where
  position : Position
  character : Char
  deriving DecidableEq

/-- What the grammar asks for at a place. -/
inductive Expected where
  | expression
  | functionName
  | parameterName
  | freshParameterName
  | shallowerExpression
  /-- A keyword, sign or bracket of its own text. -/
  | symbol (text : String)
  /-- A construct in a description of the caller's. -/
  | described (text : String)
  deriving DecidableEq

/-- A token was found, or the end of the input where there is none, and the grammar asks for
something else. -/
structure ParseError where
  found : Option Token
  expected : Expected
  deriving DecidableEq

inductive Error where
  | lex (error : LexError)
  | parse (error : ParseError)
  deriving DecidableEq

def LexError.message (e : LexError) : String :=
  "Illegal character " ++ Text.quotedChar e.character ++ " at line " ++ toString e.position.line ++
    ", column " ++ toString e.position.column

def Expected.text : Expected → String
  | expression => "expression"
  | functionName => "function name"
  | parameterName => "parameter name"
  | freshParameterName => "a unique parameter name"
  | shallowerExpression => "a less deeply nested expression"
  | symbol text => "`" ++ text ++ "`"
  | described text => text

/-- A token as messages name it: its kind, its text and its place. -/
def Token.mention (t : Token) : String :=
  t.kind.name ++ " `" ++ t.text ++ "` at line " ++ toString t.position.line ++ ", column " ++
    toString t.position.column

/-- What was found, as messages name it. -/
def ParseError.foundText (e : ParseError) : String :=
  e.found.elim "end of input" Token.mention

def ParseError.message (e : ParseError) : String :=
  "Syntax error: expected " ++ e.expected.text ++ ", found " ++ e.foundText

def Error.message : Error → String
  | lex e => e.message
  | parse e => e.message

end ExprFront
