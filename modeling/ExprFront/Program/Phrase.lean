import ExprFront.Expr.Phrase
import ExprFront.Program
import ExprFront.Scan

/-!
The grammar of programs:

    program    := statement*
    statement  := definition | identifier "=" expression | expression
    definition := "def" identifier "(" [identifier ("," identifier)*] ")" ":" ("return" expression)*

An identifier before an `=` always begins an assignment, and the parameters of a definition differ
from each other.
-/

namespace ExprFront

namespace Statement

/-- A parameter that none of the earlier ones is called by. -/
def parameter (earlier : List String) : Phrase String := do
  let t ← Phrase.take (fun t => if t.kind = .identifier then some t else none) .parameterName
  if t.text ∈ earlier then Phrase.failAt t .freshParameterName else return t.text

def returnPhrase (levels : Nat) : Phrase Statement := do
  Phrase.expect .keyword "return"
  returning <$> Expr.phrase levels

theorem returnPhrase_consumes (levels : Nat) : (returnPhrase levels).Consumes :=
  (Phrase.expect_consumes _ _).bind _

/-- The run of `return` statements after a definition's header. What follows the last of them
belongs to the program. -/
def body (levels : Nat) : Phrase (List Statement) := do
  let reversed ← Phrase.iterate
    (fun done => Phrase.another (not <$> Phrase.nextIs .keyword "return")
      ((· :: done) <$> returnPhrase levels))
    (fun _ => Phrase.another_advances _ (returnPhrase_consumes levels |>.map _)) []
  return reversed.reverse

def definitionPhrase (levels : Nat) : Phrase Statement := do
  Phrase.expect .keyword "def"
  let name ← Phrase.identifier .functionName
  let params ← Phrase.parenthesised parameter
  Phrase.expect .punctuation ":"
  definition name params <$> body levels

/-- The value of an assignment, after its target and the sign. -/
def assignmentPhrase (target : String) (levels : Nat) : Phrase Statement := do
  Phrase.skip 2
  assignment target <$> Expr.phrase levels

/-- The target of the assignment that the tokens ahead begin, if they begin one. -/
def target? : List Token → Option String
  | t :: u :: _ => if t.kind = .identifier ∧ u.is .operator "=" then some t.text else none
  | _ => none

/-- A statement outside of a definition's body. -/
def phrase (levels : Nat) : Phrase Statement :=
  Phrase.ahead fun ts =>
    if ts.head?.any (·.is .keyword "def") then definitionPhrase levels
    else
      match target? ts with
      | some target => assignmentPhrase target levels
      | none => expression <$> Expr.phrase levels

theorem phrase_consumes (levels : Nat) : (phrase levels).Consumes := by
  refine .ahead fun ts => ?_
  split
  · exact .bind (Phrase.expect_consumes _ _) _
  · split
    · exact .bind_right _ fun _ => .map (Expr.phrase_consumes levels) _
    · exact .map (Expr.phrase_consumes levels) _

end Statement

namespace Program

def phrase (levels : Nat) : Phrase Program := do
  let reversed ← Phrase.iterate
    (fun done => Phrase.another Phrase.atEnd ((· :: done) <$> Statement.phrase levels))
    (fun _ => Phrase.another_advances _ (Statement.phrase_consumes levels |>.map _)) []
  return ⟨reversed.reverse⟩

/-- The program of a token list, with at most this many levels open at once. -/
def ofTokensWithin (levels : Nat) (ts : List Token) : Except ParseError Program :=
  (·.1) <$> (phrase levels).read ts

/-- The most levels that a source may have open at once. -/
def maxNesting : Nat := 256

def ofTokens (ts : List Token) : Except ParseError Program :=
  ofTokensWithin maxNesting ts

def ofSource (source : String) : Except Error Program := do
  let ts ← (Token.ofSource source).mapError .lex
  (ofTokens ts).mapError .parse

end Program

end ExprFront
