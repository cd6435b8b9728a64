import ExprFront.Error
import ExprFront.Rule

/-!
Scanning: a text is cut into lexemes from the front, each by the first rule that takes anything.
A scan goes on to the end of the text or to the first character that no rule takes.
-/

namespace ExprFront

/-- A piece of a text: the rule that took it, its characters, and the place of the first. -/
structure Lexeme where
  rule : Rule
  text : List Char
  start : Position
  deriving DecidableEq

namespace Lexeme

/-- The token that a lexeme stands for; newlines, blanks and comments stand for none. -/
def token? (x : Lexeme) : Option Token :=
  match x.rule with
  | .token kind => some ⟨kind, String.ofList x.text, x.start⟩
  | _ => none

end Lexeme

/-- How far a scan has come: the lexemes so far, the place after them, and what is left. -/
structure Scan where
  lexemes : List Lexeme
  stop : Position
  rest : List Char
  deriving DecidableEq

namespace Scan

/-- Scans on from a place in a text, where the lexemes so far are given last first. -/
def resume (rules : List Rule) (done : List Lexeme) (start : Position) (cs : List Char) : Scan :=
  match _h : Rule.first? rules cs with
  | some rule =>
      let text := rule.munch cs
      resume rules (⟨rule, text, start⟩ :: done) (start.advance text) (cs.drop text.length)
  | none => ⟨done.reverse, start, cs⟩
termination_by cs.length
decreasing_by
  have shorter := (rule.munch_isPrefix cs).length_le
  have nonempty := List.length_pos_iff.mpr (Rule.munch_ne_nil_of_first? _h)
  rw [List.length_drop]
  omega

def ofText (rules : List Rule) (cs : List Char) : Scan :=
  resume rules [] Position.start cs

/-- The tokens of a scan that came to the end; otherwise the place and the character where it
stopped. -/
def tokens (s : Scan) : Except LexError (List Token) :=
  match s.rest with
  | [] => .ok (s.lexemes.filterMap Lexeme.token?)
  | c :: _ => .error ⟨s.stop, c⟩

end Scan

def Token.ofSource (source : String) : Except LexError (List Token) :=
  (Scan.ofText Rule.table source.toList).tokens

end ExprFront
