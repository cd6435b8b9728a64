import ExprFront.Text.Separated

/-!
Outlines: trees of named parts, written on one line or with a line for each part.
-/

namespace ExprFront

/-- What stands around the members of a group, and the blank inside it where the members share
its line. -/
structure Bracket where
  opening : String
  closing : String
  gap : String
  deriving DecidableEq

namespace Bracket

def record (name : String) : Bracket := ⟨name ++ " \x7b", "\x7d", " "⟩

def tuple (name : String) : Bracket := ⟨name ++ "(", ")", ""⟩

def list : Bracket := ⟨"[", "]", ""⟩

end Bracket

inductive Outline where
  | leaf (text : String)
  | field (name : String) (value : Outline)
  | group (bracket : Bracket) (members : List Outline)

namespace Outline

mutual

def compact : Outline → String
  | leaf text => text
  | field name value => name ++ ": " ++ value.compact
  | group b members =>
      b.opening ++ b.gap ++ Text.commaSeparated (compactList members) ++ b.gap ++ b.closing

def compactList : List Outline → List String
  | [] => []
  | o :: os => o.compact :: compactList os

end

/-- The blanks before a line at a depth, four for each level. -/
def indent (depth : Nat) : String :=
  String.ofList (List.replicate (4 * depth) ' ')

mutual

/-- The outline with a line for each member, which ends in a comma. A group without members stays
on its line. The first line's indentation is not part of the text. -/
def indented (depth : Nat) : Outline → String
  | leaf text => text
  | field name value => name ++ ": " ++ value.indented depth
  | group b [] => b.opening ++ b.closing
  | group b (o :: os) =>
      b.opening ++ "\n" ++ indentedList (depth + 1) (o :: os) ++ indent depth ++ b.closing

def indentedList (depth : Nat) : List Outline → String
  | [] => ""
  | o :: os => indent depth ++ o.indented depth ++ ",\n" ++ indentedList depth os

end

inductive Layout where
  | oneLine
  | indented
  deriving DecidableEq

def render (o : Outline) : Layout → String
  | .oneLine => o.compact
  | .indented => o.indented 0

end Outline

end ExprFront
