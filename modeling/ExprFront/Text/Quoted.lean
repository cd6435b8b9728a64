import ExprFront.Text.Unprintable

/-!
Quoted text: every character has a written form that cannot be confused with the closing mark or
with the written form of another character.
-/

namespace ExprFront.Text

/-- The written form of one character between two marks. The mark and the backslash take a
backslash before them; an unprintable character without a letter of its own is written by its code
point in hexadecimal. -/
def escape (mark c : Char) : List Char :=
  if c = '\x00' then ['\\', '0']
  else if c = '\t' then ['\\', 't']
  else if c = '\r' then ['\\', 'r']
  else if c = '\n' then ['\\', 'n']
  else if c = '\\' ∨ c = mark then ['\\', c]
  else if isUnprintable c then ['\\', 'u', '\x7b'] ++ Nat.toDigits 16 c.toNat ++ ['\x7d']
  else [c]

def quote (mark : Char) (text : List Char) : List Char :=
  mark :: text.flatMap (escape mark) ++ [mark]

def quoted (text : String) : String :=
  String.ofList (quote '"' text.toList)

def quotedChar (c : Char) : String :=
  String.ofList (quote '\'' [c])

end ExprFront.Text
